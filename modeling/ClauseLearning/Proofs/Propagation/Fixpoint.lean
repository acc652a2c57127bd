import Mathlib
import ClauseLearning.Proofs.Propagation.Scan

/-!
# Propagation up to a fixpoint

Propagation from a ready database ends: at a fixpoint, where all watches are obeyed and the whole
trail was taken up, or in a clash with a clause that the current level falsified.
-/

namespace ClauseLearning

variable {db : Database} {t t' : Trail} {n : Nat} {f l : Literal} {i : Nat} {row : Array Nat}

/-! ## Propagation -/

/-- Trail and database fit together, and the levels below the current one were taken up. -/
structure Fitting (n : Nat) (db : Database) (t : Trail) : Prop where
  coherent : t.Coherent n
  sound : db.Sound n
  justified : t.Justified db.literals?
  settled : ∀ b < t.level, t.lengthAt b ≤ t.head

/-- All watches are obeyed for the literals that were taken up. -/
structure Ready (n : Nat) (db : Database) (t : Trail) : Prop extends Fitting n db t where
  obeys : db.Obeys t fun w _ => w.negate ∈ t.taken

/-- The current level falsified a clause; the watches are obeyed below it. -/
structure Clash (n : Nat) (db : Database) (t : Trail) (k : Nat) : Prop extends Fitting n db t where
  obeys : db.Obeys t fun w _ => t.levelOf w.var < t.level
  falsifies : ∃ c, db.literals? k = some c ∧ Falsifies t c

theorem Database.setRow_self (h : db.rows[l.code]? = some row) : db.setRow l row = db := by
  obtain ⟨hlt, rfl⟩ := Array.getElem?_eq_some_iff.1 h
  simp [setRow, Array.setIfInBounds, hlt]

theorem Trail.Coherent.level_of_head (h : t.Coherent n) (hs : ∀ b < t.level, t.lengthAt b ≤ t.head)
    (hl : t.literals[t.head]? = some l) : t.levelOf l.var = t.level := by
  obtain ⟨hlt, rfl⟩ := Array.getElem?_eq_some_iff.1 hl
  refine Nat.le_antisymm (h.levelOf_le (Array.getElem_mem hlt)) (Nat.le_of_not_lt fun hb => ?_)
  have := (h.cut _ _ hlt).1 (Nat.le_refl _)
  have := hs _ hb
  omega

theorem Trail.mem_taken_advance {m : Literal} (hl : t.literals[t.head]? = some l) :
    m ∈ Trail.taken { t with head := t.head + 1 } ↔ m ∈ t.taken ∨ m = l := by
  rw [taken, List.take_add_one, List.mem_append, Array.getElem?_toList, hl]
  simp [taken]

theorem Trail.next?_eq_some_iff {t₁ : Trail} :
    t.next? = some (l, t₁) ↔ t.literals[t.head]? = some l ∧ t₁ = { t with head := t.head + 1 } := by
  simp only [next?, Option.map_eq_some_iff, Prod.mk.injEq]
  constructor
  · rintro ⟨m, hm, rfl, rfl⟩
    exact ⟨hm, rfl⟩
  · rintro ⟨hl, rfl⟩
    exact ⟨l, hl, rfl, rfl⟩

/-- To take up the next literal is to scan the row of its negation. -/
theorem Ready.scanning (h : Ready n db t) (hl : t.literals[t.head]? = some l)
    (hrow : db.rows[l.negate.code]? = some row) :
    Scanning n db { t with head := t.head + 1 } l.negate row 0 where
  coherent := h.coherent.advance (Array.getElem?_eq_some_iff.1 hl).1
  sound := by rw [Database.setRow_self hrow]; exact h.sound
  justified := h.justified.advance _
  taken := by
    rw [Literal.negate_negate, Trail.mem_taken_advance hl]
    exact .inr rfl
  level := (h.coherent.level_of_head h.settled hl :)
  settled b hb := Nat.le_succ_of_le (h.settled b hb)
  obeys := by
    intro k c hc hsize w o hw hd hf
    -- A literal just taken up has its clauses in the row, so nothing is due for it yet.
    rcases (Trail.mem_taken_advance hl).1 hd.1 with hw' | hw'
    · exact h.obeys k c hc hsize w o hw hw' hf
    · have hwl : w = l.negate := by rw [← hw', Literal.negate_negate]
      refine absurd ⟨hwl, ?_⟩ hd.2
      have hwatches : db.Watches k l.negate :=
        ⟨c, hc, hsize, hwl ▸ hw.imp And.left And.right⟩
      simpa using ((h.sound.listed _ _ hrow).2 k).2 hwatches

theorem Database.Sound.row_next (h : db.Sound n) (ht : t.Coherent n)
    (hl : t.literals[t.head]? = some l) :
    ∃ row, db.rows[l.negate.code]? = some row ∧ db.row l.negate = .ok row := by
  have hscope := ht.lt_of_mem (Array.mem_of_getElem? hl)
  obtain ⟨row, hrow⟩ := h.exists_row (l := l.negate) hscope
  exact ⟨row, hrow, Database.row_of_getElem? hrow⟩

theorem Scanning.ready (h : Scanning n db t f row row.size) : Ready n (db.setRow f row) t where
  coherent := h.coherent
  sound := h.sound
  justified := h.justified
  settled := h.settled
  obeys := h.obeys.mono fun w k hd _ => ⟨hd, by simp [List.drop_eq_nil_of_le]⟩

theorem Scanning.clash {k : Nat} {c : List Literal} (h : Scanning n db t f row i)
    (hk : db.literals? k = some c) (hc : Falsifies t c) : Clash n (db.setRow f row) t k where
  coherent := h.coherent
  sound := h.sound
  justified := h.justified
  settled := h.settled
  obeys := h.obeys.mono fun w k hd hf => by
    have hmem := h.coherent.isFalse_iff.1 hf
    refine ⟨h.coherent.mem_taken h.settled hmem hd, fun e => ?_⟩
    have := h.level
    simp only [e.1] at hd
    omega
  falsifies := ⟨c, hk, hc⟩

structure Propagated (n : Nat) (db : Database) (t : Trail) (p : Propagation) : Prop where
  grows : t.Grows p.trail
  head : t.head ≤ p.trail.head
  contents : p.database.contents = db.contents
  fixpoint : p.conflict = none →
    Ready n p.database p.trail ∧ p.trail.head = p.trail.literals.size
  clash : ∀ k, p.conflict = some k → Clash n p.database p.trail k

namespace Database

/-- To take up a literal is to scan the row of its negation; then the row is put back. -/
def TakesUp (db : Database) (t : Trail) (l : Literal) (done : Database → Trail → Prop)
    (clash : Database → Trail → Nat → Prop) : Prop :=
  ∃ row row' p, db.row l.negate = .ok row ∧
    db.scan { t with head := t.head + 1 } l.negate row 0 = .ok (row', p) ∧
    Scanned db { t with head := t.head + 1 } p (fun db t => done (db.setRow l.negate row') t)
      fun db t => clash (db.setRow l.negate row') t

/-- What every literal taken up keeps, propagation keeps. -/
theorem propagate_ok {J : Database → Trail → Prop} {K : Database → Trail → Nat → Prop}
    (hnext : ∀ {db t l}, J db t → t.literals[t.head]? = some l → db.TakesUp t l J K) (h : J db t) :
    ∃ p, db.propagate t = .ok p ∧ t.Grows p.trail ∧ t.head ≤ p.trail.head ∧
      p.database.contents = db.contents ∧
      (p.conflict = none → J p.database p.trail ∧ p.trail.next? = none) ∧
      ∀ k, p.conflict = some k → K p.database p.trail k := by
  fun_induction db.propagate t with
  | case1 db t hnone =>
      exact ⟨_, rfl, .refl t, Nat.le_refl _, rfl, fun _ => ⟨h, hnone⟩, by simp⟩
  | case2 db t l t₁ hsome fault hrow =>
      obtain ⟨hl, rfl⟩ := Trail.next?_eq_some_iff.1 hsome
      obtain ⟨row, row', p, hok, -⟩ := hnext h hl
      rw [hrow] at hok
      cases hok
  | case3 db t l t₁ hsome row hrow fault hscan =>
      obtain ⟨hl, rfl⟩ := Trail.next?_eq_some_iff.1 hsome
      obtain ⟨_, row', p, hok, hp, -⟩ := hnext h hl
      rw [hrow] at hok
      cases hok
      rw [hscan] at hp
      cases hp
  | case4 db t l t₁ hsome row hrow row' p hscan db' hconflict =>
      obtain ⟨hl, rfl⟩ := Trail.next?_eq_some_iff.1 hsome
      obtain ⟨_, _, _, hok, hp, hs⟩ := hnext h hl
      rw [hrow] at hok
      cases hok
      rw [hscan] at hp
      cases hp
      refine ⟨_, rfl, (Trail.Grows.advance t (t.head + 1)).trans hs.grows,
        hs.head ▸ Nat.le_succ t.head, hs.contents, fun hnone => ?_, hs.clash⟩
      simp [show p.conflict = none from hnone] at hconflict
  | case5 db t l t₁ hsome row hrow row' p hscan db' hconflict ih =>
      obtain ⟨hl, rfl⟩ := Trail.next?_eq_some_iff.1 hsome
      obtain ⟨_, _, _, hok, hp, hs⟩ := hnext h hl
      rw [hrow] at hok
      cases hok
      rw [hscan] at hp
      cases hp
      obtain ⟨q, hq, hgrows, hhead, hcontents, hend⟩ := ih (hs.done (by simpa using hconflict))
      have hle : t.head ≤ p.trail.head := hs.head ▸ Nat.le_succ t.head
      exact ⟨q, hq, ((Trail.Grows.advance t (t.head + 1)).trans hs.grows).trans hgrows,
        hle.trans hhead, hcontents.trans hs.contents, hend⟩

end Database

theorem Ready.takesUp (h : Ready n db t) (hl : t.literals[t.head]? = some l) :
    db.TakesUp t l (Ready n) (Clash n) := by
  obtain ⟨row, hrow, hok⟩ := h.sound.row_next h.coherent hl
  obtain ⟨row', p, hp, hs⟩ := (h.scanning hl hrow).scan
  refine ⟨row, row', p, hok, hp, hs.imp (fun _ _ h => h.ready) ?_⟩
  rintro db t k ⟨⟨i, hscanning⟩, c, hc, hf⟩
  exact hscanning.clash hc hf

theorem Ready.propagate (h : Ready n db t) :
    ∃ p, db.propagate t = .ok p ∧ Propagated n db t p := by
  obtain ⟨p, hp, hgrows, hhead, hcontents, hfixpoint, hclash⟩ :=
    Database.propagate_ok (fun h hl => h.takesUp hl) h
  refine ⟨p, hp, hgrows, hhead, hcontents, fun hnone => ?_, hclash⟩
  obtain ⟨hready, hend⟩ := hfixpoint hnone
  have hle := hready.coherent.head_le
  simp only [Trail.next?, Option.map_eq_none_iff, Array.getElem?_eq_none_iff] at hend
  exact ⟨hready, Nat.le_antisymm hle hend⟩

end ClauseLearning
