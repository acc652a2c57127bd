import Mathlib
import ClauseLearning.Proofs.Propagation.Fixpoint
import ClauseLearning.Proofs.Trail.Checkpoint

/-!
# Rows in any order of operations

Clauses may be stored at any time, the trail may be changed at will and propagation may stop at a
conflict: the rows go on mirroring the watches of the clauses.
-/

namespace ClauseLearning

variable {db : Database} {t : Trail} {n : Nat} {f l : Literal} {i : Nat} {row : Array Nat}

/-! ## Propagation at any time -/

/-- A sound database and a trail over the same variables. -/
structure Joint (n : Nat) (db : Database) (t : Trail) : Prop where
  sound : db.Sound n
  coherent : t.Coherent n

theorem Reading.joint (h : Reading n db t f row) : Joint n (db.setRow f row) t :=
  ⟨h.sound, h.coherent⟩

theorem Reading.scan_joint (h : Reading n db t f row) :
    ∃ row' p, db.scan t f row i = .ok (row', p) ∧
      Scanned db t p (fun db t => Joint n (db.setRow f row') t)
        fun db t _ => Joint n (db.setRow f row') t := by
  obtain ⟨row', p, hp, hs⟩ := Reading.scan (I := fun db t row _ => Reading n db t f row)
    (C := fun db t row _ => Reading n db t f row) (fun h => h)
    (fun hi h hc hout => by
      cases hout with
      | satisfied => exact h.store hc
      | forces hnone => exact h.forces hc hnone)
    (fun hi h hc hout => by
      cases hout with
      | moves p hp row' h₁ h₂ _ _ hrow' => exact h.moves hi hc hp h₁ h₂ hrow')
    (fun hi h hc hout => by
      cases hout with
      | conflicts => exact h.store hc)
    h
  exact ⟨row', p, hp, hs.imp (fun _ _ ⟨_, _, h⟩ => h.joint) fun _ _ _ h => h.joint⟩

namespace Joint

/-- To take up the next literal is to read the row of its negation. -/
theorem reading (h : Joint n db t) (hl : t.literals[t.head]? = some l)
    (hrow : db.rows[l.negate.code]? = some row) :
    Reading n db { t with head := t.head + 1 } l.negate row where
  coherent := h.coherent.advance (Array.getElem?_eq_some_iff.1 hl).1
  sound := by rw [Database.setRow_self hrow]; exact h.sound
  isFalse := by
    have hmem : l.negate.negate ∈ t.literals :=
      l.negate_negate.symm ▸ Array.mem_of_getElem? hl
    exact h.coherent.isFalse_iff.2 hmem

theorem takesUp (h : Joint n db t) (hl : t.literals[t.head]? = some l) :
    db.TakesUp t l (Joint n) fun db t _ => Joint n db t := by
  obtain ⟨row, hrow, hok⟩ := h.sound.row_next h.coherent hl
  obtain ⟨row', p, hp, hs⟩ := (h.reading hl hrow).scan_joint
  exact ⟨row, row', p, hok, hp, hs⟩

theorem propagate (h : Joint n db t) : ∃ p, db.propagate t = .ok p ∧ t.Grows p.trail ∧
    p.database.contents = db.contents ∧ Joint n p.database p.trail := by
  obtain ⟨p, hp, hgrows, -, hcontents, hend, hclash⟩ :=
    Database.propagate_ok (fun h hl => h.takesUp hl) h
  refine ⟨p, hp, hgrows, hcontents, ?_⟩
  cases hk : p.conflict with
  | none => exact (hend hk).1
  | some k => exact hclash k hk

end Joint

/-! ## Operations in any order -/

namespace Database

/-- What can be done to a database and a trail. -/
inductive Operation where
  | add (literals : List Literal) (learnt : Bool)
  | onTrail (op : Trail.Operation)
  | propagate

/-- The operation concerns the first `n` variables only; a clause to be stored is not empty and
repeats no literal. -/
def Operation.InScope (n : Nat) : Operation → Prop
  | add lits _ => lits ≠ [] ∧ lits.Nodup ∧ ∀ l ∈ lits, l.var.index < n
  | onTrail op => op.InScope n
  | propagate => True

def perform (s : Database × Trail) : Operation → Except Fault (Database × Trail)
  | .add lits learnt => (s.1.add lits learnt).map fun r => (r.2, s.2)
  | .onTrail op => (s.2.perform op).map fun t => (s.1, t)
  | .propagate => (s.1.propagate s.2).map fun p => (p.database, p.trail)

/-- Clauses of two or more literals watch two distinct ones, and each row lists once the clauses that
watch its literal, and no others. -/
structure Mirrored (db : Database) (n : Nat) : Prop where
  apart : ∀ c ∈ db.clauses, 2 ≤ c.literals.size →
    c.first ≠ c.second ∧ c.firstWatched ≠ c.secondWatched
  count : ∀ l, l.var.index < n → ∃ row, db.row l = .ok row ∧ (∀ k ∈ row, k < db.clauses.size) ∧
    ∀ k c, db.clauses[k]? = some c →
      row.count k = if 2 ≤ c.literals.size ∧ (c.firstWatched = l ∨ c.secondWatched = l) then 1 else 0
  size_rows : db.rows.size = 2 * n

theorem Sound.mirrored (h : db.Sound n) : db.Mirrored n where
  apart c hc hsize :=
    ⟨h.apart c hc hsize, StoredClause.firstWatched_ne_secondWatched (h.nodup c hc) (h.apart c hc hsize)⟩
  count l hl := by
    obtain ⟨row, hrow⟩ := h.exists_row hl
    obtain ⟨hnodup, hlisted⟩ := h.listed l row hrow
    refine ⟨row, row_of_getElem? hrow, fun k hk => ((hlisted k).1 hk).lt, fun k c hc => ?_⟩
    have hmem : k ∈ row.toList ↔ c.Watches l := by
      rw [Array.mem_toList_iff, hlisted, Watches, hc]
      simp
    rw [← Array.count_toList, hnodup.count]
    exact if_congr hmem rfl rfl
  size_rows := h.size_rows

end Database

theorem Joint.perform_ok (h : Joint n db t) {op : Database.Operation} (hop : op.InScope n) :
    ∃ s, Database.perform (db, t) op = .ok s ∧ Joint n s.1 s.2 := by
  cases op with
  | add lits learnt =>
      obtain ⟨hne, hnodup, hscope⟩ := hop
      obtain ⟨c, db', hadd, hsound, -⟩ := h.sound.add hne hscope hnodup learnt
      exact ⟨(db', t), by rw [Database.perform, hadd]; rfl, hsound, h.coherent⟩
  | onTrail op =>
      obtain ⟨t', ht, hp⟩ := h.coherent.perform_ok hop
      exact ⟨(db, t'), by rw [Database.perform, ht]; rfl, h.sound, hp.coherent h.coherent⟩
  | propagate =>
      obtain ⟨p, hp, -, -, hjoint⟩ := h.propagate
      exact ⟨(p.database, p.trail), by rw [Database.perform, hp]; rfl, hjoint⟩

namespace Database

theorem performAll (ops : List Operation) (hops : ∀ op ∈ ops, op.InScope n) :
    ∃ s, ops.foldlM perform (empty n, Trail.start n) = .ok s ∧ Joint n s.1 s.2 :=
  foldlM_keeps perform (fun _ _ hop hs => hs.perform_ok hop) ops hops
    (b := (empty n, Trail.start n)) ⟨.empty n, .start n⟩

/-- Whatever is done to an empty database and an empty trail, the rows mirror the watches of the
clauses. Propagation from there changes no clause apart from its watches, and adds to the trail at
its end and at the level where it is. -/
theorem rows_mirror_watches (n : Nat) (ops : List Operation) (hops : ∀ op ∈ ops, op.InScope n) :
    ∃ db t, ops.foldlM perform (empty n, Trail.start n) = .ok (db, t) ∧ db.Mirrored n ∧
      ∃ p, db.propagate t = .ok p ∧ p.database.Mirrored n ∧ p.database.contents = db.contents ∧
        p.trail.level = t.level ∧ t.Grows p.trail := by
  obtain ⟨⟨db, t⟩, hrun, hjoint⟩ := performAll ops hops
  obtain ⟨p, hp, hgrows, hcontents, hjoint'⟩ := hjoint.propagate
  exact ⟨db, t, hrun, hjoint.sound.mirrored, p, hp, hjoint'.sound.mirrored, hcontents,
    congrArg Array.size hgrows.starts, hgrows⟩

namespace Sample

open ClauseLearning.Sample (literal)

/-- A clause is stored while literals are on the trail; then one clause moves a watch, one forces a
literal and one is in conflict. -/
def mixed : List Operation :=
  [.add [literal 0 true, literal 1 true, literal 2 true] false,
    .add [literal 0 true, literal 1 false] false, .onTrail .openLevel,
    .onTrail (.assign (literal 0 false) none), .add [literal 3 true] true,
    .add [literal 1 true, literal 2 false] true, .propagate]

end Sample

theorem rows_mirror_watches_conflict :
    ∃ db t, Sample.mixed.foldlM perform (empty 4, Trail.start 4) = .ok (db, t) ∧
      db.rows = #[#[], #[1], #[1], #[0, 3], #[3], #[0], #[], #[]] ∧ t.literals.size = 3 ∧
      db.Mirrored 4 := by
  obtain ⟨db, t, hrun, hmirrored, -⟩ := rows_mirror_watches 4 Sample.mixed
    (by simp [Sample.mixed, Operation.InScope, Trail.Operation.InScope, Sample.literal])
  have hend : (Sample.mixed.foldlM perform (empty 4, Trail.start 4)).map
      (fun s => (s.1.rows, s.2.literals.size)) =
        .ok (#[#[], #[1], #[1], #[0, 3], #[3], #[0], #[], #[]], 3) := by
    decide +kernel
  rw [hrun] at hend
  obtain ⟨hrows, hsize⟩ := Prod.ext_iff.1 (Except.ok.inj hend)
  exact ⟨db, t, hrun, hrows, hsize, hmirrored⟩

end Database

end ClauseLearning
