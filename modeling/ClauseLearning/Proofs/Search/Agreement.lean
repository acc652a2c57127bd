import Mathlib
import ClauseLearning.Proofs.Propagation.AnyOrder
import ClauseLearning.Proofs.Search.Reachable

/-!
# Watched propagation and propagation in any order

Propagation looks only at the clauses that watch a literal just made false. It ends all the same
where unit propagation in any order ends: at the same literals, or at a clause that is falsified.
-/

namespace ClauseLearning

open UnitPropagation

variable {db : Database} {t t' : Trail} {n k j : Nat} {c : List Literal} {l : Literal}

/-- The stored clauses. -/
def Database.clauseSet (db : Database) : Set (List Literal) := {c | ∃ k, db.literals? k = some c}

/-- The true literals. -/
def Trail.literalSet (t : Trail) : Set Literal := {l | l ∈ t.literals}

/-- The literals of the trail before a position. -/
def Trail.literalsBefore (t : Trail) (j : Nat) : Set Literal := {l | l ∈ t.literals.toList.take j}

/-! ## The growth of the trail as steps -/

theorem Trail.literalsBefore_size (t : Trail) : t.literalsBefore t.literals.size = t.literalSet := by
  ext l
  simp [literalsBefore, literalSet, ← Array.length_toList]

theorem Trail.literalsBefore_succ (hl : t.literals[j]? = some l) :
    t.literalsBefore (j + 1) = insert l (t.literalsBefore j) := by
  ext m
  simp [literalsBefore, List.take_add_one, hl, or_comm]

theorem Trail.Grows.literalsBefore (h : t.Grows t') :
    t'.literalsBefore t.literals.size = t.literalSet := by
  obtain ⟨added, hadded⟩ := h.literals
  rw [← t.literalsBefore_size, Trail.literalsBefore, ← hadded, List.take_append_of_le_length (by simp)]
  rfl

theorem Trail.Grows.level_eq (h : t.Grows t') : t'.level = t.level :=
  congrArg Array.size h.starts

theorem Trail.Grows.lengthAt_eq {b : Nat} (h : t.Grows t') (hb : b < t.level) :
    t'.lengthAt b = t.lengthAt b := by
  obtain ⟨start, hstart⟩ : ∃ start, t.starts[b]? = some start :=
    ⟨_, Array.getElem?_eq_getElem hb⟩
  simp [lengthAt, h.starts, hstart]

theorem Trail.Coherent.not_mem_literalsBefore (h : t.Coherent n) (hl : t.literals[j]? = some l) :
    l ∉ t.literalsBefore j := by
  intro hmem
  obtain ⟨i, hi, hil⟩ := List.mem_take_iff_getElem.1 hmem
  obtain ⟨hij, hlt⟩ := Nat.lt_min.1 hi
  have hnodup : t.literals.toList.Nodup := h.distinct.of_map _
  have hget : t.literals.toList[i]? = t.literals.toList[j]? := by
    rw [List.getElem?_eq_getElem hlt, hil, Array.getElem?_toList, hl]
  exact Nat.ne_of_lt hij ((List.getElem?_inj hlt hnodup).1 hget)

/-- A forced literal is the last one of its clause that is not false before it. -/
theorem Trail.Forced.lastOpen (hf : t.Forced c j l) (ht : t.Coherent n)
    (hl : t.literals[j]? = some l) : LastOpen (t.literalsBefore j) c l where
  mem := hf.mem
  others := hf.earlier
  notFalse hmem := by
    have hfalse := ht.isFalse_iff.2 (Trail.mem_of_mem_take hmem)
    exact (ht.isTrue_of_mem l (Array.mem_of_getElem? hl)).not_isFalse hfalse

theorem Trail.Justified.step_literalsBefore (h : t.Justified db.literals?) (ht : t.Coherent n)
    (hl : t.literals[j]? = some l) (hj : ∀ b < t.level, j ≠ t.lengthAt b) :
    Step db.clauseSet (t.literalsBefore j) (t.literalsBefore (j + 1)) := by
  obtain ⟨k, c, -, hc, hf⟩ := h.forced j l hl hj
  rw [Trail.literalsBefore_succ hl]
  exact .force ⟨k, hc⟩ (hf.lastOpen ht hl) (ht.not_mem_literalsBefore hl)

/-- A trail that grew at its current level grew by steps of unit propagation. -/
theorem Trail.Grows.steps (h : t.Grows t') (hj : t.Justified db.literals?)
    (hj' : t'.Justified db.literals?) (ht' : t'.Coherent n) :
    Steps db.clauseSet t.literalSet t'.literalSet := by
  suffices hbefore : ∀ j, t.literals.size ≤ j → j ≤ t'.literals.size →
      Steps db.clauseSet t.literalSet (t'.literalsBefore j) by
    rw [← t'.literalsBefore_size]
    exact hbefore _ h.size_le (Nat.le_refl _)
  intro j hle
  induction j, hle using Nat.le_induction with
  | base =>
    intro _
    rw [h.literalsBefore]
  | succ j hle ih =>
    intro hj'size
    refine (ih (by omega)).tail (hj'.step_literalsBefore ht' (Array.getElem?_eq_getElem hj'size) ?_)
    -- The decisions stand where they stood before the trail grew.
    intro b hb
    have hb' : b < t.level := h.level_eq ▸ hb
    have hlt := hj.lengthAt_lt hb'
    rw [h.lengthAt_eq hb']
    omega

/-! ## Fixpoints -/

/-- At a fixpoint a clause has a true literal or two without a value. -/
theorem Ready.isTrue_or_unassigned (h : Ready n db t) (hroot : db.Rooted t)
    (hhead : t.head = t.literals.size) (hk : db.literals? k = some c) :
    (∃ l ∈ c, t.IsTrue l) ∨
      ∃ a ∈ c, ∃ b ∈ c, a ≠ b ∧ t.valueOf a.var = none ∧ t.valueOf b.var = none := by
  obtain ⟨d, hd, rfl⟩ := Database.literals?_eq_some.1 hk
  have hdmem := Array.mem_of_getElem? hd
  by_cases hsize : 2 ≤ d.literals.size
  · have hobeys : ∀ w o, d.WatchPair w o → t.IsFalse w → t.IsTrue o := by
      intro w o hw hfalse
      have htaken : w.negate ∈ t.taken := by
        rw [Trail.taken, hhead, ← Array.length_toList, List.take_length]
        simpa using h.coherent.isFalse_iff.1 hfalse
      exact (h.obeys k d hd hsize w o hw htaken hfalse).1
    rcases t.unassigned_or_isTrue_or_isFalse d.firstWatched with hfirst | htrue | hfalse
    · rcases t.unassigned_or_isTrue_or_isFalse d.secondWatched with hsecond | htrue | hfalse
      · have hne := d.firstWatched_ne_secondWatched (h.sound.nodup d hdmem)
          (h.sound.apart d hdmem hsize)
        exact .inr ⟨_, d.firstWatched_mem, _, d.secondWatched_mem, hne, hfirst, hsecond⟩
      · exact .inl ⟨_, d.secondWatched_mem, htrue⟩
      · exact .inl ⟨_, d.firstWatched_mem, hobeys _ _ (.inr ⟨rfl, rfl⟩) hfalse⟩
    · exact .inl ⟨_, d.firstWatched_mem, htrue⟩
    · exact .inl ⟨_, d.secondWatched_mem, hobeys _ _ (.inl ⟨rfl, rfl⟩) hfalse⟩
  · obtain ⟨l, hl⟩ := d.exists_eq_singleton hsize
    exact .inl ⟨l, by simp [hl], (hroot k l (hl ▸ hk)).1⟩

theorem Ready.not_falsified (h : Ready n db t) (hroot : db.Rooted t)
    (hhead : t.head = t.literals.size) : ∀ c ∈ db.clauseSet, ¬ Falsified t.literalSet c := by
  rintro c ⟨k, hk⟩ hfalse
  have hisFalse : ∀ l ∈ c, t.IsFalse l := fun l hl => h.coherent.isFalse_iff.2 (hfalse l hl)
  rcases h.isTrue_or_unassigned hroot hhead hk with ⟨l, hl, htrue⟩ | ⟨a, ha, -, -, -, hv, -⟩
  · exact htrue.not_isFalse (hisFalse l hl)
  · exact (hisFalse a ha).valueOf_ne_none hv

/-- At a fixpoint of propagation no step is left in any order. -/
theorem Ready.final (h : Ready n db t) (hroot : db.Rooted t) (hhead : t.head = t.literals.size)
    (B : Set Literal) : ¬ Step db.clauseSet t.literalSet B := by
  intro hstep
  cases hstep with
  | @force c l hc hopen hl =>
    obtain ⟨k, hk⟩ := hc
    have hothers : ∀ m ∈ c, m ≠ l → t.IsFalse m := fun m hm hne =>
      h.coherent.isFalse_iff.2 (hopen.others m hm hne)
    have hunassigned : ∀ m ∈ c, t.valueOf m.var = none → m = l := by
      intro m hm hv
      by_contra hne
      exact (hothers m hm hne).valueOf_ne_none hv
    rcases h.isTrue_or_unassigned hroot hhead hk with ⟨m, hm, htrue⟩ | ⟨a, ha, b, hb, hab, hva, hvb⟩
    · by_cases hml : m = l
      · exact hl (hml ▸ h.coherent.isTrue_iff.1 htrue)
      · exact htrue.not_isFalse (hothers m hm hml)
    · exact hab ((hunassigned a ha hva).trans (hunassigned b hb hvb).symm)

/-! ## Agreement -/

theorem Database.wellFounded_step (db : Database) :
    WellFounded fun B A => Step db.clauseSet A B := by
  refine UnitPropagation.wellFounded_step
    (List.finite_toSet (db.clauses.toList.flatMap fun c => c.literals.toList)) ?_
  rintro c ⟨k, hk⟩ l hl
  obtain ⟨d, hd, rfl⟩ := literals?_eq_some.1 hk
  exact List.mem_flatMap.2 ⟨d, by simpa using Array.mem_of_getElem? hd, hl⟩

theorem Database.clauseSet_congr {db' : Database} (h : db'.contents = db.contents) :
    db'.clauseSet = db.clauseSet := by
  rw [clauseSet, literals?_congr h, clauseSet]

namespace Propagated

variable {p : Propagation} (hp : Propagated n db t p)

include hp

theorem exists_isFalse (hk : p.conflict = some k) :
    ∃ c, db.literals? k = some c ∧ ∀ l ∈ c, p.trail.IsFalse l := by
  obtain ⟨c, hc, hfalse, -⟩ := (hp.clash k hk).falsifies
  exact ⟨c, (congrFun (Database.literals?_congr hp.contents) k).symm.trans hc, hfalse⟩

theorem isTrue_or_unassigned (hroot : db.Rooted t) (hnone : p.conflict = none)
    (hc : c ∈ db.clauseSet) : (∃ l ∈ c, p.trail.IsTrue l) ∨
      ∃ a ∈ c, ∃ b ∈ c, a ≠ b ∧ p.trail.valueOf a.var = none ∧ p.trail.valueOf b.var = none := by
  obtain ⟨k, hk⟩ := hc
  obtain ⟨hready, hhead⟩ := hp.fixpoint hnone
  have hk' := (congrFun (Database.literals?_congr hp.contents) k).trans hk
  exact hready.isTrue_or_unassigned (hroot.grows hp.grows hp.contents) hhead hk'

variable (h : Ready n db t)

include h

/-- A conflict is a clause that steps lead to falsify. -/
theorem steps_falsified (hk : p.conflict = some k) :
    Steps db.clauseSet t.literalSet p.trail.literalSet ∧
      ∃ c ∈ db.clauseSet, Falsified p.trail.literalSet c := by
  have hclash := hp.clash k hk
  obtain ⟨c, hc, hfalse⟩ := hp.exists_isFalse hk
  have hjustified := Database.literals?_congr hp.contents ▸ hclash.justified
  refine ⟨hp.grows.steps h.justified hjustified hclash.coherent, c, ⟨k, hc⟩, fun l hl => ?_⟩
  exact hclash.coherent.isFalse_iff.1 (hfalse l hl)

variable (hroot : db.Rooted t)

include hroot

/-- Propagation without a conflict ends where steps in any order end. -/
theorem exhausts (hnone : p.conflict = none) :
    Exhausts db.clauseSet t.literalSet p.trail.literalSet ∧
      ∀ c ∈ db.clauseSet, ¬ Falsified p.trail.literalSet c := by
  obtain ⟨hready, hhead⟩ := hp.fixpoint hnone
  have hroot' := hroot.grows hp.grows hp.contents
  have hset := Database.clauseSet_congr hp.contents
  have hjustified := Database.literals?_congr hp.contents ▸ hready.justified
  refine ⟨⟨hp.grows.steps h.justified hjustified hready.coherent, ?_⟩, ?_⟩
  · exact hset ▸ hready.final hroot' hhead
  · exact hset ▸ hready.not_falsified hroot' hhead

theorem conflict_eq_none_iff : p.conflict = none ↔ ∃ B, Exhausts db.clauseSet t.literalSet B ∧
    ∀ c ∈ db.clauseSet, ¬ Falsified B c := by
  constructor
  · intro hnone
    exact ⟨_, hp.exhausts h hroot hnone⟩
  · rintro ⟨B, hB, hclean⟩
    cases hk : p.conflict with
    | none => rfl
    | some k =>
      obtain ⟨hsteps, c, hc, hfalse⟩ := hp.steps_falsified h hk
      exact absurd hfalse (hB.not_falsified hclean hsteps c hc)

theorem conflict_ne_none_iff : p.conflict ≠ none ↔ ∃ B, Steps db.clauseSet t.literalSet B ∧
    ∃ c ∈ db.clauseSet, Falsified B c := by
  constructor
  · intro hne
    obtain ⟨k, hk⟩ := Option.ne_none_iff_exists'.1 hne
    exact ⟨_, hp.steps_falsified h hk⟩
  · rintro ⟨B, hB, c, hc, hfalse⟩ hnone
    obtain ⟨hends, hclean⟩ := hp.exhausts h hroot hnone
    exact hends.not_falsified hclean hB c hc hfalse

theorem exhausts_iff (hnone : p.conflict = none) {B : Set Literal} :
    Exhausts db.clauseSet t.literalSet B ↔ B = p.trail.literalSet := by
  obtain ⟨hends, hclean⟩ := hp.exhausts h hroot hnone
  constructor
  · exact hends.unique hclean
  · rintro rfl
    exact hends

end Propagated

namespace Search

variable {α : Type} [Score α] {settings : Settings α} {f : Formula} {s : State α}

/-- Propagation ends without a conflict if and only if unit propagation in any order falsifies no
clause, and then at the same true literals, where each clause is true or has two literals without a
value. Else it ends at a clause all of whose literals are false. -/
theorem propagate_agrees (h : Reachable settings f .propagating s) :
    ∃ p, s.database.propagate s.trail = .ok p ∧
      (∃ B, Exhausts s.database.clauseSet s.trail.literalSet B) ∧
      (p.conflict = none ↔ ∃ B, Exhausts s.database.clauseSet s.trail.literalSet B ∧
        ∀ c ∈ s.database.clauseSet, ¬ Falsified B c) ∧
      (p.conflict = none →
        (∀ B, Exhausts s.database.clauseSet s.trail.literalSet B ↔ B = p.trail.literalSet) ∧
        ∀ c ∈ s.database.clauseSet, (∃ l ∈ c, p.trail.IsTrue l) ∨
          ∃ a ∈ c, ∃ b ∈ c, a ≠ b ∧ p.trail.valueOf a.var = none ∧ p.trail.valueOf b.var = none) ∧
      (p.conflict ≠ none ↔ ∃ B, Steps s.database.clauseSet s.trail.literalSet B ∧
        ∃ c ∈ s.database.clauseSet, Falsified B c) ∧
      (p.conflict ≠ none → ∀ B, Exhausts s.database.clauseSet s.trail.literalSet B →
        ∃ c ∈ s.database.clauseSet, Falsified B c) ∧
      ∀ k, p.conflict = some k →
        ∃ c, s.database.literals? k = some c ∧ ∀ l ∈ c, p.trail.IsFalse l := by
  have hinv := h.invariant
  have hready : Ready f.varCount s.database s.trail := hinv.fits
  obtain ⟨p, hp, hprop⟩ := hready.propagate
  refine ⟨p, hp, exists_exhausts s.database.wellFounded_step _,
    hprop.conflict_eq_none_iff hready hinv.rooted, fun hnone => ⟨fun B => ?_, fun c hc => ?_⟩,
    hprop.conflict_ne_none_iff hready hinv.rooted, fun hne B hB => ?_, fun k hk => ?_⟩
  · exact hprop.exhausts_iff hready hinv.rooted hnone
  · exact hprop.isTrue_or_unassigned hinv.rooted hnone hc
  · obtain ⟨C, hC, c, hc, hfalse⟩ := (hprop.conflict_ne_none_iff hready hinv.rooted).1 hne
    exact hB.exists_falsified hC hc hfalse
  · exact hprop.exists_isFalse hk

theorem propagate_agrees_conflict : ∃ (s : State Rat) (p : Propagation),
    Reachable Sample.exact Sample.satisfiable .propagating s ∧
      s.database.propagate s.trail = .ok p ∧ p.conflict ≠ none ∧
      (∃ B, Steps s.database.clauseSet s.trail.literalSet B ∧
        ∃ c ∈ s.database.clauseSet, Falsified B c) ∧
      ∀ B, Exhausts s.database.clauseSet s.trail.literalSet B →
        ∃ c ∈ s.database.clauseSet, Falsified B c := by
  obtain ⟨s, hs, hany⟩ := Sample.exists_reachable Sample.satisfiable 2 .propagating
    (fun s => (s.database.propagate s.trail).toOption.any fun p => p.conflict.isSome)
    (by decide +kernel)
  obtain ⟨p, hp, -, -, -, hfalsified, hevery, -⟩ := propagate_agrees hs
  have hne : p.conflict ≠ none := by
    rw [hp] at hany
    exact Option.isSome_iff_ne_none.1 hany
  exact ⟨s, p, hs, hp, hne, hfalsified.1 hne, hevery hne⟩

end Search

end ClauseLearning
