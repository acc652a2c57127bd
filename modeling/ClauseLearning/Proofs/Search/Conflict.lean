import Mathlib
import ClauseLearning.Proofs.Analysis.Learning
import ClauseLearning.Proofs.Propagation.Fixpoint

/-!
# Learning from a clash

A clash of trail and database is a conflict that analysis can learn from. The clause that it learns
follows from the stored ones, and none of them is contained in it.
-/

namespace ClauseLearning

variable {db : Database} {t : Trail} {n k : Nat} {learnt : Learnt}

/-! ## The implication graph of a trail -/

@[simp] theorem ImplicationGraph.level_ofTrail (t : Trail) (db : Database) (v : Variable) :
    (ImplicationGraph.ofTrail t db).level v = t.levelOf v := rfl

theorem ImplicationGraph.reason_ofTrail {v : Variable} {c : List Literal} :
    (ImplicationGraph.ofTrail t db).reason v = some c ↔
      ∃ j, t.reasonOf v = some j ∧ db.literals? j = some c :=
  Option.bind_eq_some_iff

/-- A literal of the current level that is not the first of it begins no level. -/
theorem Fitting.forced_of_earlier (h : Fitting n db t) {i j : Nat} {l m : Literal}
    (hij : i < j) (hl : t.literals[j]? = some l) (hm : t.literals[i]? = some m)
    (hlevel : t.levelOf m.var = t.level) : ∀ b < t.level, j ≠ t.lengthAt b := by
  rintro b hb rfl
  obtain ⟨hj, rfl⟩ := Array.getElem?_eq_some_iff.1 hl
  obtain ⟨hi, rfl⟩ := Array.getElem?_eq_some_iff.1 hm
  have := (h.coherent.cut b i hi).2 hij
  omega

/-- A literal behind another one of the current level was forced by its reason. -/
theorem Fitting.forced_of_split (h : Fitting n db t) {l : Literal} {earlier later : List Literal}
    (hsplit : t.literals.toList = earlier ++ l :: later)
    (hearlier : ∃ m ∈ earlier, t.levelOf m.var = t.level) :
    ∃ k c, t.reasonOf l.var = some k ∧ db.literals? k = some c ∧ t.Forced c earlier.length l := by
  obtain ⟨m, hm, hmlevel⟩ := hearlier
  obtain ⟨i, hi, rfl⟩ := List.getElem_of_mem hm
  have hl : t.literals[earlier.length]? = some l := by
    rw [← Array.getElem?_toList, hsplit]
    simp
  have hmi : t.literals[i]? = some earlier[i] := by
    rw [← Array.getElem?_toList, hsplit, List.getElem?_append_left hi]
    exact List.getElem?_eq_getElem hi
  exact h.justified.forced _ l hl (h.forced_of_earlier hi hl hmi hmlevel)

theorem Fitting.describes (h : Fitting n db t) :
    (ImplicationGraph.ofTrail t db).Describes t.literals.toList n t.level where
  distinct := h.coherent.distinct
  inScope l hl := h.coherent.lt_of_mem (by simpa using hl)
  value l hl := h.coherent.isTrue_iff.2 (by simpa using hl)
  level_le l hl := h.coherent.levelOf_le (by simpa using hl)
  monotone := by
    refine List.pairwise_iff_getElem.2 fun i j hi hj hij => ?_
    simpa using h.coherent.levelOf_mono (Nat.le_of_lt hij) (by simpa using hi) (by simpa using hj)
  reasoned earlier l later hsplit _ hearlier := by
    obtain ⟨k, c, hk, hc, hf⟩ := h.forced_of_split hsplit hearlier
    refine ⟨c, ImplicationGraph.reason_ofTrail.2 ⟨k, hk, hc⟩, hf.mem, fun p hp hpl => ?_⟩
    have := hf.earlier p hp hpl
    rwa [hsplit, List.take_left] at this

/-! ## The learnt clause -/

/-- The clause in conflict is false, not without the current level. -/
theorem Clash.conflicting (h : Clash n db t k) : ∃ c, db.literals? k = some c ∧
    (∀ l ∈ c, l.negate ∈ t.literals.toList) ∧
      ∃ l ∈ c, (ImplicationGraph.ofTrail t db).level l.var = t.level := by
  obtain ⟨c, hc, hfalse, a, ha, -, -, -, halevel, -⟩ := h.falsifies
  exact ⟨c, hc, fun l hl => by simpa using h.coherent.isFalse_iff.1 (hfalse l hl), a, ha, halevel⟩

/-- Conflict analysis at a clash above the root level learns a clause. -/
theorem Clash.analyze (h : Clash n db t k) (hlevel : t.level ≠ 0) :
    ∃ c learnt, db.literals? k = some c ∧
      ClauseLearning.analyze (.ofTrail t db) t.level c t.literals.toList (Marks.clear n) =
        .ok (learnt, Marks.clear n) ∧
      learnt.Asserts (.ofTrail t db) t.literals.toList t.level ∧
      ∀ σ, (∀ k c, db.literals? k = some c → (Clause.mk c).Holds σ) →
        (Clause.mk learnt.literals).Holds σ := by
  obtain ⟨c, hc, hfalse, hcurrent⟩ := h.conflicting
  obtain ⟨learnt, hanalyze, hasserts, hholds⟩ := analyze_spec h.describes hlevel hfalse hcurrent
  refine ⟨c, learnt, hc, hanalyze, hasserts, fun σ hσ => hholds σ ⟨?_, ?_⟩ (hσ k c hc)⟩
  · intro l _ _ reason hreason
    obtain ⟨j, -, hj⟩ := ImplicationGraph.reason_ofTrail.1 hreason
    exact hσ j reason hj
  · intro l hl hroot
    exact h.justified.holds_of_root h.coherent hσ (by simpa using hl) hroot

/-- The literals of unit clauses are true at the root level. -/
def Database.Rooted (db : Database) (t : Trail) : Prop :=
  ∀ k l, db.literals? k = some [l] → t.IsTrue l ∧ t.levelOf l.var = 0

namespace Learnt.Asserts

theorem isFalse_of_mem (h : learnt.Asserts (.ofTrail t db) t.literals.toList t.level)
    (ht : t.Coherent n) {l : Literal} (hl : l ∈ learnt.literals) : t.IsFalse l :=
  ht.isFalse_iff.2 (by simpa using h.isFalse l hl)

theorem eq_asserting (h : learnt.Asserts (.ofTrail t db) t.literals.toList t.level) {l : Literal}
    (hl : l ∈ learnt.literals) (hlevel : t.level ≤ t.levelOf l.var) : l = learnt.asserting := by
  refine (List.mem_cons.1 hl).resolve_right fun hl => ?_
  exact absurd (h.level_others l hl).2 (Nat.not_lt_of_le hlevel)

/-- No stored clause is contained in the learnt one: all its literals would be false, at most one of
them since the current level, and propagation would have met it before. -/
theorem not_subset (h : learnt.Asserts (.ofTrail t db) t.literals.toList t.level)
    (hclash : Clash n db t k) (hroot : db.Rooted t) {j : Nat} {c : List Literal}
    (hc : db.literals? j = some c) : ¬ c ⊆ learnt.literals := by
  intro hsub
  obtain ⟨d, hd, rfl⟩ := Database.literals?_eq_some.1 hc
  have hdmem := Array.mem_of_getElem? hd
  by_cases hsize : 2 ≤ d.literals.size
  · have hne := d.firstWatched_ne_secondWatched (hclash.sound.nodup d hdmem)
      (hclash.sound.apart d hdmem hsize)
    have hobeyed : ∀ w o, d.WatchPair w o → w ∈ d.literals.toList → o ∈ d.literals.toList →
        t.level ≤ t.levelOf w.var := by
      intro w o hw hwd hod
      by_contra hlt
      obtain ⟨ho, -⟩ := hclash.obeys j d hd hsize w o hw (Nat.lt_of_not_le hlt)
        (h.isFalse_of_mem hclash.coherent (hsub hwd))
      exact ho.not_isFalse (h.isFalse_of_mem hclash.coherent (hsub hod))
    have h₁ := h.eq_asserting (hsub d.firstWatched_mem)
      (hobeyed _ _ (.inl ⟨rfl, rfl⟩) d.firstWatched_mem d.secondWatched_mem)
    have h₂ := h.eq_asserting (hsub d.secondWatched_mem)
      (hobeyed _ _ (.inr ⟨rfl, rfl⟩) d.secondWatched_mem d.firstWatched_mem)
    exact hne (h₁.trans h₂.symm)
  · obtain ⟨l, hl⟩ := d.exists_eq_singleton hsize
    obtain ⟨htrue, -⟩ := hroot j l (hl ▸ hc)
    exact htrue.not_isFalse (h.isFalse_of_mem hclash.coherent (hsub (by simp [hl])))

end Learnt.Asserts

end ClauseLearning
