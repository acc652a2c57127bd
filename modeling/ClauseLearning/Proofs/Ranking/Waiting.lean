import Mathlib
import ClauseLearning.Ranking

/-!
# Sets of keys

Keys are removed by comparison with the present entry of their variable. So a set is in step with
the entries when all its keys are the present ones: then each variable has one key at most, which
its entry finds.
-/

namespace ClauseLearning.Ranking.Waiting

variable {α : Type} {w : Waiting α} {k j : Key α} {v : Variable} {assigned : Variable → Bool}
  {current current' : Variable → Option (Key α)}

/-- The variables that have a key in the set. -/
def vars (w : Waiting α) : List Variable := w.keys.map Key.var

theorem mem_vars : v ∈ w.vars ↔ ∃ k ∈ w.keys, k.var = v := List.mem_map

/-- Each key is the present one of its variable, and no variable has two. -/
structure InStep (w : Waiting α) (current : Variable → Option (Key α)) : Prop where
  current : ∀ k ∈ w.keys, current k.var = some k
  distinct : w.vars.Nodup

theorem InStep.congr (h : w.InStep current) (hc : ∀ v ∈ w.vars, current' v = current v) :
    w.InStep current' where
  current k hk := (hc _ (List.mem_map_of_mem hk)).trans (h.current k hk)
  distinct := h.distinct

theorem InStep.empty (current : Variable → Option (Key α)) : InStep ⟨[]⟩ current :=
  ⟨by simp, List.nodup_nil⟩

variable [Score α]

theorem var_eq_of_same (h : k.same j = true) : j.var = k.var := by
  simp only [Key.same, Bool.and_eq_true, beq_iff_eq] at h
  exact h.1.1.symm

namespace InStep

/-- The present key of a variable finds the one in the set. -/
theorem same_iff (h : w.InStep current) (hk : current k.var = some k) (hj : j ∈ w.keys) :
    k.same j = true ↔ j.var = k.var := by
  refine ⟨var_eq_of_same, fun hvar => ?_⟩
  have hjk : some j = some k := (h.current j hj).symm.trans (hvar ▸ hk)
  cases hjk
  exact k.same_refl

theorem has_iff (h : w.InStep current) (hk : current k.var = some k) :
    w.has k = true ↔ k.var ∈ w.vars := by
  rw [has, List.any_eq_true, mem_vars]
  exact exists_congr fun j => and_congr_right fun hj => h.same_iff hk hj

theorem mem_remove (h : w.InStep current) (hk : current k.var = some k) :
    j ∈ (w.remove k).keys ↔ j ∈ w.keys ∧ j.var ≠ k.var := by
  rw [remove, List.mem_filter]
  refine and_congr_right fun hj => ?_
  rw [Bool.not_eq_true', ← Bool.not_eq_true, h.same_iff hk hj]

theorem mem_vars_remove (h : w.InStep current) (hk : current k.var = some k) :
    v ∈ (w.remove k).vars ↔ v ∈ w.vars ∧ v ≠ k.var := by
  simp only [mem_vars, h.mem_remove hk]
  constructor
  · rintro ⟨j, ⟨hj, hne⟩, rfl⟩
    exact ⟨⟨j, hj, rfl⟩, hne⟩
  · rintro ⟨⟨j, hj, rfl⟩, hne⟩
    exact ⟨j, ⟨hj, hne⟩, rfl⟩

theorem remove (h : w.InStep current) (k : Key α) : (w.remove k).InStep current where
  current j hj := h.current j (List.mem_of_mem_filter hj)
  distinct := h.distinct.sublist (List.filter_sublist.map Key.var)

theorem mem_vars_add (h : w.InStep current) (hk : current k.var = some k) :
    v ∈ (w.add k).vars ↔ v = k.var ∨ v ∈ w.vars := by
  unfold add
  split
  · refine ⟨.inr, fun hv => hv.elim (fun he => ?_) id⟩
    exact he ▸ (h.has_iff hk).1 ‹_›
  · exact List.mem_cons

theorem add (h : w.InStep current) (hk : current k.var = some k) : (w.add k).InStep current := by
  unfold Waiting.add
  split
  · exact h
  · refine ⟨fun j hj => ?_, List.nodup_cons.2 ⟨fun hmem => ?_, h.distinct⟩⟩
    · rcases List.mem_cons.1 hj with rfl | hj
      · exact hk
      · exact h.current j hj
    · exact absurd ((h.has_iff hk).2 hmem) ‹_›

theorem addAll (h : w.InStep current) (ks : List (Key α)) (hks : ∀ k ∈ ks, current k.var = some k) :
    (ks.foldl Waiting.add w).InStep current ∧
      ∀ v, v ∈ (ks.foldl Waiting.add w).vars ↔ v ∈ ks.map Key.var ∨ v ∈ w.vars := by
  induction ks generalizing w with
  | nil => exact ⟨h, by simp⟩
  | cons k ks ih =>
      have hk := hks k List.mem_cons_self
      obtain ⟨hstep, hvars⟩ := ih (h.add hk) fun j hj => hks j (List.mem_cons_of_mem _ hj)
      refine ⟨hstep, fun v => (hvars v).trans ?_⟩
      rw [h.mem_vars_add hk, List.map_cons, List.mem_cons, or_left_comm, or_assoc]

/-! ## Taking the highest key -/

theorem top?_eq_none : w.top? = none ↔ w.keys = [] := by
  unfold top?
  split <;> simp_all

/-- What is left is in step. All variables that are not assigned have their key still, except for the
one taken, and there is one if there is such a variable. -/
theorem pop (h : w.InStep current) (assigned : Variable → Bool) :
    (w.pop assigned).2.InStep current ∧
      (∀ u ∈ w.vars, assigned u = false →
        (w.pop assigned).1 = some u ∨ u ∈ (w.pop assigned).2.vars) ∧
      (∀ u, (w.pop assigned).1 = some u → u ∈ w.vars ∧ assigned u = false) ∧
      ((w.pop assigned).1 = none → ∀ u ∈ w.vars, assigned u = true) := by
  fun_induction w.pop assigned with
  | case1 w htop =>
      refine ⟨h, fun u hu _ => .inr hu, by simp, fun _ u hu => ?_⟩
      simp [vars, top?_eq_none.1 htop] at hu
  | case2 w k htop hassigned ih =>
      have hk := h.current k (top?_mem htop)
      obtain ⟨hstep, hleft, hsome, hnone⟩ := ih (h.remove k)
      -- The key that is dropped is the only one of its variable, which is assigned.
      have hkept : ∀ u ∈ w.vars, assigned u = false → u ∈ (w.remove k).vars := fun u hu hf =>
        (h.mem_vars_remove hk).2 ⟨hu, fun e => by rw [e, hassigned] at hf; cases hf⟩
      refine ⟨hstep, fun u hu hf => hleft u (hkept u hu hf) hf, fun u hu => ?_, fun ho u hu => ?_⟩
      · obtain ⟨hmem, hf⟩ := hsome u hu
        exact ⟨((h.mem_vars_remove hk).1 hmem).1, hf⟩
      · by_contra hf
        rw [Bool.not_eq_true] at hf
        have := hnone ho u (hkept u hu hf)
        rw [hf] at this
        cases this
  | case3 w k htop hassigned =>
      have hk := h.current k (top?_mem htop)
      refine ⟨h.remove k, fun u hu _ => ?_, fun u hu => ?_, by simp⟩
      · by_cases hu' : u = k.var
        · exact .inl (congrArg some hu'.symm)
        · exact .inr ((h.mem_vars_remove hk).2 ⟨hu, hu'⟩)
      · cases hu
        exact ⟨mem_vars.2 ⟨k, top?_mem htop, rfl⟩, by simpa using hassigned⟩

end InStep

end ClauseLearning.Ranking.Waiting
