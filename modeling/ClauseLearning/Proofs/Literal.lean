import Mathlib
import ClauseLearning.Clause

/-!
# Literals and the assignments that make them true

Negation of literals, and their dense numbering.
-/

namespace ClauseLearning

theorem Variable.ext {v w : Variable} (h : v.index = w.index) : v = w := by
  cases v; cases w; simp_all

namespace Literal

@[simp] theorem var_negate (l : Literal) : l.negate.var = l.var := rfl

@[simp] theorem positive_negate (l : Literal) : l.negate.positive = !l.positive := rfl

@[simp] theorem negate_negate (l : Literal) : l.negate.negate = l := by
  simp [negate]

theorem eq_of_var_eq {l m : Literal} (hv : l.var = m.var) (hp : l.positive = m.positive) : l = m := by
  cases l; cases m; simp_all

/-- An assignment of all variables makes the literal true. -/
def Holds (l : Literal) (σ : Variable → Bool) : Prop := l.eval (σ l.var) = true

theorem holds_iff {l : Literal} {σ : Variable → Bool} : l.Holds σ ↔ σ l.var = l.positive := by
  simp [Holds, eval]

theorem holds_negate {l : Literal} {σ : Variable → Bool} : l.negate.Holds σ ↔ ¬ l.Holds σ := by
  simp [holds_iff, Bool.eq_not]

theorem code_injective {l m : Literal} (h : l.code = m.code) : l = m := by
  have hl : l.positive.toNat ≤ 1 := Bool.toNat_le _
  have hm : m.positive.toNat ≤ 1 := Bool.toNat_le _
  unfold code at h
  have hv : l.var = m.var := Variable.ext (by omega)
  have hp : l.positive.toNat = m.positive.toNat := by omega
  refine eq_of_var_eq hv ?_
  cases hl' : l.positive <;> cases hm' : m.positive <;> simp_all

theorem code_lt_iff {l : Literal} {n : Nat} : l.code < 2 * n ↔ l.var.index < n := by
  have := Bool.toNat_le l.positive
  unfold code
  omega

end Literal

/-- A literal over five variables. -/
def Sample.literal (index : Nat) (positive : Bool) : Literal := ⟨⟨index % 5, by omega⟩, positive⟩

end ClauseLearning
