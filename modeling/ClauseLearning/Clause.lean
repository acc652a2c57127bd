import ClauseLearning.Fault
import ClauseLearning.Literal

/-!
# Clauses

A clause is a disjunction of literals, in the order in which they were written.
-/

namespace ClauseLearning

structure Clause where
  literals : List Literal
  deriving DecidableEq, Repr

namespace Clause

/-- Every variable of the clause is one of the first `n`. -/
def InScope (n : Nat) (c : Clause) : Prop := ∀ l ∈ c.literals, l.var.index < n

instance (n : Nat) (c : Clause) : Decidable (c.InScope n) := by
  unfold InScope; infer_instance

/-- The clause holds when some literal of it is true. -/
def Holds (c : Clause) (σ : Variable → Bool) : Prop := ∃ l ∈ c.literals, l.eval (σ l.var) = true

instance (c : Clause) (σ : Variable → Bool) : Decidable (c.Holds σ) := by
  unfold Holds; infer_instance

/-- Evaluates literals up to the first true one under a list of values. -/
def someTrue (values : Array Bool) : List Literal → Except Fault Bool
  | [] => .ok false
  | l :: rest =>
    match values[l.var.index]? with
    | none => .error (.outOfScope l.var.index)
    | some value => if l.eval value then .ok true else someTrue values rest

/-- Whether the clause is true under a list of values, one for each variable. -/
def satisfiedBy (c : Clause) (values : Array Bool) : Except Fault Bool :=
  someTrue values c.literals

/-- Appends the literals that are not there yet, in order. -/
def appendNew (kept : List Literal) : List Literal → List Literal
  | [] => kept
  | l :: rest => appendNew (if l ∈ kept then kept else kept ++ [l]) rest

/-- The clause without repeated literals: the first occurrence of each stays. -/
def dedup (c : Clause) : Clause := ⟨appendNew [] c.literals⟩

theorem nodup_appendNew (ls : List Literal) :
    ∀ kept : List Literal, kept.Nodup → (appendNew kept ls).Nodup := by
  induction ls with
  | nil => exact fun _ h => h
  | cons l rest ih =>
    intro kept h
    refine ih _ ?_
    split
    · exact h
    · rename_i hl
      rw [List.nodup_append]
      exact ⟨h, by simp, fun a ha b hb hab => hl (by simp_all)⟩

theorem mem_appendNew (ls : List Literal) :
    ∀ (kept : List Literal) (m : Literal), m ∈ appendNew kept ls ↔ m ∈ kept ∨ m ∈ ls := by
  induction ls with
  | nil => simp [appendNew]
  | cons l rest ih =>
    intro kept m
    rw [appendNew, ih]
    split <;> grind

theorem nodup_dedup (c : Clause) : c.dedup.literals.Nodup :=
  nodup_appendNew _ _ List.nodup_nil

theorem mem_dedup {c : Clause} {l : Literal} : l ∈ c.dedup.literals ↔ l ∈ c.literals := by
  simp [dedup, mem_appendNew]

def render (c : Clause) : String :=
  "(" ++ " ∨ ".intercalate (c.literals.map Literal.render) ++ ")"

end Clause

end ClauseLearning
