import ClauseLearning.Clause

/-!
# Formulas

A formula in conjunctive normal form. Its clauses mention declared variables only and repeat no
literal; `add` keeps this, and says what a clause becomes.
-/

namespace ClauseLearning

structure Formula where
  varCount : Nat
  clauses : Array Clause
  varCount_le : varCount ≤ Variable.maxId
  inScope : ∀ c ∈ clauses, c.InScope varCount
  nodup : ∀ c ∈ clauses, c.literals.Nodup

namespace Formula

/-- The formula over `n` variables that has no clause yet. -/
def empty (n : Nat) : Except Fault Formula :=
  if h : n ≤ Variable.maxId then
    .ok ⟨n, #[], h, fun _ hc => absurd hc (Array.not_mem_empty _), fun _ hc => absurd hc (Array.not_mem_empty _)⟩
  else .error (.tooManyVariables n)

/-- Appends a clause, with repeated literals dropped. -/
def add (f : Formula) (c : Clause) : Except Fault Formula :=
  if h : c.InScope f.varCount then
    .ok {
      varCount := f.varCount
      clauses := f.clauses.push c.dedup
      varCount_le := f.varCount_le
      inScope := fun d hd => (Array.mem_push.1 hd).elim (f.inScope d)
        fun e => e ▸ fun l hl => h l (Clause.mem_dedup.1 hl)
      nodup := fun d hd => (Array.mem_push.1 hd).elim (f.nodup d) fun e => e ▸ c.nodup_dedup }
  else .error (.outOfScope f.varCount)

/-- The formula over `n` variables with the given clauses. -/
def ofClauses (n : Nat) (cs : List Clause) : Except Fault Formula := do
  cs.foldlM add (← empty n)

/-- The formula holds when all its clauses do. -/
def Holds (f : Formula) (σ : Variable → Bool) : Prop := ∀ c ∈ f.clauses, c.Holds σ

/-- The number of times each variable occurs, by index. -/
def occurrences (f : Formula) : Array Nat :=
  f.clauses.foldl
    (fun counts c => c.literals.foldl (fun counts l => counts.modify l.var.index (· + 1)) counts)
    (Array.replicate f.varCount 0)

def render (f : Formula) : String :=
  s!"CNF with {f.varCount} variables (" ++
    " ∧ ".intercalate (f.clauses.toList.map Clause.render) ++ ")"

end Formula

end ClauseLearning
