import ClauseLearning.Database

/-!
# Implication graphs

What conflict analysis has to know of the assignments that led to a conflict.
-/

namespace ClauseLearning

structure ImplicationGraph where
  value : Variable → Option Bool
  level : Variable → Nat
  /-- The clause that forced the variable; a decision has none. -/
  reason : Variable → Option (List Literal)

/-- The assignments of a trail, whose reasons are clauses of a database. -/
def ImplicationGraph.ofTrail (t : Trail) (db : Database) : ImplicationGraph where
  value := t.valueOf
  level := t.levelOf
  reason v := (t.reasonOf v).bind db.literals?

end ClauseLearning
