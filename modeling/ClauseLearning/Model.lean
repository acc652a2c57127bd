import ClauseLearning.Formula

/-!
# Models

An assignment of a value to every variable of a formula, and its written forms.
-/

namespace ClauseLearning

structure Model where
  formula : Formula
  values : Array Bool
  size_values : values.size = formula.varCount

namespace Model

/-- The assignment that gives the values in order to the variables of the formula. -/
def ofValues (f : Formula) (values : Array Bool) : Except Fault Model :=
  if h : values.size = f.varCount then .ok ⟨f, values, h⟩
  else .error (.wrongLength f.varCount values.size)

/-- The value of each variable; variables outside the formula count as false. -/
def value (m : Model) (v : Variable) : Bool := m.values[v.index]?.getD false

/-- The first clause that the assignment does not make true, with its position. -/
def falsified? (m : Model) : Option (Nat × Clause) :=
  (m.formula.clauses.toList.zipIdx.find? fun (c, _) => ¬ c.Holds m.value).map fun (c, i) => (i, c)

/-- The literal of the variable with the given index that has the given value. -/
def renderSigned (value : Bool) (index : Nat) : String :=
  if value then s!"{index + 1}" else s!"-{index + 1}"

/-- The true literals as signed integers, in order of their variables. -/
def renderLiterals (m : Model) : String :=
  " ".intercalate (m.values.toList.mapIdx fun index value => renderSigned value index)

def renderValue (value : Bool) : String := if value then "true" else "false"

/-- The formula, then a line for the value of each variable. -/
def render (m : Model) : String :=
  s!"Model for {m.formula.render}\nAssignment:" ++
    String.join (m.values.toList.mapIdx fun index value => s!"\n  x{index + 1}: {renderValue value}")

end Model

end ClauseLearning
