import ClauseLearning.Variable

/-!
# Literals

A literal is a variable or its negation. Written as an integer it is the number of its variable,
with a minus sign when negated.
-/

namespace ClauseLearning

structure Literal where
  var : Variable
  positive : Bool
  deriving DecidableEq, Repr

namespace Literal

/-- The literal of the same variable and the other sign. -/
def negate (l : Literal) : Literal := { l with positive := !l.positive }

/-- The value of the literal when its variable has the given value. -/
def eval (l : Literal) (value : Bool) : Bool := value == l.positive

/-- A dense numbering of literals: the two of a variable are neighbours, the negated one first. -/
def code (l : Literal) : Nat := 2 * l.var.index + l.positive.toNat

def toInt (l : Literal) : Int := if l.positive then l.var.id else -l.var.id

def render (l : Literal) : String :=
  if l.positive then l.var.render else "¬" ++ l.var.render

/-- Reads a literal: a variable number, negated by one leading minus sign. -/
def parse (text : List Char) : Except Variable.ParseError Literal :=
  match text with
  | '-' :: rest => (Variable.parse rest).map (⟨·, false⟩)
  | text => (Variable.parse text).map (⟨·, true⟩)

end Literal

end ClauseLearning
