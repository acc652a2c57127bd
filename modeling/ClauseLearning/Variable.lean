import ClauseLearning.Text.Decimal

/-!
# Variables

A propositional variable is known by its number, which counts from 1, or by its index, which counts
from 0.
-/

namespace ClauseLearning

structure Variable where
  index : Nat
  index_lt : index < 2147483647
  deriving DecidableEq, Repr

namespace Variable

/-- The largest variable number. -/
def maxId : Nat := 2147483647

/-- The number of the variable, from 1 to `maxId`. -/
def id (v : Variable) : Nat := v.index + 1

def ofIndex? (index : Nat) : Option Variable :=
  if h : index < 2147483647 then some ⟨index, h⟩ else none

def ofId? : Nat → Option Variable
  | 0 => none
  | index + 1 => ofIndex? index

def render (v : Variable) : String := s!"x{v.id}"

inductive ParseError where
  | notNumber (cause : Text.DecimalError)
  | outOfRange (number : Nat)
  deriving DecidableEq, Repr

def ParseError.report : ParseError → Report
  | .notNumber cause => .because "Failed to parse Variable ID" cause.report
  | .outOfRange number =>
    .simple s!"Variable ID {number} is out of range (must be within 1 to {maxId})"

/-- Reads the number of a variable. -/
def parse (text : List Char) : Except ParseError Variable :=
  match Text.readDecimal text with
  | .error e => .error (.notNumber e)
  | .ok number =>
    match ofId? number with
    | some v => .ok v
    | none => .error (.outOfRange number)

end Variable

end ClauseLearning
