import ClauseLearning.Report
import ClauseLearning.Word

/-!
# Decimal numbers

Unsigned 64-bit numbers in decimal, as they stand in formulas and on the command line: at most one
leading plus sign, then ASCII digits.
-/

namespace ClauseLearning.Text

inductive DecimalError where
  | empty
  | invalidDigit
  | tooLarge
  deriving DecidableEq, Repr

def DecimalError.message : DecimalError → String
  | .empty => "cannot parse integer from empty string"
  | .invalidDigit => "invalid digit found in string"
  | .tooLarge => "number too large to fit in target type"

def DecimalError.report (e : DecimalError) : Report := .simple e.message

/-- The value of an ASCII digit. -/
def digit? (c : Char) : Option Nat :=
  if '0' ≤ c ∧ c ≤ '9' then some (c.toNat - '0'.toNat) else none

/-- Continues a number with the digits that follow. The first character that is no digit or carries
the value past the bound decides the error. -/
def readDigits (value : Nat) : List Char → Except DecimalError Nat
  | [] => .ok value
  | c :: rest =>
    match digit? c with
    | none => .error .invalidDigit
    | some d =>
      if 10 * value + d < Word.limit then readDigits (10 * value + d) rest else .error .tooLarge

/-- Reads a whole text as one number. A plus sign alone is no number. -/
def readDecimal : List Char → Except DecimalError Nat
  | [] => .error .empty
  | ['+'] => .error .invalidDigit
  | '+' :: digits => readDigits 0 digits
  | digits => readDigits 0 digits

end ClauseLearning.Text
