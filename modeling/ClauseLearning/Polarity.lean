import ClauseLearning.Report

/-!
# Polarity modes

Which value a decision gives to its variable.
-/

namespace ClauseLearning

inductive Polarity where
  | random
  /-- The value that the variable had last. -/
  | saved
  | positive
  | negative
  deriving DecidableEq, Repr

namespace Polarity

def default : Polarity := .random

def describe : Polarity → String
  | .random => "Random"
  | .saved => "Saved"
  | .positive => "Positive"
  | .negative => "Negative"

structure ParseError where
  text : String
  deriving DecidableEq, Repr

def ParseError.report (e : ParseError) : Report :=
  .simple s!"Unknown polarity mode '{e.text}' (expected random, saved, positive or negative)"

def parse (text : String) : Except ParseError Polarity :=
  if text = "random" then .ok .random
  else if text = "saved" then .ok .saved
  else if text = "positive" then .ok .positive
  else if text = "negative" then .ok .negative
  else .error ⟨text⟩

end Polarity

end ClauseLearning
