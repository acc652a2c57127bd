import ClauseLearning.Duration
import ClauseLearning.Polarity
import ClauseLearning.Restart.Policy

/-!
# Settings of a search
-/

namespace ClauseLearning

/-- What a user chooses about a search; scores are numbers of type `α`. -/
structure Settings (α : Type) where
  restart : Restart.Policy
  polarity : Polarity
  /-- The factor, within `(0, 1]`, by which old activity counts less after each conflict. -/
  decay : α
  seed : UInt64
  timeLimit : Option Duration

/-- What holds where the user chooses nothing. -/
def Settings.default : Settings Float where
  restart := .default
  polarity := .default
  decay := 0.95
  seed := 0
  timeLimit := none

end ClauseLearning
