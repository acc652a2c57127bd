/-!
# Reports

What a user is told about an error: the error, then the chain of its causes.
-/

namespace ClauseLearning

/-- The message of an error and of each error that led to it, the nearest first. -/
structure Report where
  message : String
  causes : List String
  deriving DecidableEq, Repr

namespace Report

/-- A report of an error that nothing led to. -/
def simple (message : String) : Report := ⟨message, []⟩

/-- A report of an error that the reported one led to. -/
def because (message : String) (cause : Report) : Report := ⟨message, cause.message :: cause.causes⟩

def renderCause (number : Nat) (cause : String) : String :=
  s!"  {number}: {cause}\n"

/-- The message on a line of its own; causes follow after a blank line, numbered from 0. -/
def render (r : Report) : String :=
  r.message ++ "\n" ++
    if r.causes.isEmpty then ""
    else "\nCaused by:\n" ++ String.join (r.causes.mapIdx renderCause)

end Report

end ClauseLearning
