import ClauseLearning.Text.Decimal

/-!
# Restart policies

When the search gives up its decisions and starts again from the root level.
-/

namespace ClauseLearning.Restart

inductive Policy where
  | never
  /-- Restarts each time after the same number of conflicts. -/
  | fixed (interval : UInt64)
  /-- Starts with an interval of `first` conflicts and makes it half as long again, plus ten, after
  each restart. -/
  | geometric (first : UInt64)
  /-- Waits for `unit` times the next term of the Luby sequence. -/
  | luby (unit : UInt64)
  deriving DecidableEq, Repr

namespace Policy

def default : Policy := .geometric 50

def render : Policy → String
  | .never => "never"
  | .fixed interval => s!"fixed:{interval.toNat}"
  | .geometric first => s!"geometric:{first.toNat}"
  | .luby unit => s!"luby:{unit.toNat}"

/-- The policy with its parameter by name. -/
def describe : Policy → String
  | .never => "Never"
  | .fixed interval => s!"Fixed({interval.toNat})"
  | .geometric first => "Geometric \x7b first: " ++ s!"{first.toNat}" ++ " \x7d"
  | .luby unit => "Luby \x7b unit: " ++ s!"{unit.toNat}" ++ " \x7d"

inductive ParseError where
  | unknownPolicy (text : String)
  | invalidInterval (text : String) (cause : Text.DecimalError)
  | zeroInterval (text : String)
  deriving DecidableEq, Repr

def ParseError.report : ParseError → Report
  | .unknownPolicy text =>
    .simple s!"Unknown restart policy '{text}' (expected never, fixed:N, geometric:N or luby:N)"
  | .invalidInterval text cause =>
    .because s!"Restart interval in '{text}' must be a positive integer" cause.report
  | .zeroInterval text => .simple s!"Restart interval in '{text}' must be a positive integer"

/-- The policy of a kind that takes an interval. -/
def ofKind? (kind : List Char) (interval : UInt64) : Option Policy :=
  if kind = "fixed".toList then some (.fixed interval)
  else if kind = "geometric".toList then some (.geometric interval)
  else if kind = "luby".toList then some (.luby interval)
  else none

/-- Reads a policy: `never`, or a kind and a positive interval with a colon between them. -/
def parse (text : String) : Except ParseError Policy :=
  if text = "never" then .ok .never
  else
    let chars := text.toList
    match chars.dropWhile (· ≠ ':') with
    | [] => .error (.unknownPolicy text)
    | _ :: interval =>
      match Text.readDecimal interval with
      | .error cause => .error (.invalidInterval text cause)
      | .ok 0 => .error (.zeroInterval text)
      | .ok n =>
        match ofKind? (chars.takeWhile (· ≠ ':')) (.ofNat n) with
        | some policy => .ok policy
        | none => .error (.unknownPolicy text)

end Policy

end ClauseLearning.Restart
