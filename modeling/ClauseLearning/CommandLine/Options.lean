import ClauseLearning.Settings
import ClauseLearning.Source
import ClauseLearning.Text.Binary64

/-!
# Options

The arguments of the command line, read from left to right: options that begin with two hyphens,
most of them followed by a value, and at most one file name.
-/

namespace ClauseLearning.CommandLine

structure Options where
  settings : Settings Float
  /-- A seed was given, so none is to be drawn. -/
  seedGiven : Bool
  path : Option String
  help : Bool

/-- The options where no argument is given. -/
def Options.initial : Options := ⟨.default, false, none, false⟩

/-- The settings of a run that draws the given seed, which counts where no seed was given. -/
def Options.settingsFor (o : Options) (drawn : UInt64) : Settings Float :=
  if o.seedGiven then o.settings else { o.settings with seed := drawn }

/-- The source that the options name. -/
def Options.source (o : Options) : Source :=
  match o.path with
  | some path => .file path
  | none => .standardInput

/-- What can be wrong with a word that names a restart policy or a polarity mode. -/
inductive PolicyError where
  | restart (cause : Restart.Policy.ParseError)
  | polarity (cause : Polarity.ParseError)
  deriving DecidableEq, Repr

def PolicyError.report : PolicyError → Report
  | .restart cause => cause.report
  | .polarity cause => cause.report

inductive OptionError where
  | unknownOption (name : String)
  | missingValue (name : String)
  | invalidValue (name value : String)
  | invalidPolicy (name : String) (cause : PolicyError)
  | unexpectedArgument (value : String)
  deriving DecidableEq, Repr

/-- How the program is called. -/
def usage (program : String) : String :=
  s!"Usage: {program} [options] [<file_name>]

Solves a DIMACS CNF formula read from <file_name>, or from standard input when omitted,
and prints SAT with a model or UNSAT.

options:
    --restart <policy>    never, fixed:N, geometric:N or luby:N (default: geometric:50)
    --polarity <mode>     random, saved, positive or negative (default: random)
    --decay <factor>      VSIDS decay factor within (0, 1] (default: 0.95)
    --seed <number>       seed for random decisions (default: drawn at random)
    --timeout <seconds>   give up and print UNKNOWN after the given time
    --help                print this message"

def OptionError.report (program : String) : OptionError → Report
  | .unknownOption name => .simple s!"Unknown option '{name}'\n\n{usage program}"
  | .missingValue name => .simple s!"Option '{name}' requires a value\n\n{usage program}"
  | .invalidValue name value => .simple s!"Invalid value '{value}' for option '{name}'"
  | .invalidPolicy name cause => .because s!"Invalid value for option '{name}'" cause.report
  | .unexpectedArgument value => .simple s!"Unexpected argument '{value}'\n\n{usage program}"

/-- Reads a decay factor, a number within `(0, 1]`. -/
def readDecay? (value : String) : Option Float :=
  match Text.readDouble? value.toList with
  | some decay => if 0 < decay ∧ decay ≤ 1 then some decay else none
  | none => none

/-- Reads a number of seconds, finite and not below 0. -/
def readSeconds? (value : String) : Option Float :=
  match Text.readDouble? value.toList with
  | some seconds => if seconds.isFinite ∧ 0 ≤ seconds then some seconds else none
  | none => none

/-- The span of the given seconds, to the nearest nanosecond. Whole seconds fit a 64-bit word. -/
def durationOfSeconds (seconds : Float) : Except Fault Duration :=
  let (numerator, denominator) := Text.doubleQuotient seconds
  let nanoseconds := Text.roundQuotient (numerator * Duration.nanosecondsPerSecond) denominator
  if nanoseconds / Duration.nanosecondsPerSecond < Word.limit then .ok ⟨nanoseconds⟩
  else .error .timeOverflow

/-- The options that take the next argument for their value. -/
inductive Setting where
  | restart
  | polarity
  | decay
  | seed
  | timeout
  deriving DecidableEq, Repr

def Setting.name : Setting → String
  | .restart => "--restart"
  | .polarity => "--polarity"
  | .decay => "--decay"
  | .seed => "--seed"
  | .timeout => "--timeout"

def Setting.ofName? (name : String) : Option Setting :=
  [.restart, .polarity, .decay, .seed, .timeout].find? fun setting => setting.name = name

/-- Gives a setting the value that a text stands for. -/
def Options.set (o : Options) (setting : Setting) (value : String) :
    Except (Failure OptionError) Options :=
  let invalid := .error (.error (.invalidValue setting.name value))
  match setting with
  | .restart =>
    match Restart.Policy.parse value with
    | .ok restart => .ok { o with settings := { o.settings with restart } }
    | .error cause => .error (.error (.invalidPolicy setting.name (.restart cause)))
  | .polarity =>
    match Polarity.parse value with
    | .ok polarity => .ok { o with settings := { o.settings with polarity } }
    | .error cause => .error (.error (.invalidPolicy setting.name (.polarity cause)))
  | .decay =>
    match readDecay? value with
    | some decay => .ok { o with settings := { o.settings with decay } }
    | none => invalid
  | .seed =>
    match Text.readDecimal value.toList with
    | .ok seed => .ok { o with settings := { o.settings with seed := .ofNat seed }, seedGiven := true }
    | .error _ => invalid
  | .timeout =>
    match readSeconds? value with
    | none => invalid
    | some seconds => do
      let limit ← Failure.ofFault (durationOfSeconds seconds)
      pure { o with settings := { o.settings with timeLimit := some limit } }

/-- Reads arguments on top of the options that are set already. -/
def Options.extend (o : Options) : List String → Except (Failure OptionError) Options
  | [] => .ok o
  | argument :: rest =>
    if argument.startsWith "--" then
      if argument = "--help" then { o with help := true }.extend rest
      else
        match Setting.ofName? argument, rest with
        | none, _ => .error (.error (.unknownOption argument))
        | some _, [] => .error (.error (.missingValue argument))
        | some setting, value :: rest =>
          match o.set setting value with
          | .error e => .error e
          | .ok o => o.extend rest
    else
      match o.path with
      | none => { o with path := some argument }.extend rest
      | some _ => .error (.error (.unexpectedArgument argument))

/-- Reads the arguments of the command line, the program's name left out. -/
def Options.parse (arguments : List String) : Except (Failure OptionError) Options :=
  Options.initial.extend arguments

end ClauseLearning.CommandLine
