import ClauseLearning.CommandLine.Options
import ClauseLearning.Dimacs.Reader
import ClauseLearning.Search.Run

/-!
# Responses

What a run of the program leaves behind: the text it prints and its exit code.
-/

namespace ClauseLearning.CommandLine

inductive ProgramError where
  | options (cause : OptionError)
  | formula (cause : Dimacs.ReadError)
  deriving DecidableEq, Repr

def ProgramError.report (program : String) : ProgramError → Report
  | .options cause => cause.report program
  | .formula cause => .because "Failed to parse CNF" cause.report

structure Response where
  code : Nat
  output : String
  errors : String
  deriving DecidableEq, Repr

namespace Response

/-- The answer to a request for help. -/
def usage (program : String) : Response := ⟨0, CommandLine.usage program ++ "\n", ""⟩

def ofError (program : String) (e : ProgramError) : Response :=
  ⟨1, "", "Error: " ++ (e.report program).render ++ "\n"⟩

/-- A line with the answer, and below it the model if there is one. -/
def ofOutcome : Search.Outcome → Response
  | .satisfiable model => ⟨0, s!"SAT\n{model.renderLiterals}\n", ""⟩
  | .unsatisfiable => ⟨0, "UNSAT\n", ""⟩
  | .unknown => ⟨0, "UNKNOWN\n", ""⟩

/-- A run that a fault broke off. -/
def broken : Response := ⟨101, "", ""⟩

/-- The response that a run comes to. -/
def ofResult (program : String) : Except (Failure ProgramError) Response → Response
  | .ok response => response
  | .error (.error e) => ofError program e
  | .error (.fault _) => broken

end Response

/-- Reads the options. -/
def readOptions (arguments : List String) : Except (Failure ProgramError) Options :=
  (Options.parse arguments).mapError (Failure.map .options)

/-- Reads the formula of a source, given the bytes that the system has for it. -/
def readFormula (source : Source) (bytes : Except SourceError (List UInt8)) :
    Except (Failure ProgramError) Formula :=
  (Dimacs.readSource source bytes).mapError (Failure.map .formula)

/-- A whole run of the program, where the bytes of sources, the readings of the clock and the seed
that the run draws are given. -/
def respond (program : String) (bytes : Source → Except SourceError (List UInt8))
    (clock : Nat → Instant) (drawn : UInt64) (arguments : List String) : Response :=
  .ofResult program do
    let options ← readOptions arguments
    if options.help then pure (.usage program)
    else
      let formula ← readFormula options.source (bytes options.source)
      let (outcome, _) ← Failure.ofFault (Search.solve clock (options.settingsFor drawn) formula)
      pure (.ofOutcome outcome)

end ClauseLearning.CommandLine
