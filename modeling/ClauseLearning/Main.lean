import ClauseLearning.CommandLine.Response

/-!
# The program

Reads a formula and prints the answer of a search, as its arguments ask.
-/

namespace ClauseLearning.CommandLine

/-- Why the bytes of a file cannot be had. The number of the error may come negated. -/
def sourceError : IO.Error → SourceError
  | .noFileOrDirectory _ number text | .inappropriateType _ number text
  | .permissionDenied _ number text | .invalidArgument _ number text =>
    .ofNumber (min number (-number)).toNat text
  | e => .system e.toString 0

/-- The bytes of a source. -/
def readSource (source : Source) : IO (Except SourceError (List UInt8)) := do
  try
    match source with
    | .standardInput => return .ok (← (← IO.getStdin).readBinToEnd).toList
    | .file path => return .ok (← IO.FS.readBinFile path).toList
  catch e => return .error (sourceError e)

def readClock : IO Instant := return ⟨← IO.monoNanosNow⟩

/-- A seed drawn at random. -/
def drawSeed : IO UInt64 :=
  return (← IO.getRandomBytes 8).toList.foldl (fun seed b => seed * 256 + b.toUInt64) 0

/-- Makes transitions up to a final status, and reads the clock where a decision is due. -/
partial def drive (deadline : Option Instant) (status : Search.Status) (s : Search.State Float) :
    IO (Except Fault (Search.Status × Search.State Float)) := do
  if status.isFinal then return .ok (status, s)
  let now ← if status = .deciding then readClock else pure ⟨0⟩
  match s.step (Search.isExpired deadline now) status with
  | .error f => return .error f
  | .ok (status, s) => drive deadline status s

/-- A whole run of the program. -/
def runProgram (program : String) (arguments : List String) :
    ExceptT (Failure ProgramError) IO Response := do
  let options ← ofExcept (readOptions arguments)
  if options.help then return .usage program
  let settings := options.settingsFor (← drawSeed)
  let formula ← ofExcept (readFormula options.source (← readSource options.source))
  let solver ← ofExcept (Failure.ofFault (Search.State.start settings formula))
  let (status, deadline) ← ofExcept (Failure.ofFault (solver.begin (← readClock) settings.timeLimit))
  let (status, solver) ← ofExcept (Failure.ofFault (← drive deadline status solver))
  return .ofOutcome (← ofExcept (Failure.ofFault (Search.outcome formula status solver)))

/-- Runs the program, prints its response and gives its exit code. -/
def runAndPrint (arguments : List String) : IO UInt32 := do
  let program := (← IO.appPath).toString
  let response := Response.ofResult program (← runProgram program arguments)
  (← IO.getStdout).putStr response.output
  (← IO.getStderr).putStr response.errors
  return .ofNat response.code

end ClauseLearning.CommandLine

def main (arguments : List String) : IO UInt32 :=
  ClauseLearning.CommandLine.runAndPrint arguments
