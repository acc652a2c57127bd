import ClauseLearning.Report

/-!
# Sources

Where the text of a formula comes from, and why it may not be had.
-/

namespace ClauseLearning

inductive Source where
  | standardInput
  | file (path : String)
  deriving DecidableEq, Repr

inductive SourceError where
  /-- The system refused, with its own text and number for the error. -/
  | system (text : String) (number : Nat)
  /-- The path holds a NUL character, which ends a path for the system. -/
  | nulInPath
  /-- The bytes are not UTF-8. -/
  | notUtf8
  deriving DecidableEq, Repr

namespace Source

/-- The name of the source in error messages. -/
def name : Source → String
  | .standardInput => "<stdin>"
  | .file path => path

/-- The bytes of the source, given what the system has for it. A path with a NUL character does not
reach the system. -/
def ask (source : Source) (bytes : Except SourceError (List UInt8)) :
    Except SourceError (List UInt8) :=
  match source with
  | .standardInput => bytes
  | .file path => if path.toList.contains '\x00' then .error .nulInPath else bytes

end Source

namespace SourceError

def notFound : SourceError := .system "No such file or directory" 2

def isDirectory : SourceError := .system "Is a directory" 21

def nameTooLong : SourceError := .system "File name too long" 36

def notDirectory : SourceError := .system "Not a directory" 20

/-- The error that the system numbers so, by its usual text where there is one. -/
def ofNumber (number : Nat) (text : String) : SourceError :=
  let known := [notFound, notDirectory, isDirectory, nameTooLong].find? fun
    | .system _ n => n = number
    | .nulInPath | .notUtf8 => false
  known.getD (.system text number)

def message : SourceError → String
  | .system text number => s!"{text} (os error {number})"
  | .nulInPath => "file name contained an unexpected NUL byte"
  | .notUtf8 => "stream did not contain valid UTF-8"

def report (e : SourceError) : Report := .simple e.message

end SourceError

end ClauseLearning
