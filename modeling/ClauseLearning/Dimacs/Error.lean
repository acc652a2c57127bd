import ClauseLearning.Source
import ClauseLearning.Variable

/-!
# Errors of the DIMACS reader
-/

namespace ClauseLearning.Dimacs

inductive ReadError where
  | source (name : String) (cause : SourceError)
  | malformedLiteral (line : Nat) (token : String) (cause : Variable.ParseError)
  | variableOutOfRange (line : Nat) (token : String) (varCount : Nat)
  | malformedProblem
  | unterminatedClause
  | clauseCount (expected found : Nat)
  deriving DecidableEq, Repr

def ReadError.report : ReadError → Report
  | .source name cause =>
    .because s!"I/O error occurred while reading CNF from '{name}'" cause.report
  | .malformedLiteral line token cause =>
    .because s!"Invalid literal '{token}' on line {line}" cause.report
  | .variableOutOfRange line token varCount =>
    .simple s!"Literal '{token}' on line {line} refers to a variable above the declared {varCount}"
  | .malformedProblem =>
    .simple "Problem line 'p cnf <num_variables> <num_clauses>' is not found"
  | .unterminatedClause => .simple "The last clause is not terminated by 0"
  | .clauseCount expected found =>
    .simple s!"The number of clauses ({found}) does not match the clauses number in the problem definition ({expected})"

end ClauseLearning.Dimacs
