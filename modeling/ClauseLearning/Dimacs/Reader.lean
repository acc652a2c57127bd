import ClauseLearning.Dimacs.Error
import ClauseLearning.Formula
import ClauseLearning.Text.Split

/-!
# Reading DIMACS

A formula in DIMACS form: comments, a problem line, then clauses that end in `0` and may run over
several lines. The first line that starts with a percent sign ends the text.
-/

namespace ClauseLearning.Dimacs

/-- What was read since the problem line. -/
structure Progress where
  formula : Formula
  /-- The number of clauses that the problem line promises. -/
  declared : Nat
  /-- The literals of the clause that has not ended yet. -/
  pending : Array Literal

/-- Reads the two numbers of a problem line. -/
def readProblem : List (List Char) → Except ReadError (Nat × Nat)
  | [['p'], ['c', 'n', 'f'], varCount, clauseCount] =>
    match Text.readDecimal varCount, Text.readDecimal clauseCount with
    | .ok n, .ok m => .ok (n, m)
    | _, _ => .error .malformedProblem
  | _ => .error .malformedProblem

/-- Reads a literal over the first `n` variables, from a word of the given line. -/
def readLiteral (line n : Nat) (word : List Char) : Except ReadError Literal :=
  match Literal.parse word with
  | .error cause => .error (.malformedLiteral line (String.ofList word) cause)
  | .ok l =>
    if l.var.id ≤ n then .ok l else .error (.variableOutOfRange line (String.ofList word) n)

/-- Reads a word of a clause line: `0` ends the clause, anything else adds a literal to it. -/
def readWord (line : Nat) (p : Progress) (word : List Char) : Except (Failure ReadError) Progress := do
  if word = ['0'] then
    let formula ← Failure.ofFault (p.formula.add ⟨p.pending.toList⟩)
    pure { p with formula, pending := #[] }
  else
    let l ← Failure.ofError (readLiteral line p.formula.varCount word)
    pure { p with pending := p.pending.push l }

/-- Reads a line that is neither blank nor a comment, given its words. -/
def readStatement (line : Nat) (words : List (List Char)) :
    Option Progress → Except (Failure ReadError) Progress
  | none => do
    if words.head?.bind List.head? = some 'p' then
      let (n, declared) ← Failure.ofError (readProblem words)
      let formula ← Failure.ofFault (Formula.empty n)
      pure ⟨formula, declared, #[]⟩
    else .error (.error .malformedProblem)
  | some p =>
    if words.head?.bind List.head? = some 'p' then .error (.error .malformedProblem)
    else words.foldlM (readWord line) p

/-- Reads lines, of which the first has the given number. -/
def readLines (name : String) :
    Nat → Option Progress → List (List UInt8) → Except (Failure ReadError) (Option Progress)
  | _, progress, [] => .ok progress
  | line, progress, bytes :: rest =>
    match Text.decode? bytes with
    | none => .error (.error (.source name .notUtf8))
    | some text =>
      match Text.words text with
      | [] | ('c' :: _) :: _ => readLines name (line + 1) progress rest
      | ('%' :: _) :: _ => .ok progress
      | words =>
        match readStatement line words progress with
        | .error e => .error e
        | .ok p => readLines name (line + 1) (some p) rest

/-- The formula that was read, once all its clauses have ended and their number is as promised. -/
def finish : Option Progress → Except ReadError Formula
  | none => .error .malformedProblem
  | some p =>
    if ¬ p.pending.isEmpty then .error .unterminatedClause
    else if p.formula.clauses.size = p.declared then .ok p.formula
    else .error (.clauseCount p.declared p.formula.clauses.size)

/-- Reads a formula from bytes; the name of their source only goes into error messages. -/
def read (name : String) (bytes : List UInt8) : Except (Failure ReadError) Formula := do
  let progress ← readLines name 1 none (Text.lines bytes)
  Failure.ofError (finish progress)

/-- Reads the formula of a source, given the bytes that the system has for it. -/
def readSource (source : Source) (bytes : Except SourceError (List UInt8)) :
    Except (Failure ReadError) Formula :=
  match source.ask bytes with
  | .error cause => .error (.error (.source source.name cause))
  | .ok bytes => read source.name bytes

end ClauseLearning.Dimacs
