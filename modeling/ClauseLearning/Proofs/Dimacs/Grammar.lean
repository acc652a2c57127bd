import Mathlib
import ClauseLearning.Dimacs.Reader
import ClauseLearning.Proofs.Formula
import ClauseLearning.Proofs.Text.Words

/-!
# The grammar of DIMACS

Which bytes are a formula, and which formula they are, said without the reader: a layout gives the
tokens of the bytes, and the tokens denote a formula.
-/

namespace ClauseLearning

namespace Dimacs

variable {bytes : List UInt8} {n m n' m' : Nat} {tokens tokens' : List (List Char)}

/-! ## Lines -/

/-- The line begins with the character, blanks aside. -/
def startsWith (c : Char) (text : List Char) : Bool := (Text.trim text).head? == some c

/-- The line is neither blank nor a comment. -/
def isSignificant (text : List Char) : Bool := !(Text.trim text).isEmpty && !startsWith 'c' text

/-- The line ends the text of a formula. -/
def isEnd (bytes : List UInt8) : Bool := (Text.decode? bytes).any (startsWith '%')

/-- The significant lines among the given ones before the first that ends the text. There are none
if a line up to there is not UTF-8. -/
def statements? (lines : List (List UInt8)) : Option (List (List Char)) :=
  ((lines.takeWhile fun line => !isEnd line).mapM Text.decode?).map (·.filter isSignificant)

/-- The bytes are a problem line for `n` variables and `m` clauses, and then lines with the tokens,
with blank lines and comments anywhere. -/
def Layout (bytes : List UInt8) (n m : Nat) (tokens : List (List Char)) : Prop :=
  ∃ problem rest varCount clauseCount, statements? (Text.lines bytes) = some (problem :: rest) ∧
    Text.words problem = [['p'], ['c', 'n', 'f'], varCount, clauseCount] ∧
    Text.readDecimal varCount = .ok n ∧ Text.readDecimal clauseCount = .ok m ∧
    (∀ text ∈ rest, startsWith 'p' text = false) ∧ tokens = rest.flatMap Text.words

/-- Bytes have one layout at most. -/
theorem Layout.unique (h : Layout bytes n m tokens) (h' : Layout bytes n' m' tokens') :
    n' = n ∧ m' = m ∧ tokens' = tokens := by
  obtain ⟨problem, rest, varCount, clauseCount, htexts, hwords, hn, hm, -, rfl⟩ := h
  obtain ⟨problem', rest', varCount', clauseCount', htexts', hwords', hn', hm', -, rfl⟩ := h'
  cases htexts.symm.trans htexts'
  cases hwords.symm.trans hwords'
  cases hn.symm.trans hn'
  cases hm.symm.trans hm'
  exact ⟨rfl, rfl, rfl⟩

/-! ## Tokens -/

/-- The token that ends a clause. -/
def terminator : List Char := ['0']

/-- The tokens between the terminators. Those after the last one are left out. -/
def groups (tokens : List (List Char)) : List (List (List Char)) :=
  (Text.split (· == terminator) tokens).dropLast

/-- The literals that tokens stand for. -/
def literalsOf (tokens : List (List Char)) : List Literal :=
  tokens.filterMap fun token => (Literal.parse token).toOption

/-- The token ends a clause or is a literal over the first `n` variables. -/
def IsToken (n : Nat) (token : List Char) : Prop :=
  token = terminator ∨ ∃ l, Literal.parse token = .ok l ∧ l.var.id ≤ n

/-- The tokens are the clauses of a formula over `n` variables, `m` of them, each with its
terminator. -/
structure Denotes (n m : Nat) (tokens : List (List Char)) (f : Formula) : Prop where
  bound : n ≤ Variable.maxId
  isToken : ∀ token ∈ tokens, IsToken n token
  ended : ∀ token, tokens.getLast? = some token → token = terminator
  count : tokens.count terminator = m
  varCount : f.varCount = n
  clauses : f.clauses.toList.map Clause.literals =
    (groups tokens).map fun group => (literalsOf group).eraseDups

end Dimacs

end ClauseLearning
