import ClauseLearning.Trail

/-!
# The clause database

Clauses are numbered in the order in which they were stored. A clause of two or more literals
watches two of them, and the row of a literal lists the clauses that watch it.
-/

namespace ClauseLearning

structure StoredClause where
  literals : Array Literal
  learnt : Bool
  /-- The positions of the two watched literals; a unit clause has its only position twice. -/
  first : Nat
  second : Nat
  first_lt : first < literals.size
  second_lt : second < literals.size

namespace StoredClause

/-- The clause of one literal, which it watches twice. -/
def unit (l : Literal) (learnt : Bool) : StoredClause :=
  ⟨#[l], learnt, 0, 0, by simp, by simp⟩

/-- A longer clause, which begins by watching its first two literals. -/
def ofLiterals (a b : Literal) (rest : List Literal) (learnt : Bool) : StoredClause :=
  ⟨(a :: b :: rest).toArray, learnt, 0, 1, by simp, by simp⟩

def firstWatched (c : StoredClause) : Literal := getElem c.literals c.first c.first_lt

def secondWatched (c : StoredClause) : Literal := getElem c.literals c.second c.second_lt

/-- The clause with its watches exchanged if the first one is `l`. -/
def withSecond (c : StoredClause) (l : Literal) : StoredClause :=
  if c.firstWatched = l then
    { c with first := c.second, second := c.first, first_lt := c.second_lt, second_lt := c.first_lt }
  else c

/-- The clause with its second watch at another position. -/
def moveSecond (c : StoredClause) (position : Nat) (h : position < c.literals.size) : StoredClause :=
  { c with second := position, second_lt := h }

/-- The first position from the given one on that is not watched and holds no false literal. -/
def nextUnwatched (c : StoredClause) (t : Trail) (position : Nat) :
    Except Fault (Option { p : Nat // p < c.literals.size }) :=
  if h : position < c.literals.size then
    if position = c.first ∨ position = c.second then c.nextUnwatched t (position + 1)
    else
      match t.value c.literals[position] with
      | .error f => .error f
      | .ok (some false) => c.nextUnwatched t (position + 1)
      | .ok _ => .ok (some ⟨position, h⟩)
  else .ok none
termination_by c.literals.size - position

end StoredClause

structure Database where
  clauses : Array StoredClause
  /-- The numbers of the clauses that watch each literal, by its code. -/
  rows : Array (Array Nat)

namespace Database

/-- The database over `n` variables that stores no clause. -/
def empty (n : Nat) : Database := ⟨#[], Array.replicate (2 * n) #[]⟩

/-- The literals of a stored clause. -/
def literals? (db : Database) (number : Nat) : Option (List Literal) :=
  db.clauses[number]?.map (·.literals.toList)

def learntCount (db : Database) : Nat := db.clauses.countP (·.learnt)

/-- The clauses that watch a literal. -/
def row (db : Database) (l : Literal) : Except Fault (Array Nat) :=
  match db.rows[l.code]? with
  | some row => .ok row
  | none => .error (.outOfScope l.var.index)

/-- Replaces the row of a literal. -/
def setRow (db : Database) (l : Literal) (row : Array Nat) : Database :=
  { db with rows := db.rows.setIfInBounds l.code row }

/-- Lists a clause in the row of a literal. -/
def watch (db : Database) (l : Literal) (number : Nat) : Except Fault Database := do
  let row ← db.row l
  pure (db.setRow l (row.push number))

/-- Stores a clause under the next number and watches its first two literals. -/
def add (db : Database) (literals : List Literal) (learnt : Bool) : Except Fault (Nat × Database) :=
  let number := db.clauses.size
  match literals with
  | [] => .error .emptyClause
  | [l] => .ok (number, { db with clauses := db.clauses.push (.unit l learnt) })
  | a :: b :: rest => do
    let db := { db with clauses := db.clauses.push (.ofLiterals a b rest learnt) }
    let db ← db.watch a number
    let db ← db.watch b number
    pure (number, db)

end Database

end ClauseLearning
