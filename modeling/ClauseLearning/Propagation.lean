import ClauseLearning.Database

/-!
# Unit propagation

Each literal on the trail that was not taken up yet falsifies its negation. A clause that watches
the negation looks for another literal to watch; where none is left its other watched literal is
forced, or the clause is in conflict.
-/

namespace ClauseLearning

/-- What a clause does when one of its watched literals became false. -/
inductive Reaction where
  /-- It stays in the row: it is satisfied, or its other watched literal is true by force now. -/
  | stays
  /-- It watches another literal instead and leaves the row. -/
  | moves
  /-- All its literals are false. -/
  | conflicts
  deriving DecidableEq, Repr

/-- Where propagation ends, with the number of the clause in conflict if there is one. -/
structure Propagation where
  conflict : Option Nat
  database : Database
  trail : Trail

namespace Database

/-- What a clause without a replacement does, given the value of its other watched literal. -/
def force (db : Database) (t : Trail) (number : Nat) (other : Literal) (value : Option Bool) :
    Except Fault (Reaction × Database × Trail) :=
  match value with
  | some false => .ok (.conflicts, db, t)
  | _ =>
    match t.assign other (some number) with
    | .error f => .error f
    | .ok none => .ok (.conflicts, db, t)
    | .ok (some t) => .ok (.stays, db, t)

/-- Lets a clause react to its watched literal that became false. -/
def visit (db : Database) (t : Trail) (falsified : Literal) (number : Nat) :
    Except Fault (Reaction × Database × Trail) :=
  if h : number < db.clauses.size then
    let c := db.clauses[number].withSecond falsified
    if c.secondWatched ≠ falsified then .error (.staleWatch number)
    else
      match t.value c.firstWatched with
      | .error f => .error f
      | .ok (some true) => .ok (.stays, { db with clauses := db.clauses.set number c }, t)
      | .ok value =>
        match c.nextUnwatched t 0 with
        | .error f => .error f
        | .ok none => force { db with clauses := db.clauses.set number c } t number c.firstWatched value
        | .ok (some ⟨position, hp⟩) =>
          let db := { db with clauses := db.clauses.set number (c.moveSecond position hp) }
          match db.watch c.literals[position] number with
          | .error f => .error f
          | .ok db => .ok (.moves, db, t)
  else .error (.unknownClause number)

/-- The row without the entry at a position, which the last entry takes over. -/
def dropEntry (row : Array Nat) (i : Nat) (h : i < row.size) : Array Nat :=
  (row.swap i (row.size - 1) h (by omega)).pop

/-- Lets the clauses of a row react in turn, from a position on and up to the first conflict. The
row that is left comes with the result. -/
def scan (db : Database) (t : Trail) (falsified : Literal) (row : Array Nat) (i : Nat) :
    Except Fault (Array Nat × Propagation) :=
  if h : i < row.size then
    match db.visit t falsified row[i] with
    | .error f => .error f
    | .ok (.stays, db, t) => scan db t falsified row (i + 1)
    | .ok (.moves, db, t) => scan db t falsified (dropEntry row i h) i
    | .ok (.conflicts, db, t) => .ok (row, ⟨some row[i], db, t⟩)
  else .ok (row, ⟨none, db, t⟩)
termination_by row.size - i
decreasing_by
  · omega
  · simp only [dropEntry, Array.size_pop, Array.size_swap]
    omega

theorem trail_of_force {db db' : Database} {t t' : Trail} {number : Nat} {other : Literal}
    {value : Option Bool} {r : Reaction} (h : db.force t number other value = .ok (r, db', t')) :
    t'.capacity = t.capacity ∧ t'.head = t.head := by
  unfold force at h
  split at h
  · simp_all
  · split at h
    · simp at h
    · simp_all
    · rename_i ht
      simp only [Except.ok.injEq, Prod.mk.injEq] at h
      obtain ⟨-, -, rfl⟩ := h
      exact Trail.capacity_of_assign ht

theorem trail_of_visit {db db' : Database} {t t' : Trail} {falsified : Literal} {number : Nat}
    {r : Reaction} (h : db.visit t falsified number = .ok (r, db', t')) :
    t'.capacity = t.capacity ∧ t'.head = t.head := by
  unfold visit at h
  split at h
  · simp only at h
    split at h
    · simp at h
    · split at h
      · simp at h
      · simp_all
      · split at h
        · simp at h
        · exact trail_of_force h
        · split at h
          · simp at h
          · simp_all
  · simp at h

theorem trail_of_scan {db : Database} {t : Trail} {falsified : Literal} {row : Array Nat} {i : Nat}
    {row' : Array Nat} {p : Propagation} (h : db.scan t falsified row i = .ok (row', p)) :
    p.trail.capacity = t.capacity ∧ p.trail.head = t.head := by
  fun_induction scan db t falsified row i with
  | case1 => simp at h
  | case2 db t row i hi db' t' hv ih =>
    have := ih h
    have := trail_of_visit hv
    omega
  | case3 db t row i hi db' t' hv ih =>
    have := ih h
    have := trail_of_visit hv
    omega
  | case4 db t row i hi db' t' hv =>
    simp only [Except.ok.injEq, Prod.mk.injEq] at h
    obtain ⟨-, rfl⟩ := h
    exact trail_of_visit hv
  | case5 =>
    simp only [Except.ok.injEq, Prod.mk.injEq] at h
    obtain ⟨-, rfl⟩ := h
    exact ⟨rfl, rfl⟩

/-- Propagates the literals on the trail that were not taken up yet, up to the first conflict. -/
def propagate (db : Database) (t : Trail) : Except Fault Propagation :=
  match _hn : t.next? with
  | none => .ok ⟨none, db, t⟩
  | some (l, t₁) =>
    match db.row l.negate with
    | .error f => .error f
    | .ok row =>
      match _hs : db.scan t₁ l.negate row 0 with
      | .error f => .error f
      | .ok (row, p) =>
        let db := p.database.setRow l.negate row
        if p.conflict.isSome then .ok { p with database := db } else db.propagate p.trail
termination_by t.capacity - t.head
decreasing_by
  obtain ⟨hlt, rfl⟩ := Trail.next?_eq_some _hn
  obtain ⟨hc, hh⟩ := trail_of_scan _hs
  simp only [Trail.capacity] at *
  omega

end Database

end ClauseLearning
