import ClauseLearning.Implication

/-!
# Conflict analysis

A conflict is resolved against the reasons of the current level's literals, from the end of the
trail on, until one literal of the level is left: the first unique implication point. What results
is a clause that would have forced that literal's negation at an earlier level.
-/

namespace ClauseLearning

/-- A clause derived from a conflict. -/
structure Learnt where
  /-- The literal that the clause forces after the backjump. -/
  asserting : Literal
  /-- The other literals, one of the highest level among them first. -/
  others : List Literal
  /-- The level at which the clause forces its asserting literal. -/
  backjump : Nat
  deriving DecidableEq, Repr

def Learnt.literals (learnt : Learnt) : List Literal := learnt.asserting :: learnt.others

/-- The marks that conflict analysis makes. They are kept from one conflict to the next and clear
in between. -/
structure Marks where
  /-- Whether each variable is marked, by index. -/
  seen : Array Bool
  /-- The marked variables. -/
  marked : Array Variable
  /-- The literals of earlier levels that go into the learnt clause. -/
  recorded : Array Literal
  /-- The number of marked variables of the current level that are not resolved yet. -/
  unresolved : Nat
  deriving DecidableEq, Repr

namespace Marks

/-- The marks over `n` variables when none is marked. -/
def clear (n : Nat) : Marks := ⟨Array.replicate n false, #[], #[], 0⟩

/-- Whether a variable is marked. -/
def isSeen (m : Marks) (v : Variable) : Except Fault Bool :=
  match m.seen[v.index]? with
  | some seen => .ok seen
  | none => .error (.outOfScope v.index)

/-- Marks the variable of a literal. One of the current level awaits its resolution, one of an
earlier level goes into the learnt clause, and one of the root level goes nowhere. -/
def note (g : ImplicationGraph) (current : Nat) (m : Marks) (l : Literal) : Except Fault Marks := do
  if ← m.isSeen l.var then pure m
  else
    let m := { m with seen := m.seen.setIfInBounds l.var.index true, marked := m.marked.push l.var }
    let level := g.level l.var
    pure <|
      if level = current then { m with unresolved := m.unresolved + 1 }
      else if level = 0 then m
      else { m with recorded := m.recorded.push l }

/-- Marks the variables of a clause. -/
def noteAll (g : ImplicationGraph) (current : Nat) (m : Marks) (clause : List Literal) :
    Except Fault Marks :=
  clause.foldlM (note g current) m

/-- Takes back every mark. -/
def reset (m : Marks) : Marks where
  seen := m.marked.foldl (fun seen v => seen.setIfInBounds v.index false) m.seen
  marked := #[]
  recorded := #[]
  unresolved := 0

end Marks

/-- The position of the last literal of the highest level, with that level. -/
def highestLevel? (g : ImplicationGraph) (ls : List Literal) : Option (Nat × Nat) :=
  ls.zipIdx.foldl
    (fun best (l, i) =>
      match best with
      | some (_, level) => if g.level l.var < level then best else some (i, g.level l.var)
      | none => some (i, g.level l.var))
    none

/-- The clause of an implication point and the literals recorded for it. The first recorded
literal goes last; then one of the highest level changes places with the one in front. -/
def Learnt.ofRecorded (g : ImplicationGraph) (asserting : Literal) (recorded : Array Literal) :
    Learnt :=
  let others := recorded.toList.rotateLeft 1
  match highestLevel? g others with
  | none => ⟨asserting, others, 0⟩
  | some (position, level) => ⟨asserting, (others.toArray.swapIfInBounds 0 position).toList, level⟩

/-- Resolves marked variables against their reasons, given the trail with the latest literal
first. -/
def resolveBack (g : ImplicationGraph) (current : Nat) (m : Marks) :
    List Literal → Except Fault (Learnt × Marks)
  | [] => .error .noImplicationPoint
  | l :: earlier => do
    if ← m.isSeen l.var then
      match m.unresolved with
      | 0 => .error .unmarkedLevel
      | 1 =>
        match g.value l.var with
        | none => .error (.unassigned l.var.index)
        | some value => .ok (.ofRecorded g ⟨l.var, !value⟩ m.recorded, m.reset)
      | unresolved + 2 =>
        match g.reason l.var with
        | none => .error (.noReason l.var.index)
        | some reason =>
          let m ← { m with unresolved := unresolved + 1 }.noteAll g current reason
          resolveBack g current m earlier
    else resolveBack g current m earlier

/-- Learns a clause from a clause in conflict at the current level, given the trail with the oldest
literal first. -/
def analyze (g : ImplicationGraph) (current : Nat) (conflict : List Literal) (trail : List Literal)
    (m : Marks) : Except Fault (Learnt × Marks) := do
  if current = 0 then .error .rootConflict
  else
    let m ← m.noteAll g current conflict
    resolveBack g current m trail.reverse

end ClauseLearning
