import ClauseLearning.Fault
import ClauseLearning.Literal

/-!
# The trail

The true literals in the order in which they became true, cut into decision levels. Each assigned
variable has its value, its level and the clause that forced it, if one did.
-/

namespace ClauseLearning

/-- What is known of an assigned variable. -/
structure Assignment where
  value : Bool
  level : Nat
  /-- The number of the clause that forced the value; a decision has none. -/
  reason : Option Nat
  deriving DecidableEq, Repr

structure Trail where
  /-- The assignment of each variable, by index. -/
  cells : Array (Option Assignment)
  /-- The true literals, the oldest first. -/
  literals : Array Literal
  /-- The lengths that the trail had when level 1 and each later level began. -/
  starts : Array Nat
  /-- The number of literals that propagation has taken up. -/
  head : Nat
  deriving DecidableEq, Repr

namespace Trail

/-- The trail over `n` variables of which none is assigned. -/
def start (n : Nat) : Trail := ⟨Array.replicate n none, #[], #[], 0⟩

/-- The current decision level; the root level is 0. -/
def level (t : Trail) : Nat := t.starts.size

def isComplete (t : Trail) : Bool := t.literals.size == t.cells.size

/-- The assignment of a variable, if it is known and assigned. -/
def assignment? (t : Trail) (v : Variable) : Option Assignment := t.cells[v.index]?.join

/-- The value of a variable, if it has one. -/
def valueOf (t : Trail) (v : Variable) : Option Bool := (t.assignment? v).map (·.value)

/-- The level at which a variable was assigned; unassigned variables count as root level. -/
def levelOf (t : Trail) (v : Variable) : Nat := ((t.assignment? v).map (·.level)).getD 0

/-- The clause that forced a variable. -/
def reasonOf (t : Trail) (v : Variable) : Option Nat := (t.assignment? v).bind (·.reason)

/-- The value of a literal, if its variable has one. -/
def value (t : Trail) (l : Literal) : Except Fault (Option Bool) :=
  if l.var.index < t.cells.size then .ok ((t.valueOf l.var).map l.eval)
  else .error (.outOfScope l.var.index)

/-- The value of each variable; unassigned ones count as false. -/
def values (t : Trail) : Array Bool := t.cells.map fun cell => (cell.map (·.value)).getD false

/-- Makes a literal true at the current level. Nothing happens if it is true already, and there is
no such trail if it is false. -/
def assign (t : Trail) (l : Literal) (reason : Option Nat) : Except Fault (Option Trail) :=
  if h : l.var.index < t.cells.size then
    match t.cells[l.var.index] with
    | some a => .ok (if l.eval a.value then some t else none)
    | none =>
      .ok (some { t with
        cells := t.cells.set l.var.index (some ⟨l.positive, t.level, reason⟩)
        literals := t.literals.push l })
  else .error (.outOfScope l.var.index)

/-- Begins a new level at the end of the trail. -/
def openLevel (t : Trail) : Trail := { t with starts := t.starts.push t.literals.size }

/-- The length that the trail has without the levels above the given one. -/
def lengthAt (t : Trail) (level : Nat) : Nat := t.starts[level]?.getD t.literals.size

/-- Takes back every assignment above a level. The literals taken back come with the trail, the
latest first. -/
def backtrack (t : Trail) (level : Nat) : List Literal × Trail :=
  let keep := t.lengthAt level
  let removed := (t.literals.toList.drop keep).reverse
  (removed, {
    cells := removed.foldl (fun cells l => cells.setIfInBounds l.var.index none) t.cells
    literals := t.literals.take keep
    starts := t.starts.take level
    head := min t.head keep })

/-- The oldest literal that propagation has not taken up yet, and the trail once it has. -/
def next? (t : Trail) : Option (Literal × Trail) :=
  t.literals[t.head]?.map fun l => (l, { t with head := t.head + 1 })

/-- The length of the trail were every variable assigned: no assignment changes it. -/
def capacity (t : Trail) : Nat := t.cells.count none + t.literals.size

theorem capacity_of_assign {t t' : Trail} {l : Literal} {reason : Option Nat}
    (h : t.assign l reason = .ok (some t')) : t'.capacity = t.capacity ∧ t'.head = t.head := by
  unfold assign at h
  split at h
  · rename_i hl
    split at h
    · split at h <;> simp_all
    · rename_i hc
      have hpos : 0 < t.cells.count none := Array.count_pos_iff.2 (hc ▸ Array.getElem_mem hl)
      simp only [Except.ok.injEq, Option.some.injEq] at h
      subst h
      refine ⟨?_, rfl⟩
      simp only [capacity, Array.size_push, Array.count_set hl, hc]
      simp only [BEq.rfl, if_true, reduceCtorEq, beq_iff_eq, if_false]
      omega
  · simp at h

theorem next?_eq_some {t t' : Trail} {l : Literal} (h : t.next? = some (l, t')) :
    t.head < t.literals.size ∧ t' = { t with head := t.head + 1 } := by
  simp only [next?, Option.map_eq_some_iff, Prod.mk.injEq] at h
  obtain ⟨m, hm, rfl, rfl⟩ := h
  exact ⟨(Array.getElem?_eq_some_iff.1 hm).1, rfl⟩

end Trail

end ClauseLearning
