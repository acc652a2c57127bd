import ClauseLearning.Fault
import ClauseLearning.Literal
import ClauseLearning.Polarity

/-!
# Phases

The value that a decision gives to its variable, by polarity mode.
-/

namespace ClauseLearning

structure Phases where
  mode : Polarity
  /-- The value that each variable had when it was last taken back, by index. -/
  saved : Array Bool
  /-- Tosses of a fair coin, in order. -/
  coins : Nat → Bool
  tossed : Nat

namespace Phases

/-- The phases of `n` variables of which none was assigned yet. -/
def start (n : Nat) (mode : Polarity) (coins : Nat → Bool) : Phases :=
  ⟨mode, Array.replicate n false, coins, 0⟩

/-- Chooses the value for a decision. -/
def choose (p : Phases) (v : Variable) : Except Fault (Bool × Phases) :=
  match p.mode with
  | .random => .ok (p.coins p.tossed, { p with tossed := p.tossed + 1 })
  | .saved =>
    match p.saved[v.index]? with
    | some value => .ok (value, p)
    | none => .error (.outOfScope v.index)
  | .positive => .ok (true, p)
  | .negative => .ok (false, p)

/-- Remembers the value that made a literal true. -/
def save (p : Phases) (l : Literal) : Except Fault Phases :=
  if h : l.var.index < p.saved.size then
    .ok { p with saved := p.saved.set l.var.index l.positive }
  else .error (.outOfScope l.var.index)

end Phases

end ClauseLearning
