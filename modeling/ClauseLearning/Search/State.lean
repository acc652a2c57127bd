import ClauseLearning.Analysis
import ClauseLearning.Formula
import ClauseLearning.Keystream
import ClauseLearning.Phases
import ClauseLearning.Ranking
import ClauseLearning.Restart.Schedule
import ClauseLearning.Search.Journal
import ClauseLearning.Settings

/-!
# The state of a search

All that a search carries from one transition to the next, and how it begins.
-/

namespace ClauseLearning.Search

/-- Where a search stands between two transitions. -/
inductive Status where
  /-- The end of the trail is to be propagated. -/
  | propagating
  /-- All literals of a stored clause are false. -/
  | conflict (number : Nat)
  /-- Propagation is done and some variable is not assigned. -/
  | deciding
  | satisfied
  | refuted
  /-- The time limit has passed. -/
  | interrupted
  deriving DecidableEq, Repr

/-- No transition leads on from the status. -/
def Status.isFinal : Status → Bool
  | .satisfied | .refuted | .interrupted => true
  | .propagating | .conflict _ | .deciding => false

structure State (α : Type) where
  database : Database
  trail : Trail
  marks : Marks
  ranking : Ranking α
  phases : Phases
  schedule : Restart.Schedule
  statistics : Statistics
  /-- The formula has an empty clause or contradicting unit clauses. -/
  refutedAtLoad : Bool
  /-- What happened so far, the latest first. -/
  journal : List Event

namespace State

variable {α : Type}

/-- The state with an event told. -/
def tell (s : State α) (e : Event) : State α := { s with journal := e :: s.journal }

/-- The assignments as conflict analysis sees them. -/
def graph (s : State α) : ImplicationGraph := .ofTrail s.trail s.database

end State

/-- What has been taken in of a formula. -/
structure Loading where
  database : Database
  trail : Trail
  /-- An empty clause or contradicting unit clauses were met. -/
  refuted : Bool

namespace Loading

def start (n : Nat) : Loading := ⟨.empty n, .start n, false⟩

/-- Takes in a clause. A unit clause is also made true at the root level. -/
def load (s : Loading) (c : Clause) : Except Fault Loading :=
  match c.literals with
  | [] => .ok { s with refuted := true }
  | [l] => do
    let (number, database) ← s.database.add [l] false
    match ← s.trail.assign l (some number) with
    | some trail => pure { s with database, trail }
    | none => pure { s with database, refuted := true }
  | literals => do
    let (_, database) ← s.database.add literals false
    pure { s with database }

end Loading

/-- The state before the first transition over a formula. -/
def State.start {α : Type} [Score α] (settings : Settings α) (f : Formula) :
    Except Fault (State α) := do
  let loaded ← f.clauses.foldlM Loading.load (.start f.varCount)
  let ranking ← Ranking.start f.occurrences settings.decay
    (Keystream.fraction (Keystream.keyOfSeed settings.seed))
  pure {
    database := loaded.database
    trail := loaded.trail
    marks := .clear f.varCount
    ranking := ranking
    phases := .start f.varCount settings.polarity
      (Keystream.coin (Keystream.keyOfSeed (settings.seed + 1)))
    schedule := .start settings.restart
    statistics := .zero
    refutedAtLoad := loaded.refuted
    journal := [.loaded f.varCount loaded.database.clauses.size settings.restart settings.polarity
      settings.seed] }

end ClauseLearning.Search
