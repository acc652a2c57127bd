import ClauseLearning.Literal
import ClauseLearning.Polarity
import ClauseLearning.Restart.Policy

/-!
# The journal of a search

What a search tells of its course, at levels of detail that a reader can choose from.
-/

namespace ClauseLearning.Search

/-- Counts of what happened in a search. -/
structure Statistics where
  decisions : Nat
  propagations : Nat
  conflicts : Nat
  learnt : Nat
  restarts : Nat
  deriving DecidableEq, Repr

def Statistics.zero : Statistics := ⟨0, 0, 0, 0, 0⟩

def Statistics.render (s : Statistics) : String :=
  s!"{s.decisions} decisions, {s.propagations} propagations, {s.conflicts} conflicts, {s.learnt} learnt clauses, {s.restarts} restarts"

inductive Event where
  | loaded (varCount clauseCount : Nat) (restart : Restart.Policy) (polarity : Polarity) (seed : UInt64)
  | decided (literal : Literal) (level : Nat)
  | learnt (size level backjump : Nat)
  | rescaled
  | restarted (number conflicts : Nat) (next : Option Nat)
  | finished (statistics : Statistics)
  | stored (clauses learnt : Nat)
  deriving DecidableEq, Repr

/-- Levels of detail, from the coarsest to the finest. -/
inductive Detail where
  | error
  | warn
  | info
  | debug
  | trace
  deriving DecidableEq, Repr

namespace Detail

def rank : Detail → Nat
  | .error => 0
  | .warn => 1
  | .info => 2
  | .debug => 3
  | .trace => 4

def label : Detail → String
  | .error => "ERROR"
  | .warn => "WARN"
  | .info => "INFO"
  | .debug => "DEBUG"
  | .trace => "TRACE"

end Detail

namespace Event

def detail : Event → Detail
  | .finished _ => .info
  | .loaded .. | .restarted .. | .stored .. => .debug
  | .decided .. | .learnt .. | .rescaled => .trace

def renderInterval : Option Nat → String
  | none => "None"
  | some n => s!"Some({n})"

def message : Event → String
  | .loaded varCount clauseCount restart polarity seed =>
    s!"Loaded {varCount} variables, {clauseCount} clauses, restart policy {restart.render}, polarity {polarity.describe}, seed {seed.toNat}"
  | .decided literal level => s!"Decide {literal.render} at level {level}"
  | .learnt size level backjump => s!"Learnt clause of {size} literals, backjump {level} -> {backjump}"
  | .rescaled => "VSIDS rebalance"
  | .restarted number conflicts next =>
    s!"Restart #{number} after {conflicts} conflicts, next in {renderInterval next}"
  | .finished statistics => s!"Search finished: {statistics.render}"
  | .stored clauses derived => s!"Clause database holds {clauses} clauses, {derived} learnt"

/-- The event as a line of the journal, if it is told at the given level of detail. -/
def line? (limit : Detail) (e : Event) : Option String :=
  if e.detail.rank ≤ limit.rank then some s!"{e.detail.label} {e.message}" else none

end Event

end ClauseLearning.Search
