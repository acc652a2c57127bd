import ClauseLearning.Propagation
import ClauseLearning.Search.State

/-!
# Transitions

A search propagates until a conflict or the need of a decision. A conflict is resolved into a learnt
clause, a decision opens a new level; then it propagates again.
-/

namespace ClauseLearning.Search.State

variable {α : Type} [Score α]

/-- Takes back every assignment above a level. The variables wait for decisions again and keep
their phases. -/
def backtrack (s : State α) (level : Nat) : Except Fault (State α) := do
  let (removed, trail) := s.trail.backtrack level
  let ranking ← removed.foldlM (fun r l => r.insert l.var) s.ranking
  let phases ← removed.foldlM Phases.save s.phases
  pure { s with trail, ranking, phases }

/-- Propagates the end of the trail. -/
def propagate (s : State α) : Except Fault (Status × State α) := do
  let p ← s.database.propagate s.trail
  let propagations := s.statistics.propagations + (p.trail.head - s.trail.head)
  let status : Status :=
    match p.conflict with
    | some number => .conflict number
    | none => if p.trail.isComplete then .satisfied else .deciding
  pure (status, { s with
    database := p.database
    trail := p.trail
    statistics := { s.statistics with propagations } })

/-- Makes the variables of a learnt clause more active than before, and older activity weigh less. -/
def rewardLearnt (s : State α) (learnt : Learnt) : Except Fault (State α) := do
  let ranking := (← s.ranking.learn learnt.literals).age
  let rescalings := ranking.rescalings - s.ranking.rescalings
  pure { s with ranking, journal := List.replicate rescalings .rescaled ++ s.journal }

/-- Jumps back to where a learnt clause forces its asserting literal, stores the clause and makes
the literal true. -/
def assertLearnt (s : State α) (learnt : Learnt) : Except Fault (State α) := do
  let s ← s.backtrack learnt.backjump
  let (number, database) ← s.database.add learnt.literals true
  match ← s.trail.assign learnt.asserting (some number) with
  | none => .error (.alreadyFalse learnt.asserting.var.index)
  | some trail =>
    pure { s with
      database, trail
      statistics := { s.statistics with learnt := s.statistics.learnt + 1 } }

/-- Counts the conflict in the restart schedule and goes back to the root level when a restart is
due. -/
def restartIfDue (s : State α) : Except Fault (State α) :=
  match s.schedule.onConflict with
  | (false, schedule) => .ok { s with schedule }
  | (true, schedule) =>
    { s with
      schedule
      statistics := { s.statistics with restarts := s.statistics.restarts + 1 }
      journal := .restarted schedule.restarts s.statistics.conflicts schedule.interval :: s.journal
    }.backtrack 0

/-- Learns from the clause in conflict. At the root level there is nothing to learn: the formula is
refuted. -/
def resolve (s : State α) (number : Nat) : Except Fault (Status × State α) := do
  let s := { s with statistics := { s.statistics with conflicts := s.statistics.conflicts + 1 } }
  if s.trail.level = 0 then pure (.refuted, s)
  else
    match s.database.literals? number with
    | none => .error (.unknownClause number)
    | some conflict =>
      let (learnt, marks) ← analyze s.graph s.trail.level conflict s.trail.literals.toList s.marks
      let told := s.tell (.learnt learnt.literals.length s.trail.level learnt.backjump)
      let rewarded ← { told with marks }.rewardLearnt learnt
      let asserted ← rewarded.assertLearnt learnt
      let s ← asserted.restartIfDue
      pure (.propagating, s)

/-- Decides the highest ranked variable at a new level. -/
def decide (s : State α) : Except Fault (Status × State α) := do
  match s.ranking.take fun v => (s.trail.valueOf v).isSome with
  | (none, ranking) => pure (.satisfied, { s with ranking })
  | (some v, ranking) =>
    let (positive, phases) ← s.phases.choose v
    let trail := s.trail.openLevel
    match ← trail.assign ⟨v, positive⟩ none with
    | none => .error (.alreadyFalse v.index)
    | some assigned =>
      pure (.propagating, { s with
        ranking, phases
        trail := assigned
        statistics := { s.statistics with decisions := s.statistics.decisions + 1 }
        journal := .decided ⟨v, positive⟩ trail.level :: s.journal })

/-- One transition. Whether the time limit has passed matters only where a decision is due. -/
def step (expired : Bool) (status : Status) (s : State α) : Except Fault (Status × State α) :=
  match status with
  | .propagating => s.propagate
  | .conflict number => s.resolve number
  | .deciding => if expired then .ok (.interrupted, s) else s.decide
  | .satisfied | .refuted | .interrupted => .ok (status, s)

end ClauseLearning.Search.State
