import Mathlib
import ClauseLearning.Proofs.Ranking.Order
import ClauseLearning.Proofs.Search.Reachable

/-!
# Decisions

No variable is lost: in every state of a search the variables that are not assigned wait, each once
and with its present score and nonce. So a decision is for one of them, and for the highest ranked.
-/

namespace ClauseLearning

namespace Ranking

variable {α : Type} [Score α] {r : Ranking α} {n : Nat} {v : Variable} {assigned : Variable → Bool}

/-- The variable ranks above all others of the first `n` that are not assigned. Its score is higher,
or both scores tie and its nonce is higher, or the nonces are equal too and its index is higher. -/
def Best (r : Ranking α) (n : Nat) (assigned : Variable → Bool) (v : Variable) : Prop :=
  ∃ top, r.key? v = some top ∧ ∀ u, u.index < n → assigned u = false → u ≠ v →
    ∃ k, r.key? u = some k ∧ (Score.less k.score top.score = true ∨
      Score.less top.score k.score = false ∧
        (k.nonce < top.nonce ∨ k.nonce = top.nonce ∧ u.index < v.index))

omit [Score α] in
theorem score_mem_activities {k : Key α} (h : r.key? v = some k) : k.score ∈ r.activities := by
  obtain ⟨e, he, rfl⟩ := Option.map_eq_some_iff.1 h
  exact Array.mem_map.2 ⟨e, Array.mem_of_getElem? he, rfl⟩

theorem Offers.take_best (h : r.Offers n assigned)
    (hordered : Score.OrderedOn fun a => a ∈ r.activities)
    (htake : (r.take assigned).1 = some v) : r.Best n assigned v := by
  have hscores : ∀ k ∈ r.waiting.keys, k.score ∈ r.activities := fun k hk =>
    score_mem_activities (h.inStep.current k hk)
  obtain ⟨top, hmem, rfl, hmax⟩ := Waiting.pop_max hordered hscores htake
  refine ⟨top, h.inStep.current top hmem, fun u hu hfree hne => ?_⟩
  obtain ⟨k, hk, rfl⟩ := Waiting.mem_vars.1 (h.waiting u hu hfree)
  have hlower : k.outranks top ≠ true := Bool.eq_false_iff.1 (hmax k hk hfree)
  refine ⟨k, h.inStep.current k hk, Key.outranks_iff.1 ?_⟩
  exact (Key.outranks_total (Ne.symm hne)).resolve_right hlower

end Ranking

namespace Search

variable {α : Type} [Score α] {settings : Settings α} {f : Formula} {s : State α} {status : Status}

/-- Whether a variable has a value on the trail. -/
def State.isAssigned (s : State α) (v : Variable) : Bool := (s.trail.valueOf v).isSome

/-- Where a decision is due it is made, for a variable that is not assigned. Where scores are ordered
it is the best of these. -/
theorem Reachable.decides (h : Reachable settings f .deciding s) :
    ∃ l s', s.decide = .ok (.propagating, s') ∧ l.var.index < f.varCount ∧
      s.isAssigned l.var = false ∧ s'.trail = s.trail.openLevel.extend l none ∧
      ((Score.OrderedOn fun a => a ∈ s.ranking.activities) →
        s.ranking.Best f.varCount s.isAssigned l.var) := by
  obtain ⟨l, s', hstep, hd, htake⟩ := h.invariant.decide_ok
  have hl : s.isAssigned l.var = false := by simp [State.isAssigned, hd.unassigned]
  exact ⟨l, s', hstep, hd.inScope, hl, hd.trail, fun hordered =>
    h.invariant.poised.offers.take_best hordered htake⟩

/-- With floating point scores a decision is for the best variable unless some score is not a
number. -/
theorem Reachable.decides_float {settings : Settings Float} {s : State Float}
    (h : Reachable settings f .deciding s) (hnan : ∀ a ∈ s.ranking.activities, a.isNaN = false) :
    ∃ l s', s.decide = .ok (.propagating, s') ∧ s'.trail = s.trail.openLevel.extend l none ∧
      s.ranking.Best f.varCount s.isAssigned l.var := by
  obtain ⟨l, s', hstep, -, -, htrail, hbest⟩ := h.decides
  exact ⟨l, s', hstep, htrail, hbest (Score.orderedOn_float.mono hnan)⟩

/-- Every key that waits is the present one of its variable, no variable waits twice, and every
variable that is not assigned waits. So where a decision is due one is made, and for the best
variable that is not assigned. -/
theorem reachable_decides_best (h : Reachable settings f status s) :
    (∀ k ∈ s.ranking.waiting.keys, s.ranking.key? k.var = some k) ∧
      (s.ranking.waiting.keys.map Ranking.Key.var).Nodup ∧
      (∀ v : Variable, v.index < f.varCount → s.isAssigned v = false →
        ∃ k ∈ s.ranking.waiting.keys, k.var = v) ∧
      (status = .deciding → ∃ l s', s.decide = .ok (.propagating, s') ∧
        l.var.index < f.varCount ∧ s.isAssigned l.var = false ∧
        s'.trail = s.trail.openLevel.extend l none ∧
        ((Score.OrderedOn fun a => a ∈ s.ranking.activities) →
          s.ranking.Best f.varCount s.isAssigned l.var)) := by
  have hoffers := h.invariant.poised.offers
  refine ⟨hoffers.inStep.current, hoffers.inStep.distinct, fun v hv hfree => ?_, ?_⟩
  · exact Ranking.Waiting.mem_vars.1 (hoffers.waiting v hv hfree)
  · rintro rfl
    exact h.decides

/-- Scores tie, so the nonces decide. -/
theorem reachable_decides_best_sample : ∃ s s' : State Rat,
    Reachable Sample.exact Sample.satisfiable .deciding s ∧ s.trail.literals = #[] ∧
      s.ranking.activities = #[3, 3] ∧ s.decide = .ok (.propagating, s') ∧
      s'.trail.literals = #[Sample.literal 1 false] ∧
      s.ranking.Best 2 s.isAssigned (Sample.literal 1 false).var := by
  obtain ⟨s, hs, hsample⟩ := Sample.exists_reachable Sample.satisfiable 1 .deciding
    (fun s => s.trail.literals = #[] ∧ s.ranking.activities = #[3, 3] ∧
      s.decide.toOption.any fun r => r.2.trail.literals = #[Sample.literal 1 false])
    (by decide +kernel)
  simp only [decide_eq_true_eq] at hsample
  obtain ⟨hempty, hactivities, hdecided⟩ := hsample
  obtain ⟨-, -, -, hdecide⟩ := reachable_decides_best hs
  obtain ⟨l, s', hstep, -, -, htrail, hbest⟩ := hdecide rfl
  have hliterals : s'.trail.literals = #[l] := by
    rw [htrail, Trail.literals_extend]
    exact congrArg (·.push l) hempty
  obtain rfl : l = Sample.literal 1 false := by
    rw [hstep] at hdecided
    simpa [Except.toOption, hliterals] using hdecided
  exact ⟨s, s', hs, hempty, hactivities, hstep, hliterals,
    hbest (Score.orderedOn_rat.mono fun _ _ => trivial)⟩

end Search

end ClauseLearning
