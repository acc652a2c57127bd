import Mathlib
import ClauseLearning.Search.Run
import ClauseLearning.Proofs.Ranking.Order
import ClauseLearning.Proofs.Search.Invariant

/-!
# Reachable states

The states that a search can come to, whatever it decides and whenever it restarts. Stored clauses
follow from the formula there, and the literals on the trail from the formula and the decisions.
-/

namespace ClauseLearning.Search

variable {α : Type} [Score α] {settings : Settings α} {f : Formula} {s : State α} {status : Status}

/-- The states that transitions reach from the start over a formula that is not refuted at load. -/
inductive Reachable (settings : Settings α) (f : Formula) : Status → State α → Prop where
  | start {s : State α} : State.start settings f = .ok s → s.refutedAtLoad = false →
      Reachable settings f .propagating s
  | step {status status' : Status} {s s' : State α} (expired : Bool) :
      Reachable settings f status s → s.step expired status = .ok (status', s') →
      Reachable settings f status' s'
  /-- Any literal without a value may be decided, not only the one that the heuristics prefer. -/
  | decide {s : State α} {l : Literal} {t : Trail} : Reachable settings f .deciding s →
      s.trail.valueOf l.var = none → s.trail.openLevel.assign l none = .ok (some t) →
      Reachable settings f .propagating { s with
        trail := t
        statistics := { s.statistics with decisions := s.statistics.decisions + 1 }
        journal := .decided l t.level :: s.journal }
  /-- A restart may come before any propagation, not only when one is due. -/
  | restart {s s' : State α} : Reachable settings f .propagating s → s.backtrack 0 = .ok s' →
      Reachable settings f .propagating s'
  /-- An interrupted search may be taken up again. -/
  | resume {s : State α} : Reachable settings f .interrupted s →
      Reachable settings f .propagating s

omit [Score α] in
/-- A decision for a literal without a value is one whatever the heuristics prefer. -/
theorem Invariant.decided_assign {l : Literal} {t : Trail} (h : Invariant f .deciding s)
    (hfree : s.trail.valueOf l.var = none)
    (hassign : s.trail.openLevel.assign l none = .ok (some t)) :
    s.Decided f.varCount l { s with
      trail := t
      statistics := { s.statistics with decisions := s.statistics.decisions + 1 }
      journal := .decided l t.level :: s.journal } := by
  obtain ⟨hl, rfl⟩ := Trail.of_assign (t := s.trail.openLevel) hfree hassign
  have hscope : l.var.index < f.varCount := h.fits.fitting.coherent.size_cells ▸ hl
  have hgrows : s.trail.openLevel.Grows (s.trail.openLevel.extend l none) := .extend hfree
  exact ⟨hscope, hfree, rfl, rfl, rfl, rfl,
    ⟨Ranking.Offers.grows (t := s.trail.openLevel) h.poised.offers hgrows, h.poised.size_saved⟩,
    rfl, rfl⟩

namespace Reachable

theorem invariant (h : Reachable settings f status s) : Invariant f status s := by
  induction h with
  | start hs hload => exact (Started.of_start hs).2.invariant hload
  | step expired _ hs ih => exact (ih.step hs).1
  | decide _ hfree hassign ih => exact ih.decided (ih.decided_assign hfree hassign)
  | @restart s s' _ hs ih =>
      obtain ⟨ranking, phases, hback, hpoised⟩ := ih.poised.backtrack ih.fits.coherent 0
      rw [hs] at hback
      cases hback
      exact ih.restart rfl rfl rfl hpoised
  | resume _ ih => exact { ih with fits := ih.fits.1 }

theorem run {status' : Status} {s' : State α} {expired : Nat → Bool} {fuel made : Nat}
    (h : Reachable settings f status s)
    (hrun : Search.run expired fuel made status s = .ok (status', s')) :
    Reachable settings f status' s' := by
  obtain ⟨status₁, s₁, hrun₁, h₁⟩ := h.invariant.run_keeps (P := Reachable settings f) h expired
    (fun _ _ _ _ _ _ hs hstep _ => hs.step _ hstep) fuel made
  cases hrun.symm.trans hrun₁
  exact h₁

end Reachable

/-! ## Sample formulas -/

namespace Sample

open ClauseLearning.Sample (literal)

def exact : Settings Rat := ⟨.never, .negative, 1, 0, none⟩

/-- Two variables, both of which have to be true. -/
def satisfiable : Formula where
  varCount := 2
  clauses := #[⟨[literal 0 true, literal 1 true]⟩, ⟨[literal 0 true, literal 1 false]⟩,
    ⟨[literal 0 false, literal 1 true]⟩]
  varCount_le := by decide
  inScope := by decide
  nodup := by decide

/-- All clauses of two literals over two variables. -/
def contradictory : Formula where
  varCount := 2
  clauses := #[⟨[literal 0 true, literal 1 true]⟩, ⟨[literal 0 true, literal 1 false]⟩,
    ⟨[literal 0 false, literal 1 true]⟩, ⟨[literal 0 false, literal 1 false]⟩]
  varCount_le := by decide
  inScope := by decide
  nodup := by decide

/-- A variable that has to be true and two clauses that it leaves in conflict. -/
def conflicting : Formula where
  varCount := 2
  clauses := #[⟨[literal 0 true]⟩, ⟨[literal 0 false, literal 1 true]⟩,
    ⟨[literal 0 false, literal 1 false]⟩]
  varCount_le := by decide
  inScope := by decide
  nodup := by decide

/-- The second variable has to be true. If it is false, the first one is forced both ways. -/
def forcing : Formula where
  varCount := 2
  clauses := #[⟨[literal 0 true, literal 1 true]⟩, ⟨[literal 0 false, literal 1 true]⟩]
  varCount_le := by decide
  inScope := by decide
  nodup := by decide

/-- A run from the start leads to a reachable state. -/
theorem exists_reachable_of (settings : Settings Rat) (f : Formula) (made : Nat) (status : Status)
    (p : State Rat → Bool)
    (h : ((State.start settings f).toOption.any fun s₀ => !s₀.refutedAtLoad &&
      (Search.run (fun _ => false) made 0 .propagating s₀).toOption.any fun r =>
        r.1 = status && p r.2) = true) :
    ∃ s, Reachable settings f status s ∧ p s = true := by
  obtain ⟨s₀, hstart, h⟩ := exists_of_any h
  rw [Bool.and_eq_true, Bool.not_eq_true'] at h
  obtain ⟨hload, h⟩ := h
  obtain ⟨⟨status', s⟩, hrun, hs⟩ := exists_of_any h
  simp only [Bool.and_eq_true, decide_eq_true_eq] at hs
  obtain ⟨rfl, hp⟩ := hs
  exact ⟨s, (Reachable.start hstart hload).run hrun, hp⟩

theorem exists_reachable (f : Formula) (made : Nat) (status : Status) (p : State Rat → Bool)
    (h : ((State.start exact f).toOption.any fun s₀ => !s₀.refutedAtLoad &&
      (Search.run (fun _ => false) made 0 .propagating s₀).toOption.any fun r =>
        r.1 = status && p r.2) = true) :
    ∃ s, Reachable exact f status s ∧ p s = true :=
  exists_reachable_of exact f made status p h

theorem reachable_learnt : ∃ s : State Rat,
    Reachable exact satisfiable .propagating s ∧ s.database.learntCount = 1 := by
  obtain ⟨s, hs, hcount⟩ := exists_reachable satisfiable 4 .propagating
    (fun s => s.database.learntCount = 1) (by decide +kernel)
  exact ⟨s, hs, by simpa using hcount⟩

end Sample

/-- Every stored clause holds wherever the formula does, and every literal on the trail wherever the
formula and the decisions up to its level do. -/
theorem reachable_consequences (h : Reachable settings f status s) :
    (∀ k c, s.database.literals? k = some c → ∀ σ, f.Holds σ → (Clause.mk c).Holds σ) ∧
      (∀ l ∈ s.trail.literals, ∀ σ, f.Holds σ →
        (∀ a ≤ s.trail.levelOf l.var, ∀ d, s.trail.decision? a = some d → d.Holds σ) → l.Holds σ) ∧
      ∀ l ∈ s.trail.literals, s.trail.levelOf l.var = 0 → ∀ σ, f.Holds σ → l.Holds σ := by
  have hinv := h.invariant
  have hfitting := hinv.fits.fitting
  have hclauses : ∀ k c, s.database.literals? k = some c → ∀ σ, f.Holds σ → (Clause.mk c).Holds σ :=
    hinv.represents.entailed
  refine ⟨hclauses, fun l hl σ hσ hd => ?_, fun l hl hroot σ hσ => ?_⟩
  · exact hfitting.justified.holds_of_levelOf_le hfitting.coherent
      (fun k c hk => hclauses k c hk σ hσ) hd l hl (Nat.le_refl _)
  · exact hfitting.justified.holds_of_root hfitting.coherent
      (fun k c hk => hclauses k c hk σ hσ) hl hroot

theorem reachable_consequences_learnt : ∃ s : State Rat,
    Reachable Sample.exact Sample.satisfiable .propagating s ∧ s.database.learntCount = 1 ∧
      (∀ k c, s.database.literals? k = some c → ∀ σ, Sample.satisfiable.Holds σ →
        (Clause.mk c).Holds σ) ∧
      ∀ l ∈ s.trail.literals, s.trail.levelOf l.var = 0 →
        ∀ σ, Sample.satisfiable.Holds σ → l.Holds σ := by
  obtain ⟨s, hs, hcount⟩ := Sample.reachable_learnt
  obtain ⟨hclauses, -, hroot⟩ := reachable_consequences hs
  exact ⟨s, hs, hcount, hclauses, hroot⟩

end ClauseLearning.Search
