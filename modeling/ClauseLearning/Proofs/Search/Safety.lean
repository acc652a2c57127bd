import Mathlib
import ClauseLearning.Proofs.Restart.Luby
import ClauseLearning.Proofs.Search.ImplicationGraph
import ClauseLearning.Proofs.Search.Verdict

/-!
# No fault occurs

Loading, every transition and the search as a whole keep all contracts: none ends in a fault. What a
transition reads or writes without a check is in range as well.
-/

namespace ClauseLearning

theorem Fitting.reason_lt {n k : Nat} {db : Database} {t : Trail} {v : Variable}
    (h : Fitting n db t) (hk : t.reasonOf v = some k) : k < db.clauses.size := by
  obtain ⟨a, ha, -⟩ := Option.bind_eq_some_iff.1 hk
  obtain ⟨j, hj⟩ := Array.mem_iff_getElem?.1 (h.coherent.mem_of_assignment? ha)
  obtain ⟨c, hc, -⟩ := (h.justified.wellFormed h.coherent).forced j _ k hj hk
  exact Database.lt_of_literals? hc

namespace Search

variable {α : Type} {settings : Settings α} {f : Formula} {s : State α} {status : Status} {n : Nat}

/-- The variables, clause numbers and positions that a state holds are in range, and its arrays are
as long as there are variables, or literals. -/
structure State.InBounds (s : State α) (n : Nat) : Prop where
  size_cells : s.trail.cells.size = n
  size_rows : s.database.rows.size = 2 * n
  size_seen : s.marks.seen.size = n
  size_entries : s.ranking.entries.size = n
  size_saved : s.phases.saved.size = n
  assigned : ∀ l ∈ s.trail.literals, l.var.index < n
  stored : ∀ c ∈ s.database.clauses, ∀ l ∈ c.literals, l.var.index < n
  listed : ∀ (l : Literal) row, s.database.rows[l.code]? = some row →
    ∀ k ∈ row, k < s.database.clauses.size
  reasons : ∀ v k, s.trail.reasonOf v = some k → k < s.database.clauses.size
  lengthAt_le : ∀ b, s.trail.lengthAt b ≤ s.trail.literals.size
  head_le : s.trail.head ≤ s.trail.literals.size

theorem State.InBounds.of_fitting (h : Fitting n s.database s.trail)
    (hmarks : s.marks = Marks.clear n) (hpoised : s.Poised n) : s.InBounds n where
  size_cells := h.coherent.size_cells
  size_rows := h.sound.size_rows
  size_seen := by simp [hmarks, Marks.clear]
  size_entries := hpoised.offers.size_entries
  size_saved := hpoised.size_saved
  assigned _ hl := h.coherent.lt_of_mem hl
  stored := h.sound.inScope
  listed l row hrow k hk := (((h.sound.listed l row hrow).2 k).1 hk).lt
  reasons _ _ hk := h.reason_lt hk
  lengthAt_le := h.coherent.lengthAt_le
  head_le := h.coherent.head_le

theorem Invariant.inBounds (h : Invariant f status s) : s.InBounds f.varCount :=
  .of_fitting h.fits.fitting h.marks h.poised

theorem Started.inBounds (h : Started settings f s) : s.InBounds f.varCount :=
  .of_fitting h.loaded.ready.toFitting h.marks h.poised

theorem Stepped.head_le {expired : Bool} {status' : Status} {s' : State α}
    (h : Stepped n expired .propagating s status' s') : s.trail.head ≤ s'.trail.head := by
  cases h with
  | propagated hp => exact hp.head
  | ended hfinal => cases hfinal

variable [Score α]

/-- A run does not fault, whatever the clock says and however long it is. -/
theorem Invariant.run_ok (h : Invariant f status s) (expired : Nat → Bool) (fuel made : Nat) :
    ∃ r, run expired fuel made status s = .ok r := by
  obtain ⟨status', s', hrun, -⟩ :=
    h.run_keeps (P := fun _ _ => True) trivial expired (fun _ _ _ _ _ _ _ _ _ => trivial) fuel made
  exact ⟨_, hrun⟩

theorem Started.run_ok (h : Started settings f s) {now : Instant} {limit : Option Duration}
    {deadline : Option Instant} (hbegin : s.begin now limit = .ok (status, deadline))
    (expired : Nat → Bool) (fuel : Nat) : ∃ r, run expired fuel 0 status s = .ok r := by
  obtain ⟨-, rfl⟩ | ⟨hload, rfl⟩ := State.status_of_begin hbegin
  · exact ⟨_, run_of_isFinal rfl⟩
  · exact (h.invariant hload).run_ok expired fuel 0

/-- No contract is broken from the start of a search without a time limit on: loading succeeds, and
so do runs of any length and every transition between, while all that they hold is in range. -/
theorem search_never_faults (hdecay : DecayInRange settings) (hlimit : settings.timeLimit = none)
    (f : Formula) (clock : Nat → Instant) :
    ∃ s₀ status₀, State.start settings f = .ok s₀ ∧ s₀.InBounds f.varCount ∧
      s₀.begin (clock 0) settings.timeLimit = .ok (status₀, none) ∧
      (∀ fuel, ∃ r, run (fun _ => false) fuel 0 status₀ s₀ = .ok r) ∧
      (∃ r, s₀.search clock settings.timeLimit = .ok r) ∧
      ∀ status s, Reachable settings f status s → s.InBounds f.varCount ∧
        (∀ k, status = .conflict k → k < s.database.clauses.size) ∧
        (s.schedule.restarts + 2 < Word.limit →
          ∃ term, Restart.luby? (s.schedule.restarts + 1) = some term) ∧
        ∀ expired, ∃ status' s', s.step expired status = .ok (status', s') ∧
          (status = .propagating → s.trail.head ≤ s'.trail.head) := by
  obtain ⟨s₀, hstart, hstarted⟩ := start_ok hdecay f
  obtain ⟨status₀, status, s, hbegin, -, hsearch, -⟩ := hstarted.search_ok clock
  rw [hlimit]
  refine ⟨s₀, status₀, hstart, hstarted.inBounds, hbegin, hstarted.run_ok hbegin _, ⟨_, hsearch⟩, ?_⟩
  intro status s hreach
  have hinv := hreach.invariant
  refine ⟨hinv.inBounds, ?_, Restart.luby?_ok, fun expired => ?_⟩
  · rintro k rfl
    have hclash : Clash f.varCount s.database s.trail k := hinv.fits
    obtain ⟨c, hc, -⟩ := hclash.falsifies
    exact Database.lt_of_literals? hc
  · obtain ⟨status', s', hstep, hstepped⟩ := hinv.step_ok expired
    refine ⟨status', s', hstep, ?_⟩
    rintro rfl
    exact hstepped.head_le

theorem search_never_faults_sample : ∃ (s₀ : State Rat) (status₀ : Status),
    State.start Sample.exact Sample.contradictory = .ok s₀ ∧ s₀.InBounds 2 ∧
      s₀.begin ⟨0⟩ none = .ok (status₀, none) ∧
      (∀ fuel, ∃ r, run (fun _ => false) fuel 0 status₀ s₀ = .ok r) ∧
      (∃ r, s₀.search (fun _ => ⟨0⟩) none = .ok r) ∧
      ∀ status s, Reachable Sample.exact Sample.contradictory status s → s.InBounds 2 ∧
        (∀ k, status = .conflict k → k < s.database.clauses.size) ∧
        (s.schedule.restarts + 2 < Word.limit →
          ∃ term, Restart.luby? (s.schedule.restarts + 1) = some term) ∧
        ∀ expired, ∃ status' s', s.step expired status = .ok (status', s') ∧
          (status = .propagating → s.trail.head ≤ s'.trail.head) :=
  search_never_faults (by decide) rfl Sample.contradictory fun _ => ⟨0⟩

end Search

end ClauseLearning
