import Mathlib
import ClauseLearning.Proofs.Restart.Intervals
import ClauseLearning.Proofs.Search.Novelty
import ClauseLearning.Proofs.Search.Resolution
import ClauseLearning.Proofs.Search.Termination

/-!
# Restarts of the search

A search asks its schedule once for each clause that it learns, and goes back to the root level where
the answer is that a restart is due. So it restarts at the numbers of learnt clauses at which the
intervals of the policy end.
-/

namespace ClauseLearning.Search

open Restart (Policy Schedule)

variable {α : Type} {settings : Settings α} {f : Formula} {s s' : State α} {status status' : Status}
  {n : Nat} {p : Policy}

/-! ## Asking the schedule -/

/-- A clause was learnt, and the schedule was asked once. -/
structure State.Asked (s s' : State α) : Prop where
  learntCount : s'.database.learntCount = s.database.learntCount + 1
  learnt : s'.statistics.learnt = s.statistics.learnt + 1
  schedule : s'.schedule = s.schedule.onConflict.2
  restarts : s'.statistics.restarts = s.statistics.restarts + s.schedule.onConflict.1.toNat

/-- No clause was learnt, and the schedule was not asked. -/
structure State.Unasked (s s' : State α) : Prop where
  learntCount : s'.database.learntCount = s.database.learntCount
  learnt : s'.statistics.learnt = s.statistics.learnt
  schedule : s'.schedule = s.schedule
  restarts : s'.statistics.restarts = s.statistics.restarts

theorem State.Unasked.refl (s : State α) : s.Unasked s := ⟨rfl, rfl, rfl, rfl⟩

theorem State.Resolved.asked {learnt : Learnt} (h : s.Resolved n learnt s') : s.Asked s' := by
  obtain ⟨c, hclauses, hc⟩ := h.stored
  exact ⟨learntCount_push hclauses hc, by rw [h.statistics], h.schedule, by rw [h.statistics]⟩

/-- Only a conflict above the root level makes the search ask its schedule. -/
theorem Stepped.unasked {expired : Bool} (h : Stepped n expired status s status' s')
    (hstatus : ∀ k, status = .conflict k → s.trail.level = 0) : s.Unasked s' := by
  cases h with
  | propagated hp =>
      refine ⟨?_, by rw [hp.statistics], hp.schedule, by rw [hp.statistics]⟩
      rw [Database.learntCount_eq_contents, hp.contents, ← Database.learntCount_eq_contents]
  | resolved _ hlevel => exact absurd (hstatus _ rfl) hlevel
  | refuted => exact ⟨rfl, rfl, rfl, rfl⟩
  | decided _ hd =>
      exact ⟨by rw [hd.database], by rw [hd.statistics], hd.schedule, by rw [hd.statistics]⟩
  | interrupted => exact .refl s
  | ended => exact .refl s

theorem Stepped.asked_or_unasked {expired : Bool} (h : Stepped n expired status s status' s') :
    s.Asked s' ∨ s.Unasked s' := by
  by_cases hstatus : ∀ k, status = .conflict k → s.trail.level = 0
  · exact .inr (h.unasked hstatus)
  · push Not at hstatus
    obtain ⟨k, rfl, hlevel⟩ := hstatus
    cases h with
    | resolved _ _ hr => exact .inl hr.asked
    | refuted hroot => exact absurd hroot hlevel
    | ended hfinal => cases hfinal

/-! ## The schedule of a search -/

/-- The schedule counted the learnt clauses, and the restarts are those that it asked for. -/
structure State.OnSchedule (s : State α) (p : Policy) : Prop where
  learnt : s.statistics.learnt = s.database.learntCount
  schedule : s.schedule = .after p s.database.learntCount
  restarts : s.statistics.restarts = s.schedule.restarts

namespace State.OnSchedule

theorem asked (h : s.OnSchedule p) (hs : s.Asked s') : s'.OnSchedule p where
  learnt := by rw [hs.learnt, h.learnt, hs.learntCount]
  schedule := by rw [hs.schedule, h.schedule, hs.learntCount, Schedule.after_succ]
  restarts := by rw [hs.restarts, h.restarts, hs.schedule, Schedule.restarts_onConflict]

theorem unasked (h : s.OnSchedule p) (hs : s.Unasked s') : s'.OnSchedule p where
  learnt := by rw [hs.learnt, h.learnt, hs.learntCount]
  schedule := by rw [hs.schedule, h.schedule, hs.learntCount]
  restarts := by rw [hs.restarts, h.restarts, hs.schedule]

end State.OnSchedule

theorem Started.onSchedule (h : Started settings f s) : s.OnSchedule settings.restart := by
  have hcount : s.database.learntCount = 0 := by
    rw [Database.learntCount_eq_contents, ← Array.countP_toList, h.loaded.contents]
    simp [List.countP_eq_zero]
  exact ⟨by rw [h.statistics, hcount]; rfl, by rw [h.schedule, hcount]; rfl,
    by rw [h.statistics, h.schedule]; rfl⟩

variable [Score α]

theorem Reachable.onSchedule (h : Reachable settings f status s) :
    s.OnSchedule settings.restart := by
  induction h with
  | start hs => exact (Started.of_start hs).2.onSchedule
  | step expired h hs ih =>
      rcases (h.invariant.step hs).2.asked_or_unasked with hasked | hunasked
      · exact ih.asked hasked
      · exact ih.unasked hunasked
  | decide _ _ _ ih => exact ih.unasked ⟨rfl, rfl, rfl, rfl⟩
  | restart h hback ih =>
      obtain ⟨ranking, phases, hback', -⟩ :=
        h.invariant.poised.backtrack h.invariant.fits.coherent 0
      cases hback.symm.trans hback'
      exact ih.unasked ⟨rfl, rfl, rfl, rfl⟩
  | resume _ ih => exact ih

/-! ## Restarts come where intervals end -/

theorem Reachable.isDue_iff (h : Reachable settings f status s) (hpos : settings.restart.IsPositive)
    (hcount : s.database.learntCount + 2 < Word.limit) :
    s.schedule.onConflict.1 = true ↔ settings.restart.RestartsAt (s.database.learntCount + 1) := by
  rw [h.onSchedule.schedule]
  exact (Schedule.onTime hpos hcount).isDue_iff

/-- Every call but that for the last word keeps to the intervals of the policy. A search makes one
for each clause that it learns and none else, so it restarts exactly at those numbers of learnt clauses
at which the intervals end. -/
theorem restarts_on_schedule (hpos : p.IsPositive) :
    (∀ calls, calls + 2 < Word.limit → Schedule.OnTime p calls) ∧
    ∀ (settings : Settings α) (f : Formula), settings.restart = p →
      (∀ s, State.start settings f = .ok s → s.OnSchedule p) ∧
      ∀ status s, Reachable settings f status s → s.OnSchedule p ∧
        (∀ k, status = .conflict k → s.trail.level ≠ 0 → ∃ learnt s',
          s.resolve k = .ok (.propagating, s') ∧ s.Learns learnt s' ∧ s.Asked s' ∧
          (s.database.learntCount + 2 < Word.limit →
            (s.schedule.onConflict.1 = true ↔ p.RestartsAt s'.database.learntCount))) ∧
        ∀ expired status' s', (∀ k, status = .conflict k → s.trail.level = 0) →
          s.step expired status = .ok (status', s') → s.Unasked s' := by
  refine ⟨fun calls hcalls => Schedule.onTime hpos hcalls, ?_⟩
  rintro settings f rfl
  refine ⟨fun s hs => (Started.of_start hs).2.onSchedule, fun status s h => ⟨h.onSchedule, ?_, ?_⟩⟩
  · rintro k rfl hlevel
    have hclash : Clash f.varCount s.database s.trail k := h.invariant.fits
    obtain ⟨learnt, s', hresolve, hr⟩ :=
      State.resolve_ok h.invariant.poised h.invariant.marks hclash hlevel
    refine ⟨learnt, s', hresolve, hr.learns hclash hlevel, hr.asked, fun hcount => ?_⟩
    rw [hr.asked.learntCount]
    exact h.isDue_iff hpos hcount
  · intro expired status' s' hstatus hs
    exact (h.invariant.step hs).2.unasked hstatus

/-- Where every conflict is to bring a restart, the first one does. -/
theorem restarts_on_schedule_fixed : ∃ (s s' : State Rat) (learnt : Learnt),
    Reachable { Sample.exact with restart := .fixed 1 } Sample.satisfiable (.conflict 2) s ∧
      s.resolve 2 = .ok (.propagating, s') ∧ s.Learns learnt s' ∧ s'.statistics.restarts = 1 ∧
      s'.database.learntCount = 1 ∧ (Policy.fixed 1).RestartsAt 1 := by
  have hpos : (Policy.fixed 1).IsPositive := by decide
  obtain ⟨s, hs, hvalues⟩ := Sample.exists_reachable_of { Sample.exact with restart := .fixed 1 }
    Sample.satisfiable 3 (.conflict 2)
    (fun s => s.trail.level = 1 && s.database.learntCount = 0) (by decide +kernel)
  simp only [Bool.and_eq_true, decide_eq_true_eq] at hvalues
  obtain ⟨hlevel, hcount⟩ := hvalues
  obtain ⟨-, hsearch⟩ := restarts_on_schedule (α := Rat) hpos
  obtain ⟨-, hreachable⟩ :=
    hsearch { Sample.exact with restart := .fixed 1 } Sample.satisfiable rfl
  obtain ⟨hon, hconflict, -⟩ := hreachable _ s hs
  obtain ⟨learnt, s', hresolve, hlearns, hasked, hdue⟩ := hconflict 2 rfl (by omega)
  have hschedule : s.schedule = .start (.fixed 1) := by rw [hon.schedule, hcount]; rfl
  have hone : s'.database.learntCount = 1 := by rw [hasked.learntCount, hcount]
  have hrestarts : s'.statistics.restarts = 1 := by
    rw [hasked.restarts, hon.restarts, hschedule]
    rfl
  refine ⟨s, s', learnt, hs, hresolve, hlearns, hrestarts, hone, ?_⟩
  rw [← hone]
  exact (hdue (by rw [hcount]; decide)).1 (by rw [hschedule]; rfl)

end ClauseLearning.Search
