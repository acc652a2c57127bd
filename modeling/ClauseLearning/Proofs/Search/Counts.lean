import Mathlib
import ClauseLearning.Proofs.Search.Agreement
import ClauseLearning.Proofs.Search.Interruption
import ClauseLearning.Proofs.Search.Restarts

/-!
# The counts of a search

A search counts its decisions, propagations, conflicts, learnt clauses and restarts. The counts agree
with the clauses that it stores, with its schedule and with its trail.
-/

namespace ClauseLearning

/-- Propagation never goes back, and it goes on where there is a literal to take up. -/
theorem Database.head_of_propagate {db : Database} {t : Trail} {p : Propagation}
    (h : db.propagate t = .ok p) :
    t.head ≤ p.trail.head ∧ (t.head < t.literals.size → t.head < p.trail.head) := by
  fun_induction Database.propagate db t with
  | case1 db t hnone =>
      cases h
      have hsize : t.literals.size ≤ t.head := by simpa [Trail.next?] using hnone
      exact ⟨Nat.le_refl _, fun hlt => absurd hlt (Nat.not_lt_of_le hsize)⟩
  | case2 => cases h
  | case3 => cases h
  | case4 db t l t₁ hnext row hrow row' p₁ hscan db' hconflict =>
      cases h
      obtain ⟨-, rfl⟩ := Trail.next?_eq_some hnext
      have hhead : ({ p₁ with database := db' } : Propagation).trail.head = t.head + 1 :=
        (trail_of_scan hscan).2
      exact ⟨by omega, fun _ => by omega⟩
  | case5 db t l t₁ hnext row hrow row' p₁ hscan db' hconflict ih =>
      obtain ⟨-, rfl⟩ := Trail.next?_eq_some hnext
      have hhead : p₁.trail.head = t.head + 1 := (trail_of_scan hscan).2
      have hle := (ih h).1
      exact ⟨by omega, fun _ => by omega⟩

namespace Search

variable {α : Type} {settings : Settings α} {f : Formula} {s s' : State α} {status status' : Status}
  {n : Nat}

/-! ## What one transition counts -/

/-- The non-empty clauses of the formula are stored in order, and then the learnt ones. -/
def StoredFirst (db : Database) (f : Formula) : Prop :=
  db.contents.toList =
    (f.clauses.toList.filter (·.literals ≠ [])).map (fun c => (c.literals.toArray, false)) ++
      db.contents.toList.filter (·.2)

theorem Started.storedFirst (h : Started settings f s) : StoredFirst s.database f := by
  have hnone : s.database.contents.toList.filter (·.2) = [] := by simp [h.loaded.contents]
  rw [StoredFirst, hnone, List.append_nil, h.loaded.contents]

theorem Stepped.storedFirst {expired : Bool} (h : Stepped n expired status s status' s')
    (hs : StoredFirst s.database f) : StoredFirst s'.database f := by
  rcases h.contents with hc | ⟨c, hc⟩
  · rw [StoredFirst, hc]
    exact hs
  · rw [StoredFirst, hc, Array.toList_push, List.filter_append, ← List.append_assoc, ← hs]
    rfl

theorem Stepped.onSchedule {expired : Bool} {p : Restart.Policy}
    (h : Stepped n expired status s status' s') (hs : s.OnSchedule p) : s'.OnSchedule p := by
  rcases h.asked_or_unasked with hasked | hunasked
  · exact hs.asked hasked
  · exact hs.unasked hunasked

theorem State.Resolved.level_le {learnt : Learnt} (h : s.Resolved n learnt s')
    (hlevel : s.trail.level ≠ 0) : s'.trail.level ≤ s.trail.level := by
  have hjump := h.asserts.level_backtrack hlevel
  have hlt := h.asserts.backjump_lt hlevel
  rw [h.trail, State.restarted]
  split
  · simp
  · rw [Trail.jump, Trail.level_extend]
    omega

/-- Only a decision opens a level. -/
theorem Stepped.level_le {expired : Bool} (h : Stepped n expired status s status' s')
    (hs : s.trail.level ≤ s.statistics.decisions) : s'.trail.level ≤ s'.statistics.decisions := by
  cases h with
  | propagated hp =>
      rw [hp.grows.level_eq, hp.statistics]
      exact hs
  | resolved _ hlevel hr =>
      rw [hr.statistics]
      exact (hr.level_le hlevel).trans hs
  | refuted => exact hs
  | decided _ hd =>
      rw [hd.trail, hd.statistics, Trail.level_extend, Trail.level_openLevel]
      exact Nat.succ_le_succ hs
  | interrupted => exact hs
  | ended => exact hs

theorem State.Propagated.ne_refuted (h : s.Propagated n status s') : status ≠ .refuted := by
  obtain ⟨k, rfl, -⟩ | ⟨rfl, -⟩ := h.outcome
  · simp
  · split <;> simp

theorem State.refutedAtLoad_of_entry (s : State α) (h : s.entry = .refuted) :
    s.refutedAtLoad = true := by
  rw [State.entry] at h
  split at h
  · assumption
  · cases h

/-- Each decision was propagated, but for one that is still to come. -/
def State.Covered (status : Status) (s : State α) : Prop :=
  s.statistics.decisions ≤ s.statistics.propagations ∨
    status = .propagating ∧ s.trail.head < s.trail.literals.size ∧
      s.statistics.decisions ≤ s.statistics.propagations + 1

namespace State.Covered

theorem le (h : State.Covered status s) (hstatus : status ≠ .propagating) :
    s.statistics.decisions ≤ s.statistics.propagations := by
  rcases h with hle | ⟨hpropagating, -⟩
  · exact hle
  · exact absurd hpropagating hstatus

theorem propagate (h : State.Covered .propagating s) (hstep : s.propagate = .ok (status, s')) :
    s'.statistics.decisions ≤ s'.statistics.propagations := by
  obtain ⟨p, hpropagate, hs'⟩ := bind_eq_ok_iff.1 hstep
  cases hs'
  have hhead := Database.head_of_propagate hpropagate
  rcases h with hle | ⟨-, hlt, hle⟩
  · exact hle.trans (Nat.le_add_right _ _)
  · have := hhead.2 hlt
    simp only
    omega

theorem decide {l : Literal} (h : State.Covered .deciding s) (hinv : Invariant f .deciding s)
    (hd : s.Decided n l s') : State.Covered .propagating s' := by
  obtain ⟨-, hhead, -⟩ := hinv.fits
  have hle := h.le (by simp)
  refine .inr ⟨rfl, ?_, ?_⟩
  · simp [hd.trail, Trail.openLevel, hhead]
  · rw [hd.statistics]
    exact Nat.succ_le_succ hle

end State.Covered

/-! ## The states of a search -/

variable [Score α]

/-- The states that a search itself passes through, over any formula. Unlike `Reachable` it has
restarts only where they are due; but it may decide whatever has no value, and it may be called again
where it was interrupted. -/
inductive Passed (settings : Settings α) (f : Formula) : Status → State α → Prop where
  | start {s : State α} : State.start settings f = .ok s → Passed settings f s.entry s
  | step {status status' : Status} {s s' : State α} (expired : Bool) :
      Passed settings f status s → s.step expired status = .ok (status', s') →
      Passed settings f status' s'
  | decide {s : State α} {l : Literal} {t : Trail} : Passed settings f .deciding s →
      s.trail.valueOf l.var = none → s.trail.openLevel.assign l none = .ok (some t) →
      Passed settings f .propagating { s with
        trail := t
        statistics := { s.statistics with decisions := s.statistics.decisions + 1 }
        journal := .decided l t.level :: s.journal }
  | resume {s : State α} : Passed settings f .interrupted s → Passed settings f s.entry s

/-- One move of a search: a transition, a decision for some literal without a value, or a new call
where it was interrupted. -/
inductive Moves : Status × State α → Status × State α → Prop where
  | step {status status' : Status} {s s' : State α} (expired : Bool) :
      s.step expired status = .ok (status', s') → Moves (status, s) (status', s')
  | decide {s : State α} {l : Literal} {t : Trail} :
      s.trail.valueOf l.var = none → s.trail.openLevel.assign l none = .ok (some t) →
      Moves (.deciding, s) (.propagating, { s with
        trail := t
        statistics := { s.statistics with decisions := s.statistics.decisions + 1 }
        journal := .decided l t.level :: s.journal })
  | resume {s : State α} : Moves (.interrupted, s) (s.entry, s)

/-- The second state comes after the first in some search, or is the same. -/
def ComesTo (r r' : Status × State α) : Prop := Relation.ReflTransGen Moves r r'

theorem comesTo_of_run {expired : Nat → Bool} {fuel made : Nat}
    (hrun : Search.run expired fuel made status s = .ok (status', s')) :
    ComesTo (status, s) (status', s') := by
  induction fuel generalizing status s made with
  | zero =>
      cases hrun
      exact .refl
  | succ fuel ih =>
      rw [Search.run] at hrun
      split at hrun
      · cases hrun
        exact .refl
      · split at hrun
        · cases hrun
        · exact .head (.step _ ‹_›) (ih hrun)

/-- A conflict at the root level led to the state. -/
def AfterRootConflict (settings : Settings α) (f : Formula) (s : State α) : Prop :=
  ∃ k s₀, Passed settings f (.conflict k) s₀ ∧ s₀.trail.level = 0 ∧
    s₀.resolve k = .ok (.refuted, s)

/-- Each conflict was learnt from, but for one at the root level. -/
def Tallied (settings : Settings α) (f : Formula) (status : Status) (s : State α) : Prop :=
  status = .refuted ∧ AfterRootConflict settings f s ∧
      s.statistics.conflicts = s.statistics.learnt + 1 ∨
    (status = .refuted → s.refutedAtLoad = true) ∧ s.statistics.conflicts = s.statistics.learnt

namespace Tallied

theorem conflicts_eq (h : Tallied settings f status s) (hstatus : status ≠ .refuted) :
    s.statistics.conflicts = s.statistics.learnt := by
  rcases h with ⟨hrefuted, -⟩ | ⟨-, hcount⟩
  · exact absurd hrefuted hstatus
  · exact hcount

theorem stepped {expired : Bool} (h : Tallied settings f status s) (hs : Passed settings f status s)
    (hstepped : Stepped n expired status s status' s') : Tallied settings f status' s' := by
  cases hstepped with
  | propagated hp =>
      refine .inr ⟨fun hrefuted => absurd hrefuted hp.ne_refuted, ?_⟩
      rw [hp.statistics]
      exact h.conflicts_eq (by simp)
  | resolved _ _ hr =>
      refine .inr ⟨nofun, ?_⟩
      rw [hr.statistics]
      exact congrArg (· + 1) (h.conflicts_eq (by simp))
  | refuted hlevel =>
      exact .inl ⟨rfl, ⟨_, _, hs, hlevel, State.resolve_root hlevel⟩,
        congrArg (· + 1) (h.conflicts_eq (by simp))⟩
  | decided _ hd =>
      refine .inr ⟨nofun, ?_⟩
      rw [hd.statistics]
      exact h.conflicts_eq (by simp)
  | interrupted => exact .inr ⟨nofun, h.conflicts_eq (by simp)⟩
  | ended => exact h

end Tallied

namespace Passed

/-- A formula that is refuted at load leads nowhere, and any other keeps the invariant. -/
theorem refuted_or_invariant (h : Passed settings f status s) :
    status = .refuted ∧ s.refutedAtLoad = true ∨
      s.refutedAtLoad = false ∧ Invariant f status s := by
  induction h with
  | @start s hs =>
      cases hload : s.refutedAtLoad with
      | true => exact .inl ⟨by rw [State.entry, if_pos hload], rfl⟩
      | false =>
          rw [State.entry, hload]
          exact .inr ⟨rfl, (Started.of_start hs).2.invariant hload⟩
  | step expired h hs ih =>
      rcases ih with ⟨rfl, hload⟩ | ⟨hload, hinv⟩
      · cases hs
        exact .inl ⟨rfl, hload⟩
      · obtain ⟨hinv', hstepped⟩ := hinv.step hs
        exact .inr ⟨hstepped.refutedAtLoad.trans hload, hinv'⟩
  | decide h hfree hassign ih =>
      rcases ih with ⟨hstatus, -⟩ | ⟨hload, hinv⟩
      · cases hstatus
      · exact .inr ⟨hload, hinv.decided (hinv.decided_assign hfree hassign)⟩
  | resume h ih =>
      rcases ih with ⟨hstatus, -⟩ | ⟨hload, hinv⟩
      · cases hstatus
      · refine .inr ⟨hload, ?_⟩
        rw [State.entry, hload]
        exact { hinv with fits := hinv.fits.1 }

theorem invariant (h : Passed settings f status s) (hstatus : status ≠ .refuted) :
    Invariant f status s := by
  rcases h.refuted_or_invariant with ⟨hrefuted, -⟩ | ⟨-, hinv⟩
  · exact absurd hrefuted hstatus
  · exact hinv

theorem stepped {expired : Bool} (h : Passed settings f status s)
    (hs : s.step expired status = .ok (status', s')) :
    Stepped f.varCount expired status s status' s' := by
  by_cases hstatus : status = .refuted
  · subst hstatus
    cases hs
    exact .ended rfl
  · exact ((h.invariant hstatus).step hs).2

/-- What holds at the start, is kept by each transition and does not depend on whether the search is
called again holds in every state. -/
theorem keeps {P : Status → State α → Prop} (h : Passed settings f status s)
    (hstart : ∀ s, Started settings f s → P s.entry s)
    (hstep : ∀ {expired status status'} {s s' : State α}, Passed settings f status s →
      Stepped f.varCount expired status s status' s' → P status s → P status' s')
    (hresume : ∀ s : State α, P .interrupted s → P s.entry s) : P status s := by
  induction h with
  | start hs => exact hstart _ (Started.of_start hs).2
  | step expired h hs ih => exact hstep h (h.stepped hs) ih
  | decide h hfree hassign ih =>
      exact hstep h (.decided rfl ((h.invariant (by simp)).decided_assign hfree hassign)) ih
  | resume _ ih => exact hresume _ ih

theorem comesTo {r : Status × State α} (h : Passed settings f status s)
    (hr : ComesTo (status, s) r) : Passed settings f r.1 r.2 := by
  induction hr with
  | refl => exact h
  | tail _ hmove ih =>
      cases hmove with
      | step expired hs => exact ih.step expired hs
      | decide hfree hassign => exact ih.decide hfree hassign
      | resume => exact ih.resume

theorem run {expired : Nat → Bool} {fuel made : Nat} (h : Passed settings f status s)
    (hrun : Search.run expired fuel made status s = .ok (status', s')) :
    Passed settings f status' s' :=
  h.comesTo (comesTo_of_run hrun)

/-- The search ends in a state that it passes through. -/
theorem search {clock : Nat → Instant} {limit : Option Duration}
    (hstart : State.start settings f = .ok s) (hsearch : s.search clock limit = .ok (status', s')) :
    Passed settings f status' s' := by
  obtain ⟨⟨status, deadline⟩, hbegin, -⟩ := bind_eq_ok_iff.1 hsearch
  rw [State.search_eq hbegin] at hsearch
  exact (Passed.start hstart).run hsearch

theorem storedFirst (h : Passed settings f status s) : StoredFirst s.database f :=
  h.keeps (fun _ hs => hs.storedFirst) (fun _ hstepped => hstepped.storedFirst) fun _ hs => hs

theorem onSchedule (h : Passed settings f status s) : s.OnSchedule settings.restart :=
  h.keeps (fun _ hs => hs.onSchedule) (fun _ hstepped => hstepped.onSchedule) fun _ hs => hs

theorem level_le (h : Passed settings f status s) :
    s.trail.level ≤ s.statistics.decisions := by
  refine h.keeps (fun s hs => ?_) (fun _ hstepped => hstepped.level_le) fun _ hs => hs
  rw [hs.loaded.level]
  exact Nat.zero_le _

theorem tallied (h : Passed settings f status s) : Tallied settings f status s := by
  refine h.keeps (fun s hs => .inr ⟨s.refutedAtLoad_of_entry, ?_⟩)
    (fun h hstepped ih => ih.stepped h hstepped)
    fun s hs => .inr ⟨s.refutedAtLoad_of_entry, hs.conflicts_eq (by simp)⟩
  rw [hs.statistics]
  rfl

theorem covered (h : Passed settings f status s) : State.Covered status s := by
  induction h with
  | start hs =>
      refine .inl ?_
      rw [(Started.of_start hs).2.statistics]
      exact Nat.le_refl 0
  | step expired h hs ih =>
      cases h.stepped hs with
      | propagated hp => exact .inl (ih.propagate hs)
      | resolved _ _ hr =>
          refine .inl ?_
          rw [hr.statistics]
          exact ih.le (by simp)
      | refuted => exact .inl (ih.le (by simp))
      | decided _ hd => exact ih.decide (h.invariant (by simp)) hd
      | interrupted => exact .inl (ih.le (by simp))
      | ended => exact ih
  | decide h hfree hassign ih =>
      have hinv := h.invariant (by simp)
      exact ih.decide hinv (hinv.decided_assign hfree hassign)
  | resume _ ih => exact .inl (ih.le (by simp))

end Passed

/-- What a search counts is what it stored and did. Conflicts are the learnt clauses and, where one
at the root level refuted the formula, this one. -/
theorem passed_counts (h : Passed settings f status s) :
    s.statistics.learnt = s.database.learntCount ∧ StoredFirst s.database f ∧
      (status = .refuted ∧ AfterRootConflict settings f s →
        s.statistics.conflicts = s.statistics.learnt + 1) ∧
      (¬ (status = .refuted ∧ AfterRootConflict settings f s) →
        s.statistics.conflicts = s.statistics.learnt) ∧
      s.statistics.restarts = s.schedule.restarts ∧ s.trail.level ≤ s.statistics.decisions ∧
      (status = .propagating → ∃ status' s', s.propagate = .ok (status', s') ∧
        s'.statistics.decisions ≤ s'.statistics.propagations) := by
  refine ⟨h.onSchedule.learnt, h.storedFirst, ?_, ?_, h.onSchedule.restarts, h.level_le, ?_⟩
  · rintro ⟨rfl, k, s₀, h₀, hlevel, hresolve⟩
    rw [State.resolve_root hlevel] at hresolve
    cases hresolve
    exact congrArg (· + 1) (h₀.tallied.conflicts_eq (by simp))
  · intro hnot
    rcases h.tallied with ⟨hstatus, hafter, -⟩ | ⟨-, hcount⟩
    · exact absurd ⟨hstatus, hafter⟩ hnot
    · exact hcount
  · rintro rfl
    have hinv := h.invariant (by simp)
    obtain ⟨status', s', hstep, -⟩ := State.propagate_ok hinv.fits hinv.poised
    exact ⟨status', s', hstep, h.covered.propagate hstep⟩

/-- A search that learns from its first conflict and is at the root level with its second. -/
theorem passed_counts_contradictory : ∃ s : State Rat,
    Passed Sample.exact Sample.contradictory .refuted s ∧
      AfterRootConflict Sample.exact Sample.contradictory s ∧
      s.statistics = ⟨1, 2, 2, 1, 0⟩ ∧ s.database.learntCount = 1 := by
  obtain ⟨s₀, hstart, hs₀⟩ := exists_of_any
    (x := State.start Sample.exact Sample.contradictory)
    (p := fun s₀ => (s₀.search (fun _ => ⟨0⟩) none).toOption.any
      fun r => r.1 = .refuted && r.2.statistics = ⟨1, 2, 2, 1, 0⟩) (by decide +kernel)
  obtain ⟨⟨status, s⟩, hsearch, hs⟩ := exists_of_any hs₀
  simp only [Bool.and_eq_true, decide_eq_true_eq] at hs
  obtain ⟨rfl, hstatistics⟩ := hs
  have h := Passed.search hstart hsearch
  obtain ⟨hlearnt, -, -, hnot, -⟩ := passed_counts h
  refine ⟨s, h, ?_, hstatistics, by rw [← hlearnt, hstatistics]⟩
  -- Otherwise there were as many conflicts as learnt clauses.
  by_contra hafter
  have hcount := hnot fun ⟨_, h⟩ => hafter h
  rw [hstatistics] at hcount
  cases hcount

end Search

end ClauseLearning
