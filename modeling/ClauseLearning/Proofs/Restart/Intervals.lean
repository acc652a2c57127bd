import Mathlib
import ClauseLearning.Restart.Schedule
import ClauseLearning.Proofs.Restart.Luby

/-!
# Restarts and the intervals between them

A policy gives the lengths of the intervals between restarts. A schedule only holds the interval in
progress and a count, but its restarts come where one interval after the other ends, for as many
conflicts as a word can count.
-/

namespace ClauseLearning.Restart

variable {p : Policy} {s : Schedule} {calls c i k r : Nat}

/-! ## The intervals of a policy -/

namespace Policy

/-- The policy never restarts, or its parameter is not zero. -/
def IsPositive : Policy → Prop
  | .never => True
  | .fixed n | .geometric n | .luby n => 0 < n.toNat

instance (p : Policy) : Decidable p.IsPositive :=
  match p with
  | .never => isTrue trivial
  | .fixed n | .geometric n | .luby n => inferInstanceAs (Decidable (0 < n.toNat))

/-- The length of an interval that follows one of the given length, where intervals grow. -/
def grow (interval : Nat) : Nat := Word.saturate (3 * interval) / 2 + 10

/-- The length of the interval behind `k` restarts. -/
def interval? : Policy → Nat → Option Nat
  | .never, _ => none
  | .fixed n, _ => some n.toNat
  | .geometric first, k => some (grow^[k] first.toNat)
  | .luby unit, k => (luby? k).map fun term => Word.saturate (unit.toNat * term)

/-- The number of conflicts at which the `r`-th restart comes: the first `r` intervals together. -/
def point? (p : Policy) : Nat → Option Nat
  | 0 => some 0
  | r + 1 => do
    let elapsed ← p.point? r
    let interval ← p.interval? r
    pure (elapsed + interval)

/-- A restart comes at that number of conflicts. -/
def RestartsAt (p : Policy) (conflicts : Nat) : Prop :=
  ∃ r, 1 ≤ r ∧ p.point? r = some conflicts

theorem grow_lt (interval : Nat) : grow interval < Word.limit := by
  have := Word.saturate_lt (3 * interval)
  unfold grow
  unfold Word.limit at *
  omega

theorem interval?_lt (h : p.interval? k = some i) : i < Word.limit := by
  cases p with
  | never => cases h
  | fixed n =>
      cases h
      exact n.toNat_lt
  | geometric first =>
      cases h
      cases k with
      | zero => exact first.toNat_lt
      | succ k =>
          rw [Function.iterate_succ_apply']
          exact grow_lt _
  | luby unit =>
      obtain ⟨term, -, rfl⟩ := Option.map_eq_some_iff.1 h
      exact Word.saturate_lt _

theorem interval?_pos (hpos : p.IsPositive) (h : p.interval? k = some i) : 0 < i := by
  cases p with
  | never => cases h
  | fixed n =>
      cases h
      exact hpos
  | geometric first =>
      cases h
      cases k with
      | zero => exact hpos
      | succ k =>
          rw [Function.iterate_succ_apply', grow]
          omega
  | luby unit =>
      obtain ⟨term, hterm, rfl⟩ := Option.map_eq_some_iff.1 h
      have := Nat.mul_pos hpos (luby?_pos hterm)
      unfold Word.saturate Word.limit
      omega

/-- Only where there are no restarts there is no interval. -/
theorem eq_never (hk : k + 1 < Word.limit) (h : p.interval? k = none) : p = .never := by
  cases p with
  | never => rfl
  | fixed n => cases h
  | geometric first => cases h
  | luby unit =>
      obtain ⟨term, hterm⟩ := luby?_ok hk
      simp [interval?, hterm] at h

/-- The next interval is found from the one before it and the number of restarts, as long as the
latter leads to a Luby term. -/
theorem interval?_succ (hk : k + 2 < Word.limit) (h : p.interval? k = some i) :
    p.interval? (k + 1) = some (Schedule.nextInterval p i (k + 1)) := by
  cases p with
  | never => cases h
  | fixed n => exact h
  | geometric first =>
      cases h
      rw [interval?, Function.iterate_succ_apply', Schedule.nextInterval, grow, Nat.mul_comm]
  | luby unit =>
      obtain ⟨term, hterm⟩ := luby?_ok hk
      simp [interval?, Schedule.nextInterval, hterm]

theorem point?_succ_eq_some_iff : p.point? (r + 1) = some c ↔
    ∃ elapsed i, p.point? r = some elapsed ∧ p.interval? r = some i ∧ elapsed + i = c := by
  simp [point?, Option.bind_eq_some_iff]

/-- Restarts come one after the other. -/
theorem exists_point?_le {r' c' : Nat} (hle : r ≤ r') (h : p.point? r' = some c') :
    ∃ c, p.point? r = some c ∧ c ≤ c' := by
  induction hle generalizing c' with
  | refl => exact ⟨c', h, Nat.le_refl _⟩
  | step _ ih =>
      obtain ⟨elapsed, i, helapsed, -, rfl⟩ := point?_succ_eq_some_iff.1 h
      obtain ⟨c, hc, hle⟩ := ih helapsed
      exact ⟨c, hc, Nat.le_add_right_of_le hle⟩

end Policy

/-! ## Counting conflicts -/

namespace Schedule

theorem onConflict_of_none (h : s.interval = none) : s.onConflict = (false, s) := by
  rw [onConflict, h]

theorem onConflict_of_lt (h : s.interval = some i) (hlt : s.conflicts + 1 < i) :
    s.onConflict = (false, { s with conflicts := s.conflicts + 1 }) := by
  rw [onConflict, h]
  exact if_pos hlt

theorem onConflict_of_le (h : s.interval = some i) (hle : i ≤ s.conflicts + 1) :
    s.onConflict = (true, { s with
      restarts := s.restarts + 1
      conflicts := 0
      interval := some (nextInterval s.policy i (s.restarts + 1)) }) := by
  rw [onConflict, h]
  exact if_neg (Nat.not_lt.2 hle)

theorem restarts_onConflict (s : Schedule) :
    s.onConflict.2.restarts = s.restarts + s.onConflict.1.toNat := by
  unfold onConflict
  split
  · rfl
  · split <;> rfl

/-- The schedule after so many conflicts. -/
def after (p : Policy) (calls : Nat) : Schedule :=
  (fun s => s.onConflict.2)^[calls] (start p)

theorem after_succ (p : Policy) (calls : Nat) :
    after p (calls + 1) = (after p calls).onConflict.2 :=
  Function.iterate_succ_apply' _ _ _

theorem restarts_after (p : Policy) (calls : Nat) : (after p calls).restarts =
    (List.range calls).countP fun j => (after p j).onConflict.1 := by
  induction calls with
  | zero => rfl
  | succ calls ih =>
      rw [after_succ, restarts_onConflict, ih, List.range_succ, List.countP_append]
      simp [List.countP_singleton, Bool.toNat]

/-- The schedule is in the interval behind its last restart, and the count goes on from there. -/
structure InProgress (p : Policy) (calls : Nat) (s : Schedule) : Prop where
  policy : s.policy = p
  restarts_le : s.restarts ≤ calls
  conflicts_le : s.conflicts ≤ calls
  interval : s.interval = p.interval? s.restarts
  conflicts_lt : ∀ i, s.interval = some i → s.conflicts < i
  elapsed : ∀ i, s.interval = some i →
    ∃ point, p.point? s.restarts = some point ∧ calls = point + s.conflicts

namespace InProgress

theorem start (hpos : p.IsPositive) : InProgress p 0 (start p) := by
  have hinterval : (Schedule.start p).interval = p.interval? 0 := by
    cases p with
    | never => rfl
    | fixed n => rfl
    | geometric first => rfl
    | luby unit =>
        have hterm : luby? 0 = some 1 := by decide +kernel
        simp [Schedule.start, Policy.interval?, hterm, Word.saturate_of_lt unit.toNat_lt]
  refine ⟨rfl, Nat.le_refl _, Nat.le_refl _, hinterval, fun i hi => ?_, fun i _ => ⟨0, rfl, rfl⟩⟩
  exact Policy.interval?_pos hpos (hinterval.symm.trans hi)

theorem onConflict (h : InProgress p calls s) (hpos : p.IsPositive)
    (hcalls : calls + 2 < Word.limit) : InProgress p (calls + 1) s.onConflict.2 := by
  have hrestarts := h.restarts_le
  have hconflicts := h.conflicts_le
  cases hi : s.interval with
  | none =>
      rw [onConflict_of_none hi]
      refine ⟨h.policy, Nat.le_succ_of_le hrestarts, Nat.le_succ_of_le hconflicts, h.interval, ?_, ?_⟩
      · simp [hi]
      · simp [hi]
  | some i =>
      obtain ⟨point, hpoint, helapsed⟩ := h.elapsed i hi
      have hlt := h.conflicts_lt i hi
      by_cases hdue : s.conflicts + 1 < i
      · rw [onConflict_of_lt hi hdue]
        refine ⟨h.policy, Nat.le_succ_of_le hrestarts, Nat.succ_le_succ hconflicts, h.interval, ?_, ?_⟩
        · intro j hj
          cases hi.symm.trans hj
          exact hdue
        · intro j _
          exact ⟨point, hpoint, by rw [helapsed, Nat.add_assoc]⟩
      · have hinterval := hi.symm.trans h.interval
        have hnext := Policy.interval?_succ (by omega) hinterval.symm
        rw [onConflict_of_le hi (Nat.le_of_not_lt hdue), h.policy]
        refine ⟨rfl, Nat.succ_le_succ hrestarts, Nat.zero_le _, hnext.symm, ?_, ?_⟩
        · intro j hj
          exact Policy.interval?_pos hpos (hnext.trans hj)
        · intro j _
          refine ⟨point + i, Policy.point?_succ_eq_some_iff.2 ⟨point, i, hpoint, hinterval.symm, rfl⟩, ?_⟩
          change calls + 1 = point + i + 0
          omega

theorem after (hpos : p.IsPositive) (hcalls : calls + 1 < Word.limit) :
    InProgress p calls (after p calls) := by
  induction calls with
  | zero => exact start hpos
  | succ calls ih =>
      rw [after_succ]
      exact (ih (by omega)).onConflict hpos hcalls

/-- The next conflict ends the interval in progress exactly if a restart comes there. -/
theorem isDue_iff (h : InProgress p calls s) (hcalls : calls + 1 < Word.limit) :
    s.onConflict.1 = true ↔ p.RestartsAt (calls + 1) := by
  have hrestarts := h.restarts_le
  cases hi : s.interval with
  | none =>
      rw [onConflict_of_none hi]
      simp only [Bool.false_eq_true, false_iff]
      rintro ⟨r, hr, hpoint⟩
      obtain rfl := Policy.eq_never (by omega) (h.interval.symm.trans hi)
      obtain ⟨r, rfl⟩ := Nat.exists_eq_add_of_le' hr
      obtain ⟨_, _, -, hsome, -⟩ := Policy.point?_succ_eq_some_iff.1 hpoint
      cases hsome
  | some i =>
      obtain ⟨point, hpoint, helapsed⟩ := h.elapsed i hi
      have hlt := h.conflicts_lt i hi
      have hnext : p.point? (s.restarts + 1) = some (point + i) :=
        Policy.point?_succ_eq_some_iff.2 ⟨point, i, hpoint, h.interval.symm.trans hi, rfl⟩
      by_cases hdue : s.conflicts + 1 < i
      · rw [onConflict_of_lt hi hdue]
        simp only [Bool.false_eq_true, false_iff]
        rintro ⟨r, -, hr⟩
        -- The restart would come behind the last one and before the next.
        rcases Nat.lt_or_ge s.restarts r with hlater | hearlier
        · obtain ⟨c, hc, hle⟩ := Policy.exists_point?_le hlater hr
          cases hnext.symm.trans hc
          omega
        · obtain ⟨c, hc, hle⟩ := Policy.exists_point?_le hearlier hpoint
          cases hr.symm.trans hc
          omega
      · rw [onConflict_of_le hi (Nat.le_of_not_lt hdue)]
        simp only [true_iff]
        refine ⟨s.restarts + 1, Nat.le_add_left _ _, hnext.trans ?_⟩
        rw [helapsed]
        congr 1
        omega

end InProgress

/-- What the next call counts and computes fits words. -/
structure FitsWords (s : Schedule) : Prop where
  conflicts_lt : s.conflicts + 1 < Word.limit
  restarts_lt : s.restarts + 1 < Word.limit
  interval_lt : ∀ i, s.onConflict.2.interval = some i → i < Word.limit
  term : ∃ term, luby? (s.restarts + 1) = some term

theorem InProgress.fitsWords (h : InProgress p calls s) (hpos : p.IsPositive)
    (hcalls : calls + 2 < Word.limit) : s.FitsWords := by
  have hrestarts := h.restarts_le
  have hconflicts := h.conflicts_le
  refine ⟨by omega, by omega, fun i hi => ?_, luby?_ok (by omega)⟩
  exact Policy.interval?_lt ((h.onConflict hpos hcalls).interval.symm.trans hi)

/-- The call behind so many others stays within words and answers as the intervals of the policy say.
It leaves the number of restarts so far and the interval in progress. -/
structure OnTime (p : Policy) (calls : Nat) : Prop where
  fitsWords : (after p calls).FitsWords
  isDue_iff : (after p calls).onConflict.1 = true ↔ p.RestartsAt (calls + 1)
  restarts : (after p (calls + 1)).restarts =
    (List.range (calls + 1)).countP fun j => (after p j).onConflict.1
  interval : (after p (calls + 1)).interval = p.interval? (after p (calls + 1)).restarts

theorem onTime (hpos : p.IsPositive) (hcalls : calls + 2 < Word.limit) : OnTime p calls := by
  have hbefore := InProgress.after hpos (Nat.lt_of_succ_lt hcalls)
  exact ⟨hbefore.fitsWords hpos hcalls, hbefore.isDue_iff (Nat.lt_of_succ_lt hcalls),
    restarts_after p (calls + 1), (InProgress.after hpos hcalls).interval⟩

end Schedule

end ClauseLearning.Restart
