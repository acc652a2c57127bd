import Mathlib
import ClauseLearning.Search.Run
import ClauseLearning.Proofs.Search.Invariant

/-!
# Termination of the search

Each transition lowers a potential: the clauses that can still be learnt count most, then the
variables without a value, then what is left to do with the trail as it is. So a search makes no
more transitions than its bound allows.
-/

namespace ClauseLearning.Search

variable {α : Type} {f : Formula} {s s' : State α} {status status' : Status} {n : Nat}

def Status.weight : Status → Nat
  | .propagating => 2
  | .conflict _ | .deciding => 1
  | .satisfied | .refuted | .interrupted => 0

/-- An upper bound on the number of transitions to come. -/
def potential (n : Nat) (status : Status) (s : State α) : Nat :=
  (3 ^ n - s.database.learntCount) * (2 * n + 2) + 2 * (n - s.trail.literals.size) + status.weight

theorem isFinal_of_potential_eq_zero (h : potential n status s = 0) : status.isFinal = true := by
  have hw : status.weight = 0 := by
    unfold potential at h
    omega
  cases status <;> simp_all [Status.weight, Status.isFinal]

theorem learntCount_push {db db' : Database} {c : StoredClause} {lits : List Literal}
    (hclauses : db'.clauses = db.clauses.push c) (hc : Database.Stores c lits true) :
    db'.learntCount = db.learntCount + 1 := by
  simp [Database.learntCount, hclauses, hc.learnt]

theorem Stepped.ne_interrupted (h : Stepped n false status s status' s')
    (hstatus : status ≠ .interrupted) : status' ≠ .interrupted := by
  cases h with
  | propagated hp =>
      obtain ⟨k, rfl, -⟩ | ⟨rfl, -⟩ := hp.outcome
      · simp
      · split <;> simp
  | resolved => simp
  | refuted => simp
  | decided => simp
  | interrupted hexpired => cases hexpired
  | ended => exact hstatus

namespace Invariant

theorem learntCount_le (h : Invariant f status s) : s.database.learntCount ≤ 3 ^ f.varCount :=
  h.represents.learntCount_le h.fits.fitting.sound

theorem potential_lt {expired : Bool} (h : Invariant f status s) (hfinal : status.isFinal = false)
    (hs : Stepped f.varCount expired status s status' s') :
    potential f.varCount status' s' < potential f.varCount status s := by
  have h' := h.stepped hs
  cases hs with
  | propagated hp =>
      have hcount : s'.database.learntCount = s.database.learntCount := by
        rw [Database.learntCount_eq_contents, hp.contents, ← Database.learntCount_eq_contents]
      have hsize := hp.grows.size_le
      have hweight : status'.weight ≤ 1 := by
        obtain ⟨k, rfl, -⟩ | ⟨rfl, -⟩ := hp.outcome
        · exact Nat.le_refl 1
        · split <;> simp [Status.weight]
      have htwo : Status.propagating.weight = 2 := rfl
      simp only [potential, hcount, htwo]
      omega
  | resolved _ _ hr =>
      obtain ⟨c, hclauses, hc⟩ := hr.stored
      have hcount := learntCount_push hclauses hc
      have hle := h'.learntCount_le
      obtain ⟨left, hleft⟩ := Nat.exists_eq_add_of_le hle
      have hbefore : 3 ^ f.varCount - s.database.learntCount = left + 1 := by omega
      have hafter : 3 ^ f.varCount - s'.database.learntCount = left := by omega
      simp only [potential, hbefore, hafter, Status.weight, Nat.add_mul]
      omega
  | refuted => simp [potential, Status.weight]
  | decided _ hd =>
      have hsize := h'.fits.fitting.coherent.size_le
      have hpush : s'.trail.literals.size = s.trail.literals.size + 1 := by
        simp [hd.trail, Trail.openLevel]
      simp only [potential, hd.database, hpush, Status.weight]
      omega
  | interrupted => simp [potential, Status.weight]
  | ended hended =>
      rw [hfinal] at hended
      cases hended

end Invariant

/-! ## Runs -/

/-- A search that has ended stays as it is. -/
theorem run_of_isFinal [Score α] {expired : Nat → Bool} {fuel made : Nat}
    (hfinal : status.isFinal = true) : run expired fuel made status s = .ok (status, s) := by
  cases fuel with
  | zero => rfl
  | succ fuel => rw [run, if_pos hfinal]

namespace Invariant

variable [Score α]

/-- With fuel for its potential a search runs up to a final status. -/
theorem run_final (h : Invariant f status s) (expired : Nat → Bool) {fuel : Nat} (made : Nat)
    (hfuel : potential f.varCount status s ≤ fuel) :
    ∃ status' s', run expired fuel made status s = .ok (status', s') ∧ Invariant f status' s' ∧
      status'.isFinal = true := by
  induction fuel generalizing status s made with
  | zero => exact ⟨status, s, rfl, h, isFinal_of_potential_eq_zero (Nat.le_zero.1 hfuel)⟩
  | succ fuel ih =>
      rw [run]
      cases hfinal : status.isFinal with
      | true => exact ⟨status, s, rfl, h, hfinal⟩
      | false =>
          obtain ⟨status₁, s₁, hstep, hstepped⟩ := h.step_ok (expired made)
          have hlt := h.potential_lt hfinal hstepped
          obtain ⟨status', s', hrun, h'⟩ := ih (h.stepped hstepped) (made + 1) (by omega)
          refine ⟨status', s', ?_, h'⟩
          rw [hstep]
          exact hrun

/-- Only the clock interrupts a search. -/
theorem run_uninterrupted {expired : Nat → Bool} (h : Invariant f status s)
    (hexpired : ∀ i, expired i = false) (hstatus : status ≠ .interrupted) {fuel made : Nat}
    (hrun : run expired fuel made status s = .ok (status', s')) : status' ≠ .interrupted := by
  obtain ⟨status₁, s₁, hrun₁, h₁⟩ := h.run_keeps (P := fun status _ => status ≠ .interrupted)
    hstatus expired (fun i _ _ _ _ _ hs _ hstepped => by
      rw [hexpired i] at hstepped
      exact hstepped.ne_interrupted hs) fuel made
  cases hrun.symm.trans hrun₁
  exact h₁

end Invariant

/-- More fuel changes nothing once a run has ended. -/
theorem run_of_le [Score α] {expired : Nat → Bool} {fuel fuel' made : Nat}
    (hrun : run expired fuel made status s = .ok (status', s')) (hfinal : status'.isFinal = true)
    (hle : fuel ≤ fuel') : run expired fuel' made status s = .ok (status', s') := by
  induction fuel generalizing status s made fuel' with
  | zero =>
      cases hrun
      exact run_of_isFinal hfinal
  | succ fuel ih =>
      obtain ⟨rest, rfl⟩ := Nat.exists_eq_add_of_le' (Nat.lt_of_lt_of_le (Nat.succ_pos fuel) hle)
      rw [run] at hrun ⊢
      split at hrun
      · rw [if_pos ‹_›]
        exact hrun
      · rw [if_neg ‹_›]
        cases hstep : s.step (expired made) status with
        | error fault => simp [hstep] at hrun
        | ok r =>
            rw [hstep] at hrun
            exact ih hrun (Nat.le_of_succ_le_succ hle)

theorem potential_le_transitionBound (n : Nat) (status : Status) (s : State α) :
    potential n status s ≤ transitionBound n := by
  have hthree : 3 ^ n ≤ 4 ^ n := Nat.pow_le_pow_left (by decide) n
  have hone : 1 ≤ 4 ^ n := Nat.one_le_pow n 4 (by decide)
  have hweight : status.weight ≤ 2 := by cases status <;> simp [Status.weight]
  have hsub : 3 ^ n - s.database.learntCount ≤ 4 ^ n := (Nat.sub_le _ _).trans hthree
  calc potential n status s
      ≤ 4 ^ n * (2 * n + 2) + 2 * n + 2 := by
        have := Nat.mul_le_mul_right (2 * n + 2) hsub
        unfold potential
        omega
    _ ≤ 4 ^ n * (2 * n + 2) + 4 ^ n * (2 * n + 2) := by
        have := Nat.mul_le_mul_right (2 * n + 2) hone
        omega
    _ ≤ 4 ^ (n + 2) * (n + 2) := by
        have hpow : 4 ^ (n + 2) = 4 ^ n * 16 := by rw [Nat.pow_add]
        rw [hpow, ← Nat.mul_add, Nat.mul_assoc]
        exact Nat.mul_le_mul_left _ (by omega)

end ClauseLearning.Search
