import Mathlib
import ClauseLearning.Proofs.Search.Reachable

/-!
# The watches of a search

A watched literal that is false and was taken up has a true companion of no higher level, so nothing
has to be done for the watches when assignments are taken back. A conflict breaks this at the current
level only.
-/

namespace ClauseLearning

variable {db : Database} {t : Trail} {n b : Nat}

theorem Ready.obeys_below (h : Ready n db t) : db.Obeys t fun w _ => t.levelOf w.var < t.level :=
  h.obeys.mono fun _ _ hlevel hfalse =>
    h.coherent.mem_taken h.settled (h.coherent.isFalse_iff.1 hfalse) hlevel

namespace Search

variable {α : Type} {settings : Settings α} {f : Formula} {s : State α} {status : Status}

/-- A stored clause is in conflict, or the search ended at one. -/
def Status.hasConflict : Status → Bool
  | .conflict _ | .refuted => true
  | .propagating | .deciding | .satisfied | .interrupted => false

namespace Status.Fits

theorem ready (h : status.Fits n db t) (hs : status.hasConflict = false) : Ready n db t := by
  cases status with
  | propagating => exact h
  | conflict k => cases hs
  | deciding => exact h.1
  | satisfied => exact h.1
  | refuted => cases hs
  | interrupted => exact h.1

theorem clash (h : status.Fits n db t) (hs : status.hasConflict = true) : ∃ k, Clash n db t k := by
  cases status with
  | conflict k => exact ⟨k, h⟩
  | refuted => exact h.2
  | propagating | deciding | satisfied | interrupted => cases hs

theorem obeys_below (h : status.Fits n db t) :
    db.Obeys t fun w _ => t.levelOf w.var < t.level := by
  cases hs : status.hasConflict with
  | false => exact (h.ready hs).obeys_below
  | true =>
    obtain ⟨k, hclash⟩ := h.clash hs
    exact hclash.obeys

/-- Backtracking restores the watches, be it from a conflict. -/
theorem backtrack (h : status.Fits n db t) (hb : b < t.level) : Ready n db (t.backtrack b).2 := by
  cases hs : status.hasConflict with
  | false => exact (h.ready hs).backtrack b
  | true =>
    obtain ⟨k, hclash⟩ := h.clash hs
    exact hclash.backtrack hb

theorem head_eq (h : status.Fits n db t) (hs : status = .deciding ∨ status = .satisfied) :
    t.head = t.literals.size := by
  rcases hs with rfl | rfl
  · exact h.2.1
  · exact h.2.1

end Status.Fits

variable [Score α]

theorem Reachable.ready_backtrack (h : Reachable settings f status s) (hb : b < s.trail.level) :
    Ready f.varCount s.database (s.trail.backtrack b).2 :=
  h.invariant.fits.backtrack hb

/-- Where no clause is in conflict, each watched literal that is false and was taken up has a true
companion of no higher level; in any state this holds of those that became false below the current
level. Unit clauses are true at the root level, and decisions are due when all was taken up. -/
theorem reachable_obeys (h : Reachable settings f status s) :
    (status.hasConflict = false → s.database.Obeys s.trail fun w _ => w.negate ∈ s.trail.taken) ∧
      (s.database.Obeys s.trail fun w _ => s.trail.levelOf w.var < s.trail.level) ∧
      s.database.Rooted s.trail ∧
      (status = .deciding ∨ status = .satisfied → s.trail.head = s.trail.literals.size) := by
  have hinv := h.invariant
  refine ⟨fun hs => ?_, hinv.fits.obeys_below, hinv.rooted, hinv.fits.head_eq⟩
  exact (hinv.fits.ready hs).obeys

theorem reachable_obeys_satisfied : ∃ s : State Rat,
    Reachable Sample.exact Sample.satisfiable .satisfied s ∧ s.database.learntCount = 1 ∧
      (s.database.Obeys s.trail fun w _ => w.negate ∈ s.trail.taken) ∧
      s.database.Rooted s.trail ∧ s.trail.head = s.trail.literals.size := by
  obtain ⟨s, hs, hcount⟩ := Sample.exists_reachable Sample.satisfiable 5 .satisfied
    (fun s => s.database.learntCount = 1) (by decide +kernel)
  obtain ⟨hobeys, -, hrooted, hhead⟩ := reachable_obeys hs
  exact ⟨s, hs, by simpa using hcount, hobeys rfl, hrooted, hhead (.inr rfl)⟩

/-- Where the formula is refuted, a false watched literal that was taken up may have no true
companion. -/
theorem not_obeys_of_refuted : ∃ (s : State Rat) (c : StoredClause) (w o : Literal),
    Reachable Sample.exact Sample.conflicting .refuted s ∧ s.database.clauses[2]? = some c ∧
      2 ≤ c.literals.size ∧ c.WatchPair w o ∧ s.trail.IsFalse w ∧ w.negate ∈ s.trail.taken ∧
      ¬ s.trail.IsTrue o := by
  obtain ⟨s, hs, hany⟩ := Sample.exists_reachable Sample.conflicting 2 .refuted
    (fun s => s.database.clauses[2]?.any fun c => 2 ≤ c.literals.size &&
      s.trail.valueOf c.secondWatched.var = some (!c.secondWatched.positive) &&
      c.secondWatched.negate ∈ s.trail.taken &&
      s.trail.valueOf c.firstWatched.var ≠ some c.firstWatched.positive) (by decide +kernel)
  obtain ⟨c, hc, hany⟩ := (Option.any_eq_true _ _).1 hany
  simp only [Bool.and_eq_true, decide_eq_true_eq] at hany
  obtain ⟨⟨⟨hsize, hfalse⟩, htaken⟩, hother⟩ := hany
  exact ⟨s, c, _, _, hs, hc, hsize, .inr ⟨rfl, rfl⟩, hfalse, htaken, hother⟩

end Search

end ClauseLearning
