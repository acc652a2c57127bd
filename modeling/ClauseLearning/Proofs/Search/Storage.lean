import Mathlib
import ClauseLearning.Proofs.Formula
import ClauseLearning.Proofs.Search.Counts

/-!
# Stored clauses are fit to be watched

A clause can be watched as long as it has a literal and repeats none. Formulas see to this for the
clauses that they are built from and analysis for those that it learns; and nothing that a search does
changes a clause that is stored.
-/

namespace ClauseLearning

variable {n : Nat}

/-- The clause has a literal to watch, a row for each of its literals and no literal twice. A learnt
clause has no variable twice. -/
structure StoredClause.Watchable (c : StoredClause) (n : Nat) : Prop where
  nonempty : c.literals ≠ #[]
  inScope : ∀ l ∈ c.literals, l.var.index < n
  nodup : c.literals.toList.Nodup
  nodup_var : c.learnt = true → (c.literals.toList.map Literal.var).Nodup

theorem Database.Sound.watchable {db : Database} (h : db.Sound n)
    (hdistinct : ∀ e ∈ db.contents, e.2 = true → (e.1.toList.map Literal.var).Nodup) :
    ∀ c ∈ db.clauses, c.Watchable n := by
  intro c hc
  have hne : c.literals ≠ #[] := Array.ne_empty_of_size_pos (Nat.zero_lt_of_lt c.first_lt)
  exact ⟨hne, h.inScope c hc, h.nodup c hc, hdistinct _ (Array.mem_map_of_mem hc)⟩

namespace Search

variable {α : Type} {settings : Settings α} {f : Formula} {s s' : State α} {status status' : Status}

theorem Started.watchable (h : Started settings f s) :
    ∀ c ∈ s.database.clauses, c.Watchable f.varCount := by
  refine h.loaded.ready.sound.watchable fun e he hlearnt => ?_
  rw [h.loaded.original e (Array.mem_toList_iff.2 he)] at hlearnt
  cases hlearnt

theorem Invariant.watchable (h : Invariant f status s) :
    ∀ c ∈ s.database.clauses, c.Watchable f.varCount :=
  h.fits.fitting.sound.watchable h.represents.distinct

/-- A transition stores at most one more clause and leaves the others as they are. -/
theorem Stepped.isPrefix {expired : Bool} (h : Stepped n expired status s status' s') :
    s.database.contents.toList <+: s'.database.contents.toList := by
  rcases h.contents with hc | ⟨c, hc⟩
  · rw [hc]
  · rw [hc, Array.toList_push]
    exact List.prefix_append _ _

variable [Score α]

namespace Passed

/-- Clauses are stored behind those that are stored already, and none is changed or removed. -/
theorem isPrefix {r : Status × State α} (h : Passed settings f status s)
    (hr : ComesTo (status, s) r) :
    s.database.contents.toList <+: r.2.database.contents.toList := by
  induction hr with
  | refl => exact List.prefix_rfl
  | tail hcomes hmove ih =>
      refine ih.trans ?_
      cases hmove with
      | step expired hs => exact ((h.comesTo hcomes).stepped hs).isPrefix
      | decide => exact List.prefix_rfl
      | resume => exact List.prefix_rfl

/-- A formula that is refuted at load is not searched. -/
theorem started_of_refutedAtLoad (h : Passed settings f status s) (hload : s.refutedAtLoad = true) :
    status = .refuted ∧ Started settings f s := by
  refine h.keeps (P := fun status s => s.refutedAtLoad = true →
    status = .refuted ∧ Started settings f s) ?_ ?_ ?_ hload
  · exact fun s hs hload => ⟨by rw [State.entry, if_pos hload], hs⟩
  · intro expired status status' s s' _ hstepped ih hload
    obtain ⟨rfl, hs⟩ := ih (hstepped.refutedAtLoad ▸ hload)
    cases hstepped
    exact ⟨rfl, hs⟩
  · intro s ih hload
    cases (ih hload).1

theorem watchable (h : Passed settings f status s) :
    ∀ c ∈ s.database.clauses, c.Watchable f.varCount := by
  rcases h.refuted_or_invariant with ⟨-, hload⟩ | ⟨-, hinv⟩
  · exact (h.started_of_refutedAtLoad hload).2.watchable
  · exact hinv.watchable

end Passed

/-! ## From the lists of literals to the stored clauses -/

/-- A formula keeps of each clause that it is built from the first occurrence of each literal, which is
true under the same assignments. A search stores these clauses and those that it learns. All of them
are fit to be watched, and they stay as they were stored. -/
theorem built_clauses_watchable {given : List Clause} (hn : n ≤ Variable.maxId)
    (hscope : ∀ c ∈ given, c.InScope n) :
    ∃ f, Formula.ofClauses n given = .ok f ∧ f.varCount = n ∧
      List.Forall₂ (fun c d : Clause => Clause.FirstOccurrences c.literals d.literals ∧
        ∀ values, d.satisfiedBy values = c.satisfiedBy values) given f.clauses.toList ∧
      ∀ (settings : Settings α) status s, Passed settings f status s →
        StoredFirst s.database f ∧ (∀ c ∈ s.database.clauses, c.Watchable n) ∧
          ∀ status' s', ComesTo (status, s) (status', s') →
            s.database.contents.toList <+: s'.database.contents.toList := by
  obtain ⟨f, hf, rfl, hclauses⟩ := Formula.exists_ofClauses hn hscope
  refine ⟨f, hf, rfl, ?_, fun settings status s h => ⟨h.storedFirst, h.watchable, ?_⟩⟩
  · rw [hclauses, List.forall₂_map_right_iff, List.forall₂_same]
    exact fun c _ => ⟨c.firstOccurrences_dedup, c.satisfiedBy_dedup⟩
  · exact fun status' s' hcomes => h.isPrefix hcomes

namespace Sample

/-- The clauses of `satisfiable` there and back, and each with its negations. -/
def repetitive : List Clause :=
  satisfiable.clauses.toList.map (fun c => ⟨c.literals ++ c.literals.reverse⟩) ++
    satisfiable.clauses.toList.map fun c => ⟨c.literals ++ c.literals.map Literal.negate⟩

end Sample

theorem built_clauses_watchable_repetitive : ∃ (f : Formula) (s s' : State Rat),
    Formula.ofClauses 2 Sample.repetitive = .ok f ∧
      f.clauses.toList.map (·.literals.length) = [2, 2, 2, 4, 4, 4] ∧
      Passed Sample.exact f .propagating s ∧ s.database.clauses.size = 6 ∧
      ComesTo (.propagating, s) (.satisfied, s') ∧ s'.database.learntCount = 1 ∧
      (∀ c ∈ s'.database.clauses, c.Watchable 2) ∧
      s.database.contents.toList <+: s'.database.contents.toList := by
  obtain ⟨f, hf, -, -, hsearch⟩ :=
    built_clauses_watchable (α := Rat) (by decide) (by decide : ∀ c ∈ Sample.repetitive, c.InScope 2)
  obtain ⟨f', hf', hvalues⟩ := exists_of_any (x := Formula.ofClauses 2 Sample.repetitive)
    (p := fun f => f.clauses.toList.map (·.literals.length) = [2, 2, 2, 4, 4, 4] &&
      (State.start Sample.exact f).toOption.any fun s =>
        s.entry = .propagating && s.database.clauses.size = 6 &&
        (run (fun _ => false) 20 0 .propagating s).toOption.any fun r =>
          r.1 = .satisfied && r.2.database.learntCount = 1) (by decide +kernel)
  cases hf.symm.trans hf'
  rw [Bool.and_eq_true, decide_eq_true_eq] at hvalues
  obtain ⟨hlengths, hvalues⟩ := hvalues
  obtain ⟨s, hstart, hvalues⟩ := exists_of_any hvalues
  simp only [Bool.and_eq_true, decide_eq_true_eq] at hvalues
  obtain ⟨⟨hentry, hsize⟩, hvalues⟩ := hvalues
  obtain ⟨⟨status, s'⟩, hrun, hvalues⟩ := exists_of_any hvalues
  simp only [Bool.and_eq_true, decide_eq_true_eq] at hvalues
  obtain ⟨rfl, hcount⟩ := hvalues
  have h : Passed Sample.exact f .propagating s := hentry ▸ .start hstart
  obtain ⟨-, -, hlater⟩ := hsearch _ _ s h
  obtain ⟨-, hwatchable, -⟩ := hsearch _ _ s' (h.run hrun)
  exact ⟨f, s, s', hf, hlengths, h, hsize, comesTo_of_run hrun, hcount, hwatchable,
    hlater _ s' (comesTo_of_run hrun)⟩

end Search

end ClauseLearning
