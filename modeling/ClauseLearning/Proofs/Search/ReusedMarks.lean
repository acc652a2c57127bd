import Mathlib
import ClauseLearning.Proofs.Analysis.Asserting
import ClauseLearning.Proofs.Search.Novelty

/-!
# Marks from one conflict to the next

Every analysis takes back the marks that it makes. So marks may be kept over any number of conflicts,
and each of these is analysed as if it were the first.
-/

namespace ClauseLearning

variable {n k : Nat}

/-- A clause in conflict, with the assignments that led to the conflict. -/
structure Conflict where
  graph : ImplicationGraph
  level : Nat
  clause : List Literal
  /-- The assigned literals, the oldest first. -/
  trail : List Literal

namespace Conflict

variable {c : Conflict} {cs : List Conflict}

def analyze (c : Conflict) (m : Marks) : Except Fault (Learnt × Marks) :=
  ClauseLearning.analyze c.graph c.level c.clause c.trail m

/-- The clause is false above the root level, not without the literals of the current level. -/
structure WellFormed (c : Conflict) (n : Nat) : Prop where
  describes : c.graph.Describes c.trail n c.level
  level_ne_zero : c.level ≠ 0
  isFalse : ∀ l ∈ c.clause, l.negate ∈ c.trail
  current : ∃ l ∈ c.clause, c.graph.level l.var = c.level

theorem WellFormed.analyze_clear (h : c.WellFormed n) :
    ∃ learnt, c.analyze (Marks.clear n) = .ok (learnt, Marks.clear n) := by
  obtain ⟨learnt, hanalyze, -⟩ := analyze_spec h.describes h.level_ne_zero h.isFalse h.current
  exact ⟨learnt, hanalyze⟩

/-- Analyses conflicts in turn, each with the marks that the one before it left behind. -/
def analyzeAll : List Conflict → Marks → Except Fault (List (Learnt × Marks))
  | [], _ => .ok []
  | c :: cs, m => do
    let (learnt, m) ← c.analyze m
    let rest ← analyzeAll cs m
    pure ((learnt, m) :: rest)

theorem analyzeAll_clear (h : ∀ c ∈ cs, c.WellFormed n) :
    ∃ results, analyzeAll cs (Marks.clear n) = .ok results ∧
      List.Forall₂ (fun c result =>
        result.2 = Marks.clear n ∧ c.analyze (Marks.clear n) = .ok result) cs results := by
  induction cs with
  | nil => exact ⟨[], rfl, .nil⟩
  | cons c cs ih =>
      obtain ⟨learnt, hanalyze⟩ := (h c List.mem_cons_self).analyze_clear
      obtain ⟨results, hall, hresults⟩ := ih fun d hd => h d (List.mem_cons_of_mem c hd)
      refine ⟨(learnt, Marks.clear n) :: results, ?_, .cons ⟨rfl, hanalyze⟩ hresults⟩
      simp only [analyzeAll, hanalyze, hall, bind, Except.bind, pure, Except.pure]

end Conflict

/-! ## The conflicts of a search -/

namespace Search

variable {α : Type} {settings : Settings α} {f : Formula} {s : State α} {status : Status}

/-- The conflict that a stored clause is in. -/
def State.conflict? (s : State α) (number : Nat) : Option Conflict :=
  (s.database.literals? number).map fun clause =>
    ⟨s.graph, s.trail.level, clause, s.trail.literals.toList⟩

theorem State.wellFormed_of_conflict? {c : Conflict} (h : Clash n s.database s.trail k)
    (hlevel : s.trail.level ≠ 0) (hc : s.conflict? k = some c) : c.WellFormed n := by
  obtain ⟨clause, hclause, hfalse, hcurrent⟩ := h.conflicting
  rw [State.conflict?, hclause, Option.map_some] at hc
  cases hc
  exact ⟨h.describes, hlevel, hfalse, hcurrent⟩

variable [Score α]

/-- The clause that is learnt from a conflict is the one that a first analysis gives. -/
theorem Invariant.resolve_conflict (h : Invariant f (.conflict k) s) (hlevel : s.trail.level ≠ 0) :
    ∃ c learnt s', s.conflict? k = some c ∧ c.WellFormed f.varCount ∧
      c.analyze (Marks.clear f.varCount) = .ok (learnt, Marks.clear f.varCount) ∧
      s.resolve k = .ok (.propagating, s') ∧ s.Resolved f.varCount learnt s' := by
  have hclash : Clash f.varCount s.database s.trail k := h.fits
  obtain ⟨clause, learnt, s', hclause, hanalyze, hresolve, hr⟩ :=
    State.resolve_learns h.poised h.marks hclash hlevel
  have hc : s.conflict? k = some ⟨s.graph, s.trail.level, clause, s.trail.literals.toList⟩ := by
    rw [State.conflict?, hclause, Option.map_some]
  rw [h.marks] at hanalyze
  exact ⟨_, learnt, s', hc, State.wellFormed_of_conflict? hclash hlevel hc, hanalyze, hresolve, hr⟩

/-- However many conflicts are analysed in turn, the marks are clear after each of them, and it leads to
the clause and the backjump that it leads to alone. The conflicts of a search are of this kind, but for
one at the root level, and what it learns from each is what a first analysis gives. -/
theorem analyses_as_if_first :
    (∀ (n : Nat) (cs : List Conflict), (∀ c ∈ cs, c.WellFormed n) →
      ∃ results, Conflict.analyzeAll cs (Marks.clear n) = .ok results ∧
        List.Forall₂ (fun c result =>
          result.2 = Marks.clear n ∧ c.analyze (Marks.clear n) = .ok result) cs results) ∧
    ∀ (settings : Settings α) (f : Formula) status s, Reachable settings f status s →
      s.marks = Marks.clear f.varCount ∧
        ∀ k, status = .conflict k → s.trail.level ≠ 0 → ∃ c learnt s',
          s.conflict? k = some c ∧ c.WellFormed f.varCount ∧
          c.analyze (Marks.clear f.varCount) = .ok (learnt, Marks.clear f.varCount) ∧
          s.resolve k = .ok (.propagating, s') ∧ s'.marks = Marks.clear f.varCount ∧
          s'.database.contents = s.database.contents.push (learnt.literals.toArray, true) ∧
          s'.trail = State.restarted (s.trail.jump learnt s.database.clauses.size)
            s.schedule.onConflict.1 := by
  refine ⟨fun n cs h => Conflict.analyzeAll_clear h, fun settings f status s h => ?_⟩
  refine ⟨h.invariant.marks, ?_⟩
  rintro k rfl hlevel
  obtain ⟨c, learnt, s', hc, hwf, hanalyze, hresolve, hr⟩ := h.invariant.resolve_conflict hlevel
  exact ⟨c, learnt, s', hc, hwf, hanalyze, hresolve, hr.marks, hr.contents, hr.trail⟩

namespace Sample

open ClauseLearning.Sample (graph clause assigned)

/-- A conflict, one that leaves out the latest assignment, and the first one again. -/
def conflicts : List Conflict :=
  [⟨graph, 2, clause, assigned⟩, ⟨graph, 2, (assigned.tail.take 2).map Literal.negate, assigned⟩,
    ⟨graph, 2, clause, assigned⟩]

theorem wellFormed_conflicts : ∀ c ∈ conflicts, c.WellFormed 4 := by
  have hdescribes := ClauseLearning.Sample.describes
  simp only [conflicts, List.forall_mem_cons]
  exact ⟨⟨hdescribes, by decide, by decide, by decide⟩, ⟨hdescribes, by decide, by decide, by decide⟩,
    ⟨hdescribes, by decide, by decide, by decide⟩, List.forall_mem_nil _⟩

end Sample

theorem analyses_as_if_first_sample :
    (∃ results, Conflict.analyzeAll Sample.conflicts (Marks.clear 4) = .ok results ∧
      results.map (fun result => result.1.literals.map Literal.toInt) = [[-3, -1], [-2], [-3, -1]] ∧
      List.Forall₂ (fun c result =>
        result.2 = Marks.clear 4 ∧ c.analyze (Marks.clear 4) = .ok result) Sample.conflicts results) ∧
    ∃ (s s' : State Rat) (c : Conflict) (learnt : Learnt),
      Reachable Sample.exact Sample.satisfiable (.conflict 2) s ∧ s.trail.level = 1 ∧
        s.conflict? 2 = some c ∧ c.analyze (Marks.clear 2) = .ok (learnt, Marks.clear 2) ∧
        s.resolve 2 = .ok (.propagating, s') ∧ s'.marks = Marks.clear 2 := by
  obtain ⟨hanalyses, hsearch⟩ := analyses_as_if_first (α := Rat)
  refine ⟨?_, ?_⟩
  · obtain ⟨results, hresults, hall⟩ := hanalyses 4 _ Sample.wellFormed_conflicts
    obtain ⟨results', hresults', hlearnt⟩ := exists_of_any
      (x := Conflict.analyzeAll Sample.conflicts (Marks.clear 4))
      (p := fun results => results.map (fun result => result.1.literals.map Literal.toInt) =
        [[-3, -1], [-2], [-3, -1]]) (by decide +kernel)
    cases hresults.symm.trans hresults'
    exact ⟨results, hresults, of_decide_eq_true hlearnt, hall⟩
  · obtain ⟨s, hs, hlevel⟩ := Sample.exists_reachable Sample.satisfiable 3 (.conflict 2)
      (fun s => s.trail.level = 1) (by decide +kernel)
    simp only [decide_eq_true_eq] at hlevel
    obtain ⟨-, hconflict⟩ := hsearch _ _ _ s hs
    obtain ⟨c, learnt, s', hc, -, hanalyze, hresolve, hmarks, -⟩ := hconflict 2 rfl (by omega)
    exact ⟨s, s', c, learnt, hs, hlevel, hc, hanalyze, hresolve, hmarks⟩

end Search

end ClauseLearning
