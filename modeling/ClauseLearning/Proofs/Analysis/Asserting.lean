import Mathlib
import ClauseLearning.Proofs.Analysis.Learning

/-!
# Learnt clauses assert

One literal of a learnt clause is of the current level. Once everything above the level of the
backjump is unassigned, it alone is without a value, and all others are false.
-/

namespace ClauseLearning

variable {g : ImplicationGraph} {trail conflict : List Literal} {n current : Nat} {learnt : Learnt}

/-- The literals of a trail up to a level. -/
def ImplicationGraph.upTo (g : ImplicationGraph) (trail : List Literal) (level : Nat) :
    List Literal :=
  trail.filter fun l => g.level l.var ≤ level

namespace Learnt

/-- All literals of the clause are false on the trail except for the asserting one, which has no
value there. -/
structure IsUnit (learnt : Learnt) (trail : List Literal) : Prop where
  unassigned : ∀ l ∈ trail, l.var ≠ learnt.asserting.var
  isFalse : ∀ l ∈ learnt.others, l.negate ∈ trail

theorem Asserts.isUnit (h : learnt.Asserts g trail current) (hcurrent : current ≠ 0) :
    learnt.IsUnit (g.upTo trail learnt.backjump) := by
  constructor
  · intro l hl he
    have hle : g.level l.var ≤ learnt.backjump := by simpa using (List.mem_filter.1 hl).2
    have hlt := h.backjump_lt hcurrent
    rw [he, h.level_asserting] at hle
    omega
  · intro l hl
    have htrail := h.isFalse l (List.mem_cons_of_mem _ hl)
    exact List.mem_filter.2 ⟨htrail, decide_eq_true (h.highest l hl)⟩

end Learnt

/-- A clause that is false on the trail, not without the current level, leads to a learnt clause
that is false on the trail as well and asserts a literal after the backjump. -/
theorem analyze_asserts (hg : g.Describes trail n current) (hcurrent : current ≠ 0)
    (hfalse : ∀ l ∈ conflict, l.negate ∈ trail)
    (hlevel : ∃ l ∈ conflict, g.level l.var = current) :
    ∃ learnt, analyze g current conflict trail (Marks.clear n) = .ok (learnt, Marks.clear n) ∧
      learnt.Asserts g trail current ∧ learnt.IsUnit (g.upTo trail learnt.backjump) := by
  obtain ⟨learnt, hanalyze, hasserts, -⟩ := analyze_spec hg hcurrent hfalse hlevel
  exact ⟨learnt, hanalyze, hasserts, hasserts.isUnit hcurrent⟩

namespace Sample

/-- The decision at level 2 forces the third variable, and that forces the fourth together with the
decision at level 1. -/
def graph : ImplicationGraph where
  value _ := some true
  level v := if v.index = 0 then 1 else 2
  reason v :=
    match v.index with
    | 2 => some [literal 2 true, literal 1 false]
    | 3 => some [literal 3 true, literal 2 false, literal 0 false]
    | _ => none

def assigned : List Literal := [literal 0 true, literal 1 true, literal 2 true, literal 3 true]

def clause : List Literal := [literal 2 false, literal 3 false]

theorem describes : graph.Describes assigned 4 2 where
  distinct := by decide
  inScope := by decide
  value := by decide
  level_le := by decide
  monotone := by decide
  reasoned earlier l later hsplit hlevel hearlier := by
    match earlier with
    | [] => simp at hearlier
    | [a] =>
        cases hsplit
        exact absurd hearlier (by decide)
    | [a, b] =>
        cases hsplit
        exact ⟨_, rfl, by decide, by decide⟩
    | [a, b, c] =>
        cases hsplit
        exact ⟨_, rfl, by decide, by decide⟩
    | a :: b :: c :: d :: rest =>
        have := congrArg List.length hsplit
        simp [assigned] at this

end Sample

theorem analyze_asserts_sample : ∃ learnt,
    analyze Sample.graph 2 Sample.clause Sample.assigned (Marks.clear 4) =
      .ok (learnt, Marks.clear 4) ∧
    learnt.literals = [Sample.literal 2 false, Sample.literal 0 false] ∧ learnt.backjump = 1 ∧
    learnt.Asserts Sample.graph Sample.assigned 2 ∧ learnt.IsUnit [Sample.literal 0 true] := by
  obtain ⟨learnt, hanalyze, hasserts, hunit⟩ :=
    analyze_asserts Sample.describes (by decide) (by decide : ∀ l ∈ Sample.clause, _) (by decide)
  obtain rfl : learnt = ⟨Sample.literal 2 false, [Sample.literal 0 false], 1⟩ := by
    have hrun : analyze Sample.graph 2 Sample.clause Sample.assigned (Marks.clear 4) = .ok
        (⟨Sample.literal 2 false, [Sample.literal 0 false], 1⟩, Marks.clear 4) := by decide +kernel
    rw [hanalyze] at hrun
    cases hrun
    rfl
  exact ⟨_, hanalyze, rfl, rfl, hasserts, hunit⟩

end ClauseLearning
