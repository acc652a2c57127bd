import Mathlib
import ClauseLearning.Proofs.Analysis.ImplicationPoint
import ClauseLearning.Proofs.Search.ImplicationGraph

/-!
# The implication point of a conflict

In every conflict above the root level the asserting literal negates the first unique implication
point, counted from the conflict backwards.
-/

namespace ClauseLearning

variable {n k : Nat} {db : Database} {t : Trail}

/-- The decision of the current level is the root of its implications. -/
theorem Fitting.rooted (h : Fitting n db t) (hlevel : t.level ≠ 0) : ∃ d,
    t.decision? t.level = some d ∧
      (ImplicationGraph.ofTrail t db).Rooted t.literals.toList t.level d := by
  obtain ⟨b, hb⟩ := Nat.exists_eq_succ_of_ne_zero hlevel
  obtain ⟨⟨d, hd, hdlevel⟩, hbefore⟩ := h.justified.beginsLevel h.coherent (b := b) (by omega)
  refine ⟨d, by rw [hb, Trail.decision?_succ (by omega), hd], ?_, ?_⟩
  · obtain ⟨hlt, rfl⟩ := Array.getElem?_eq_some_iff.1 hd
    refine List.find?_eq_some_iff_getElem.2 ⟨?_, t.lengthAt b, by simpa using hlt, rfl, ?_⟩
    · simp [hdlevel, hb]
    · intro i hi
      have := hbefore i hi t.literals[i] (Array.getElem?_eq_getElem (by omega))
      simpa [hb] using this
  · intro earlier l later hsplit hl hearlier
    obtain ⟨j, c, hj, hc, hf⟩ := h.forced_of_split hsplit hearlier
    refine ⟨c, ImplicationGraph.reason_ofTrail.2 ⟨j, hj, hc⟩, ?_⟩
    rcases hf.level with hzero | ⟨m, hm, hne, heq⟩
    · exact absurd (hl.symm.trans hzero) hlevel
    · exact ⟨m, hm, hne, heq.trans hl⟩

theorem Clash.firstPoint (h : Clash n db t k) (hlevel : t.level ≠ 0) : ∃ conflict learnt d,
    db.literals? k = some conflict ∧ t.decision? t.level = some d ∧
    ClauseLearning.analyze (.ofTrail t db) t.level conflict t.literals.toList (Marks.clear n) =
      .ok (learnt, Marks.clear n) ∧
    (ImplicationGraph.ofTrail t db).FirstPoint t.literals.toList t.level conflict d
      learnt.asserting.negate := by
  obtain ⟨c, hc, hfalse, hcurrent⟩ := h.conflicting
  obtain ⟨d, hd, hrooted⟩ := h.rooted hlevel
  obtain ⟨learnt, hanalyze, hpoint⟩ :=
    analyze_firstPoint h.describes hrooted hlevel hfalse hcurrent
  exact ⟨c, learnt, d, hc, hd, hanalyze, hpoint⟩

namespace Search

variable {α : Type} [Score α] {settings : Settings α} {f : Formula} {s : State α}

/-- In every conflict above the root level, the variable of the asserting literal lies on all paths
from the decision of the level to the conflict, and no later variable of the trail does. -/
theorem reachable_firstPoint (h : Reachable settings f (.conflict k) s)
    (hlevel : s.trail.level ≠ 0) : ∃ conflict learnt d,
      s.database.literals? k = some conflict ∧ s.trail.decision? s.trail.level = some d ∧
      analyze s.graph s.trail.level conflict s.trail.literals.toList s.marks =
        .ok (learnt, s.marks) ∧
      s.graph.FirstPoint s.trail.literals.toList s.trail.level conflict d
        learnt.asserting.negate := by
  have hclash : Clash f.varCount s.database s.trail k := h.invariant.fits
  rw [h.invariant.marks]
  exact hclash.firstPoint hlevel

namespace Sample

open ClauseLearning.Sample (literal)

/-- When the first variable is false, the second is true and forces the two that follow, which are
in conflict. -/
def forked : Formula where
  varCount := 5
  clauses := #[⟨[literal 0 true, literal 1 true]⟩, ⟨[literal 1 false, literal 2 true]⟩,
    ⟨[literal 1 false, literal 3 true]⟩, ⟨[literal 2 false, literal 3 false]⟩,
    ⟨[literal 0 false, literal 4 true]⟩, ⟨[literal 0 false, literal 4 false]⟩,
    ⟨[literal 0 false, literal 3 true]⟩]
  varCount_le := by decide
  inScope := by decide
  nodup := by decide

end Sample

theorem reachable_firstPoint_forked : ∃ (s : State Rat) (conflict : List Literal) (learnt : Learnt),
    Reachable Sample.exact Sample.forked (.conflict 3) s ∧ s.trail.level = 1 ∧
      analyze s.graph 1 conflict s.trail.literals.toList s.marks = .ok (learnt, s.marks) ∧
      learnt.asserting.negate = Sample.literal 1 true ∧
      s.graph.FirstPoint s.trail.literals.toList 1 conflict (Sample.literal 0 false)
        (Sample.literal 1 true) := by
  obtain ⟨s, hs, hsample⟩ := Sample.exists_reachable Sample.forked 3 (.conflict 3)
    (fun s => s.trail.level = 1 ∧ s.trail.decision? 1 = some (Sample.literal 0 false) ∧
      (s.database.literals? 3).any fun conflict =>
        (analyze s.graph 1 conflict s.trail.literals.toList s.marks).toOption.any fun r =>
          r.1.asserting.negate = Sample.literal 1 true) (by decide +kernel)
  simp only [decide_eq_true_eq] at hsample
  obtain ⟨hlevel, hdecision, hasserting⟩ := hsample
  obtain ⟨conflict, learnt, d, hconflict, hd, hanalyze, hpoint⟩ :=
    reachable_firstPoint hs (by omega)
  rw [hlevel] at hd hanalyze hpoint
  obtain rfl := Option.some_injective _ (hdecision.symm.trans hd)
  rw [hconflict, Option.any_some, hanalyze] at hasserting
  have hasserting : learnt.asserting.negate = Sample.literal 1 true := by
    simpa [Except.toOption] using hasserting
  exact ⟨s, conflict, learnt, hs, hlevel, hanalyze, hasserting, hasserting ▸ hpoint⟩

end Search

end ClauseLearning
