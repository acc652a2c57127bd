import Mathlib
import ClauseLearning.Proofs.Search.Reachable

/-!
# Learnt clauses are new

The database stores the clauses of the formula first, then one learnt clause for each conflict that
was resolved. No clause is contained in one that was learnt after it.
-/

namespace ClauseLearning.Search

variable {α : Type} {settings : Settings α} {f : Formula} {s s' : State α} {status status' : Status}
  {n : Nat}

/-! ## The order of the stored clauses -/

/-- The database stores the clauses of the formula and then the learnt ones, in order. -/
def Stored (db : Database) (f : Formula) (learnts : List (List Literal)) : Prop :=
  db.contents.toList =
    f.clauses.toList.map (fun c => (c.literals.toArray, false)) ++
      learnts.map fun c => (c.toArray, true)

theorem State.Resolved.contents {learnt : Learnt} (h : s.Resolved n learnt s') :
    s'.database.contents = s.database.contents.push (learnt.literals.toArray, true) := by
  obtain ⟨c, hclauses, hc⟩ := h.stored
  rw [Database.contents_push hclauses, ← hc.literals, hc.learnt, Array.toArray_toList]

/-- A transition stores at most one clause, which it learnt. -/
theorem Stepped.contents {expired : Bool} (h : Stepped n expired status s status' s') :
    s'.database.contents = s.database.contents ∨
      ∃ c : List Literal, s'.database.contents = s.database.contents.push (c.toArray, true) := by
  cases h with
  | propagated hp => exact .inl hp.contents
  | resolved _ _ hr => exact .inr ⟨_, hr.contents⟩
  | refuted => exact .inl rfl
  | decided _ hd => exact .inl (congrArg Database.contents hd.database)
  | interrupted => exact .inl rfl
  | ended => exact .inl rfl

theorem Started.stored (h : Started settings f s) (hs : s.refutedAtLoad = false) :
    Stored s.database f [] := by
  rw [Stored, List.map_nil, List.append_nil, h.loaded.contents, List.filter_eq_self.2]
  exact fun c hc => decide_eq_true (h.loaded.nonempty hs c hc)

variable [Score α]

theorem Reachable.stored (h : Reachable settings f status s) :
    ∃ learnts, Stored s.database f learnts := by
  induction h with
  | start hs hload => exact ⟨[], (Started.of_start hs).2.stored hload⟩
  | step expired h hs ih =>
      obtain ⟨learnts, hstored⟩ := ih
      rcases (h.invariant.step hs).2.contents with hc | ⟨c, hc⟩
      · exact ⟨learnts, by rw [Stored, hc]; exact hstored⟩
      · refine ⟨learnts ++ [c], ?_⟩
        rw [Stored, hc, Array.toList_push, hstored, List.map_append, List.append_assoc]
        rfl
  | decide _ _ _ ih => exact ih
  | restart h hback ih =>
      obtain ⟨ranking, phases, hback', -⟩ :=
        h.invariant.poised.backtrack h.invariant.fits.coherent 0
      rw [hback] at hback'
      cases hback'
      exact ih
  | resume _ ih => exact ih

/-! ## What resolving a conflict adds -/

/-- To resolve a conflict above the root level is to learn a clause that contains no stored one. -/
theorem Invariant.resolve_new {k : Nat} (h : Invariant f (.conflict k) s)
    (hlevel : s.trail.level ≠ 0) : ∃ (learnt : Learnt) (s' : State α), s.resolve k = .ok (.propagating, s') ∧
      s'.database.contents = s.database.contents.push (learnt.literals.toArray, true) ∧
      ∀ j c, s.database.literals? j = some c → ¬ c ⊆ learnt.literals := by
  have hclash : Clash f.varCount s.database s.trail k := h.fits
  obtain ⟨learnt, s', hstep, hr⟩ := State.resolve_ok h.poised h.marks hclash hlevel
  exact ⟨learnt, s', hstep, hr.contents, fun j c hc => hr.asserts.not_subset hclash h.rooted hc⟩

/-- No clause of the formula and no clause learnt before is contained in a learnt clause. Nor is any
stored clause contained in the clause that is learnt from a conflict above the root level. -/
theorem reachable_learnt_new (h : Reachable settings f status s) :
    (∃ learnts, Stored s.database f learnts ∧
      (∀ c ∈ f.clauses, ∀ d ∈ learnts, ¬ c.literals ⊆ d) ∧
      learnts.Pairwise fun c d => ¬ c ⊆ d) ∧
    ∀ k, status = .conflict k → s.trail.level ≠ 0 →
      ∃ (learnt : Learnt) (s' : State α), s.resolve k = .ok (.propagating, s') ∧
        s'.database.contents = s.database.contents.push (learnt.literals.toArray, true) ∧
        ∀ j c, s.database.literals? j = some c → ¬ c ⊆ learnt.literals := by
  refine ⟨?_, ?_⟩
  · obtain ⟨learnts, hstored⟩ := h.stored
    have hnews := h.invariant.represents.news
    rw [hstored, List.pairwise_append, List.pairwise_map, List.pairwise_map] at hnews
    obtain ⟨-, hlearnt, hacross⟩ := hnews
    refine ⟨learnts, hstored, fun c hc d hd => ?_, hlearnt.imp fun hcd => hcd rfl⟩
    exact hacross _ (List.mem_map_of_mem (Array.mem_toList_iff.2 hc)) _ (List.mem_map_of_mem hd) rfl
  · rintro k rfl hlevel
    exact h.invariant.resolve_new hlevel

theorem reachable_learnt_new_conflict : ∃ (s s' : State Rat) (learnt : Learnt),
    Reachable Sample.exact Sample.satisfiable (.conflict 2) s ∧ s.trail.level = 1 ∧
      s.resolve 2 = .ok (.propagating, s') ∧
      s'.database.contents = s.database.contents.push (learnt.literals.toArray, true) ∧
      ∀ j c, s.database.literals? j = some c → ¬ c ⊆ learnt.literals := by
  obtain ⟨s, hs, hlevel⟩ := Sample.exists_reachable Sample.satisfiable 3 (.conflict 2)
    (fun s => s.trail.level = 1) (by decide +kernel)
  simp only [decide_eq_true_eq] at hlevel
  obtain ⟨-, hconflict⟩ := reachable_learnt_new hs
  obtain ⟨learnt, s', hresolve, hcontents, hnew⟩ := hconflict 2 rfl (by omega)
  exact ⟨s, s', learnt, hs, hlevel, hresolve, hcontents, hnew⟩

end ClauseLearning.Search
