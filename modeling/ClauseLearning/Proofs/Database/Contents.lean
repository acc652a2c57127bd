import Mathlib
import ClauseLearning.Formula
import ClauseLearning.Proofs.Database.Watching

/-!
# What the clauses of a database say

The stored clauses hold wherever the formula does and contain its clauses. Each learnt clause is
new, so there are no more of them than sets of literals of distinct variables.
-/

namespace ClauseLearning.Database

variable {db db' : Database} {f : Formula} {n : Nat} {c : StoredClause} {lits : List Literal}

/-- The database says what the formula says, with clauses learnt from it. -/
structure Represents (db : Database) (f : Formula) : Prop where
  entailed : ∀ k c, db.literals? k = some c → ∀ σ, f.Holds σ → (Clause.mk c).Holds σ
  complete : ∀ c ∈ f.clauses, ∃ k, db.literals? k = some c.literals
  /-- No clause is contained in a clause that was learnt after it. -/
  news : db.contents.toList.Pairwise fun c d => d.2 = true → ¬ c.1.toList ⊆ d.1.toList
  distinct : ∀ c ∈ db.contents, c.2 = true → (c.1.toList.map Literal.var).Nodup

theorem contents_push (hclauses : db'.clauses = db.clauses.push c) :
    db'.contents = db.contents.push (c.literals, c.learnt) := by
  simp [contents, hclauses]

namespace Represents

theorem congr (h : db.Represents f) (hc : db'.contents = db.contents) : db'.Represents f where
  entailed k c hk := h.entailed k c (literals?_congr hc ▸ hk)
  complete c hmem := by
    obtain ⟨k, hk⟩ := h.complete c hmem
    exact ⟨k, (congrFun (literals?_congr hc) k).trans hk⟩
  news := hc ▸ h.news
  distinct := hc ▸ h.distinct

/-- A clause that follows from the formula may be learnt if it contains no stored one. -/
theorem learn (h : db.Represents f) (hclauses : db'.clauses = db.clauses.push c)
    (hc : Stores c lits true) (hholds : ∀ σ, f.Holds σ → (Clause.mk lits).Holds σ)
    (hnew : ∀ k d, db.literals? k = some d → ¬ d ⊆ lits) (hd : (lits.map Literal.var).Nodup) :
    db'.Represents f where
  entailed k d hk := by
    rw [literals?_push hclauses] at hk
    split at hk
    · rw [hc.literals] at hk
      cases hk
      exact hholds
    · exact h.entailed k d hk
  complete d hmem := by
    obtain ⟨k, hk⟩ := h.complete d hmem
    exact ⟨k, literals?_push_of_some hclauses hk⟩
  news := by
    rw [contents_push hclauses, Array.toList_push, List.pairwise_append]
    refine ⟨h.news, List.pairwise_singleton _ _, fun d hd e he _ => ?_⟩
    obtain rfl := List.mem_singleton.1 he
    obtain ⟨k, hk⟩ := Array.mem_iff_getElem?.1 (Array.mem_toList_iff.1 hd)
    rw [hc.literals]
    exact hnew k _ (by rw [literals?_eq_contents, hk]; rfl)
  distinct d hmem hlearnt := by
    rw [contents_push hclauses] at hmem
    rcases Array.mem_push.1 hmem with hmem | rfl
    · exact h.distinct d hmem hlearnt
    · rw [hc.literals]
      exact hd

end Represents

/-! ## The number of learnt clauses -/

/-- The signs that a clause gives to the first `n` variables. -/
def signs (n : Nat) (ls : List Literal) (i : Fin n) : Option Bool :=
  (ls.find? fun l => l.var.index = i.val).map Literal.positive

theorem subset_of_signs_eq {ls ms : List Literal} (hscope : ∀ l ∈ ls, l.var.index < n)
    (hd : (ls.map Literal.var).Nodup) (h : signs n ls = signs n ms) : ls ⊆ ms := by
  intro l hl
  have hfind : ls.find? (fun k => k.var.index = l.var.index) = some l := by
    cases hk : ls.find? fun k => k.var.index = l.var.index with
    | none =>
        have := List.find?_eq_none.1 hk l hl
        simp at this
    | some k =>
        have hkl : k.var = l.var := Variable.ext (by simpa using List.find?_some hk)
        rw [List.inj_on_of_nodup_map hd (List.mem_of_find?_eq_some hk) hl hkl]
  have hsign := congrFun h ⟨l.var.index, hscope l hl⟩
  rw [signs, hfind, Option.map_some] at hsign
  obtain ⟨m, hm, hp⟩ := Option.map_eq_some_iff.1 hsign.symm
  have hml : m.var = l.var := Variable.ext (by simpa using List.find?_some hm)
  rw [← Literal.eq_of_var_eq hml hp]
  exact List.mem_of_find?_eq_some hm

theorem Represents.learntCount_le (h : db.Represents f) (hs : db.Sound n) :
    db.learntCount ≤ 3 ^ n := by
  have hnodup : ((db.contents.toList.filter (·.2)).map fun c => signs n c.1.toList).Nodup := by
    refine List.pairwise_map.2 (List.pairwise_filter.2 (h.news.imp_of_mem fun hc hd hnew => ?_))
    intro hclearnt hdlearnt heq
    refine hnew hdlearnt (subset_of_signs_eq (n := n) (fun l hl => ?_) ?_ heq)
    · obtain ⟨c, hmem, rfl⟩ := Array.mem_map.1 (Array.mem_toList_iff.1 hc)
      exact hs.inScope c hmem l (by simpa using hl)
    · exact h.distinct _ (by simpa using hc) hclearnt
  have hcard := hnodup.length_le_card
  rw [List.length_map, ← List.countP_eq_length_filter, Array.countP_toList,
    ← learntCount_eq_contents] at hcard
  simpa using hcard

end ClauseLearning.Database
