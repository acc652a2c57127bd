import Mathlib
import ClauseLearning.Propagation
import ClauseLearning.Proofs.Database.Watching
import ClauseLearning.Proofs.Trail.Coherence

/-!
# Visiting a clause

What a clause does when one of its watched literals became false: all that a visit can do, and that
it does one of these.
-/

namespace ClauseLearning

variable {db : Database} {t : Trail} {n : Nat} {c : StoredClause} {f : Literal} {k : Nat}

/-! ## The search for another literal to watch -/

namespace StoredClause

theorem nextUnwatched_ok (ht : t.Coherent n) (hscope : ∀ l ∈ c.literals, l.var.index < n)
    (start : Nat) : ∃ r, c.nextUnwatched t start = .ok r := by
  fun_induction c.nextUnwatched t start with
  | case1 start _ _ ih => exact ih
  | case2 start hlt _ fault hv =>
      rw [Trail.value_eq (ht.size_cells ▸ hscope _ (Array.getElem_mem hlt))] at hv
      cases hv
  | case3 start _ _ _ ih => exact ih
  | case4 => exact ⟨_, rfl⟩
  | case5 => exact ⟨_, rfl⟩

theorem isFalse_of_nextUnwatched_none {start : Nat} (h : c.nextUnwatched t start = .ok none) :
    ∀ p (hp : p < c.literals.size), start ≤ p → p ≠ c.first → p ≠ c.second →
      t.IsFalse c.literals[p] := by
  fun_induction c.nextUnwatched t start with
  | case1 start hlt hw ih =>
      intro p hp hle h₁ h₂
      exact ih h p hp (by omega) h₁ h₂
  | case2 => cases h
  | case3 start hlt hw hv ih =>
      intro p hp hle h₁ h₂
      by_cases heq : p = start
      · subst p
        exact Trail.isFalse_of_value hv
      · exact ih h p hp (by omega) h₁ h₂
  | case4 => cases h
  | case5 start hlt =>
      intro p hp hle
      omega

theorem of_nextUnwatched_some {start : Nat} {p : { p : Nat // p < c.literals.size }}
    (h : c.nextUnwatched t start = .ok (some p)) :
    p.1 ≠ c.first ∧ p.1 ≠ c.second ∧ ¬ t.IsFalse (getElem c.literals p.1 p.2) := by
  fun_induction c.nextUnwatched t start with
  | case1 start hlt hw ih => exact ih h
  | case2 => cases h
  | case3 start hlt hw hv ih => exact ih h
  | case4 start hlt hw value hne hv =>
      cases h
      refine ⟨fun e => hw (.inl e), fun e => hw (.inr e), fun hf => ?_⟩
      rw [hf.value] at hv
      cases hv
      exact hne rfl
  | case5 => cases h

end StoredClause

/-! ## What a visit does -/

namespace Database

/-- The outcomes of a visit to a clause whose second watched literal became false. -/
inductive Visited (db : Database) (t : Trail) (k : Nat) (c : StoredClause) :
    Reaction → Database → Trail → Prop
  | satisfied : t.IsTrue c.firstWatched → Visited db t k c .stays (db.store k c) t
  | forces : t.valueOf c.firstWatched.var = none →
      (∀ m ∈ c.literals, m ≠ c.firstWatched → t.IsFalse m) →
      Visited db t k c .stays (db.store k c) (t.extend c.firstWatched (some k))
  | moves (p : Nat) (hp : p < c.literals.size) (row : Array Nat) : p ≠ c.first → p ≠ c.second →
      ¬ t.IsTrue c.firstWatched → ¬ t.IsFalse c.literals[p] →
      db.rows[c.literals[p].code]? = some row →
      Visited db t k c .moves ((db.store k (c.moveSecond p hp)).setRow c.literals[p] (row.push k)) t
  | conflicts : (∀ m ∈ c.literals, t.IsFalse m) → Visited db t k c .conflicts (db.store k c) t

theorem isFalse_of_nextUnwatched_none {m : Literal} (h : c.nextUnwatched t 0 = .ok none)
    (hf : t.IsFalse c.secondWatched) (hm : m ∈ c.literals) (hne : m ≠ c.firstWatched) :
    t.IsFalse m := by
  obtain ⟨p, hp, rfl⟩ := Array.mem_iff_getElem.1 hm
  by_cases h₁ : p = c.first
  · subst p
    exact absurd rfl hne
  · by_cases h₂ : p = c.second
    · subst p
      exact hf
    · exact StoredClause.isFalse_of_nextUnwatched_none h p hp (Nat.zero_le _) h₁ h₂

/-- Without another literal to watch, the clause forces its other watched literal or is false. -/
theorem force_spec (db : Database) (k : Nat) (hlt : c.firstWatched.var.index < t.cells.size)
    (htrue : ¬ t.IsTrue c.firstWatched)
    (hrest : ∀ m ∈ c.literals, m ≠ c.firstWatched → t.IsFalse m) :
    ∃ value r db' t', t.value c.firstWatched = .ok value ∧ value ≠ some true ∧
      (db.store k c).force t k c.firstWatched value = .ok (r, db', t') ∧
      Visited db t k c r db' t' := by
  rcases t.unassigned_or_isTrue_or_isFalse c.firstWatched with hv | hv | hv
  · refine ⟨none, _, _, _, Trail.value_of_unassigned hlt hv, by simp, ?_, .forces hv hrest⟩
    simp only [force, Trail.assign_of_unassigned hlt hv]
  · exact absurd hv htrue
  · refine ⟨some false, _, _, _, hv.value, by simp, rfl, .conflicts fun m hm => ?_⟩
    by_cases hne : m = c.firstWatched
    · exact hne ▸ hv
    · exact hrest m hm hne

theorem visit_spec (ht : t.Coherent n) (hk : k < db.clauses.size)
    (hc : c = db.clauses[k].withSecond f) (hw : c.secondWatched = f) (hf : t.IsFalse f)
    (hscope : ∀ l ∈ c.literals, l.var.index < n)
    (hrows : ∀ l ∈ c.literals, ∃ row, db.rows[l.code]? = some row) :
    ∃ r db' t', db.visit t f k = .ok (r, db', t') ∧ Visited db t k c r db' t' := by
  have hfirst : c.firstWatched ∈ c.literals := by simpa using c.firstWatched_mem
  have hlt : c.firstWatched.var.index < t.cells.size := ht.size_cells ▸ hscope _ hfirst
  obtain ⟨next, hnext⟩ := StoredClause.nextUnwatched_ok ht hscope 0
  rw [visit, dif_pos hk]
  generalize db.clauses[k].withSecond f = d at hc ⊢
  subst hc
  simp only [hw, ne_eq, not_true_eq_false, ↓reduceIte, store_eq hk]
  by_cases htrue : t.IsTrue c.firstWatched
  · rw [htrue.value]
    exact ⟨_, _, _, rfl, .satisfied htrue⟩
  -- What is left depends on the replacement first, then on the other watched literal.
  cases next with
  | some p =>
      obtain ⟨p, hp⟩ := p
      obtain ⟨h₁, h₂, hnf⟩ := StoredClause.of_nextUnwatched_some hnext
      obtain ⟨row, hrow⟩ := hrows _ (Array.getElem_mem hp)
      have hrow' : (db.store k (c.moveSecond p hp)).rows[c.literals[p].code]? = some row := hrow
      have hmoves : Visited db t k c .moves _ t := .moves p hp row h₁ h₂ htrue hnf hrow
      rcases t.unassigned_or_isTrue_or_isFalse c.firstWatched with hv | hv | hv
      · simp only [Trail.value_of_unassigned hlt hv, hnext, watch_of_getElem? hrow']
        exact ⟨_, _, _, rfl, hmoves⟩
      · exact absurd hv htrue
      · simp only [hv.value, hnext, watch_of_getElem? hrow']
        exact ⟨_, _, _, rfl, hmoves⟩
  | none =>
      have hrest : ∀ m ∈ c.literals, m ≠ c.firstWatched → t.IsFalse m := fun m hm hne =>
        isFalse_of_nextUnwatched_none hnext (hw ▸ hf) hm hne
      obtain ⟨value, r, db', t', hvalue, hne, hforce, hout⟩ :=
        force_spec db k hlt htrue hrest
      refine ⟨r, db', t', ?_, hout⟩
      rw [hvalue]
      split <;> simp_all

end Database

end ClauseLearning
