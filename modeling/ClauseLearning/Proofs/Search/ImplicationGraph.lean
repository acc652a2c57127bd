import Mathlib
import ClauseLearning.Proofs.Search.Reachable

/-!
# The implication graph of a search

Each level above the root begins with its decision. All other literals on the trail were forced by
a clause, at the highest level of its other literals.
-/

namespace ClauseLearning

variable {t : Trail} {n i j k b : Nat} {l : Literal} {clauseOf : Nat → Option (List Literal)}
  {db : Database}

namespace Trail

/-- The first literal of a level stands at the position. -/
def BeginsLevel (t : Trail) (b j : Nat) : Prop :=
  (∃ l, t.literals[j]? = some l ∧ t.levelOf l.var = b) ∧
    ∀ i < j, ∀ m, t.literals[i]? = some m → t.levelOf m.var ≠ b

/-- The highest level of the literals of a clause other than the given one, or else 0. -/
def highestOther (t : Trail) (c : List Literal) (l : Literal) : Nat :=
  (c.toFinset.erase l).sup fun m => t.levelOf m.var

/-- The clause forced the literal at the position. -/
structure ReasonAt (t : Trail) (c : List Literal) (j : Nat) (l : Literal) : Prop where
  mem : l ∈ c
  isFalse : ∀ m ∈ c, m ≠ l → t.IsFalse m
  earlier : ∀ m ∈ c, m ≠ l → ∃ i < j, t.literals[i]? = some m.negate
  level : t.levelOf l.var = t.highestOther c l

/-- Decisions, and they only, begin the levels above the root, and the reasons of all other literals
forced them. -/
structure WellFormed (t : Trail) (clauseOf : Nat → Option (List Literal)) : Prop where
  begins : ∀ b < t.level, t.BeginsLevel (b + 1) (t.lengthAt b)
  reasonOf_eq_none : ∀ j l, t.literals[j]? = some l →
    (t.reasonOf l.var = none ↔ t.levelOf l.var ≠ 0 ∧ t.BeginsLevel (t.levelOf l.var) j)
  forced : ∀ j l k, t.literals[j]? = some l → t.reasonOf l.var = some k →
    ∃ c, clauseOf k = some c ∧ t.ReasonAt c j l

theorem BeginsLevel.unique (hi : t.BeginsLevel b i) (hj : t.BeginsLevel b j) : i = j := by
  obtain ⟨⟨l, hl, hlb⟩, hbefore⟩ := hi
  obtain ⟨⟨m, hm, hmb⟩, hbefore'⟩ := hj
  rcases Nat.lt_trichotomy i j with hij | rfl | hji
  · exact absurd hlb (hbefore' i hij l hl)
  · rfl
  · exact absurd hmb (hbefore j hji m hm)

variable (h : t.Justified clauseOf) (ht : t.Coherent n)

include h

theorem Justified.decision (hb : b < t.level) (hl : t.literals[t.lengthAt b]? = some l) :
    t.reasonOf l.var = none ∧ t.levelOf l.var = b + 1 := by
  obtain ⟨m, hm, hnone, hlevel⟩ := h.decided b hb
  obtain rfl : l = m := Option.some_injective _ (hl.symm.trans hm)
  exact ⟨hnone, hlevel⟩

include ht

theorem Justified.beginsLevel (hb : b < t.level) : t.BeginsLevel (b + 1) (t.lengthAt b) := by
  obtain ⟨l, hl, -, hlevel⟩ := h.decided b hb
  refine ⟨⟨l, hl, hlevel⟩, fun i hi m hm => ?_⟩
  obtain ⟨hlt, rfl⟩ := Array.getElem?_eq_some_iff.1 hm
  have := (ht.cut b i hlt).2 hi
  omega

theorem Justified.beginsLevel_iff (hb : b ≠ 0) :
    t.BeginsLevel b j ↔ b ≤ t.level ∧ j = t.lengthAt (b - 1) := by
  obtain ⟨b, rfl⟩ := Nat.exists_eq_succ_of_ne_zero hb
  constructor
  · intro hj
    obtain ⟨l, hl, hlevel⟩ := hj.1
    have hle := ht.levelOf_le (Array.mem_of_getElem? hl)
    rw [hlevel] at hle
    exact ⟨hle, hj.unique (h.beginsLevel ht hle)⟩
  · rintro ⟨hle, rfl⟩
    exact h.beginsLevel ht hle

/-- A literal without a reason is a decision. -/
theorem Justified.reasonOf_eq_none (hl : t.literals[j]? = some l) :
    t.reasonOf l.var = none ↔ t.levelOf l.var ≠ 0 ∧ t.BeginsLevel (t.levelOf l.var) j := by
  have hle := ht.levelOf_le (Array.mem_of_getElem? hl)
  constructor
  · intro hnone
    by_cases hdec : ∃ b < t.level, j = t.lengthAt b
    · obtain ⟨b, hb, rfl⟩ := hdec
      obtain ⟨-, hlevel⟩ := h.decision hb hl
      exact ⟨by omega, hlevel ▸ h.beginsLevel ht hb⟩
    -- What begins no level was forced, hence has a reason.
    · obtain ⟨k, c, hk, -⟩ := h.forced j l hl fun b hb hj => hdec ⟨b, hb, hj⟩
      rw [hnone] at hk
      cases hk
  · rintro ⟨hne, hbegins⟩
    obtain ⟨-, rfl⟩ := (h.beginsLevel_iff ht hne).1 hbegins
    exact (h.decision (by omega) hl).1

omit h in
theorem Forced.reasonAt {c : List Literal} (hf : t.Forced c j l) (hl : t.literals[j]? = some l) :
    t.ReasonAt c j l := by
  obtain ⟨hj, rfl⟩ := Array.getElem?_eq_some_iff.1 hl
  have hearlier : ∀ m ∈ c, m ≠ t.literals[j] → ∃ i < j, t.literals[i]? = some m.negate := by
    intro m hm hne
    obtain ⟨i, hi, him⟩ := List.mem_take_iff_getElem.1 (hf.earlier m hm hne)
    obtain ⟨hij, hlt⟩ := Nat.lt_min.1 hi
    exact ⟨i, hij, by rw [← him, ← Array.getElem?_toList, List.getElem?_eq_getElem hlt]⟩
  refine ⟨hf.mem, fun m hm hne => ht.isFalse_iff.2 (mem_of_mem_take (hf.earlier m hm hne)),
    hearlier, Nat.le_antisymm ?_ (Finset.sup_le fun m hm => ?_)⟩
  · rcases hf.level with hroot | ⟨m, hm, hne, hlevel⟩
    · exact hroot ▸ Nat.zero_le _
    · rw [← hlevel]
      exact Finset.le_sup (f := fun m : Literal => t.levelOf m.var) (by simp [hm, hne])
  -- Levels do not fall along the trail, so none of the earlier literals is of a higher one.
  · obtain ⟨hne, hm⟩ := Finset.mem_erase.1 hm
    obtain ⟨i, hij, hi⟩ := hearlier m (by simpa using hm) hne
    obtain ⟨hlt, him⟩ := Array.getElem?_eq_some_iff.1 hi
    have hmono := ht.levelOf_mono (Nat.le_of_lt hij) hlt hj
    rwa [him] at hmono

theorem Justified.wellFormed : t.WellFormed clauseOf where
  begins _ hb := h.beginsLevel ht hb
  reasonOf_eq_none _ _ hl := h.reasonOf_eq_none ht hl
  forced j l k hl hk := by
    have hne : t.reasonOf l.var ≠ none := by simp [hk]
    obtain ⟨k', c, hk', hc, hf⟩ := h.forced j l hl fun b hb hj =>
      hne (h.decision hb (hj ▸ hl)).1
    obtain rfl : k = k' := Option.some_injective _ (hk.symm.trans hk')
    exact ⟨c, hc, hf.reasonAt ht hl⟩

end Trail

namespace Search

variable {α : Type} [Score α] {settings : Settings α} {f : Formula} {s : State α} {status : Status}

/-- The implication graph is well formed in every state, and a clause in conflict is false with two
literals of the current level. -/
theorem reachable_wellFormed (h : Reachable settings f status s) :
    s.trail.WellFormed s.database.literals? ∧
      ∀ k, status = .conflict k → ∃ c, s.database.literals? k = some c ∧
        (∀ l ∈ c, s.trail.IsFalse l) ∧
        (s.trail.level ≠ 0 → ∃ a ∈ c, ∃ b ∈ c, a ≠ b ∧
          s.trail.levelOf a.var = s.trail.level ∧ s.trail.levelOf b.var = s.trail.level) := by
  have hinv := h.invariant
  have hfitting := hinv.fits.fitting
  refine ⟨hfitting.justified.wellFormed hfitting.coherent, ?_⟩
  rintro k rfl
  have hclash : Clash f.varCount s.database s.trail k := hinv.fits
  obtain ⟨c, hc, hfalse, htwo⟩ := hclash.falsifies
  exact ⟨c, hc, hfalse, fun _ => htwo⟩

theorem reachable_wellFormed_conflict : ∃ (s : State Rat) (k : Nat) (c : List Literal),
    Reachable Sample.exact Sample.satisfiable (.conflict k) s ∧ s.trail.level = 1 ∧
      s.trail.WellFormed s.database.literals? ∧ s.database.literals? k = some c ∧
      (∀ l ∈ c, s.trail.IsFalse l) ∧
      ∃ a ∈ c, ∃ b ∈ c, a ≠ b ∧ s.trail.levelOf a.var = 1 ∧ s.trail.levelOf b.var = 1 := by
  obtain ⟨s, hs, hlevel⟩ := Sample.exists_reachable Sample.satisfiable 3 (.conflict 2)
    (fun s => s.trail.level = 1) (by decide +kernel)
  simp only [decide_eq_true_eq] at hlevel
  obtain ⟨hwf, hconflict⟩ := reachable_wellFormed hs
  obtain ⟨c, hc, hfalse, htwo⟩ := hconflict 2 rfl
  rw [hlevel] at htwo
  exact ⟨s, 2, c, hs, hlevel, hwf, hc, hfalse, htwo Nat.one_ne_zero⟩

end Search

end ClauseLearning
