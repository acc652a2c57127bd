import Mathlib
import ClauseLearning.Clause
import ClauseLearning.Proofs.Trail.Coherence

/-!
# Justification of the trail

Each literal of the trail is a decision, which begins its level, or it is forced by a clause whose
other literals became false before. So what the clauses and the decisions imply holds on the trail.
-/

namespace ClauseLearning.Trail

variable {t : Trail} {n : Nat} {l m : Literal} {clauseOf : Nat → Option (List Literal)}

/-- The decision that began a level above the root. -/
def decision? (t : Trail) : Nat → Option Literal
  | 0 => none
  | b + 1 => t.starts[b]?.bind fun i => t.literals[i]?

theorem decision?_succ {b : Nat} (h : b < t.level) :
    t.decision? (b + 1) = t.literals[t.lengthAt b]? := by
  have hb : b < t.starts.size := h
  simp [decision?, lengthAt, hb]

/-- The clause forces the literal at a position of the trail, at the highest level of its other
literals, which became false before. -/
structure Forced (t : Trail) (c : List Literal) (j : Nat) (l : Literal) : Prop where
  mem : l ∈ c
  earlier : ∀ m ∈ c, m ≠ l → m.negate ∈ t.literals.toList.take j
  level : t.levelOf l.var = 0 ∨ ∃ m ∈ c, m ≠ l ∧ t.levelOf m.var = t.levelOf l.var

structure Justified (t : Trail) (clauseOf : Nat → Option (List Literal)) : Prop where
  decided : ∀ b < t.level, ∃ l, t.literals[t.lengthAt b]? = some l ∧ t.reasonOf l.var = none ∧
    t.levelOf l.var = b + 1
  forced : ∀ j l, t.literals[j]? = some l → (∀ b < t.level, j ≠ t.lengthAt b) →
    ∃ k c, t.reasonOf l.var = some k ∧ clauseOf k = some c ∧ t.Forced c j l

theorem mem_of_mem_take {j : Nat} (h : l ∈ t.literals.toList.take j) : l ∈ t.literals := by
  simpa using List.mem_of_mem_take h

namespace Justified

theorem start (n : Nat) : (Trail.start n).Justified clauseOf where
  decided b hb := by simp [level, Trail.start] at hb
  forced j l hl := by simp [Trail.start] at hl

theorem advance (h : t.Justified clauseOf) (head : Nat) :
    Justified { t with head := head } clauseOf where
  decided := h.decided
  forced j l hl hj := by
    obtain ⟨k, c, hk, hc, hf⟩ := h.forced j l hl hj
    exact ⟨k, c, hk, hc, hf.mem, hf.earlier, hf.level⟩

theorem mono {clauseOf' : Nat → Option (List Literal)} (h : t.Justified clauseOf)
    (hc : ∀ k c, clauseOf k = some c → clauseOf' k = some c) : t.Justified clauseOf' where
  decided := h.decided
  forced j l hl hj := by
    obtain ⟨k, c, hk, hkc, hf⟩ := h.forced j l hl hj
    exact ⟨k, c, hk, hc k c hkc, hf⟩

theorem lengthAt_lt (h : t.Justified clauseOf) {b : Nat} (hb : b < t.level) :
    t.lengthAt b < t.literals.size := by
  obtain ⟨l, hl, -⟩ := h.decided b hb
  exact (Array.getElem?_eq_some_iff.1 hl).1

/-! ## Operations that keep justification -/

/-- A forced literal stays forced where the literals before it and the assignments up to its level
are the same. -/
theorem forced_congr {t' : Trail} (h : t.Justified clauseOf) {j : Nat}
    (hl : t.literals[j]? = some l) (hj : ∀ b < t.level, j ≠ t.lengthAt b)
    (htake : t'.literals.toList.take j = t.literals.toList.take j)
    (hsame : ∀ m ∈ t.literals, t.levelOf m.var ≤ t.levelOf l.var →
      t'.assignment? m.var = t.assignment? m.var) :
    ∃ k c, t'.reasonOf l.var = some k ∧ clauseOf k = some c ∧ t'.Forced c j l := by
  obtain ⟨k, c, hk, hc, hf⟩ := h.forced j l hl hj
  have hmem : l ∈ t.literals := Array.mem_of_getElem? hl
  have hself := hsame l hmem (Nat.le_refl _)
  refine ⟨k, c, by rw [reasonOf, hself]; exact hk, hc, hf.mem, by rw [htake]; exact hf.earlier, ?_⟩
  rw [show t'.levelOf l.var = t.levelOf l.var by rw [levelOf, hself, levelOf]]
  refine hf.level.imp id ?_
  rintro ⟨m, hm, hne, heq⟩
  have hm' := hsame m.negate (mem_of_mem_take (hf.earlier m hm hne)) (Nat.le_of_eq heq)
  rw [Literal.var_negate] at hm'
  exact ⟨m, hm, hne, by rw [levelOf, hm']; exact heq⟩

/-- A decision stays one where its position and its assignment are the same. -/
theorem decided_congr {t' : Trail} (h : t.Justified clauseOf) {b : Nat} (hb : b < t.level)
    (hget : ∀ l, t.literals[t.lengthAt b]? = some l → t'.literals[t.lengthAt b]? = some l)
    (hsame : ∀ m ∈ t.literals, t.levelOf m.var ≤ b + 1 →
      t'.assignment? m.var = t.assignment? m.var) :
    ∃ l, t'.literals[t.lengthAt b]? = some l ∧ t'.reasonOf l.var = none ∧
      t'.levelOf l.var = b + 1 := by
  obtain ⟨l, hl, hr, hlevel⟩ := h.decided b hb
  have hself := hsame l (Array.mem_of_getElem? hl) (Nat.le_of_eq hlevel)
  exact ⟨l, hget l hl, by rw [reasonOf, hself]; exact hr, by rw [levelOf, hself]; exact hlevel⟩

theorem extend (h : t.Justified clauseOf) (ht : t.Coherent n) {k : Nat} {c : List Literal}
    (hl : l.var.index < n) (hv : t.valueOf l.var = none) (hc : clauseOf k = some c) (hm : l ∈ c)
    (hfalse : ∀ m ∈ c, m ≠ l → t.IsFalse m)
    (hlevel : t.level = 0 ∨ ∃ m ∈ c, m ≠ l ∧ t.levelOf m.var = t.level) :
    (t.extend l (some k)).Justified clauseOf where
  decided b hb := by
    rw [level_extend] at hb
    rw [lengthAt_extend_of_lt hb]
    refine h.decided_congr hb (fun m hm => ?_) fun m hm _ => ht.assignment?_extend_of_mem hv hm
    rw [literals_extend, Array.getElem?_push_lt (h.lengthAt_lt hb)]
    rwa [Array.getElem?_eq_getElem (h.lengthAt_lt hb)] at hm
  forced j m hjm hj := by
    have hl' : l.var.index < t.cells.size := ht.size_cells ▸ hl
    rw [literals_extend, Array.getElem?_push] at hjm
    split at hjm
    · cases hjm; subst j
      refine ⟨k, c, reasonOf_extend_self hl', hc, hm, fun m hm hne => ?_, ?_⟩
      · simpa using ht.isFalse_iff.1 (hfalse m hm hne)
      · rw [levelOf_extend_self hl']
        refine hlevel.imp id ?_
        rintro ⟨m, hm, hne, heq⟩
        have hmem := ht.isFalse_iff.1 (hfalse m hm hne)
        exact ⟨m, hm, hne, (ht.levelOf_extend_of_mem hv hmem).trans heq⟩
    · have hlt := (Array.getElem?_eq_some_iff.1 hjm).1
      refine h.forced_congr hjm (fun b hb => ?_) ?_ fun m hm _ => ht.assignment?_extend_of_mem hv hm
      · rw [← lengthAt_extend_of_lt (l := l) (r := some k) hb]
        exact hj b hb
      · simp [List.take_append_of_le_length (Nat.le_of_lt hlt)]

theorem decide (h : t.Justified clauseOf) (ht : t.Coherent n) (hl : l.var.index < n)
    (hv : t.valueOf l.var = none) : (t.openLevel.extend l none).Justified clauseOf := by
  have hl' : l.var.index < t.openLevel.cells.size := ht.size_cells ▸ hl
  have hsame : ∀ m ∈ t.literals,
      (t.openLevel.extend l none).assignment? m.var = t.assignment? m.var := fun m hm =>
    ht.openLevel.assignment?_extend_of_mem hv hm
  have hlevel := level_openLevel (t := t)
  have hlength : ∀ b < t.level + 1, (t.openLevel.extend l none).lengthAt b = t.lengthAt b := by
    intro b hb
    rw [lengthAt_extend_of_lt (hlevel ▸ hb), lengthAt_openLevel]
  refine ⟨fun b hb => ?_, fun j m hjm hj => ?_⟩
  · rw [level_extend, hlevel] at hb
    rw [hlength b hb]
    by_cases hb' : b < t.level
    · refine h.decided_congr hb' (fun m hm => ?_) fun m hm _ => hsame m hm
      rw [literals_extend, show t.openLevel.literals = t.literals from rfl,
        Array.getElem?_push_lt (h.lengthAt_lt hb')]
      rwa [Array.getElem?_eq_getElem (h.lengthAt_lt hb')] at hm
    · obtain rfl : b = t.level := by omega
      refine ⟨l, ?_, reasonOf_extend_self hl', ?_⟩
      · rw [lengthAt_of_level_le (Nat.le_refl _)]
        simp [openLevel]
      · rw [levelOf_extend_self hl', hlevel]
  · rw [literals_extend, show t.openLevel.literals = t.literals from rfl, Array.getElem?_push] at hjm
    split at hjm
    · rename_i hsize
      refine absurd ?_ (hj t.level (by rw [level_extend, hlevel]; omega))
      rw [hlength _ (Nat.lt_succ_self _), lengthAt_of_level_le (Nat.le_refl _), hsize]
    · have hlt := (Array.getElem?_eq_some_iff.1 hjm).1
      refine h.forced_congr hjm (fun b hb => ?_) ?_ fun m hm _ => hsame m hm
      · rw [← hlength b (by omega)]
        exact hj b (by rw [level_extend, hlevel]; omega)
      · simp [openLevel, List.take_append_of_le_length (Nat.le_of_lt hlt)]

theorem backtrack (h : t.Justified clauseOf) (ht : t.Coherent n) (b : Nat) :
    (t.backtrack b).2.Justified clauseOf where
  decided c hc := by
    rw [level_backtrack] at hc
    rw [ht.lengthAt_backtrack, Nat.min_eq_left (by omega)]
    refine h.decided_congr (by omega) (fun l hl => ?_) fun m _ hm =>
      ht.assignment?_backtrack_of_le (by omega)
    obtain ⟨l', hl', -, hlevel⟩ := h.decided c (by omega)
    obtain ⟨hlt, rfl⟩ := Array.getElem?_eq_some_iff.1 hl'
    rw [getElem?_backtrack, if_pos ((ht.cut b _ hlt).1 (by omega)), hl]
  forced j l hjl hj := by
    rw [getElem?_backtrack] at hjl
    split at hjl
    · rename_i hlt
      have hlen := ht.lengthAt_le b
      have hle : t.levelOf l.var ≤ b := by
        obtain ⟨hj', rfl⟩ := Array.getElem?_eq_some_iff.1 hjl
        exact (ht.cut b j hj').2 hlt
      refine h.forced_congr hjl (fun c hc => ?_) ?_ fun m _ hm =>
        ht.assignment?_backtrack_of_le (by omega)
      · by_cases hcb : c < b
        · have := hj c (by rw [level_backtrack]; omega)
          rwa [ht.lengthAt_backtrack, Nat.min_eq_left (by omega)] at this
        · have := ht.lengthAt_mono (show b ≤ c by omega)
          omega
      · rw [toList_backtrack, List.take_take, Nat.min_eq_left (by omega)]
    · cases hjl

/-! ## What holds on the trail -/

/-- Clauses that hold force the literals of the trail up to a level, given its decisions. -/
theorem holds_of_levelOf_le (h : t.Justified clauseOf) (ht : t.Coherent n) {σ : Variable → Bool}
    (hσ : ∀ k c, clauseOf k = some c → (Clause.mk c).Holds σ) {b : Nat}
    (hd : ∀ a ≤ b, ∀ d, t.decision? a = some d → d.Holds σ) :
    ∀ l ∈ t.literals, t.levelOf l.var ≤ b → l.Holds σ := by
  suffices hpos : ∀ (j : Nat) (l : Literal), t.literals[j]? = some l → t.levelOf l.var ≤ b →
      l.Holds σ by
    intro l hl
    obtain ⟨j, hj⟩ := Array.mem_iff_getElem?.1 hl
    exact hpos j l hj
  intro j
  induction j using Nat.strongRecOn with
  | ind j ih =>
      intro l hl hb
      obtain ⟨hlt, rfl⟩ := Array.getElem?_eq_some_iff.1 hl
      by_cases hdec : ∃ a < t.level, j = t.lengthAt a
      · obtain ⟨a, ha, rfl⟩ := hdec
        have hab := (ht.cut a _ hlt).not
        exact hd (a + 1) (by omega) _ (by rw [decision?_succ ha]; exact hl)
      · obtain ⟨k, c, -, hc, hf⟩ := h.forced j _ hl (fun a ha hj => hdec ⟨a, ha, hj⟩)
        obtain ⟨m, hm, hmσ⟩ := hσ k c hc
        by_cases hml : m = t.literals[j]
        · exact hml ▸ hmσ
        -- Another literal of the clause is false on the trail before, hence false by induction.
        · obtain ⟨i, hi, himm⟩ := List.mem_take_iff_getElem.1 (hf.earlier m hm hml)
          simp only [Array.length_toList, Array.getElem_toList] at hi himm
          have hle := ht.levelOf_mono (i := i) (by omega) (by omega) hlt
          have hneg := ih i (by omega) m.negate
            (by rw [← himm]; exact Array.getElem?_eq_getElem (by omega))
            (by rw [← himm]; omega)
          exact absurd hmσ (Literal.holds_negate.1 hneg)

theorem holds_of_root (h : t.Justified clauseOf) (ht : t.Coherent n) {σ : Variable → Bool}
    (hσ : ∀ k c, clauseOf k = some c → (Clause.mk c).Holds σ) (hl : l ∈ t.literals)
    (hroot : t.levelOf l.var = 0) : l.Holds σ := by
  refine h.holds_of_levelOf_le ht hσ (b := 0) (fun a ha d hd => ?_) l hl (Nat.le_of_eq hroot)
  obtain rfl : a = 0 := by omega
  cases hd

/-- What is false at the root level is false in every assignment that makes the clauses true. -/
theorem not_holds_of_isFalse (h : t.Justified clauseOf) (ht : t.Coherent n) {σ : Variable → Bool}
    (hσ : ∀ k c, clauseOf k = some c → (Clause.mk c).Holds σ) (hlevel : t.level = 0)
    (hl : t.IsFalse l) : ¬ l.Holds σ := by
  have hmem := ht.isFalse_iff.1 hl
  have hle := ht.levelOf_le hmem
  exact Literal.holds_negate.1 (h.holds_of_root ht hσ hmem (Nat.le_zero.1 (hlevel ▸ hle)))

end Justified

end ClauseLearning.Trail
