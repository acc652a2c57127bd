import Mathlib
import ClauseLearning.Proofs.Literal
import ClauseLearning.Trail

/-!
# Coherence of the trail

The literals of a trail, the values and levels of its variables and the marks of its levels say the
same. Assigning, opening a level, taking up a literal and backtracking keep this.
-/

namespace ClauseLearning.Trail

variable {t : Trail} {n : Nat} {l m : Literal} {v : Variable} {r : Option Nat}

/-! ## Values of literals -/

def IsTrue (t : Trail) (l : Literal) : Prop := t.valueOf l.var = some l.positive

def IsFalse (t : Trail) (l : Literal) : Prop := t.valueOf l.var = some (!l.positive)

theorem isTrue_negate : t.IsTrue l.negate ↔ t.IsFalse l := Iff.rfl

theorem IsTrue.not_isFalse (h : t.IsTrue l) : ¬ t.IsFalse l := by
  unfold IsTrue IsFalse at *
  simp [h]

theorem IsFalse.valueOf_ne_none (h : t.IsFalse l) : t.valueOf l.var ≠ none := by
  rw [show t.valueOf l.var = some (!l.positive) from h]
  exact Option.some_ne_none _

theorem unassigned_or_isTrue_or_isFalse (t : Trail) (l : Literal) :
    t.valueOf l.var = none ∨ t.IsTrue l ∨ t.IsFalse l := by
  unfold IsTrue IsFalse
  cases h : t.valueOf l.var with
  | none => exact .inl rfl
  | some value => cases value <;> cases l.positive <;> simp

theorem lt_of_assignment? {a : Assignment} (h : t.assignment? v = some a) :
    v.index < t.cells.size := by
  unfold assignment? at h
  by_contra hv
  rw [Array.getElem?_eq_none (by omega)] at h
  simp at h

theorem lt_of_valueOf {value : Bool} (h : t.valueOf v = some value) : v.index < t.cells.size := by
  obtain ⟨a, ha, -⟩ := Option.map_eq_some_iff.1 h
  exact lt_of_assignment? ha

theorem value_eq (hl : l.var.index < t.cells.size) :
    t.value l = .ok ((t.valueOf l.var).map l.eval) := by
  simp [value, hl]

theorem IsTrue.value (h : t.IsTrue l) : t.value l = .ok (some true) := by
  rw [value_eq (lt_of_valueOf h), show t.valueOf l.var = some l.positive from h]
  simp [Literal.eval]

theorem IsFalse.value (h : t.IsFalse l) : t.value l = .ok (some false) := by
  rw [value_eq (lt_of_valueOf h), show t.valueOf l.var = some (!l.positive) from h]
  cases hp : l.positive <;> simp [Literal.eval, hp]

theorem isFalse_of_value (h : t.value l = .ok (some false)) : t.IsFalse l := by
  unfold value at h
  split at h
  · simp only [Except.ok.injEq, Option.map_eq_some_iff] at h
    obtain ⟨value, hv, he⟩ := h
    cases value <;> cases hp : l.positive <;> simp_all [IsFalse, Literal.eval]
  · cases h

theorem value_of_unassigned (hl : l.var.index < t.cells.size) (h : t.valueOf l.var = none) :
    t.value l = .ok none := by
  rw [value_eq hl, h]
  rfl

/-! ## The trail with one more literal -/

/-- The trail on which a literal was made true at the current level. -/
def extend (t : Trail) (l : Literal) (reason : Option Nat) : Trail :=
  { t with
    cells := t.cells.setIfInBounds l.var.index (some ⟨l.positive, t.level, reason⟩)
    literals := t.literals.push l }

theorem assign_of_unassigned (hl : l.var.index < t.cells.size) (h : t.valueOf l.var = none) :
    t.assign l r = .ok (some (t.extend l r)) := by
  have hc : t.cells[l.var.index] = none := by
    simp only [valueOf, assignment?, Option.map_eq_none_iff, Array.getElem?_eq_getElem hl] at h
    simpa using h
  rw [assign, dif_pos hl]
  split
  · simp_all
  · simp [extend, Array.setIfInBounds, hl]

theorem assign_of_assigned {a : Assignment} (h : t.assignment? l.var = some a) :
    t.assign l r = .ok (if l.eval a.value then some t else none) := by
  have hl := lt_of_assignment? h
  have hc : t.cells[l.var.index] = some a := by
    simpa [assignment?, Array.getElem?_eq_getElem hl] using h
  rw [assign, dif_pos hl]
  split
  · simp_all
  · simp_all

theorem IsTrue.assign (h : t.IsTrue l) : t.assign l r = .ok (some t) := by
  obtain ⟨a, ha, hv⟩ := Option.map_eq_some_iff.1 h
  rw [assign_of_assigned ha, hv]
  simp [Literal.eval]

theorem IsFalse.assign (h : t.IsFalse l) : t.assign l r = .ok none := by
  obtain ⟨a, ha, hv⟩ := Option.map_eq_some_iff.1 h
  rw [assign_of_assigned ha, hv]
  cases hp : l.positive <;> simp [Literal.eval, hp]

theorem of_assign {t' : Trail} (hv : t.valueOf l.var = none) (h : t.assign l r = .ok (some t')) :
    l.var.index < t.cells.size ∧ t' = t.extend l r := by
  by_cases hl : l.var.index < t.cells.size
  · rw [assign_of_unassigned hl hv] at h
    cases h
    exact ⟨hl, rfl⟩
  · rw [assign, dif_neg hl] at h
    cases h

@[simp] theorem size_cells_extend : (t.extend l r).cells.size = t.cells.size := by
  simp [extend]

@[simp] theorem literals_extend : (t.extend l r).literals = t.literals.push l := rfl

@[simp] theorem starts_extend : (t.extend l r).starts = t.starts := rfl

@[simp] theorem head_extend : (t.extend l r).head = t.head := rfl

@[simp] theorem level_extend : (t.extend l r).level = t.level := rfl

theorem assignment?_extend_self (hl : l.var.index < t.cells.size) :
    (t.extend l r).assignment? l.var = some ⟨l.positive, t.level, r⟩ := by
  simp [assignment?, extend, hl]

theorem assignment?_extend_of_ne (h : v ≠ l.var) :
    (t.extend l r).assignment? v = t.assignment? v := by
  have hi : l.var.index ≠ v.index := fun e => h (Variable.ext e.symm)
  simp [assignment?, extend, Array.getElem?_setIfInBounds_ne hi]

theorem assignment?_extend_of_some {a : Assignment} (hl : t.valueOf l.var = none)
    (h : t.assignment? v = some a) : (t.extend l r).assignment? v = some a := by
  rw [assignment?_extend_of_ne, h]
  rintro rfl
  simp [valueOf, h] at hl

theorem isTrue_extend_self (hl : l.var.index < t.cells.size) : (t.extend l r).IsTrue l := by
  simp [IsTrue, valueOf, assignment?_extend_self hl]

theorem levelOf_extend_self (hl : l.var.index < t.cells.size) :
    (t.extend l r).levelOf l.var = t.level := by
  simp [levelOf, assignment?_extend_self hl]

theorem reasonOf_extend_self (hl : l.var.index < t.cells.size) :
    (t.extend l r).reasonOf l.var = r := by
  simp [reasonOf, assignment?_extend_self hl]

/-! ## Levels -/

theorem lengthAt_of_lt {b : Nat} (h : b < t.starts.size) : t.lengthAt b = t.starts[b] := by
  simp [lengthAt, h]

theorem lengthAt_of_level_le {b : Nat} (h : t.level ≤ b) : t.lengthAt b = t.literals.size := by
  rw [lengthAt, Array.getElem?_eq_none h, Option.getD_none]

@[simp] theorem level_openLevel : t.openLevel.level = t.level + 1 := by
  simp [level, openLevel]

@[simp] theorem lengthAt_openLevel (b : Nat) : t.openLevel.lengthAt b = t.lengthAt b := by
  simp only [lengthAt, openLevel, Array.getElem?_push]
  split
  · subst b; simp
  · rfl

theorem lengthAt_extend_of_lt {b : Nat} (h : b < t.level) :
    (t.extend l r).lengthAt b = t.lengthAt b := by
  rw [lengthAt_of_lt h, lengthAt_of_lt (t := t.extend l r) h]
  rfl

/-- The literals and the cells of a trail agree, and each level is a stretch of the trail. -/
structure Coherent (t : Trail) (n : Nat) : Prop where
  size_cells : t.cells.size = n
  distinct : (t.literals.toList.map Literal.var).Nodup
  isTrue_of_mem : ∀ l ∈ t.literals, t.IsTrue l
  mem_of_isTrue : ∀ l, t.IsTrue l → l ∈ t.literals
  /-- The literals of the levels up to `b` are those before the mark of the next level. -/
  cut : ∀ b i (hi : i < t.literals.size), t.levelOf t.literals[i].var ≤ b ↔ i < t.lengthAt b
  lengthAt_le : ∀ b, t.lengthAt b ≤ t.literals.size
  head_le : t.head ≤ t.literals.size

namespace Coherent

theorem isTrue_iff (h : t.Coherent n) : t.IsTrue l ↔ l ∈ t.literals :=
  ⟨h.mem_of_isTrue l, h.isTrue_of_mem l⟩

theorem isFalse_iff (h : t.Coherent n) : t.IsFalse l ↔ l.negate ∈ t.literals :=
  isTrue_negate.symm.trans h.isTrue_iff

theorem mem_of_assignment? {a : Assignment} (h : t.Coherent n) (ha : t.assignment? v = some a) :
    ⟨v, a.value⟩ ∈ t.literals :=
  h.mem_of_isTrue _ (by simp [IsTrue, valueOf, ha])

theorem lt_of_mem (h : t.Coherent n) (hl : l ∈ t.literals) : l.var.index < n :=
  h.size_cells ▸ lt_of_valueOf (h.isTrue_of_mem l hl)

theorem levelOf_le (h : t.Coherent n) (hl : l ∈ t.literals) : t.levelOf l.var ≤ t.level := by
  obtain ⟨i, hi, rfl⟩ := Array.mem_iff_getElem.1 hl
  rw [h.cut _ _ hi, lengthAt_of_level_le (Nat.le_refl _)]
  exact hi

theorem levelOf_mono (h : t.Coherent n) {i j : Nat} (hij : i ≤ j) (hi : i < t.literals.size)
    (hj : j < t.literals.size) : t.levelOf t.literals[i].var ≤ t.levelOf t.literals[j].var := by
  rw [h.cut]
  have := (h.cut _ j hj).1 (Nat.le_refl _)
  omega

theorem lengthAt_mono (h : t.Coherent n) {b c : Nat} (hbc : b ≤ c) :
    t.lengthAt b ≤ t.lengthAt c := by
  by_contra hlt
  have hi : t.lengthAt c < t.literals.size := by have := h.lengthAt_le b; omega
  have hb := (h.cut b _ hi).2 (by omega)
  have hc := (h.cut c _ hi).1 (by omega)
  omega

theorem indices_nodup (h : t.Coherent n) : (t.literals.toList.map (·.var.index)).Nodup := by
  have := h.distinct.map (f := Variable.index) fun _ _ => Variable.ext
  simpa [Function.comp_def] using this

theorem indices_subperm (h : t.Coherent n) :
    (t.literals.toList.map (·.var.index)).Subperm (List.range n) := by
  refine List.subperm_of_subset h.indices_nodup fun i hi => ?_
  obtain ⟨l, hl, rfl⟩ := List.mem_map.1 hi
  exact List.mem_range.2 (h.lt_of_mem (by simpa using hl))

theorem size_le (h : t.Coherent n) : t.literals.size ≤ n := by
  simpa using h.indices_subperm.length_le

theorem isSome_of_isComplete (h : t.Coherent n) (hc : t.isComplete) (hv : v.index < n) :
    (t.valueOf v).isSome := by
  have hsize : t.literals.size = n := by simpa [isComplete, h.size_cells] using hc
  have hperm := h.indices_subperm.perm_of_length_le (by simp [hsize])
  obtain ⟨l, hl, hi⟩ := List.mem_map.1 (hperm.mem_iff.2 (List.mem_range.2 hv))
  have ht : t.valueOf l.var = some l.positive := h.isTrue_of_mem l (by simpa using hl)
  rw [← Variable.ext hi, ht]
  rfl

theorem exists_unassigned (h : t.Coherent n) (hn : n ≤ Variable.maxId) (hc : t.isComplete = false) :
    ∃ v : Variable, v.index < n ∧ t.valueOf v = none := by
  by_contra hall
  simp only [not_exists, not_and] at hall
  have hsub : List.range n ⊆ t.literals.toList.map (·.var.index) := by
    intro i hi
    have hin : i < n := List.mem_range.1 hi
    let v : Variable := ⟨i, Nat.lt_of_lt_of_le hin hn⟩
    obtain ⟨value, hv⟩ := Option.ne_none_iff_exists'.1 (hall v hin)
    exact List.mem_map.2 ⟨⟨v, value⟩, by simpa using h.mem_of_isTrue ⟨v, value⟩ hv, rfl⟩
  have hle := (List.subperm_of_subset List.nodup_range hsub).length_le
  have hsize := h.size_le
  simp only [List.length_range, List.length_map, Array.length_toList] at hle
  simp only [isComplete, h.size_cells, beq_eq_false_iff_ne] at hc
  omega

theorem assignment?_extend_of_mem (h : t.Coherent n) (hv : t.valueOf l.var = none)
    (hm : m ∈ t.literals) : (t.extend l r).assignment? m.var = t.assignment? m.var := by
  obtain ⟨a, ha, -⟩ := Option.map_eq_some_iff.1 (h.isTrue_of_mem m hm)
  rw [ha, assignment?_extend_of_some hv ha]

theorem levelOf_extend_of_mem (h : t.Coherent n) (hv : t.valueOf l.var = none)
    (hm : m ∈ t.literals) : (t.extend l r).levelOf m.var = t.levelOf m.var := by
  rw [levelOf, h.assignment?_extend_of_mem hv hm, levelOf]

theorem levelOf_extend_le (h : t.Coherent n) (hl : l.var.index < n) (hv : t.valueOf l.var = none)
    (hm : m ∈ (t.extend l r).literals) : (t.extend l r).levelOf m.var ≤ t.level := by
  rcases Array.mem_push.1 hm with hm | rfl
  · rw [h.levelOf_extend_of_mem hv hm]
    exact h.levelOf_le hm
  · rw [levelOf_extend_self (h.size_cells ▸ hl)]

/-! ## Operations that keep coherence -/

theorem start (n : Nat) : (Trail.start n).Coherent n where
  size_cells := by simp [Trail.start]
  distinct := by simp [Trail.start]
  isTrue_of_mem l hl := by simp [Trail.start] at hl
  mem_of_isTrue l hl := by
    simp only [IsTrue, valueOf, assignment?, Trail.start, Array.getElem?_replicate] at hl
    split at hl <;> simp at hl
  cut b i hi := by simp [Trail.start] at hi
  lengthAt_le b := by simp [lengthAt, Trail.start]
  head_le := by simp [Trail.start]

theorem openLevel (h : t.Coherent n) : t.openLevel.Coherent n where
  size_cells := h.size_cells
  distinct := h.distinct
  isTrue_of_mem := h.isTrue_of_mem
  mem_of_isTrue := h.mem_of_isTrue
  cut b i hi := by rw [lengthAt_openLevel]; exact h.cut b i hi
  lengthAt_le b := by rw [lengthAt_openLevel]; exact h.lengthAt_le b
  head_le := h.head_le

theorem advance (h : t.Coherent n) (hlt : t.head < t.literals.size) :
    Coherent { t with head := t.head + 1 } n where
  size_cells := h.size_cells
  distinct := h.distinct
  isTrue_of_mem := h.isTrue_of_mem
  mem_of_isTrue := h.mem_of_isTrue
  cut := h.cut
  lengthAt_le := h.lengthAt_le
  head_le := hlt

theorem cut_extend (h : t.Coherent n) (hl : l.var.index < n) (hv : t.valueOf l.var = none)
    {b i : Nat} (hi : i < (t.extend l r).literals.size) :
    (t.extend l r).levelOf (t.extend l r).literals[i].var ≤ b ↔ i < (t.extend l r).lengthAt b := by
  simp only [literals_extend, Array.size_push] at hi
  by_cases hb : b < t.level
  · rw [lengthAt_extend_of_lt hb]
    by_cases hi' : i < t.literals.size
    · simp only [literals_extend, Array.getElem_push_lt hi',
        h.levelOf_extend_of_mem hv (Array.getElem_mem hi'), h.cut b i hi']
    · obtain rfl : i = t.literals.size := by omega
      have := h.lengthAt_le b
      simp only [literals_extend, Array.getElem_push_eq, levelOf_extend_self (h.size_cells ▸ hl)]
      omega
  · have hle := h.levelOf_extend_le (r := r) hl hv (Array.getElem_mem (i := i) (by simpa using hi))
    rw [lengthAt_of_level_le (by simpa using hb)]
    simp only [literals_extend, Array.size_push] at hle ⊢
    omega

theorem extend (h : t.Coherent n) (hl : l.var.index < n) (hv : t.valueOf l.var = none) :
    (t.extend l r).Coherent n where
  size_cells := by simpa using h.size_cells
  distinct := by
    simp only [literals_extend, Array.toList_push, List.map_append, List.map_cons, List.map_nil]
    refine List.nodup_append.2 ⟨h.distinct, by simp, ?_⟩
    rintro _ hw _ hl' rfl
    obtain ⟨m, hm, hmv⟩ := List.mem_map.1 hw
    have ht := h.isTrue_of_mem m (by simpa using hm)
    simp only [List.mem_singleton] at hl'
    rw [IsTrue, hmv, hl', hv] at ht
    simp at ht
  isTrue_of_mem m hm := by
    rcases Array.mem_push.1 hm with hm | rfl
    · have ht := h.isTrue_of_mem m hm
      obtain ⟨a, ha, hav⟩ := Option.map_eq_some_iff.1 ht
      simp [IsTrue, valueOf, assignment?_extend_of_some hv ha, hav]
    · exact isTrue_extend_self (h.size_cells ▸ hl)
  mem_of_isTrue m hm := by
    by_cases hvar : m.var = l.var
    · have hl' := isTrue_extend_self (t := t) (r := r) (h.size_cells ▸ hl)
      rw [IsTrue, hvar, hl'] at hm
      rw [Literal.eq_of_var_eq hvar (by simpa using hm.symm)]
      simp
    · rw [IsTrue, valueOf, assignment?_extend_of_ne hvar] at hm
      exact Array.mem_push_of_mem _ (h.mem_of_isTrue m hm)
  cut b i hi := h.cut_extend hl hv hi
  lengthAt_le b := by
    by_cases hb : b < t.level
    · have := h.lengthAt_le b
      simp only [lengthAt_extend_of_lt hb, literals_extend, Array.size_push]
      omega
    · rw [lengthAt_of_level_le (by simpa using hb)]
  head_le := by simpa using Nat.le_succ_of_le h.head_le

end Coherent

/-! ## Backtracking -/

theorem getElem?_foldl_setIfInBounds {α β : Type} (keys : List α) (index : α → Nat) (x : β)
    (xs : Array β) (i : Nat) :
    (keys.foldl (fun xs k => xs.setIfInBounds (index k) x) xs)[i]? =
      if i ∈ keys.map index ∧ i < xs.size then some x else xs[i]? := by
  induction keys generalizing xs with
  | nil => simp
  | cons k keys ih =>
      rw [List.foldl_cons, ih, Array.size_setIfInBounds]
      by_cases hi : index k = i
      · subst i
        by_cases hlt : index k < xs.size <;> simp [hlt]
      · simp [Array.getElem?_setIfInBounds_ne hi, Ne.symm hi]

theorem size_foldl_setIfInBounds {α β : Type} (keys : List α) (index : α → Nat) (x : β)
    (xs : Array β) :
    (keys.foldl (fun xs k => xs.setIfInBounds (index k) x) xs).size = xs.size := by
  induction keys generalizing xs with
  | nil => rfl
  | cons k keys ih => simp [ih]

theorem toList_backtrack (t : Trail) (b : Nat) :
    (t.backtrack b).2.literals.toList = t.literals.toList.take (t.lengthAt b) := by
  simp [backtrack]

theorem getElem?_backtrack (t : Trail) (b i : Nat) :
    (t.backtrack b).2.literals[i]? = if i < t.lengthAt b then t.literals[i]? else none := by
  rw [← Array.getElem?_toList, toList_backtrack, List.getElem?_take, Array.getElem?_toList]

@[simp] theorem head_backtrack (t : Trail) (b : Nat) :
    (t.backtrack b).2.head = min t.head (t.lengthAt b) := rfl

@[simp] theorem level_backtrack (t : Trail) (b : Nat) :
    (t.backtrack b).2.level = min b t.level := by
  simp [level, backtrack]

@[simp] theorem size_cells_backtrack (t : Trail) (b : Nat) :
    (t.backtrack b).2.cells.size = t.cells.size :=
  size_foldl_setIfInBounds _ _ _ _

theorem assignment?_backtrack (t : Trail) (b : Nat) (v : Variable) :
    (t.backtrack b).2.assignment? v =
      if v ∈ (t.literals.toList.drop (t.lengthAt b)).map Literal.var then none
      else t.assignment? v := by
  have hmem : ∀ ls : List Literal, v.index ∈ ls.map (·.var.index) ↔ v ∈ ls.map Literal.var := by
    intro ls
    simp only [List.mem_map]
    exact exists_congr fun l => and_congr_right fun _ => ⟨Variable.ext, congrArg _⟩
  simp only [assignment?, backtrack, getElem?_foldl_setIfInBounds, hmem, List.map_reverse,
    List.mem_reverse]
  by_cases hlt : v.index < t.cells.size
  · split <;> simp_all
  · simp [hlt]

namespace Coherent

theorem size_backtrack (h : t.Coherent n) (b : Nat) :
    (t.backtrack b).2.literals.size = t.lengthAt b := by
  have := h.lengthAt_le b
  rw [← Array.length_toList, toList_backtrack, List.length_take, Array.length_toList]
  omega

theorem mem_backtrack (h : t.Coherent n) {b : Nat} :
    l ∈ (t.backtrack b).2.literals ↔ l ∈ t.literals ∧ t.levelOf l.var ≤ b := by
  simp only [Array.mem_iff_getElem?, getElem?_backtrack]
  constructor
  · rintro ⟨i, hi⟩
    split at hi
    · obtain ⟨hlt, rfl⟩ := Array.getElem?_eq_some_iff.1 hi
      exact ⟨⟨i, hi⟩, (h.cut b i hlt).2 ‹_›⟩
    · cases hi
  · rintro ⟨⟨i, hi⟩, hb⟩
    obtain ⟨hlt, rfl⟩ := Array.getElem?_eq_some_iff.1 hi
    exact ⟨i, by rw [if_pos ((h.cut b i hlt).1 hb), hi]⟩

theorem mem_removed_iff (h : t.Coherent n) {b : Nat} :
    v ∈ (t.literals.toList.drop (t.lengthAt b)).map Literal.var ↔ b < t.levelOf v := by
  constructor
  · intro hv
    obtain ⟨l, hl, rfl⟩ := List.mem_map.1 hv
    obtain ⟨i, hi, rfl⟩ := List.mem_drop_iff_getElem.1 hl
    have := (h.cut b (t.lengthAt b + i) (by simpa [Nat.add_comm] using hi)).not
    simp only [Array.getElem_toList]
    omega
  · intro hb
    cases ha : t.assignment? v with
    | none => simp [levelOf, ha] at hb
    | some a =>
        obtain ⟨i, hi, hl⟩ := Array.mem_iff_getElem.1 (h.mem_of_assignment? ha)
        have hlen : t.lengthAt b ≤ i := by
          have := (h.cut b i hi).not
          rw [hl] at this
          simp only at this
          omega
        refine List.mem_map.2
          ⟨⟨v, a.value⟩, List.mem_drop_iff_getElem.2 ⟨i - t.lengthAt b, ?_, ?_⟩, rfl⟩
        · simp; omega
        · simp [Nat.add_sub_cancel' hlen, hl]

theorem assignment?_backtrack_of_le (h : t.Coherent n) {b : Nat} (hb : t.levelOf v ≤ b) :
    (t.backtrack b).2.assignment? v = t.assignment? v := by
  rw [assignment?_backtrack, if_neg]
  rw [h.mem_removed_iff]
  omega

theorem levelOf_backtrack (h : t.Coherent n) {b : Nat} (hb : t.levelOf v ≤ b) :
    (t.backtrack b).2.levelOf v = t.levelOf v := by
  rw [levelOf, h.assignment?_backtrack_of_le hb, levelOf]

theorem assignment?_backtrack_of_lt (h : t.Coherent n) {b : Nat} (hb : b < t.levelOf v) :
    (t.backtrack b).2.assignment? v = none := by
  rw [assignment?_backtrack, if_pos (h.mem_removed_iff.2 hb)]

theorem lengthAt_backtrack (h : t.Coherent n) (b c : Nat) :
    (t.backtrack b).2.lengthAt c = t.lengthAt (min c b) := by
  by_cases hc : c < b
  · have hstart : (t.backtrack b).2.starts[c]? = t.starts[c]? := by
      rw [← Array.getElem?_toList, ← Array.getElem?_toList]
      simp [Trail.backtrack, List.getElem?_take_of_lt hc]
    rw [Nat.min_eq_left (Nat.le_of_lt hc)]
    cases hs : t.starts[c]? with
    | some s => simp [lengthAt, hstart, hs]
    | none =>
        have hlevel : t.level ≤ c := Array.getElem?_eq_none_iff.1 hs
        rw [lengthAt, hstart, hs, Option.getD_none, h.size_backtrack, lengthAt_of_level_le hlevel,
          lengthAt_of_level_le (by omega)]
  · rw [Nat.min_eq_right (by omega), lengthAt_of_level_le (by rw [level_backtrack]; omega),
      h.size_backtrack]

theorem isTrue_backtrack (h : t.Coherent n) {b : Nat} :
    (t.backtrack b).2.IsTrue l ↔ t.IsTrue l ∧ t.levelOf l.var ≤ b := by
  by_cases hb : t.levelOf l.var ≤ b
  · simp [IsTrue, valueOf, h.assignment?_backtrack_of_le hb, hb]
  · simp [IsTrue, valueOf, h.assignment?_backtrack_of_lt (Nat.lt_of_not_le hb), hb]

theorem backtrack (h : t.Coherent n) (b : Nat) : (t.backtrack b).2.Coherent n where
  size_cells := by rw [size_cells_backtrack, h.size_cells]
  distinct := by
    rw [toList_backtrack, List.map_take]
    exact h.distinct.sublist (List.take_sublist _ _)
  isTrue_of_mem l hl := by
    rw [h.mem_backtrack, ← h.isTrue_iff] at hl
    exact h.isTrue_backtrack.2 hl
  mem_of_isTrue l hl := by
    rw [h.mem_backtrack, ← h.isTrue_iff]
    exact h.isTrue_backtrack.1 hl
  cut c i hi := by
    have hi' := h.size_backtrack b ▸ hi
    have hlt : i < t.literals.size := by have := h.lengthAt_le b; omega
    have hget : (t.backtrack b).2.literals[i] = t.literals[i] := by
      have := getElem?_backtrack t b i
      rw [if_pos hi', Array.getElem?_eq_getElem hi, Array.getElem?_eq_getElem hlt] at this
      simpa using this
    have hb := (h.cut b i hlt).2 hi'
    rw [hget, h.levelOf_backtrack hb, h.lengthAt_backtrack, ← h.cut _ i hlt]
    omega
  lengthAt_le c := by
    rw [h.lengthAt_backtrack, h.size_backtrack]
    exact h.lengthAt_mono (Nat.min_le_right c b)
  head_le := by
    rw [head_backtrack, h.size_backtrack]
    exact Nat.min_le_right _ _

end Coherent

/-! ## Growth of the trail -/

variable {t' : Trail}

/-- A trail that has more literals than another and is else the same. -/
structure Grows (t t' : Trail) : Prop where
  literals : t.literals.toList <+: t'.literals.toList
  starts : t'.starts = t.starts
  kept : ∀ v a, t.assignment? v = some a → t'.assignment? v = some a

namespace Grows

theorem refl (t : Trail) : t.Grows t := ⟨List.prefix_refl _, rfl, fun _ _ h => h⟩

theorem trans {t'' : Trail} (h : t.Grows t') (h' : t'.Grows t'') : t.Grows t'' :=
  ⟨h.literals.trans h'.literals, h'.starts.trans h.starts,
    fun v a ha => h'.kept v a (h.kept v a ha)⟩

theorem extend {r : Option Nat} (hv : t.valueOf l.var = none) :
    t.Grows (t.extend l r) :=
  ⟨by simp, rfl, fun _ _ => assignment?_extend_of_some hv⟩

theorem advance (t : Trail) (head : Nat) : t.Grows { t with head := head } :=
  ⟨List.prefix_refl _, rfl, fun _ _ h => h⟩

theorem isTrue (h : t.Grows t') (hl : t.IsTrue l) : t'.IsTrue l := by
  obtain ⟨a, ha, hv⟩ := Option.map_eq_some_iff.1 hl
  simp [IsTrue, valueOf, h.kept _ _ ha, hv]

theorem levelOf_eq (h : t.Grows t') (hl : t.IsTrue l) : t'.levelOf l.var = t.levelOf l.var := by
  obtain ⟨a, ha, -⟩ := Option.map_eq_some_iff.1 hl
  simp [levelOf, h.kept _ _ ha, ha]

theorem size_le (h : t.Grows t') : t.literals.size ≤ t'.literals.size := by
  simpa using h.literals.length_le

end Grows

end ClauseLearning.Trail
