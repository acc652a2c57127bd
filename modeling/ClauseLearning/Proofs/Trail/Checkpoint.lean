import Mathlib
import ClauseLearning.Proofs.Trail.Coherence

/-!
# Checkpoints of the trail

Whatever is done to a trail, its levels stay stretches of it. When a level is opened, the trail as it
was is a checkpoint: going back below the new level restores it, up to the literals taken up.
-/

namespace ClauseLearning.Trail

variable {s t : Trail} {n : Nat} {l : Literal} {r : Option Nat}

/-! ## Operations in any order -/

inductive Operation where
  | assign (l : Literal) (reason : Option Nat)
  | openLevel
  | next
  | backtrack (level : Nat)

namespace Operation

/-- The operation concerns the first `n` variables only. -/
def InScope (n : Nat) : Operation → Prop
  | assign l _ => l.var.index < n
  | openLevel | next | backtrack _ => True

/-- The operation does not go back to the level or below it. -/
def StaysAbove (level : Nat) : Operation → Prop
  | backtrack b => level < b
  | assign _ _ | openLevel | next => True

end Operation

/-- The trail after an operation. An assignment of a false literal does nothing, nor does taking up
a literal when there is none left. -/
def perform (t : Trail) : Operation → Except Fault Trail
  | .assign l reason => (t.assign l reason).map fun t' => t'.getD t
  | .openLevel => .ok t.openLevel
  | .next => .ok ((t.next?.map (·.2)).getD t)
  | .backtrack level => .ok (t.backtrack level).2

/-- An operation does one of these: it changes nothing, makes a literal true that had no value, opens
a level, takes up a literal or goes back. -/
inductive Performed (n : Nat) (t : Trail) : Operation → Trail → Prop
  | idle (op : Operation) : Performed n t op t
  | extended {l : Literal} {r : Option Nat} : l.var.index < n → t.valueOf l.var = none →
      Performed n t (.assign l r) (t.extend l r)
  | opened : Performed n t .openLevel t.openLevel
  | advanced : t.head < t.literals.size → Performed n t .next { t with head := t.head + 1 }
  | wentBack (b : Nat) : Performed n t (.backtrack b) (t.backtrack b).2

theorem Coherent.perform_ok (h : t.Coherent n) {op : Operation} (hop : op.InScope n) :
    ∃ t', t.perform op = .ok t' ∧ Performed n t op t' := by
  cases op with
  | assign l r =>
      rcases t.unassigned_or_isTrue_or_isFalse l with hv | hv | hv
      · refine ⟨t.extend l r, ?_, .extended hop hv⟩
        rw [perform, assign_of_unassigned (h.size_cells.symm ▸ hop) hv]
        rfl
      · exact ⟨t, by rw [perform, hv.assign]; rfl, .idle _⟩
      · exact ⟨t, by rw [perform, hv.assign]; rfl, .idle _⟩
  | openLevel => exact ⟨_, rfl, .opened⟩
  | next =>
      cases hn : t.next? with
      | none => exact ⟨t, by rw [perform, hn]; rfl, .idle _⟩
      | some p =>
          obtain ⟨l, t'⟩ := p
          obtain ⟨hlt, rfl⟩ := next?_eq_some hn
          exact ⟨_, by rw [perform, hn]; rfl, .advanced hlt⟩
  | backtrack b => exact ⟨_, rfl, .wentBack b⟩

theorem Performed.coherent {op : Operation} {t' : Trail} (h : Performed n t op t')
    (ht : t.Coherent n) : t'.Coherent n := by
  cases h with
  | idle => exact ht
  | extended hl hv => exact ht.extend hl hv
  | opened => exact ht.openLevel
  | advanced hlt => exact ht.advance hlt
  | wentBack b => exact ht.backtrack b

theorem Coherent.performAll (h : t.Coherent n) (ops : List Operation)
    (hops : ∀ op ∈ ops, op.InScope n) : ∃ t', ops.foldlM perform t = .ok t' ∧ t'.Coherent n :=
  foldlM_keeps perform (fun op t₁ hop h₁ => by
    obtain ⟨t₂, ht₂, hp⟩ := h₁.perform_ok hop
    exact ⟨t₂, ht₂, hp.coherent h₁⟩) ops hops h

/-! ## The levels of a trail -/

/-- The lengths that the trail had when each level began, the root level first. -/
def limits (t : Trail) : List Nat := 0 :: t.starts.toList

/-- The length that the trail had when a level began. A level that has not begun would begin at the
end. -/
def beginning (t : Trail) (level : Nat) : Nat := t.limits[level]?.getD t.literals.size

@[simp] theorem beginning_zero (t : Trail) : t.beginning 0 = 0 := rfl

@[simp] theorem beginning_succ (t : Trail) (b : Nat) : t.beginning (b + 1) = t.lengthAt b := by
  simp [beginning, limits, lengthAt]

/-- Each assigned variable is on the trail once, with its value, and each level is the stretch of the
trail from its beginning up to the next. -/
structure Layered (t : Trail) : Prop where
  distinct : (t.literals.toList.map Literal.var).Nodup
  mem_iff : ∀ v value, ⟨v, value⟩ ∈ t.literals ↔ t.valueOf v = some value
  level_iff : ∀ b i (hi : i < t.literals.size),
    t.levelOf t.literals[i].var = b ↔ t.beginning b ≤ i ∧ i < t.beginning (b + 1)
  sorted : t.limits.Pairwise (· ≤ ·)
  head_le : t.head ≤ t.literals.size

namespace Coherent

theorem sorted_limits (h : t.Coherent n) : t.limits.Pairwise (· ≤ ·) := by
  refine List.pairwise_cons.2 ⟨fun b _ => Nat.zero_le b, List.pairwise_iff_getElem.2 ?_⟩
  intro i j hi hj hij
  rw [Array.getElem_toList, Array.getElem_toList, ← lengthAt_of_lt, ← lengthAt_of_lt]
  exact h.lengthAt_mono (Nat.le_of_lt hij)

theorem level_iff (h : t.Coherent n) (b : Nat) {i : Nat} (hi : i < t.literals.size) :
    t.levelOf t.literals[i].var = b ↔ t.beginning b ≤ i ∧ i < t.beginning (b + 1) := by
  have hle := h.cut b i hi
  cases b with
  | zero => rw [beginning_zero, beginning_succ, ← hle]; omega
  | succ b =>
      have hlt := h.cut b i hi
      rw [beginning_succ, beginning_succ, ← hle, ← Nat.not_lt, ← hlt]
      omega

theorem layered (h : t.Coherent n) : t.Layered where
  distinct := h.distinct
  mem_iff _ _ := h.isTrue_iff.symm
  level_iff b _ hi := h.level_iff b hi
  sorted := h.sorted_limits
  head_le := h.head_le

end Coherent

/-! ## Going on from a checkpoint -/

/-- The literals that became true since the trail had the given length. -/
def added (t : Trail) (length : Nat) : List Literal := t.literals.toList.drop length

theorem added_eq_append {k m : Nat} (hkm : k ≤ m) (hm : m ≤ t.literals.size) :
    t.added k = (t.literals.toList.take m).drop k ++ t.added m := by
  have hk : k ≤ (t.literals.toList.take m).length := by
    rw [List.length_take, Array.length_toList]
    omega
  rw [added, added, ← List.drop_append_of_le_length hk, List.take_append_drop]

theorem getElem?_cells_backtrack (t : Trail) (b i : Nat) :
    (t.backtrack b).2.cells[i]? =
      if i ∈ (t.added (t.lengthAt b)).map (·.var.index) ∧ i < t.cells.size then some none
      else t.cells[i]? := by
  simp only [Trail.backtrack, getElem?_foldl_setIfInBounds, added, List.map_reverse,
    List.mem_reverse]
  rfl

theorem toList_starts_backtrack (t : Trail) (b : Nat) :
    (t.backtrack b).2.starts.toList = t.starts.toList.take b := by
  simp [Trail.backtrack]

/-- Going back to the current level or above it takes nothing back. -/
theorem Coherent.backtrack_of_level_le (h : t.Coherent n) {b : Nat} (hb : t.level ≤ b) :
    (t.backtrack b).2 = t := by
  have hlength := lengthAt_of_level_le hb
  have hadded : t.added t.literals.size = [] := List.drop_of_length_le Array.length_toList.le
  have hcells : (t.backtrack b).2.cells = t.cells := by
    refine Array.ext_getElem? fun i => ?_
    rw [getElem?_cells_backtrack, hlength, hadded, if_neg (by simp)]
  have hliterals : (t.backtrack b).2.literals = t.literals := by
    rw [← Array.toList_inj, toList_backtrack, hlength, ← Array.length_toList, List.take_length]
  have hstarts : (t.backtrack b).2.starts = t.starts := by
    rw [← Array.toList_inj, toList_starts_backtrack, List.take_of_length_le hb]
  have hhead : (t.backtrack b).2.head = t.head := by
    rw [head_backtrack, hlength, Nat.min_eq_left h.head_le]
  exact (Trail.mk.injEq ..).mpr ⟨hcells, hliterals, hstarts, hhead⟩

/-- The trail has gone on since a level was opened on another one. -/
structure Since (s t : Trail) : Prop where
  size_cells : t.cells.size = s.cells.size
  literals : s.literals.toList <+: t.literals.toList
  starts : s.openLevel.starts.toList <+: t.starts.toList
  /-- What became true since then had no value before. -/
  free : ∀ l ∈ t.added s.literals.size, s.cells[l.var.index]? = some none
  kept : ∀ i, i ∉ (t.added s.literals.size).map (·.var.index) → t.cells[i]? = s.cells[i]?

namespace Since

theorem refl (s : Trail) : s.Since s.openLevel where
  size_cells := rfl
  literals := List.prefix_refl _
  starts := List.prefix_refl _
  free l hl := by
    rw [added, show s.openLevel.literals = s.literals from rfl, ← Array.length_toList,
      List.drop_length] at hl
    cases hl
  kept _ _ := rfl

/-- Above a level the trail has gone on since it ended with this level. -/
theorem backtrack_self (ht : t.Coherent n) {b : Nat} (hb : b < t.level) :
    (t.backtrack b).2.Since t where
  size_cells := (size_cells_backtrack t b).symm
  literals := by
    rw [toList_backtrack]
    exact List.take_prefix _ _
  starts := by
    have hlt : b < t.starts.size := hb
    have hmark : t.starts.toList.take b ++ [t.starts[b]] = t.starts.toList.take (b + 1) :=
      List.take_concat_get' t.starts.toList b hlt
    rw [Trail.openLevel, Array.toList_push, toList_starts_backtrack, ht.size_backtrack,
      lengthAt_of_lt hlt, hmark]
    exact List.take_prefix _ _
  free l hl := by
    rw [ht.size_backtrack] at hl
    have hlt : l.var.index < t.cells.size :=
      ht.size_cells.symm ▸ ht.lt_of_mem (by simpa using List.mem_of_mem_drop hl)
    rw [getElem?_cells_backtrack, if_pos ⟨List.mem_map_of_mem hl, hlt⟩]
  kept i hi := by
    rw [ht.size_backtrack] at hi
    rw [getElem?_cells_backtrack, if_neg fun hmem => hi hmem.1]

theorem lengthAt_level (h : s.Since t) : t.lengthAt s.level = s.literals.size := by
  obtain ⟨rest, hrest⟩ := h.starts
  have hstart : t.starts[s.level]? = some s.literals.size := by
    rw [← Array.getElem?_toList, ← hrest]
    simp [Trail.openLevel, level]
  rw [lengthAt, hstart, Option.getD_some]

theorem toList_eq (h : s.Since t) :
    t.literals.toList = s.literals.toList ++ t.added s.literals.size := by
  obtain ⟨rest, hrest⟩ := h.literals
  rw [added, ← hrest, ← Array.length_toList, List.drop_left]

theorem size_le (h : s.Since t) : s.literals.size ≤ t.literals.size := by
  simpa using h.literals.length_le

theorem extend (h : s.Since t) (hl : l.var.index < t.cells.size)
    (hv : t.valueOf l.var = none) : s.Since (t.extend l r) := by
  have hadded : (t.extend l r).added s.literals.size = t.added s.literals.size ++ [l] := by
    rw [added, literals_extend, Array.toList_push,
      List.drop_append_of_le_length (by simpa using h.size_le), added]
  have hfree : t.cells[l.var.index]? = some none := by
    simpa [valueOf, assignment?, Array.getElem?_eq_getElem hl] using hv
  refine ⟨?_, ?_, h.starts, fun m hm => ?_, fun i hi => ?_⟩
  · rw [size_cells_extend, h.size_cells]
  · rw [literals_extend, Array.toList_push]
    exact h.literals.trans (List.prefix_append _ _)
  · rw [hadded, List.mem_append, List.mem_singleton] at hm
    rcases hm with hm | rfl
    · exact h.free m hm
    -- Either a literal with this index became true since then, or the cell is as it was.
    · by_cases hmem : m.var.index ∈ (t.added s.literals.size).map (·.var.index)
      · obtain ⟨k, hk, he⟩ := List.mem_map.1 hmem
        rw [← he]
        exact h.free k hk
      · rw [← h.kept _ hmem]
        exact hfree
  · rw [hadded, List.map_append, List.mem_append, not_or] at hi
    rw [Trail.extend, Array.getElem?_setIfInBounds_ne fun e => hi.2 (by simp [e])]
    exact h.kept i hi.1

theorem openLevel (h : s.Since t) : s.Since t.openLevel where
  size_cells := h.size_cells
  literals := h.literals
  starts := by
    have hpush : t.openLevel.starts.toList = t.starts.toList ++ [t.literals.size] :=
      Array.toList_push
    exact hpush ▸ h.starts.trans (List.prefix_append _ _)
  free := h.free
  kept := h.kept

theorem advance (h : s.Since t) (head : Nat) : s.Since { t with head := head } where
  size_cells := h.size_cells
  literals := h.literals
  starts := h.starts
  free := h.free
  kept := h.kept

theorem backtrack (h : s.Since t) (ht : t.Coherent n) {b : Nat} (hb : s.level < b) :
    s.Since (t.backtrack b).2 := by
  have hlen : s.literals.size ≤ t.lengthAt b :=
    h.lengthAt_level.symm.trans_le (ht.lengthAt_mono (Nat.le_of_lt hb))
  have hadded : t.added s.literals.size =
      (t.backtrack b).2.added s.literals.size ++ t.added (t.lengthAt b) := by
    rw [added_eq_append hlen (ht.lengthAt_le b), ← toList_backtrack]
    rfl
  have hfree : ∀ l ∈ t.added (t.lengthAt b), s.cells[l.var.index]? = some none := fun l hl =>
    h.free l (hadded ▸ List.mem_append_right _ hl)
  refine ⟨?_, ?_, ?_, fun l hl => ?_, fun i hi => ?_⟩
  · rw [size_cells_backtrack, h.size_cells]
  · rw [toList_backtrack]
    exact List.prefix_take_iff.2 ⟨h.literals, by simpa using hlen⟩
  · rw [toList_starts_backtrack]
    exact List.prefix_take_iff.2 ⟨h.starts, by simpa [Trail.openLevel, level] using hb⟩
  · exact h.free l (hadded ▸ List.mem_append_left _ hl)
  · rw [getElem?_cells_backtrack]
    by_cases hmem : i ∈ (t.added (t.lengthAt b)).map (·.var.index)
    · obtain ⟨l, hl, rfl⟩ := List.mem_map.1 hmem
      have hs := hfree l hl
      have hlt : l.var.index < t.cells.size :=
        h.size_cells ▸ (Array.getElem?_eq_some_iff.1 hs).1
      rw [if_pos ⟨hmem, hlt⟩, hs]
    · rw [if_neg fun e => hmem e.1]
      refine h.kept i ?_
      rw [hadded, List.map_append, List.mem_append, not_or]
      exact ⟨hi, hmem⟩

theorem perform {op : Operation} {t' : Trail} (h : s.Since t) (ht : t.Coherent n)
    (hp : Performed n t op t') (hop : op.StaysAbove s.level) : s.Since t' := by
  cases hp with
  | idle => exact h
  | extended hl hv => exact h.extend (ht.size_cells.symm ▸ hl) hv
  | opened => exact h.openLevel
  | advanced => exact h.advance _
  | wentBack => exact h.backtrack ht hop

theorem performAll (h : s.Since t) (ht : t.Coherent n) (ops : List Operation)
    (hops : ∀ op ∈ ops, op.InScope n ∧ op.StaysAbove s.level) :
    ∃ t', ops.foldlM Trail.perform t = .ok t' ∧ s.Since t' ∧ t'.Coherent n :=
  foldlM_keeps Trail.perform (fun op t₁ ⟨hop, habove⟩ ⟨h₁, hc₁⟩ => by
    obtain ⟨t₂, ht₂, hp⟩ := hc₁.perform_ok hop
    exact ⟨t₂, ht₂, h₁.perform hc₁ hp habove, hp.coherent hc₁⟩) ops hops ⟨h, ht⟩

/-- Going back to the level of the checkpoint takes back what became true since, the latest first,
and leaves the trail as it was. -/
theorem restore (h : s.Since t) : t.backtrack s.level =
    ((t.added s.literals.size).reverse, { s with head := min t.head s.literals.size }) := by
  have hcells : (t.backtrack s.level).2.cells = s.cells := by
    refine Array.ext_getElem? fun i => ?_
    rw [getElem?_cells_backtrack, h.lengthAt_level]
    by_cases hmem : i ∈ (t.added s.literals.size).map (·.var.index)
    · obtain ⟨l, hl, rfl⟩ := List.mem_map.1 hmem
      have hs := h.free l hl
      have hlt : l.var.index < t.cells.size :=
        h.size_cells ▸ (Array.getElem?_eq_some_iff.1 hs).1
      rw [if_pos ⟨hmem, hlt⟩, hs]
    · rw [if_neg fun e => hmem e.1, h.kept i hmem]
  have hliterals : (t.backtrack s.level).2.literals = s.literals := by
    rw [← Array.toList_inj, toList_backtrack, h.lengthAt_level, h.toList_eq]
    exact List.take_left' (by simp)
  have hstarts : (t.backtrack s.level).2.starts = s.starts := by
    obtain ⟨rest, hrest⟩ := h.starts
    rw [← Array.toList_inj, toList_starts_backtrack, ← hrest]
    simp [Trail.openLevel, level]
  have hhead : (t.backtrack s.level).2.head = min t.head s.literals.size := by
    rw [head_backtrack, h.lengthAt_level]
  refine Prod.ext ?_ ?_
  · simp only [Trail.backtrack, h.lengthAt_level, added]
  · exact (Trail.mk.injEq ..).mpr ⟨hcells, hliterals, hstarts, hhead⟩

end Since

/-- Whatever was done to an empty trail, its levels are stretches of it. And whatever is done above
the level of a trail after that, going back to this level leaves the trail as it was, except for the
literals taken up, and takes back each literal that became true since, once and the latest first. -/
theorem backtrack_restores (n : Nat) (before after : List Operation)
    (hbefore : ∀ op ∈ before, op.InScope n) (hafter : ∀ op ∈ after, op.InScope n) :
    ∃ s, before.foldlM perform (start n) = .ok s ∧ s.Layered ∧
      ((∀ op ∈ after, op.StaysAbove s.level) →
        ∃ t removed, after.foldlM perform s.openLevel = .ok t ∧
          t.backtrack s.level = (removed, { s with head := min t.head s.literals.size }) ∧
          t.literals.toList = s.literals.toList ++ removed.reverse ∧
          (removed.map Literal.var).Nodup) := by
  obtain ⟨s, hs, hcoherent⟩ := (Coherent.start n).performAll before hbefore
  refine ⟨s, hs, hcoherent.layered, fun habove => ?_⟩
  obtain ⟨t, ht, hsince, htc⟩ :=
    (Since.refl s).performAll hcoherent.openLevel after fun op hop => ⟨hafter op hop, habove op hop⟩
  refine ⟨t, _, ht, hsince.restore, ?_, ?_⟩
  · rw [List.reverse_reverse]
    exact hsince.toList_eq
  · have hdistinct := htc.distinct
    rw [hsince.toList_eq, List.map_append] at hdistinct
    rw [List.map_reverse, List.nodup_reverse]
    exact hdistinct.of_append_right

namespace Sample

open ClauseLearning.Sample (literal)

/-- Two levels, the second of them empty, and a literal that is false already. -/
def before : List Operation :=
  [.assign (literal 0 true) none, .openLevel, .assign (literal 1 false) (some 0), .next,
    .assign (literal 0 false) none, .openLevel]

/-- Two more levels and a jump back over one of them, with literals taken up in between. -/
def after : List Operation :=
  [.assign (literal 2 true) none, .next, .next, .openLevel, .assign (literal 3 true) (some 1),
    .backtrack 3, .assign (literal 3 false) none, .next, .assign (literal 3 false) (some 2)]

def checkpoint : Trail :=
  ⟨#[some ⟨true, 0, none⟩, some ⟨false, 1, some 0⟩, none, none],
    #[literal 0 true, literal 1 false], #[1, 2], 1⟩

def advanced : Trail :=
  ⟨#[some ⟨true, 0, none⟩, some ⟨false, 1, some 0⟩, some ⟨true, 3, none⟩, some ⟨false, 3, none⟩],
    #[literal 0 true, literal 1 false, literal 2 true, literal 3 false], #[1, 2, 2], 4⟩

end Sample

theorem backtrack_restores_sample :
    Sample.before.foldlM perform (start 4) = .ok Sample.checkpoint ∧
      Sample.after.foldlM perform Sample.checkpoint.openLevel = .ok Sample.advanced ∧
      Sample.advanced.backtrack Sample.checkpoint.level =
        ([Sample.literal 3 false, Sample.literal 2 true], { Sample.checkpoint with head := 2 }) := by
  have hbefore : ∀ op ∈ Sample.before, op.InScope 4 := by
    simp [Sample.before, Operation.InScope, Sample.literal]
  have hafter : ∀ op ∈ Sample.after, op.InScope 4 := by
    simp [Sample.after, Operation.InScope, Sample.literal]
  obtain ⟨s, hs, -, hrestore⟩ := backtrack_restores 4 _ _ hbefore hafter
  obtain rfl : s = Sample.checkpoint := Except.ok.inj (hs.symm.trans rfl)
  obtain ⟨t, removed, ht, hback, -⟩ := hrestore
    (by simp [Sample.after, Operation.StaysAbove, Sample.checkpoint, level])
  obtain rfl : t = Sample.advanced := Except.ok.inj (ht.symm.trans rfl)
  have hremoved : removed = [Sample.literal 3 false, Sample.literal 2 true] :=
    congrArg Prod.fst hback.symm
  exact ⟨hs, ht, hremoved ▸ hback⟩

end ClauseLearning.Trail
