import Mathlib
import ClauseLearning.Restart.Luby

/-!
# The terms of the Luby sequence

A block has one term less than a power of two. The way up to the block of a term and down again stays
within the words, for all positions but the last that a word can hold, and leads to the term that the
recursive definition of the sequence gives.
-/

namespace ClauseLearning.Restart

variable {index size exponent e k : Nat}

/-! ## The sequence -/

/-- The term at a position counted from 0: the last one of a block is a power of two, and those before
it repeat the terms from the beginning. -/
def lubyTerm (index : Nat) : Nat :=
  if index + 2 = 2 ^ ((index + 1).log2 + 1) then 2 ^ (index + 1).log2
  else lubyTerm (index + 1 - 2 ^ (index + 1).log2)
termination_by index
decreasing_by
  rename_i hlast
  rcases Nat.eq_zero_or_pos index with rfl | hpos
  · exact absurd rfl hlast
  · have hlog : 1 ≤ (index + 1).log2 := (Nat.le_log2 (by omega)).2 (by omega)
    have hpow : 2 ^ 1 ≤ 2 ^ (index + 1).log2 := Nat.pow_le_pow_right (by decide) hlog
    omega

/-- The last position before a power of two ends a block. -/
theorem lubyTerm_of_last (h : index + 2 = 2 ^ (e + 1)) : lubyTerm index = 2 ^ e := by
  have hlog : (index + 1).log2 = e := by
    rw [Nat.log2_eq_iff (by omega)]
    rw [Nat.pow_succ] at *
    have := Nat.two_pow_pos e
    omega
  rw [lubyTerm, hlog, if_pos h]

theorem lubyTerm_of_before (hle : 2 ^ e ≤ index + 1) (hlt : index + 2 < 2 ^ (e + 1)) :
    lubyTerm index = lubyTerm (index + 1 - 2 ^ e) := by
  have hlog : (index + 1).log2 = e := by
    rw [Nat.log2_eq_iff (by omega)]
    omega
  rw [lubyTerm, hlog, if_neg (by omega)]

/-! ## Blocks -/

/-- The number of terms of a block that ends with the given power of two. -/
def IsBlock (size exponent : Nat) : Prop := size + 1 = 2 ^ (exponent + 1)

namespace IsBlock

theorem double (h : IsBlock size exponent) : IsBlock (2 * size + 1) (exponent + 1) := by
  unfold IsBlock at *
  rw [Nat.pow_succ]
  omega

theorem half (h : IsBlock size (exponent + 1)) : IsBlock ((size - 1) / 2) exponent := by
  unfold IsBlock at *
  rw [Nat.pow_succ] at h
  omega

theorem pos (h : IsBlock size exponent) : 0 < size := by
  have := Nat.one_lt_two_pow (Nat.succ_ne_zero exponent)
  unfold IsBlock at h
  omega

theorem eq_one (h : IsBlock size 0) : size = 1 := Nat.succ.inj h

theorem exponent_lt (h : IsBlock size exponent) (hsize : size < Word.limit) : exponent < 64 := by
  have hle : 2 ^ (exponent + 1) ≤ 2 ^ 64 := h ▸ hsize
  have := (Nat.pow_le_pow_iff_right (Nat.lt_succ_self 1)).1 hle
  omega

/-- Words hold the size of the next block, but for the one of the largest word. -/
theorem double_lt (h : IsBlock size exponent) (hsize : size + 1 < Word.limit) :
    2 * size + 1 < Word.limit := by
  have hlt : 2 ^ (exponent + 1) < 2 ^ 64 := h ▸ hsize
  have hexponent := (Nat.pow_lt_pow_iff_right (Nat.lt_succ_self 1)).1 hlt
  have hle : 2 ^ (exponent + 1) ≤ 2 ^ 63 := Nat.pow_le_pow_right (by decide) (by omega)
  unfold IsBlock at h
  unfold Word.limit
  omega

theorem lubyTerm_last (h : IsBlock size exponent) : lubyTerm (size - 1) = 2 ^ exponent := by
  have := h.pos
  apply lubyTerm_of_last
  unfold IsBlock at h
  omega

/-- The two halves of a block have the same terms. -/
theorem lubyTerm_half (h : IsBlock size (exponent + 1)) (hindex : index + 1 < size) :
    lubyTerm (index % ((size - 1) / 2)) = lubyTerm index := by
  have hhalf := h.half
  unfold IsBlock at *
  by_cases hfirst : index < (size - 1) / 2
  · rw [Nat.mod_eq_of_lt hfirst]
  · have hsecond : index % ((size - 1) / 2) = index + 1 - 2 ^ (exponent + 1) := by
      rw [Nat.mod_eq_sub_mod (Nat.le_of_not_lt hfirst), Nat.mod_eq_of_lt (by omega)]
      omega
    rw [hsecond]
    exact (lubyTerm_of_before (by omega) (by omega)).symm

end IsBlock

theorem enclosingBlock_ok {target : Nat} (htarget : target < Word.limit)
    (h : IsBlock size exponent) (hsize : size < Word.limit) :
    ∃ size' exponent', enclosingBlock target size exponent = some (size', exponent') ∧
      IsBlock size' exponent' ∧ target ≤ size' ∧ size' < Word.limit := by
  fun_induction enclosingBlock target size exponent with
  | case1 size exponent _ hnext ih => exact ih h.double hnext
  | case2 size exponent hlt hnext => exact absurd (h.double_lt (by omega)) hnext
  | case3 size exponent hle => exact ⟨size, exponent, rfl, h, by omega, hsize⟩

/-- The way down keeps the term, so it ends at the last position of a block that has it there. -/
theorem blockEndingAt_ok (h : IsBlock size exponent) (hindex : index < size) :
    ∃ e ≤ exponent, blockEndingAt index size exponent = some e ∧ lubyTerm index = 2 ^ e := by
  fun_induction blockEndingAt index size exponent with
  | case1 exponent index => cases hindex
  | case2 exponent size _ => exact ⟨exponent, Nat.le_refl _, rfl, h.lubyTerm_last⟩
  | case3 index size _ hne =>
      have hone := h.eq_one
      omega
  | case4 index size _ hne exponent hhalf => exact absurd hhalf h.half.pos.ne'
  | case5 index size _ hne exponent hhalf ih =>
      obtain ⟨e, he, hdown, hterm⟩ := ih h.half (Nat.mod_lt _ h.half.pos)
      rw [h.lubyTerm_half (by omega)] at hterm
      exact ⟨e, Nat.le_succ_of_le he, hdown, hterm⟩

theorem luby?_eq_lubyTerm (h : index + 1 < Word.limit) : luby? index = some (lubyTerm index) := by
  have hone : IsBlock 1 0 := rfl
  obtain ⟨size, exponent, hup, hblock, hsize, hlt⟩ := enclosingBlock_ok h hone (by decide)
  obtain ⟨e, he, hdown, hterm⟩ := blockEndingAt_ok hblock hsize
  have hshift : e < 64 := Nat.lt_of_le_of_lt he (hblock.exponent_lt hlt)
  simp [luby?, h, hup, hdown, hshift, hterm]

theorem luby?_ok {index : Nat} (h : index + 1 < Word.limit) : ∃ term, luby? index = some term :=
  ⟨lubyTerm index, luby?_eq_lubyTerm h⟩

theorem luby?_pos {term : Nat} (h : luby? index = some term) : 0 < term := by
  simp only [luby?] at h
  split at h
  · obtain ⟨⟨size, exponent⟩, -, h⟩ := Option.bind_eq_some_iff.1 h
    obtain ⟨e, -, h⟩ := Option.bind_eq_some_iff.1 h
    split at h
    · cases h
      exact Nat.two_pow_pos e
    · cases h
  · cases h

/-- Every term but that of the last position is found within the words. It is a power of two where a
block ends, and elsewhere the term at the same position of the half before. -/
theorem luby?_follows_recursion (h : index + 1 < Word.limit) :
    luby? index = some (lubyTerm index) ∧
      (∀ k, index + 2 = 2 ^ k → lubyTerm index = 2 ^ (k - 1)) ∧
      ∀ k, 2 ^ (k - 1) ≤ index + 1 → index + 1 < 2 ^ k - 1 →
        lubyTerm index = lubyTerm (index + 1 - 2 ^ (k - 1)) := by
  refine ⟨luby?_eq_lubyTerm h, fun k hlast => ?_, fun k hle hlt => ?_⟩
  · cases k with
    | zero => omega
    | succ e => exact lubyTerm_of_last hlast
  · cases k with
    | zero => omega
    | succ e =>
        rw [Nat.add_sub_cancel] at hle ⊢
        exact lubyTerm_of_before hle (by omega)

/-- The last position that has a term within the words ends the block of the largest one. -/
theorem luby?_follows_recursion_largest : 18446744073709551614 + 1 < Word.limit ∧
    luby? 18446744073709551614 = some (2 ^ 63) := by
  have hword : 18446744073709551614 + 1 < Word.limit := by decide
  obtain ⟨hterm, hlast, -⟩ := luby?_follows_recursion hword
  refine ⟨hword, ?_⟩
  rw [hterm, hlast 64 (by decide)]

end ClauseLearning.Restart
