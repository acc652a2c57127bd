import Mathlib
import ClauseLearning.Text.Decimal

/-!
# Numbers in decimal

Which texts are read as unsigned numbers, and as which. Leading zeros and one plus sign do not
matter, and the only bound is that of a word.
-/

namespace ClauseLearning.Text

variable {text digits : List Char} {c : Char} {value n : Nat}

/-- The text is a row of digits, and its value is the number. -/
structure IsNumeral (digits : List Char) (n : Nat) : Prop where
  ne_nil : digits ≠ []
  isDigit : ∀ c ∈ digits, c.isDigit = true
  value : Nat.ofDigitChars 10 digits 0 = n

/-- The text is a numeral, with a plus sign in front or without. -/
inductive IsUnsigned : List Char → Nat → Prop
  | bare {digits : List Char} {n : Nat} : IsNumeral digits n → IsUnsigned digits n
  | plus {digits : List Char} {n : Nat} : IsNumeral digits n → IsUnsigned ('+' :: digits) n

theorem IsNumeral.isDigit_head (h : IsNumeral (c :: digits) n) : c.isDigit = true :=
  h.isDigit c List.mem_cons_self

/-- A number as it is written stands for itself. -/
theorem isNumeral_toDigits (n : Nat) : IsNumeral (Nat.toDigits 10 n) n where
  ne_nil := Nat.toDigits_ne_nil
  isDigit _ hc := Nat.isDigit_of_mem_toDigits (by decide) (by decide) hc
  value := Nat.ofDigitChars_ten_toDigits

/-! ## Digits -/

theorem digit?_of_isDigit (h : c.isDigit = true) : digit? c = some (c.toNat - '0'.toNat) := by
  simp only [Char.isDigit, ge_iff_le, Bool.and_eq_true, decide_eq_true_eq] at h
  exact if_pos h

theorem digit?_of_not_isDigit (h : c.isDigit = false) : digit? c = none := by
  simp only [Char.isDigit, ge_iff_le, Bool.and_eq_false_iff, decide_eq_false_iff_not] at h
  apply if_neg
  rintro ⟨h₀, h₉⟩
  cases h with
  | inl h => exact h h₀
  | inr h => exact h h₉

/-- Digits that follow do not make a number smaller. -/
theorem le_ofDigitChars (digits : List Char) (value : Nat) :
    value ≤ Nat.ofDigitChars 10 digits value := by
  rw [Nat.ofDigitChars_eq_ofDigitChars_zero]
  apply Nat.le_add_right_of_le
  exact Nat.le_mul_of_pos_left value (Nat.pow_pos (by decide))

theorem readDigits_eq_ok_iff (h : value < Word.limit) :
    readDigits value digits = .ok n ↔
      (∀ c ∈ digits, c.isDigit = true) ∧ Nat.ofDigitChars 10 digits value = n ∧ n < Word.limit := by
  induction digits generalizing value with
  | nil =>
      simp only [readDigits, Except.ok.injEq, Nat.ofDigitChars_nil]
      constructor
      · rintro rfl
        exact ⟨fun c hc => absurd hc List.not_mem_nil, rfl, h⟩
      · exact fun h => h.2.1
  | cons c digits ih =>
      rw [readDigits, Nat.ofDigitChars_cons, List.forall_mem_cons]
      cases hc : c.isDigit with
      | false => simp [digit?_of_not_isDigit hc]
      | true =>
          rw [digit?_of_isDigit hc]
          dsimp only
          split
          · rw [ih ‹_›, and_iff_right rfl]
          · simp only [reduceCtorEq, false_iff, not_and]
            rintro - rfl
            have := le_ofDigitChars digits (10 * value + (c.toNat - '0'.toNat))
            omega

/-! ## Numbers -/

theorem readDigits_eq_ok_iff_isNumeral (hne : digits ≠ []) :
    readDigits 0 digits = .ok n ↔ n < Word.limit ∧ IsNumeral digits n := by
  rw [readDigits_eq_ok_iff (by decide)]
  constructor
  · rintro ⟨hdigits, hvalue, hn⟩
    exact ⟨hn, hne, hdigits, hvalue⟩
  · rintro ⟨hn, h⟩
    exact ⟨h.isDigit, h.value, hn⟩

namespace IsUnsigned

theorem plus_iff : IsUnsigned ('+' :: digits) n ↔ IsNumeral digits n := by
  constructor
  · intro h
    cases h with
    | bare h => cases h.isDigit_head
    | plus h => exact h
  · exact .plus

theorem of_ne_plus (h : IsUnsigned text n) (hplus : ∀ digits, text ≠ '+' :: digits) :
    IsNumeral text n := by
  cases h with
  | bare h => exact h
  | plus h => exact absurd rfl (hplus _)

theorem ne_minus (h : IsUnsigned text n) : text ≠ '-' :: digits := by
  rintro rfl
  cases h with
  | bare h => cases h.isDigit_head

end IsUnsigned

/-- A number is read from its digits, with a plus sign in front or without. -/
theorem readDecimal_eq_ok_iff :
    readDecimal text = .ok n ↔ n < Word.limit ∧ IsUnsigned text n := by
  unfold readDecimal
  split
  · simp only [reduceCtorEq, false_iff, not_and]
    exact fun _ h => (h.of_ne_plus (by simp)).ne_nil rfl
  · simp only [reduceCtorEq, false_iff, not_and]
    exact fun _ h => (IsUnsigned.plus_iff.1 h).ne_nil rfl
  · rename_i digits hne
    rw [readDigits_eq_ok_iff_isNumeral (fun h => hne (by rw [h])), IsUnsigned.plus_iff]
  · rename_i hnil _ hplus
    rw [readDigits_eq_ok_iff_isNumeral hnil]
    exact and_congr_right fun _ => ⟨.bare, fun h => h.of_ne_plus hplus⟩

end ClauseLearning.Text
