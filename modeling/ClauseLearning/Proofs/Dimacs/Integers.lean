import Mathlib
import ClauseLearning.Proofs.Literal
import ClauseLearning.Proofs.Text.Decimal

/-!
# Literals as integers

A literal stands in a text as the integer that its number and sign make. Of the integers in decimal
those are read for which there is a variable, and a plus sign behind a minus sign is passed over.
-/

namespace ClauseLearning

open Text

variable {text : List Char} {n : Nat} {v : Variable} {l : Literal} {z : Int}

/-! ## Integers -/

/-- The text is an integer in decimal, with one sign or none. -/
inductive Text.IsInteger : List Char → Int → Prop
  | unsigned {text : List Char} {n : Nat} : IsUnsigned text n → IsInteger text n
  | minus {digits : List Char} {n : Nat} : IsNumeral digits n → IsInteger ('-' :: digits) (-n)

/-- The text has a minus and then a plus sign in front of a numeral, and only the minus counts. -/
inductive Text.IsDoublySigned : List Char → Int → Prop
  | minusPlus {digits : List Char} {n : Nat} : IsNumeral digits n →
      IsDoublySigned ('-' :: '+' :: digits) (-n)

theorem Text.IsDoublySigned.not_isInteger {z' : Int} (h : IsDoublySigned text z) :
    ¬ IsInteger text z' := by
  cases h with
  | minusPlus =>
      intro h'
      cases h' with
      | unsigned h' => exact h'.ne_minus rfl
      | minus h' => cases h'.isDigit_head

/-! ## Variables -/

namespace Variable

theorem id_le (v : Variable) : v.id ≤ maxId := v.index_lt

theorem ofId?_eq_some_iff : ofId? n = some v ↔ v.id = n := by
  cases n with
  | zero => simp [ofId?, id]
  | succ index =>
      simp only [ofId?, ofIndex?, id, Nat.add_right_cancel_iff]
      constructor
      · intro h
        split at h
        · cases h
          rfl
        · cases h
      · rintro rfl
        exact dif_pos v.index_lt

theorem exists_id_eq (hpos : 1 ≤ n) (hle : n ≤ maxId) : ∃ v : Variable, v.id = n := by
  have hlt : n - 1 < 2147483647 := Nat.lt_of_lt_of_le (Nat.sub_one_lt_of_lt hpos) hle
  exact ⟨⟨n - 1, hlt⟩, Nat.sub_add_cancel hpos⟩

theorem parse_eq_ok_iff : parse text = .ok v ↔ IsUnsigned text v.id := by
  have hword : v.id < Word.limit := Nat.lt_of_le_of_lt v.id_le (by decide)
  have hread : readDecimal text = .ok v.id ↔ IsUnsigned text v.id :=
    readDecimal_eq_ok_iff.trans (and_iff_right hword)
  rw [← hread, parse]
  cases hnumber : readDecimal text with
  | error e => simp
  | ok number =>
      cases hv : ofId? number with
      | none =>
          simp only [hv, reduceCtorEq, Except.ok.injEq, false_iff]
          rintro rfl
          rw [ofId?_eq_some_iff.2 rfl] at hv
          cases hv
      | some w =>
          simp only [hv, Except.ok.injEq]
          rw [← ofId?_eq_some_iff.1 hv]
          constructor
          · rintro rfl
            rfl
          · exact fun h => Variable.ext (Nat.add_right_cancel h)

end Variable

/-! ## Literals -/

namespace Literal

theorem toInt_eq_natCast_iff : l.toInt = n ↔ l.var.id = n ∧ l.positive = true := by
  have hpos : l.var.id = l.var.index + 1 := rfl
  cases hl : l.positive <;> simp only [toInt, hl] <;> simp
  omega

theorem toInt_eq_neg_iff : l.toInt = -n ↔ l.var.id = n ∧ l.positive = false := by
  have hpos : l.var.id = l.var.index + 1 := rfl
  cases hl : l.positive <;> simp only [toInt, hl] <;> simp
  omega

theorem natAbs_toInt (l : Literal) : l.toInt.natAbs = l.var.id := by
  cases hl : l.positive <;> simp [toInt, hl]

theorem exists_toInt_eq (hpos : 1 ≤ z.natAbs) (hle : z.natAbs ≤ Variable.maxId) :
    ∃ l : Literal, l.toInt = z := by
  obtain ⟨v, hv⟩ := Variable.exists_id_eq hpos hle
  cases Int.natAbs_eq z with
  | inl hz => exact ⟨⟨v, true⟩, by rw [hz]; exact toInt_eq_natCast_iff.2 ⟨hv, rfl⟩⟩
  | inr hz => exact ⟨⟨v, false⟩, by rw [hz]; exact toInt_eq_neg_iff.2 ⟨hv, rfl⟩⟩

theorem map_parse_eq_ok_iff {positive : Bool} :
    (Variable.parse text).map (⟨·, positive⟩) = .ok l ↔
      IsUnsigned text l.var.id ∧ l.positive = positive := by
  rw [← Variable.parse_eq_ok_iff]
  cases Variable.parse text with
  | error e => simp [Except.map]
  | ok v =>
      simp only [Except.map, Except.ok.injEq]
      constructor
      · rintro rfl
        exact ⟨rfl, rfl⟩
      · rintro ⟨rfl, hl⟩
        exact eq_of_var_eq rfl hl.symm

/-- Behind a minus sign the reader takes an unsigned number, be it with a plus sign. -/
theorem parse_minus_eq_ok_iff {rest : List Char} : parse ('-' :: rest) = .ok l ↔
    IsInteger ('-' :: rest) l.toInt ∨ IsDoublySigned ('-' :: rest) l.toInt := by
  rw [parse, map_parse_eq_ok_iff]
  constructor
  · rintro ⟨h, hl⟩
    have hz : l.toInt = -l.var.id := toInt_eq_neg_iff.2 ⟨rfl, hl⟩
    rw [hz]
    cases h with
    | bare h => exact .inl (.minus h)
    | plus h => exact .inr (.minusPlus h)
  · generalize hz : l.toInt = z
    intro h
    cases h with
    | inl h =>
        cases h with
        | unsigned h => exact absurd rfl h.ne_minus
        | minus h =>
            obtain ⟨rfl, hl⟩ := toInt_eq_neg_iff.1 hz
            exact ⟨.bare h, hl⟩
    | inr h =>
        cases h with
        | minusPlus h =>
            obtain ⟨rfl, hl⟩ := toInt_eq_neg_iff.1 hz
            exact ⟨.plus h, hl⟩

theorem parse_eq_ok_iff_of_ne_minus (hminus : ∀ rest, text ≠ '-' :: rest) :
    parse text = .ok l ↔ IsInteger text l.toInt := by
  have hparse : parse text = (Variable.parse text).map (⟨·, true⟩) := by
    unfold parse
    split
    · exact absurd rfl (hminus _)
    · rfl
  rw [hparse, map_parse_eq_ok_iff]
  constructor
  · rintro ⟨h, hl⟩
    have hz : l.toInt = l.var.id := toInt_eq_natCast_iff.2 ⟨rfl, hl⟩
    rw [hz]
    exact .unsigned h
  · generalize hz : l.toInt = z
    intro h
    cases h with
    | unsigned h =>
        obtain ⟨rfl, hl⟩ := toInt_eq_natCast_iff.1 hz
        exact ⟨h, hl⟩
    | minus h => exact absurd rfl (hminus _)

theorem parse_eq_ok_iff : parse text = .ok l ↔
    IsInteger text l.toInt ∨ IsDoublySigned text l.toInt := by
  by_cases hminus : ∃ rest, text = '-' :: rest
  · obtain ⟨rest, rfl⟩ := hminus
    exact parse_minus_eq_ok_iff
  · rw [not_exists] at hminus
    rw [parse_eq_ok_iff_of_ne_minus hminus]
    refine (or_iff_left fun h => ?_).symm
    generalize l.toInt = z at h
    cases h with
    | minusPlus h => exact hminus _ rfl

/-- The integers in decimal for which there is a variable are read as the literals that they are. The
other texts end in an error, except for some with two signs, which are read as if there were one. -/
theorem parse_reads_integers (text : List Char) :
    (∀ l, parse text = .ok l ↔ IsInteger text l.toInt ∨ IsDoublySigned text l.toInt) ∧
      ((∃ l, parse text = .ok l) ↔ ∃ z, (IsInteger text z ∨ IsDoublySigned text z) ∧
        1 ≤ z.natAbs ∧ z.natAbs ≤ Variable.maxId) ∧
      ((∀ l, parse text = .ok l ↔ IsInteger text l.toInt) ↔
        ∀ l : Literal, ¬ IsDoublySigned text l.toInt) := by
  refine ⟨fun l => parse_eq_ok_iff, ?_, ?_⟩
  · constructor
    · rintro ⟨l, hl⟩
      refine ⟨l.toInt, parse_eq_ok_iff.1 hl, ?_⟩
      rw [natAbs_toInt]
      exact ⟨Nat.succ_pos _, l.var.id_le⟩
    · rintro ⟨z, h, hpos, hle⟩
      obtain ⟨l, rfl⟩ := exists_toInt_eq hpos hle
      exact ⟨l, parse_eq_ok_iff.2 h⟩
  · constructor
    · intro h l hl
      exact hl.not_isInteger ((h l).1 (parse_eq_ok_iff.2 (.inr hl)))
    · intro h l
      rw [parse_eq_ok_iff, or_iff_left (h l)]

/-- A number with two signs is no integer, but read as a literal. -/
theorem parse_two_signs : parse ['-', '+', '3'] = .ok ⟨⟨2, by decide⟩, false⟩ ∧
    ∀ z, ¬ IsInteger ['-', '+', '3'] z := by
  have hnumeral : IsNumeral ['3'] 3 := ⟨by simp, by simp, rfl⟩
  exact ⟨rfl, fun _ => (IsDoublySigned.minusPlus hnumeral).not_isInteger⟩

end Literal

end ClauseLearning
