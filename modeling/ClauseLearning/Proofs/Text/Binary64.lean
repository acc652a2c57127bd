import Mathlib
import ClauseLearning.Text.Binary64

/-!
# Doubles and rounding

A finite double is a rational number, and its quotient is this number without the sign. A quotient is
rounded to the natural number nearest to it, a half to the even one of its neighbours.
-/

namespace ClauseLearning.Text

open Float.Model

variable {x : Float} {q : ℚ} {m n : ℕ}

/-! ## Doubles as quotients -/

/-- The number that a finite double stands for, its sign left out. -/
def magnitude (x : Float) : ℚ := (doubleQuotient x).1 / (doubleQuotient x).2

theorem doubleQuotient_eq (x : Float) : ∃ fraction < leadingBit,
    doubleQuotient x = (fraction, 1 <<< 1074) ∨ ∃ exponent,
      doubleQuotient x =
        ((leadingBit + fraction) <<< (exponent - 1075), 1 <<< (1075 - exponent)) := by
  refine ⟨x.toBits.toNat % 0x8000000000000000 % leadingBit, Nat.mod_lt _ (by decide), ?_⟩
  simp only [doubleQuotient]
  split
  · exact .inl rfl
  · exact .inr ⟨_, rfl⟩

theorem one_shiftLeft_pos (n : Nat) : 0 < 1 <<< n := by
  rw [Nat.shiftLeft_eq, Nat.one_mul]
  exact Nat.two_pow_pos n

theorem doubleQuotient_pos (x : Float) : 0 < (doubleQuotient x).2 := by
  obtain ⟨fraction, -, h | ⟨exponent, h⟩⟩ := doubleQuotient_eq x
  · rw [h]
    exact one_shiftLeft_pos 1074
  · rw [h]
    exact one_shiftLeft_pos (1075 - exponent)

/-- A double is a natural number, unless it is below `2 ^ 53`. -/
theorem doubleQuotient_whole_or_small (x : Float) : (doubleQuotient x).2 = 1 ∨
    (doubleQuotient x).1 < 2 * leadingBit * (doubleQuotient x).2 := by
  have hsmall {n : Nat} (h : n < 2 * leadingBit) : n < 2 * leadingBit * (doubleQuotient x).2 :=
    h.trans_le (Nat.le_mul_of_pos_right _ (doubleQuotient_pos x))
  obtain ⟨fraction, hfraction, h | ⟨exponent, h⟩⟩ := doubleQuotient_eq x
  · refine .inr (hsmall ?_)
    rw [h]
    omega
  · cases Nat.le_total 1075 exponent with
    | inl hle => exact .inl (by rw [h, Nat.sub_eq_zero_of_le hle]; rfl)
    | inr hle =>
        refine .inr (hsmall ?_)
        rw [h, Nat.sub_eq_zero_of_le hle, Nat.shiftLeft_zero]
        omega

/-! ## Doubles as numbers -/

/-- The number that a double is, given by its mantissa and its exponent. What is not finite counts as
zero. -/
def number : UnpackedFloat → ℚ
  | .finite .positive m e _ => m * 2 ^ e
  | .finite .negative m e _ => -(m * 2 ^ e)
  | .zero _ | .infinity _ | .notANumber => 0

theorem abs_number_finite (s : UnpackedFloat.Sign) {e : ℤ} (hm : 0 < m) :
    |number (.finite s m e hm)| = m * 2 ^ e := by
  have hpos : (0 : ℚ) ≤ m * 2 ^ e := by positivity
  cases s with
  | positive => exact abs_of_nonneg hpos
  | negative => rw [number, abs_neg, abs_of_nonneg hpos]

theorem number_nonneg (h : 0 ≤ x) : 0 ≤ number x.toModel.unpack := by
  have hle : (UnpackedFloat.zero .positive).le x.toModel.unpack = true := decide_eq_true_iff.1 h
  cases hx : x.toModel.unpack with
  | infinity _ => exact le_refl 0
  | notANumber => exact le_refl 0
  | zero _ => exact le_refl 0
  | finite s m e hm =>
      cases s with
      | positive =>
          rw [number]
          positivity
      | negative =>
          rw [hx] at hle
          cases hle

theorem toNat_unpackExponent (x : Float) :
    (@UnpackedFloat.unpackExponent Format.binary64 x.toModel.toBits.toBitVec).toNat =
      x.toBits.toNat % 0x8000000000000000 / leadingBit := by
  have hbits : x.toBits.toNat = x.toModel.toBits.toBitVec.toNat := rfl
  simp only [UnpackedFloat.unpackExponent, BitVec.toNat_cast, BitVec.extractLsb_toNat,
    Nat.shiftRight_eq_div_pow, hbits, leadingBit]
  omega

theorem toNat_unpackMantissa (x : Float) :
    (@UnpackedFloat.unpackMantissa Format.binary64 x.toModel.toBits.toBitVec).toNat =
      x.toBits.toNat % 0x8000000000000000 % leadingBit := by
  have hbits : x.toBits.toNat = x.toModel.toBits.toBitVec.toNat := rfl
  simp only [UnpackedFloat.unpackMantissa, BitVec.toNat_cast, BitVec.extractLsb_toNat,
    Nat.shiftRight_eq_div_pow, hbits, leadingBit]
  omega

/-- Without the leading bit a double has the lowest exponent, and so has zero. -/
theorem abs_number_unpack (h : x.isFinite = true) : |number x.toModel.unpack| =
    let exponent := x.toBits.toNat % 0x8000000000000000 / leadingBit
    let fraction := x.toBits.toNat % 0x8000000000000000 % leadingBit
    if exponent = 0 then (fraction : ℚ) * 2 ^ (-1074 : ℤ)
    else ((leadingBit + fraction : ℕ) : ℚ) * 2 ^ ((exponent : ℤ) - 1075) := by
  have hfinite : (UnpackedFloat.unpack Format.binary64 x.toModel.toBits.toBitVec).isFinite = true := h
  have hzero : ∀ {n : ℕ} (b : BitVec n), b = 0#n ↔ b.toNat = 0 := fun b => by
    rw [← BitVec.toNat_inj, BitVec.toNat_zero]
  dsimp only
  rw [← toNat_unpackExponent, ← toNat_unpackMantissa, Float.Model.unpack]
  simp only [UnpackedFloat.unpack] at hfinite ⊢
  split at hfinite
  · split at hfinite <;> cases hfinite
  · rw [if_neg ‹_›]
    split
    -- The exponent bits are zero, so there is no leading bit; the fraction may be zero as well.
    · rename_i hexponent
      rw [if_pos ((hzero _).1 hexponent)]
      split
      · rename_i hmantissa
        simp [number, hmantissa]
      · rw [abs_number_finite, (hzero _).1 hexponent]
        rfl
    · rename_i hexponent
      rw [if_neg ((hzero _).not.1 hexponent), abs_number_finite, BitVec.toNat_append,
        ← Nat.shiftLeft_add_eq_or_of_lt (BitVec.isLt _)]
      rfl

theorem shiftLeft_div_shiftLeft (m exponent : ℕ) :
    ((m <<< (exponent - 1075) : ℕ) : ℚ) / ((1 <<< (1075 - exponent) : ℕ) : ℚ) =
      m * 2 ^ ((exponent : ℤ) - 1075) := by
  rw [Nat.shiftLeft_eq, Nat.shiftLeft_eq, Nat.one_mul]
  push_cast
  cases Nat.le_total 1075 exponent with
  | inl h =>
      obtain ⟨k, rfl⟩ := Nat.exists_eq_add_of_le h
      simp
  | inr h =>
      obtain ⟨k, hk⟩ := Nat.exists_eq_add_of_le h
      have hexp : (exponent : ℤ) - 1075 = -(k : ℤ) := by omega
      rw [hexp, zpow_neg, zpow_natCast, Nat.sub_eq_zero_of_le h, pow_zero, mul_one,
        show 1075 - exponent = k by omega, div_eq_mul_inv]

/-- The quotient of a finite double is the number that it is, without its sign. -/
theorem magnitude_eq_abs (h : x.isFinite = true) : magnitude x = |number x.toModel.unpack| := by
  rw [abs_number_unpack h]
  simp only [magnitude, doubleQuotient]
  split
  · exact shiftLeft_div_shiftLeft _ 1
  · exact shiftLeft_div_shiftLeft _ _

theorem magnitude_eq (h : x.isFinite = true) (hx : 0 ≤ x) :
    magnitude x = number x.toModel.unpack := by
  rw [magnitude_eq_abs h, abs_of_nonneg (number_nonneg hx)]

/-! ## Rounding -/

theorem roundQuotient_le (numerator denominator : Nat) :
    roundQuotient numerator denominator ≤ numerator / denominator + 1 := by
  unfold roundQuotient
  dsimp only
  split
  · exact Nat.le_succ _
  · exact Nat.le_refl _

theorem roundQuotient_one (numerator : Nat) : roundQuotient numerator 1 = numerator := by
  simp [roundQuotient, Nat.mod_one]

/-- No natural number is nearer to the rational number, and if another one is as near, this one is
even. -/
def IsNearest (n : ℕ) (q : ℚ) : Prop := |q - n| ≤ 1 / 2 ∧ (|q - n| = 1 / 2 → Even n)

theorem IsNearest.le (h : IsNearest n q) (h' : IsNearest m q) : m ≤ n := by
  by_contra hlt
  rw [not_le] at hlt
  have hsucc : (n : ℚ) + 1 ≤ m := by exact_mod_cast hlt
  have hn := (abs_le.1 h.1).2
  have hm := (abs_le.1 h'.1).1
  -- Both are half away, so they are neighbours, and one of them is odd.
  have hhalf : q - n = 1 / 2 := by linarith
  have hhalf' : q - m = -(1 / 2) := by linarith
  have hnext : m = n + 1 := by
    have : (m : ℚ) = n + 1 := by linarith
    exact_mod_cast this
  have heven : Even n := h.2 (by rw [hhalf]; norm_num)
  have heven' : Even m := h'.2 (by rw [hhalf']; norm_num)
  rw [hnext, Nat.even_add_one] at heven'
  exact heven' heven

/-- A rational number is rounded in one way only. -/
theorem IsNearest.unique (h : IsNearest n q) (h' : IsNearest m q) : n = m :=
  le_antisymm (h'.le h) (h.le h')

theorem isNearest_roundQuotient (numerator : ℕ) {denominator : ℕ} (h : 0 < denominator) :
    IsNearest (roundQuotient numerator denominator) (numerator / denominator) := by
  obtain ⟨whole, rest, hrest, hwhole, hrem, hsum⟩ : ∃ whole rest, rest < denominator ∧
      numerator / denominator = whole ∧ numerator % denominator = rest ∧
        denominator * whole + rest = numerator :=
    ⟨_, _, Nat.mod_lt _ h, rfl, rfl, Nat.div_add_mod _ _⟩
  have hpos : (0 : ℚ) < denominator := Nat.cast_pos.2 h
  have hdistance : (numerator : ℚ) / denominator - whole = rest / denominator := by
    rw [← hsum]
    push_cast
    field_simp
    ring
  have hlt : (rest : ℚ) / denominator < 1 / 2 ↔ 2 * rest < denominator := by
    rw [div_lt_div_iff₀ hpos two_pos, one_mul, mul_comm]
    exact_mod_cast Iff.rfl
  have htie : (rest : ℚ) / denominator = 1 / 2 ↔ 2 * rest = denominator := by
    rw [div_eq_div_iff hpos.ne' two_ne_zero, one_mul, mul_comm]
    exact_mod_cast Iff.rfl
  simp only [roundQuotient, hwhole, hrem]
  split
  · rename_i hlower
    rw [IsNearest, hdistance, abs_of_nonneg (by positivity), le_iff_lt_or_eq, hlt, htie,
      Nat.even_iff]
    omega
  · rename_i hupper
    have hle : (rest : ℚ) / denominator ≤ 1 := (div_le_one hpos).2 (by exact_mod_cast hrest.le)
    have habs : |(numerator : ℚ) / denominator - (whole + 1 : ℕ)| = 1 - rest / denominator := by
      rw [Nat.cast_add_one, ← sub_sub, hdistance, abs_sub_comm, abs_of_nonneg (by linarith)]
    have hge : 1 / 2 ≤ (rest : ℚ) / denominator := not_lt.1 (by rw [hlt]; omega)
    refine ⟨by rw [habs]; linarith, fun heq => ?_⟩
    have hhalf : 2 * rest = denominator := htie.1 (by rw [habs] at heq; linarith)
    rw [Nat.even_iff]
    omega

end ClauseLearning.Text
