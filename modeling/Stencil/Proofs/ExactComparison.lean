-- SUMMARY: Integers and floats are compared by the exact values that the bits of the floats stand for.
import Mathlib.Data.Rat.Floor
import Mathlib.Tactic.NormNum
import Stencil.Proofs.Equality

/-!
# Exact Comparison of Integers and Floats

A bit pattern of a float has a sign, an exponent and a fraction, and what it stands for
is read off these fields. The rank of a number packs the exponent and the fraction, and
its position is the value counted in units, so comparing positions compares values. No
integer is rounded for it, and the sign of zero does not matter.
-/

namespace Stencil

namespace Binary64

/-! ## What a bit pattern stands for -/

/-- What a bit pattern stands for: nothing, an infinity, or an exact number. -/
inductive Meaning where
  | nan
  | infinity (negative : Bool)
  | number (value : ℚ)

def signBit (word : UInt64) : Nat := word.toNat / 2 ^ 63

/-- The exponent, as it is stored. -/
def exponentField (word : UInt64) : Nat := word.toNat / 2 ^ 52 % 2 ^ 11

/-- The digits of the significand behind the point. -/
def fractionField (word : UInt64) : Nat := word.toNat % 2 ^ 52

/-- The magnitude that an exponent and a fraction stand for. Only with the least exponent
is there no one before the point. -/
def magnitude (exponent fraction : Nat) : ℚ :=
  if exponent = 0 then fraction / 2 ^ 52 * 2 ^ (-1022 : ℤ)
  else (1 + fraction / 2 ^ 52) * 2 ^ ((exponent : ℤ) - 1023)

/-- What a bit pattern stands for. The greatest exponent is that of all that is not
finite. -/
def meaning (word : UInt64) : Meaning :=
  if exponentField word = 2047 then
    if fractionField word = 0 then .infinity (signBit word = 1) else .nan
  else .number ((-1) ^ signBit word * magnitude (exponentField word) (fractionField word))

/-- How a whole number compares with what a bit pattern stands for. -/
def Meaning.orderInt (n : Int) : Meaning → Option Ordering
  | .nan => none
  | .infinity negative => some (if negative then .gt else .lt)
  | .number value => some (compare (n : ℚ) value)

/-! ## Fields, ranks and units -/

theorem rank_eq_fields (word : UInt64) :
    word.toNat % Nat.pow 2 63 = exponentField word * 2 ^ 52 + fractionField word := by
  unfold exponentField fractionField
  show word.toNat % 2 ^ 63 = _
  omega

theorem fractionField_lt (word : UInt64) : fractionField word < 2 ^ 52 :=
  Nat.mod_lt _ (by decide)

theorem signBit_cases (word : UInt64) :
    (signBit word = 0 ∧ ¬Nat.pow 2 63 ≤ word.toNat) ∨ (signBit word = 1 ∧ Nat.pow 2 63 ≤ word.toNat) := by
  have := word.toNat_lt
  unfold signBit
  show (_ ∧ ¬2 ^ 63 ≤ _) ∨ (_ ∧ 2 ^ 63 ≤ _)
  omega

theorem scale_of_lt {fraction : Nat} (h : fraction < 2 ^ 52) : scale fraction = 0 := by
  show fraction / 2 ^ 52 - 1 = 0
  omega

theorem scale_of_fields {exponent fraction : Nat} (h : fraction < 2 ^ 52) :
    scale ((exponent + 1) * 2 ^ 52 + fraction) = exponent := by
  show ((exponent + 1) * 2 ^ 52 + fraction) / 2 ^ 52 - 1 = exponent
  omega

theorem units_of_lt {fraction : Nat} (h : fraction < 2 ^ 52) : units fraction = fraction := by
  simp [units, significand, scale_of_lt h]

theorem units_of_fields {exponent fraction : Nat} (h : fraction < 2 ^ 52) :
    units ((exponent + 1) * 2 ^ 52 + fraction) = (2 ^ 52 + fraction) * 2 ^ exponent := by
  have hsignificand : significand ((exponent + 1) * 2 ^ 52 + fraction) = 2 ^ 52 + fraction := by
    rw [significand, scale_of_fields h]
    show (exponent + 1) * 2 ^ 52 + fraction - exponent * 2 ^ 52 = _
    omega
  rw [units, scale_of_fields h, hsignificand]
  rfl

theorem cast_of_eq_two_pow {m k : Nat} (h : m = Nat.pow 2 k) : (m : ℚ) = 2 ^ (k : ℤ) := by
  rw [zpow_natCast, h, Nat.pow_eq, Nat.cast_pow, Nat.cast_ofNat]

theorem cast_unitsPerOne : (unitsPerOne : ℚ) = 2 ^ ((1074 : ℕ) : ℤ) := by
  have hone : unitsPerOne = Nat.pow 2 1074 := by
    unfold unitsPerOne
    rfl
  have hcast := cast_of_eq_two_pow hone
  exact hcast

/-- The units of a rank are those of the magnitude that its fields stand for. -/
theorem cast_units (exponent : Nat) {fraction : Nat} (h : fraction < 2 ^ 52) :
    (units (exponent * 2 ^ 52 + fraction) : ℚ) = magnitude exponent fraction * unitsPerOne := by
  cases exponent with
  | zero =>
    have hexp : (2 : ℚ) ^ (-1022 : ℤ) * 2 ^ ((1074 : ℕ) : ℤ) = 2 ^ 52 := by
      rw [← zpow_add₀ two_ne_zero]
      rfl
    rw [Nat.zero_mul, Nat.zero_add, units_of_lt h, magnitude, if_pos rfl, cast_unitsPerOne,
      mul_assoc, hexp, div_mul_cancel₀ _ (by positivity)]
  | succ exponent =>
    have hexp : (2 : ℚ) ^ (((exponent + 1 : ℕ) : ℤ) - 1023) * 2 ^ ((1074 : ℕ) : ℤ)
        = 2 ^ 52 * 2 ^ exponent := by
      rw [← zpow_add₀ two_ne_zero, ← pow_add, ← zpow_natCast]
      congr 1
      push_cast
      ring
    rw [units_of_fields h, magnitude, if_neg exponent.succ_ne_zero, cast_unitsPerOne, mul_assoc, hexp]
    rw [← mul_assoc, add_mul (1 : ℚ), one_mul, div_mul_cancel₀ _ (by positivity)]
    norm_cast

/-! ## Positions -/

theorem cast_signed (word : UInt64) (m : Nat) :
    (signed (decide (Nat.pow 2 63 ≤ word.toNat)) m : ℚ) = (-1) ^ signBit word * m := by
  rcases signBit_cases word with ⟨hbit, hsign⟩ | ⟨hbit, hsign⟩
  · simp [signed, hbit, hsign]
  · simp [signed, hbit, hsign]

theorem ofBits_of_finite {word : UInt64} (h : exponentField word ≠ 2047) :
    ∃ rank : Fin overflowRank, ofBits word = .finite (decide (Nat.pow 2 63 ≤ word.toNat)) rank
      ∧ rank.val = exponentField word * 2 ^ 52 + fractionField word := by
  have hrank : word.toNat % Nat.pow 2 63 < overflowRank := by
    have hfraction := fractionField_lt word
    have hexponent : exponentField word < 2 ^ 11 := Nat.mod_lt _ (by decide)
    rw [rank_eq_fields, overflowRank, Nat.pow_eq]
    omega
  refine ⟨⟨_, hrank⟩, ?_, rank_eq_fields word⟩
  rw [ofBits, dif_pos hrank]

theorem position?_ofBits_of_finite {word : UInt64} (h : exponentField word ≠ 2047) :
    (ofBits word).position? = some (signed (decide (Nat.pow 2 63 ≤ word.toNat))
      (units (exponentField word * 2 ^ 52 + fractionField word))) := by
  obtain ⟨rank, hbits, hrank⟩ := ofBits_of_finite h
  rw [hbits, position?, hrank]

theorem position?_ofBits_of_infinite {word : UInt64} (h : exponentField word = 2047)
    (hfraction : fractionField word = 0) :
    (ofBits word).position?
      = some (signed (decide (Nat.pow 2 63 ≤ word.toNat)) (units overflowRank)) := by
  have hrank : word.toNat % Nat.pow 2 63 = overflowRank := by
    rw [rank_eq_fields, h, hfraction, overflowRank, Nat.pow_eq, Nat.add_zero]
  rw [ofBits, dif_neg (by rw [hrank]; exact Nat.lt_irrefl _), if_pos hrank, position?]

theorem position?_ofBits_of_nan {word : UInt64} (h : exponentField word = 2047)
    (hfraction : fractionField word ≠ 0) : (ofBits word).position? = none := by
  have hrank : overflowRank < word.toNat % Nat.pow 2 63 := by
    rw [rank_eq_fields, h, overflowRank, Nat.pow_eq]
    omega
  rw [ofBits, dif_neg (Nat.lt_asymm hrank), if_neg (Nat.ne_of_gt hrank), position?]

/-- The position of a number is what its bit pattern stands for, in units. -/
theorem position?_ofBits (word : UInt64) :
    match meaning word with
    | .nan => (ofBits word).position? = none
    | .infinity negative =>
      (ofBits word).position? = some (signed negative (units overflowRank))
    | .number value => ∃ p, (ofBits word).position? = some p ∧ (p : ℚ) = value * unitsPerOne := by
  unfold meaning
  by_cases hexponent : exponentField word = 2047
  · rw [if_pos hexponent]
    by_cases hfraction : fractionField word = 0
    · rw [if_pos hfraction]
      rw [position?_ofBits_of_infinite hexponent hfraction]
      rcases signBit_cases word with ⟨hbit, hsign⟩ | ⟨hbit, hsign⟩
      · simp [hbit, hsign]
      · simp [hbit, hsign]
    · rw [if_neg hfraction]
      exact position?_ofBits_of_nan hexponent hfraction
  · rw [if_neg hexponent]
    refine ⟨_, position?_ofBits_of_finite hexponent, ?_⟩
    rw [cast_signed, cast_units _ (fractionField_lt word), mul_assoc]

theorem compare_positionOfInt_cast {n p : Int} {value : ℚ} (h : (p : ℚ) = value * unitsPerOne) :
    compare (positionOfInt n) p = compare (n : ℚ) value := by
  have hpos : (0 : ℚ) < unitsPerOne := Nat.cast_pos.2 unitsPerOne_pos
  have hcast : ((positionOfInt n : Int) : ℚ) = n * unitsPerOne := by
    rw [positionOfInt, Int.cast_mul, Int.cast_natCast]
  have hlt : positionOfInt n < p ↔ (n : ℚ) < value := by
    rw [← Int.cast_lt (R := ℚ), hcast, h, mul_lt_mul_iff_left₀ hpos]
  have hgt : p < positionOfInt n ↔ value < (n : ℚ) := by
    rw [← Int.cast_lt (R := ℚ), hcast, h, mul_lt_mul_iff_left₀ hpos]
  rcases Int.lt_trichotomy (positionOfInt n) p with hless | hsame | hmore
  · rw [Int.compare_eq_lt.2 hless, compare_lt_iff_lt.2 (hlt.1 hless)]
  · have hvalue : (n : ℚ) = value := by
      refine le_antisymm (not_lt.1 fun h => ?_) (not_lt.1 fun h => ?_)
      · exact absurd (hgt.2 h) (hsame ▸ Int.lt_irrefl p)
      · exact absurd (hlt.2 h) (hsame ▸ Int.lt_irrefl p)
    rw [Int.compare_eq_eq.2 hsame, compare_eq_iff_eq.2 hvalue]
  · rw [Int.compare_eq_gt.2 hmore, compare_gt_iff_gt.2 (hgt.1 hmore)]

/-! ## Comparison by value -/

/-- The infinities are beyond all integers of 64 bits. -/
theorem int64Bound_lt_infinity : positionOfInt int64Bound < units overflowRank := by
  decide +kernel

theorem compare_signed_overflowRank (n : Int64) (negative : Bool) :
    compare (positionOfInt n.toInt) (signed negative (units overflowRank))
      = if negative then .gt else .lt := by
  obtain ⟨hlow, hhigh⟩ := positionOfInt_toInt_bounds n
  cases negative with
  | false => exact Int.compare_eq_lt.2 (Int.lt_trans hhigh int64Bound_lt_infinity)
  | true =>
    exact Int.compare_eq_gt.2 (Int.lt_of_lt_of_le (Int.neg_lt_neg int64Bound_lt_infinity) hlow)

/-- An integer compares with a float as with what its bits stand for. -/
theorem orderInt64_ofBits (n : Int64) (word : UInt64) :
    orderInt64 n (ofBits word) = (meaning word).orderInt n.toInt := by
  have hposition := position?_ofBits word
  rw [orderInt64_eq, orderInt]
  generalize meaning word = m at hposition
  cases m with
  | nan =>
    rw [hposition]
    rfl
  | infinity negative =>
    rw [hposition]
    exact congrArg some (compare_signed_overflowRank n negative)
  | number value =>
    obtain ⟨p, hp, hvalue⟩ := hposition
    rw [hp]
    exact congrArg some (compare_positionOfInt_cast hvalue)

theorem Meaning.orderInt_eq_eq_iff {n : Int} {m : Meaning} :
    m.orderInt n = some .eq ↔ m = .number n := by
  cases m with
  | nan => simp [orderInt]
  | infinity negative => cases negative <;> simp [orderInt]
  | number value =>
    simp only [orderInt, Option.some.injEq, compare_eq_iff_eq, Meaning.number.injEq]
    exact eq_comm

/-- The whole part is the value cut off towards zero. -/
theorem tdiv_eq_truncated {p : Int} {value : ℚ} (h : (p : ℚ) = value * unitsPerOne) :
    p.tdiv unitsPerOne = if 0 ≤ value then ⌊value⌋ else ⌈value⌉ := by
  have hpos : (0 : ℚ) < unitsPerOne := Nat.cast_pos.2 unitsPerOne_pos
  have hvalue : value = p / unitsPerOne := (eq_div_iff hpos.ne').2 h.symm
  have hsign : 0 ≤ value ↔ 0 ≤ p := by
    rw [← mul_nonneg_iff_of_pos_right hpos, ← h, Int.cast_nonneg_iff]
  by_cases hnonneg : 0 ≤ p
  · rw [if_pos (hsign.2 hnonneg), hvalue, Rat.floor_intCast_div_natCast,
      Int.tdiv_eq_ediv_of_nonneg hnonneg]
  · rw [if_neg (hsign.not.2 hnonneg), hvalue, Rat.ceil_intCast_div_natCast,
      ← Int.tdiv_eq_ediv_of_nonneg (by omega), Int.neg_tdiv, neg_neg]

/-- Whatever stands among the integers is a number, and its whole part is an integer of
64 bits. -/
theorem exists_value_of_standing {word : UInt64} {whole rest : Int}
    (h : (ofBits word).standing = .among whole rest) :
    ∃ value, meaning word = .number value ∧ whole = (if 0 ≤ value then ⌊value⌋ else ⌈value⌉)
      ∧ Int64.minValue.toInt ≤ whole ∧ whole ≤ Int64.maxValue.toInt := by
  have hstanding := position?_of_standing (ofBits word)
  rw [h] at hstanding
  obtain ⟨p, hp, hlow, hhigh, rfl, -⟩ := hstanding
  have hposition := position?_ofBits word
  rw [hp] at hposition
  generalize meaning word = m at hposition
  cases m with
  | nan => cases hposition
  | infinity negative =>
    obtain rfl := Option.some.inj hposition
    cases negative with
    | false => exact absurd hhigh (Int.lt_asymm int64Bound_lt_infinity)
    | true =>
      exact absurd (Int.neg_lt_neg int64Bound_lt_infinity) (Int.not_lt.2 hlow)
  | number value =>
    obtain ⟨_, hsome, hvalue⟩ := hposition
    obtain rfl := Option.some.inj hsome
    exact ⟨value, rfl, tdiv_eq_truncated hvalue, whole_mem_range h⟩

end Binary64

namespace Value

/-- Integers and floats are ordered by their exact values: nothing is ordered with what is
not a number, the infinities are beyond all integers, and equality is equality of the
values, so zero has no sign. What is converted to an integer of 64 bits on the way is the
value without its digits behind the point, and it is one of these integers. -/
theorem order_int_float_exact (n : Int64) (word : UInt64) :
    (Value.int n).order (.float (.ofBits word))
        = .ok (match Binary64.meaning word with
          | .nan => none
          | .infinity negative => some (if negative then .gt else .lt)
          | .number value => some (compare (n.toInt : ℚ) value))
      ∧ (Value.float (.ofBits word)).order (.int n)
        = ((Value.int n).order (.float (.ofBits word))).map (Option.map Ordering.swap)
      ∧ ((Value.int n).equal (.float (.ofBits word)) = true
        ↔ Binary64.meaning word = .number n.toInt)
      ∧ (Value.int 0).equal (.float (.ofBits 0x8000000000000000)) = true
      ∧ ∀ whole rest, (Binary64.ofBits word).standing = .among whole rest →
        ∃ value, Binary64.meaning word = .number value
          ∧ whole = (if 0 ≤ value then ⌊value⌋ else ⌈value⌉)
          ∧ Int64.minValue.toInt ≤ whole ∧ whole ≤ Int64.maxValue.toInt := by
  refine ⟨?_, ?_, ?_, ?_, fun whole rest h => Binary64.exists_value_of_standing h⟩
  · rw [order, Binary64.orderInt64_ofBits]
    cases Binary64.meaning word <;> rfl
  · rfl
  · rw [equal, beq_iff_eq, Binary64.orderInt64_ofBits]
    exact Binary64.Meaning.orderInt_eq_eq_iff
  · decide +kernel

/-- The bits of the float `-1.5`. -/
def minusOneAndAHalf : UInt64 := 0xbff8000000000000

theorem order_int_float_exact_fraction :
    (Binary64.ofBits minusOneAndAHalf).standing = .among (-1) (-Nat.pow 2 1073)
      ∧ ∃ value, Binary64.meaning minusOneAndAHalf = .number value
        ∧ -1 = (if 0 ≤ value then ⌊value⌋ else ⌈value⌉) := by
  have hstanding : (Binary64.ofBits minusOneAndAHalf).standing = .among (-1) (-Nat.pow 2 1073) := by
    decide +kernel
  obtain ⟨-, -, -, -, hwhole⟩ := order_int_float_exact 0 minusOneAndAHalf
  obtain ⟨value, hmeaning, htruncated, -, -⟩ := hwhole _ _ hstanding
  exact ⟨hstanding, value, hmeaning, htruncated⟩

end Value

end Stencil
