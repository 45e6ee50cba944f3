-- SUMMARY: The text of a finite float reads back as that float, unless it is a whole number from 10^16 up to 2^63: that one reads as an integer.
import Stencil.Proofs.Operands
import Stencil.Proofs.RoundTrip
import Stencil.Proofs.ShortestDecimals

/-!
# Reading the Text of a Float

A float is written with a point unless it is a whole number of at least `10 ^ 16`, which is
written as its shortest decimal with all zeros and nothing else. What has a point is read as a
float, and the decimal rounds back to the float that was written. What has none is read as an
integer if there is one, so the whole numbers from `10 ^ 16` up to `2 ^ 63` do not come back;
above that no integer of 64 bits is left to be mistaken for.
-/

namespace Stencil

/-! ## Decimals as texts -/

/-- Digits that write a whole number. -/
structure Writes (digits : List Char) (n : Nat) : Prop where
  isDigit : ∀ c ∈ digits, c.isDigit = true
  value : Nat.ofDigitChars 10 digits 0 = n

theorem writes_toDigits (n : Nat) : Writes (Nat.toDigits 10 n) n :=
  ⟨fun _ hc => Nat.isDigit_of_mem_toDigits (by decide) (by decide) hc, Nat.ofDigitChars_ten_toDigits⟩

/-- Zeros after the digits multiply by a power of ten. -/
theorem Writes.append_zeros {digits : List Char} {n : Nat} (h : Writes digits n) (count : Nat) :
    Writes (digits ++ List.replicate count '0') (n * 10 ^ count) := by
  constructor
  · intro c hc
    rcases List.mem_append.1 hc with hdigit | hzero
    · exact h.isDigit c hdigit
    · rw [List.eq_of_mem_replicate hzero]
      rfl
  · rw [Nat.ofDigitChars_append, h.value, Nat.ofDigitChars_replicate_zero, Nat.mul_comm]

/-- Zeros before the digits change nothing. -/
theorem Writes.zeros_append {digits : List Char} {n : Nat} (h : Writes digits n) (count : Nat) :
    Writes (List.replicate count '0' ++ digits) n := by
  constructor
  · intro c hc
    rcases List.mem_append.1 hc with hzero | hdigit
    · rw [List.eq_of_mem_replicate hzero]
      rfl
    · exact h.isDigit c hdigit
  · rw [Nat.ofDigitChars_append, Nat.ofDigitChars_replicate_zero, Nat.mul_zero, h.value]

namespace Decimal

theorem writes_positional {d : Decimal} (h : 0 ≤ d.exponent) :
    Writes d.positional (d.coefficient * 10 ^ d.exponent.toNat) := by
  rw [positional, if_pos h]
  exact (writes_toDigits d.coefficient).append_zeros _

theorem positional_ne_nil {d : Decimal} (h : 0 ≤ d.exponent) : d.positional ≠ [] := by
  rw [positional, if_pos h]
  exact List.append_ne_nil_of_left_ne_nil Nat.toDigits_ne_nil _

/-- A decimal with a negative exponent is written with a point, behind as many of its digits
as the exponent says. -/
theorem exists_positional_point {d : Decimal} (h : d.exponent < 0) :
    ∃ whole fraction, d.positional = whole ++ '.' :: fraction ∧ whole ≠ []
      ∧ Writes (whole ++ fraction) d.coefficient ∧ (fraction.length : Int) = -d.exponent := by
  have hdigits : Writes d.digits d.coefficient := writes_toDigits d.coefficient
  rw [positional, if_neg (Int.not_le.2 h)]
  by_cases hplace : d.pointPlace ≤ 0
  · refine ⟨['0'], List.replicate (-d.pointPlace).toNat '0' ++ d.digits, ?_, ?_, ?_, ?_⟩
    · rw [if_pos hplace]
      rfl
    · exact List.cons_ne_nil _ _
    · exact hdigits.zeros_append ((-d.pointPlace).toNat + 1)
    · rw [List.length_append, List.length_replicate]
      unfold pointPlace at hplace ⊢
      omega
  · refine ⟨d.digits.take d.pointPlace.toNat, d.digits.drop d.pointPlace.toNat, ?_, ?_, ?_, ?_⟩
    · rw [if_neg hplace]
    · have hlength : 0 < d.digits.length := List.length_pos_iff.2 Nat.toDigits_ne_nil
      rw [← List.length_pos_iff, List.length_take]
      omega
    · rw [List.take_append_drop]
      exact hdigits
    · rw [List.length_drop]
      unfold pointPlace at hplace ⊢
      omega

end Decimal

/-! ## Reading numerals -/

namespace Text

theorem fractionText_point {fraction : List Char} (h : ∀ c ∈ fraction, c.isDigit = true) :
    FractionText ('.' :: fraction) (some fraction) := by
  cases fraction with
  | nil => exact .some .none
  | cons d ds => exact .some (.some (digitGroup_of_digits (List.cons_ne_nil _ _) h))

end Text

namespace Literal

theorem read?_numeral {text : List Char} {n : Text.Numeral} (h : Text.NumeralText text n) :
    read? (String.ofList text) = some (ofNumeral n) := by
  rw [read?_eq_some_iff, String.toList_ofList, Text.trimChars_of_solid h.solid]
  exact denotes_ofNumeral h

/-- Digits with a point are read as the nearest float. -/
theorem read?_point (negative : Bool) {whole fraction : List Char} {coefficient : Nat}
    {exponent : Int} (hne : whole ≠ []) (h : Writes (whole ++ fraction) coefficient)
    (hlength : (fraction.length : Int) = -exponent) :
    read? (String.ofList (Binary64.withSign negative (whole ++ '.' :: fraction)))
      = some (.float (.ofDecimal negative coefficient exponent)) := by
  obtain ⟨hwhole, hfraction⟩ := List.forall_mem_append.1 h.isDigit
  have hnumeral := Text.numeralText_withSign negative hne hwhole (Text.fractionText_point hfraction)
  have hpower : 0 - (fraction.length : Int) = exponent := by omega
  rw [read?_numeral hnumeral, ofNumeral_of_not_isInteger fun i hi => Option.some_ne_none _ hi.1]
  simp only [Text.Numeral.coefficient, Text.Numeral.power, Option.getD_some, Option.getD_none,
    h.value, hpower]

section

variable {negative : Bool} {digits : List Char} {n : Nat} (hne : digits ≠ []) (h : Writes digits n)

include hne h

theorem read?_digits : read? (String.ofList (Binary64.withSign negative digits))
    = some (ofNumeral ⟨negative, digits, none, none⟩) := by
  have hnumeral := Text.numeralText_withSign negative hne h.isDigit .none
  rw [List.append_nil] at hnumeral
  exact read?_numeral hnumeral

omit hne in
theorem isInteger_digits_iff {i : Int64} :
    IsInteger ⟨negative, digits, none, none⟩ i ↔ i.toInt = Binary64.signed negative n := by
  simp only [IsInteger, Text.Numeral.coefficient, Option.getD_none, List.append_nil, h.value,
    true_and, Binary64.signed]

/-- Digits alone are read as an integer if there is one of 64 bits. -/
theorem read?_digits_of_fits {i : Int64} (hi : i.toInt = Binary64.signed negative n) :
    read? (String.ofList (Binary64.withSign negative digits)) = some (.int i) := by
  rw [read?_digits hne h, ofNumeral_of_isInteger ((isInteger_digits_iff h).2 hi)]

theorem read?_digits_of_not_fits (hi : ∀ i : Int64, i.toInt ≠ Binary64.signed negative n) :
    read? (String.ofList (Binary64.withSign negative digits))
      = some (.float (.ofDecimal negative n 0)) := by
  rw [read?_digits hne h,
    ofNumeral_of_not_isInteger fun i h' => hi i ((isInteger_digits_iff h).1 h')]
  simp only [Text.Numeral.coefficient, Text.Numeral.power, Option.getD_none, List.append_nil,
    h.value, List.length_nil]
  rfl

end

end Literal

namespace Binary64

/-! ## How a float is written -/

/-- Whole numbers from `10 ^ 16` on, which are written without a point. -/
def IsLargeWhole (rank : Nat) : Prop := ∃ k, units rank = k * unitsPerOne ∧ 10 ^ 16 ≤ k

theorem magnitudeText_of_small {rank k : Nat} (hk : units rank = k * unitsPerOne)
    (hsmall : k < 10 ^ 16) : magnitudeText rank = Nat.toDigits 10 k ++ '.' :: ['0'] := by
  have hdiv : k * unitsPerOne / unitsPerOne = k := Nat.mul_div_cancel _ unitsPerOne_pos
  have hmod : k * unitsPerOne % unitsPerOne = 0 := Nat.mul_mod_left _ _
  unfold magnitudeText
  simp only [hk, hdiv, hmod, true_and]
  exact if_pos hsmall

theorem magnitudeText_of_not_small {rank : Nat}
    (h : ∀ k, units rank = k * unitsPerOne → 10 ^ 16 ≤ k) :
    magnitudeText rank = (shortest .away rank).positional := by
  unfold magnitudeText
  refine if_neg ?_
  rintro ⟨hmod, hsmall⟩
  have hk := (Nat.div_mul_cancel (Nat.dvd_of_mod_eq_zero hmod)).symm
  exact absurd (h _ hk) (Nat.not_le.2 hsmall)

/-- All but the large whole numbers are written with a point. -/
theorem exists_point_of_not_large {rank : Nat} (h : ¬IsLargeWhole rank) :
    ∃ whole fraction, ∃ d : Decimal, magnitudeText rank = whole ++ '.' :: fraction ∧ whole ≠ []
      ∧ Writes (whole ++ fraction) d.coefficient ∧ (fraction.length : Int) = -d.exponent
      ∧ d.RoundsTo rank := by
  by_cases hdvd : unitsPerOne ∣ units rank
  · obtain ⟨k, hk⟩ := hdvd
    rw [Nat.mul_comm] at hk
    have hsmall : k < 10 ^ 16 := Nat.lt_of_not_le fun hle => h ⟨k, hk, hle⟩
    refine ⟨Nat.toDigits 10 k, ['0'], ⟨k * 10 ^ 1, -1⟩, magnitudeText_of_small hk hsmall,
      Nat.toDigits_ne_nil, (writes_toDigits k).append_zeros 1, rfl, roundsTo_of_eq ?_⟩
    rw [hk]
    simp only [Int.neg_neg, Int.reduceNeg, Int.reduceToNat, Nat.pow_zero, Nat.mul_one]
    ring
  · obtain ⟨whole, fraction, htext, hdigits⟩ :=
      Decimal.exists_positional_point (exponent_neg_of_not_dvd .away hdvd)
    have hlarge : ∀ k, units rank = k * unitsPerOne → 10 ^ 16 ≤ k :=
      fun k hk => absurd (hk ▸ Nat.dvd_mul_left _ _) hdvd
    obtain ⟨hne, hwrites, hlength⟩ := hdigits
    exact ⟨whole, fraction, shortest .away rank, (magnitudeText_of_not_small hlarge).trans htext,
      hne, hwrites, hlength, shortest_roundsTo .away rank⟩

/-- Large whole numbers are written with digits alone, as a whole number that rounds to them. -/
theorem exists_digits_of_large {rank : Nat} (h : IsLargeWhole rank) :
    ∃ n, magnitudeText rank ≠ [] ∧ Writes (magnitudeText rank) n
      ∧ RoundsTo rank (2 * (n * unitsPerOne)) 1 := by
  obtain ⟨k, hk, hlarge⟩ := h
  have hone : unitsPerOne ≤ units rank := by
    rw [hk]
    exact Nat.le_mul_of_pos_left _ (Nat.lt_of_lt_of_le (by decide) hlarge)
  have hexponent := exponent_nonneg_of_dvd .away (hk ▸ Nat.dvd_mul_left _ _) hone
  have htext : magnitudeText rank = (shortest .away rank).positional := by
    apply magnitudeText_of_not_small
    intro k' hk'
    have heq : k' = k := Nat.eq_of_mul_eq_mul_right unitsPerOne_pos (hk'.symm.trans hk)
    exact heq ▸ hlarge
  have hrounds := shortest_roundsTo .away rank
  have hwhole : (-(shortest .away rank).exponent).toNat = 0 := by omega
  unfold Decimal.RoundsTo at hrounds
  rw [hwhole, Nat.pow_zero] at hrounds
  exact ⟨_, htext ▸ Decimal.positional_ne_nil hexponent,
    htext ▸ Decimal.writes_positional hexponent, hrounds⟩

theorem rank_pos_of_units {rank k : Nat} (hk : units rank = k * unitsPerOne) (h : 0 < k) :
    0 < rank := by
  rw [← strictMono_units.lt_iff_lt, hk, units_of_lt (by decide)]
  exact Nat.mul_pos h unitsPerOne_pos

theorem pos_of_roundsTo {rank n : Nat} (h : RoundsTo rank (2 * (n * unitsPerOne)) 1)
    (hrank : 0 < rank) : 0 < n := by
  have habove := h.units_lt Nat.one_pos hrank
  exact Nat.pos_of_mul_pos_right (Nat.zero_lt_of_lt habove)

/-! ## The bound of the integers -/

/-- The rank of `2 ^ 63`. -/
def boundRank : Nat := 1086 * Nat.pow 2 52

theorem units_boundRank : units boundRank = 2 ^ 63 * unitsPerOne := by decide +kernel

/-- The text of `2 ^ 63` is rounded up. -/
theorem lt_of_writes_boundRank {n : Nat} (h : Writes (magnitudeText boundRank) n) : 2 ^ 63 < n := by
  have hvalue : 2 ^ 63 < Nat.ofDigitChars 10 (magnitudeText boundRank) 0 := by decide +kernel
  rwa [h.value] at hvalue

section

variable {rank k n : Nat} (hk : units rank = k * unitsPerOne)
  (hwrites : Writes (magnitudeText rank) n) (hrounds : RoundsTo rank (2 * (n * unitsPerOne)) 1)

include hk hrounds

theorem lt_bound_of_lt (h : k < 2 ^ 63) : n < 2 ^ 63 := by
  have hrank : rank < boundRank := by
    rw [← strictMono_units.lt_iff_lt, hk, units_boundRank]
    exact Nat.mul_lt_mul_of_pos_right h unitsPerOne_pos
  have hbelow := hrounds.lt_units Nat.one_pos hrank
  rw [Nat.mul_one, units_boundRank] at hbelow
  exact Nat.lt_of_mul_lt_mul_right hbelow

include hwrites in
theorem bound_lt_of_le (h : 2 ^ 63 ≤ k) : 2 ^ 63 < n := by
  have hunits : units boundRank ≤ units rank := by
    rw [hk, units_boundRank]
    exact Nat.mul_le_mul_right _ h
  rcases Nat.eq_or_lt_of_le (strictMono_units.le_iff_le.1 hunits) with rfl | hrank
  · exact lt_of_writes_boundRank hwrites
  · have habove := hrounds.units_lt Nat.one_pos hrank
    rw [Nat.mul_one, units_boundRank] at habove
    exact Nat.lt_of_mul_lt_mul_right habove

end

theorem exists_int64_of_lt (negative : Bool) {n : Nat} (h : n < 2 ^ 63) :
    ∃ i : Int64, i.toInt = signed negative n := by
  refine ⟨.ofInt (signed negative n), Int64.toInt_ofInt_of_le ?_ ?_⟩
  · unfold signed
    split
    · omega
    · omega
  · unfold signed
    split
    · omega
    · omega

theorem toInt_ne_of_lt (negative : Bool) {n : Nat} (h : 2 ^ 63 < n) (i : Int64) :
    i.toInt ≠ signed negative n := by
  have hlow := i.le_toInt
  have hhigh := i.toInt_lt
  unfold signed
  split
  · omega
  · omega

end Binary64

/-! ## Reading floats back -/

namespace Value

open Binary64 (unitsPerOne units IsLargeWhole)

theorem text_float_finite (negative : Bool) (rank : Fin overflowRank) :
    (Value.float (.finite negative rank)).text
      = String.ofList (Binary64.withSign negative (Binary64.magnitudeText rank)) :=
  String.ofList_toList

theorem read?_text_of_not_large (negative : Bool) {rank : Fin overflowRank}
    (h : ¬IsLargeWhole rank) :
    Literal.read? (Value.float (.finite negative rank)).text
      = some (.float (.finite negative rank)) := by
  obtain ⟨whole, fraction, d, htext, hne, hwrites, hlength, hrounds⟩ :=
    Binary64.exists_point_of_not_large h
  rw [text_float_finite, htext, Literal.read?_point negative hne hwrites hlength,
    Binary64.ofDecimal_eq_finite negative hrounds]

theorem read?_text_of_large_of_lt (negative : Bool) {rank : Fin overflowRank} {k : Nat}
    (hk : units rank = k * unitsPerOne) (hlarge : 10 ^ 16 ≤ k) (h : k < 2 ^ 63) :
    ∃ i : Int64, Literal.read? (Value.float (.finite negative rank)).text = some (.int i)
      ∧ Binary64.ofInt i.toInt = .finite negative rank := by
  obtain ⟨n, hne, hwrites, hrounds⟩ := Binary64.exists_digits_of_large ⟨k, hk, hlarge⟩
  obtain ⟨i, hi⟩ := Binary64.exists_int64_of_lt negative (Binary64.lt_bound_of_lt hk hrounds h)
  refine ⟨i, ?_, ?_⟩
  · rw [text_float_finite, Literal.read?_digits_of_fits hne hwrites hi]
  · have hk' := Binary64.rank_pos_of_units hk (Nat.lt_of_lt_of_le (by decide) hlarge)
    have hn := Binary64.pos_of_roundsTo hrounds hk'
    rw [hi, Binary64.ofInt_signed negative hn,
      Binary64.ofFraction_eq_finite negative Nat.one_pos hrounds]

theorem read?_text_of_large_of_le (negative : Bool) {rank : Fin overflowRank} {k : Nat}
    (hk : units rank = k * unitsPerOne) (h : 2 ^ 63 ≤ k) :
    Literal.read? (Value.float (.finite negative rank)).text
      = some (.float (.finite negative rank)) := by
  have hlarge : 10 ^ 16 ≤ k := Nat.le_trans (by decide) h
  obtain ⟨n, hne, hwrites, hrounds⟩ := Binary64.exists_digits_of_large ⟨k, hk, hlarge⟩
  have hfits := Binary64.toInt_ne_of_lt negative (Binary64.bound_lt_of_le hk hwrites hrounds h)
  rw [text_float_finite, Literal.read?_digits_of_not_fits hne hwrites hfits]
  have hdecimal : (Decimal.mk n 0).RoundsTo rank := by
    show Binary64.RoundsTo rank (2 * (n * 1 * unitsPerOne)) 1
    rwa [Nat.mul_one]
  rw [Binary64.ofDecimal_eq_finite negative hdecimal]

theorem read?_text_of_not_mistaken (negative : Bool) {rank : Fin overflowRank}
    (h : ¬∃ k, units rank = k * unitsPerOne ∧ 10 ^ 16 ≤ k ∧ k < 2 ^ 63) :
    Literal.read? (Value.float (.finite negative rank)).text
      = some (.float (.finite negative rank)) := by
  by_cases hwhole : IsLargeWhole rank
  · obtain ⟨k, hk, hlarge⟩ := hwhole
    exact read?_text_of_large_of_le negative hk (Nat.le_of_not_lt fun hlt => h ⟨k, hk, hlarge, hlt⟩)
  · exact read?_text_of_not_large negative hwhole

theorem point_mem_withSign_iff (negative : Bool) (text : List Char) :
    '.' ∈ Binary64.withSign negative text ↔ '.' ∈ text := by
  cases negative with
  | false => rfl
  | true => exact ⟨fun h => (List.mem_cons.1 h).resolve_left (by decide), List.mem_cons_of_mem _⟩

theorem point_mem_text_iff (negative : Bool) (rank : Fin overflowRank) :
    '.' ∈ (Value.float (.finite negative rank)).text.toList ↔ ¬IsLargeWhole rank := by
  rw [text_float_finite, String.toList_ofList, point_mem_withSign_iff]
  constructor
  · intro hpoint hlarge
    obtain ⟨n, -, hwrites, -⟩ := Binary64.exists_digits_of_large hlarge
    cases hwrites.isDigit '.' hpoint
  · intro h
    obtain ⟨whole, fraction, -, htext, -⟩ := Binary64.exists_point_of_not_large h
    rw [htext]
    exact List.mem_append_right _ List.mem_cons_self

end Value

namespace Binary64

/-! ## Bit patterns -/

/-- The sign and the bits below it make up a word. -/
theorem high_add_mod {n b : Nat} (h : n < b + b) :
    (if decide (b ≤ n) = true then b + n % b else n % b) = n := by
  by_cases hle : b ≤ n
  · have hrest : n - b < b := by omega
    rw [decide_eq_true hle, if_pos rfl, Nat.mod_eq_sub_mod hle, Nat.mod_eq_of_lt hrest,
      Nat.add_sub_of_le hle]
  · rw [decide_eq_false hle, if_neg Bool.false_ne_true]
    exact Nat.mod_eq_of_lt (Nat.lt_of_not_le hle)

theorem toBits_ofBits {word : UInt64} (h : exponentField word ≠ 2047) :
    (ofBits word).toBits = word := by
  obtain ⟨rank, hbits, hrank⟩ := ofBits_of_finite h
  have hlt : word.toNat < Nat.pow 2 63 + Nat.pow 2 63 := word.toNat_lt
  have hfinite (negative : Bool) : toBits (.finite negative rank) = signedBits negative rank := rfl
  rw [hbits, hfinite, signedBits, hrank.trans (rank_eq_fields word).symm, high_add_mod hlt,
    UInt64.ofNat_toNat]

theorem magnitude_eq_natCast_iff (exponent : Nat) {fraction k : Nat} (h : fraction < 2 ^ 52) :
    magnitude exponent fraction = k
      ↔ units (exponent * 2 ^ 52 + fraction) = k * unitsPerOne := by
  have hpos : (unitsPerOne : ℚ) ≠ 0 := Nat.cast_ne_zero.2 (Nat.ne_of_gt unitsPerOne_pos)
  rw [← Nat.cast_inj (R := ℚ), cast_units _ h, Nat.cast_mul, mul_left_inj' hpos]

end Binary64

namespace Value

open Binary64 (units unitsPerOne)

/-- The text of a finite float is read as a float of the same bits, unless the float is a whole
number from `10 ^ 16` up to but not including `2 ^ 63`. Such a number is read as an integer,
which rounds to the float but need not be equal to it. A whole number of at least `10 ^ 16`
has no point in its text; all other floats have one. -/
theorem read?_text_float (word : UInt64) (h : Binary64.exponentField word ≠ 2047) :
    let text := (Value.float (.ofBits word)).text
    let magnitude := Binary64.magnitude (Binary64.exponentField word) (Binary64.fractionField word)
    ((∃ y, Literal.read? text = some (.float y) ∧ y.toBits = word)
        ↔ ¬∃ k : ℕ, magnitude = k ∧ 10 ^ 16 ≤ k ∧ k < 2 ^ 63)
      ∧ (∀ k : ℕ, magnitude = k → 10 ^ 16 ≤ k → k < 2 ^ 63 →
        ∃ i : Int64, Literal.read? text = some (.int i)
          ∧ (Binary64.ofInt i.toInt).toBits = word)
      ∧ ('.' ∈ text.toList ↔ ¬∃ k : ℕ, magnitude = k ∧ 10 ^ 16 ≤ k) := by
  intro text magnitude
  obtain ⟨rank, hbits, hrank⟩ := Binary64.ofBits_of_finite h
  have hwhole (k : ℕ) : magnitude = k ↔ units rank = k * unitsPerOne := by
    rw [hrank]
    exact Binary64.magnitude_eq_natCast_iff _ (Binary64.fractionField_lt word)
  have hword := Binary64.toBits_ofBits h
  have htext : text = (Value.float (.ofBits word)).text := rfl
  rw [hbits] at hword htext
  simp only [hwhole, htext]
  refine ⟨⟨?_, ?_⟩, ?_, point_mem_text_iff _ rank⟩
  · rintro ⟨y, hread, -⟩ ⟨k, hk, hlarge, hlt⟩
    obtain ⟨i, hint, -⟩ := read?_text_of_large_of_lt _ hk hlarge hlt
    cases hread.symm.trans hint
  · intro hnot
    exact ⟨_, read?_text_of_not_mistaken _ hnot, hword⟩
  · intro k hk hlarge hlt
    obtain ⟨i, hint, hround⟩ := read?_text_of_large_of_lt _ hk hlarge hlt
    exact ⟨i, hint, hround ▸ hword⟩

/-- The bits of the float `2 ^ 62`. -/
def twoPow62 : UInt64 := 0x43d0000000000000

theorem read?_text_float_twoPow62 :
    Binary64.exponentField twoPow62 ≠ 2047
      ∧ Binary64.magnitude (Binary64.exponentField twoPow62) (Binary64.fractionField twoPow62)
        = (2 ^ 62 : ℕ)
      ∧ ∃ i : Int64, Literal.read? (Value.float (.ofBits twoPow62)).text = some (.int i)
        ∧ (Binary64.ofInt i.toInt).toBits = twoPow62 := by
  have hfinite : Binary64.exponentField twoPow62 ≠ 2047 := by decide
  have hexponent : Binary64.exponentField twoPow62 = 1085 := by decide
  have hfraction : Binary64.fractionField twoPow62 = 0 := by decide
  have hmagnitude : Binary64.magnitude (Binary64.exponentField twoPow62)
      (Binary64.fractionField twoPow62) = (2 ^ 62 : ℕ) := by
    rw [hexponent, hfraction]
    norm_num [Binary64.magnitude]
  obtain ⟨-, hint, -⟩ := read?_text_float twoPow62 hfinite
  exact ⟨hfinite, hmagnitude, hint _ hmagnitude (by decide) (by decide)⟩

/-- The bits of the float `10 ^ 16`. -/
def tenPow16 : UInt64 := 0x4341c37937e08000

/-- The text of `10 ^ 16` has no mark of a float, and that of `2 ^ 62` is an integer with
another value. -/
theorem text_float_read_as_int :
    Binary64.exponentField tenPow16 ≠ 2047 ∧ Binary64.exponentField twoPow62 ≠ 2047
      ∧ Literal.read? (Value.float (.ofBits tenPow16)).text = some (.int 10000000000000000)
      ∧ Literal.read? (Value.float (.ofBits twoPow62)).text = some (.int 4611686018427388000)
      ∧ (Value.int 4611686018427388000).equal (.float (.ofBits twoPow62)) = false := by
  decide +kernel

end Value

end Stencil
