-- SUMMARY: Places of integers and floats on the number line, and the comparison of an integer with the whole part of a float.
import Stencil.Binary64

/-!
# The Number Line

Whole numbers and floats have exact places on one line, counted in units. An integer and a
float are compared by whole parts, and then by what is left of the float. That is the
comparison of their places: a float whose whole part is looked at lies between the bounds
of the integers of 64 bits, so its whole part is one of them.
-/

namespace Stencil.Binary64

/-! ## Places of whole numbers -/

theorem unitsPerOne_pos : 0 < unitsPerOne := by decide +kernel

theorem cast_unitsPerOne_pos : (0 : Int) < unitsPerOne := Int.natCast_pos.2 unitsPerOne_pos

theorem positionOfInt_lt_iff {m n : Int} : positionOfInt m < positionOfInt n ↔ m < n :=
  Int.mul_lt_mul_right cast_unitsPerOne_pos

theorem compare_positionOfInt (m n : Int) :
    compare (positionOfInt m) (positionOfInt n) = compare m n := by
  rcases Int.lt_trichotomy m n with h | rfl | h
  · rw [Int.compare_eq_lt.2 h, Int.compare_eq_lt.2 (positionOfInt_lt_iff.2 h)]
  · rw [Std.compare_self, Std.compare_self]
  · rw [Int.compare_eq_gt.2 h, Int.compare_eq_gt.2 (positionOfInt_lt_iff.2 h)]

theorem neg_positionOfInt (n : Int) : -positionOfInt n = positionOfInt (-n) :=
  (Int.neg_mul ..).symm

theorem positionOfInt_inj {m n : Int} : positionOfInt m = positionOfInt n ↔ m = n := by
  rw [← Std.compare_eq_iff_eq, compare_positionOfInt, Std.compare_eq_iff_eq]

theorem order_eq_eq_iff {x y : Binary64} :
    order x y = some .eq ↔ x.position? = y.position? ∧ x.position? ≠ none := by
  unfold order
  cases x.position? <;> cases y.position? <;> simp

/-! ## Whole parts and rests -/

theorem compare_int64 (m n : Int64) : compare m n = compare m.toInt n.toInt := by
  simp only [compare, compareOfLessAndEq, Int64.lt_iff_toInt_lt, ← Int64.toInt_inj]

/-- Whole parts are compared first, and after them rests that are shorter than one. -/
theorem compare_positionOfInt_add (m n : Int) {rest : Int} (hlow : -unitsPerOne < rest)
    (hhigh : rest < unitsPerOne) :
    compare (positionOfInt m) (positionOfInt n + rest) = (compare m n).then (compare 0 rest) := by
  have hstep : ∀ i j : Int, i < j → positionOfInt i + unitsPerOne ≤ positionOfInt j := by
    intro i j h
    have hmul := Int.mul_le_mul_of_nonneg_right (show i + 1 ≤ j from h)
      (Int.natCast_nonneg unitsPerOne)
    rwa [Int.add_mul, Int.one_mul] at hmul
  rcases Int.lt_trichotomy m n with h | rfl | h
  · have := hstep m n h
    rw [Int.compare_eq_lt.2 h, Int.compare_eq_lt.2 (by omega)]
    rfl
  · rw [Std.compare_self]
    show _ = compare 0 rest
    rcases Int.lt_trichotomy 0 rest with h | rfl | h
    · rw [Int.compare_eq_lt.2 h, Int.compare_eq_lt.2 (by omega)]
    · rw [Int.add_zero, Std.compare_self, Std.compare_self]
    · rw [Int.compare_eq_gt.2 h, Int.compare_eq_gt.2 (by omega)]
  · have := hstep n m h
    rw [Int.compare_eq_gt.2 h, Int.compare_eq_gt.2 (by omega)]
    rfl

/-- What it means for the position of a number how it stands to the integers. -/
theorem position?_of_standing (x : Binary64) :
    match x.standing with
    | .unordered => x.position? = none
    | .above => ∃ p, x.position? = some p ∧ positionOfInt int64Bound ≤ p
    | .below => ∃ p, x.position? = some p ∧ p < -positionOfInt int64Bound
    | .among whole rest => ∃ p, x.position? = some p ∧ -positionOfInt int64Bound ≤ p
        ∧ p < positionOfInt int64Bound ∧ p.tdiv unitsPerOne = whole ∧ p.tmod unitsPerOne = rest := by
  unfold standing
  cases x.position? with
  | none => rfl
  | some p =>
    by_cases hhigh : positionOfInt int64Bound ≤ p
    · simp only [hhigh, ↓reduceIte]
      exact ⟨p, rfl, hhigh⟩
    · by_cases hlow : p < -positionOfInt int64Bound
      · simp only [hhigh, hlow, ↓reduceIte]
        exact ⟨p, rfl, hlow⟩
      · simp only [hhigh, hlow, ↓reduceIte]
        exact ⟨p, rfl, Int.not_lt.1 hlow, Int.not_le.1 hhigh, rfl, rfl⟩

theorem toInt_minValue : Int64.minValue.toInt = -int64Bound := by decide

theorem toInt_maxValue : Int64.maxValue.toInt + 1 = int64Bound := by decide

theorem le_tdiv_of_positionOfInt_le {n p : Int} (h : positionOfInt n ≤ p) :
    n ≤ p.tdiv unitsPerOne :=
  Int.le_tdiv_of_mul_le cast_unitsPerOne_pos h

theorem tdiv_lt_of_lt_positionOfInt {n p : Int} (hn : 0 < n) (h : p < positionOfInt n) :
    p.tdiv unitsPerOne < n := by
  rcases Int.lt_or_le p 0 with hneg | hnonneg
  · have hle := Int.tdiv_le_tdiv cast_unitsPerOne_pos (Int.le_of_lt hneg)
    rw [Int.zero_tdiv] at hle
    exact Int.lt_of_le_of_lt hle hn
  · rw [Int.tdiv_eq_ediv_of_nonneg hnonneg]
    exact Int.ediv_lt_of_lt_mul cast_unitsPerOne_pos h

/-- The whole part of a number that stands among the integers is one of them. -/
theorem whole_mem_range {x : Binary64} {whole rest : Int} (h : x.standing = .among whole rest) :
    Int64.minValue.toInt ≤ whole ∧ whole ≤ Int64.maxValue.toInt := by
  have hposition := position?_of_standing x
  rw [h] at hposition
  obtain ⟨p, -, hlow, hhigh, rfl, -⟩ := hposition
  constructor
  · rw [neg_positionOfInt] at hlow
    rw [toInt_minValue]
    exact le_tdiv_of_positionOfInt_le hlow
  · apply Int.le_of_lt_add_one
    rw [toInt_maxValue]
    exact tdiv_lt_of_lt_positionOfInt (by decide) hhigh

theorem positionOfInt_toInt_bounds (n : Int64) :
    -positionOfInt int64Bound ≤ positionOfInt n.toInt
      ∧ positionOfInt n.toInt < positionOfInt int64Bound := by
  constructor
  · rw [neg_positionOfInt]
    exact Int.not_lt.1 fun h => Int.not_lt.2 n.le_toInt (positionOfInt_lt_iff.1 h)
  · exact positionOfInt_lt_iff.2 n.toInt_lt

/-! ## The exact comparison -/

/-- Compares a whole number with a number, by their exact values. -/
def orderInt (n : Int) (x : Binary64) : Option Ordering :=
  x.position?.map fun p => compare (positionOfInt n) p

theorem orderInt_eq_eq_iff {n : Int} {x : Binary64} :
    orderInt n x = some .eq ↔ x.position? = some (positionOfInt n) := by
  unfold orderInt
  cases x.position? <;> simp [@eq_comm _ (positionOfInt n)]

/-- Comparing by whole parts and rests is exact. -/
theorem orderInt64_eq (n : Int64) (x : Binary64) : orderInt64 n x = orderInt n.toInt x := by
  have hposition := position?_of_standing x
  obtain ⟨hlow, hhigh⟩ := positionOfInt_toInt_bounds n
  unfold orderInt64 orderInt
  generalize hstanding : x.standing = standing at hposition
  cases standing with
  | unordered =>
    rw [hposition]
    rfl
  | above =>
    obtain ⟨p, hp, hle⟩ := hposition
    rw [hp, Option.map_some, Int.compare_eq_lt.2 (Int.lt_of_lt_of_le hhigh hle)]
  | below =>
    obtain ⟨p, hp, hlt⟩ := hposition
    rw [hp, Option.map_some, Int.compare_eq_gt.2 (Int.lt_of_lt_of_le hlt hlow)]
  | among whole rest =>
    obtain ⟨hmin, hmax⟩ := whole_mem_range hstanding
    obtain ⟨p, hp, -, -, rfl, rfl⟩ := hposition
    have hlow := Int.lt_tmod_of_pos p cast_unitsPerOne_pos
    have hhigh := Int.tmod_lt_of_pos p cast_unitsPerOne_pos
    have hparts : positionOfInt (p.tdiv unitsPerOne) + p.tmod unitsPerOne = p :=
      Int.tdiv_mul_add_tmod p unitsPerOne
    dsimp only
    rw [hp, Option.map_some, compare_int64, Int64.toInt_ofIntClamp hmin hmax,
      ← compare_positionOfInt_add _ _ hlow hhigh, hparts]

end Stencil.Binary64
