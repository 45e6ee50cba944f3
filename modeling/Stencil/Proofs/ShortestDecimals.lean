-- SUMMARY: The shortest decimal of a float rounds back to it, and has no digits behind the point exactly if the float is whole.
import Stencil.Proofs.Rounding

/-!
# Shortest Decimals Round Back

The search for a shortest decimal stops at the first grid with a multiple in the cell of the
rank, or with the exact number when no grid is left, so whatever it finds rounds back to the
rank. A whole number is itself on the grid of the whole numbers, so the search for a large
one stops there at the latest. A number that is not whole has no whole number in its cell.
-/

namespace Stencil

/-- What it means that a decimal rounds to a rank. -/
def Decimal.RoundsTo (d : Decimal) (rank : Nat) : Prop :=
  Binary64.RoundsTo rank (2 * (d.coefficient * 10 ^ d.exponent.toNat * Binary64.unitsPerOne))
    (10 ^ (-d.exponent).toNat)

namespace Binary64

/-! ## Grids -/

theorem gridStep_eq (exponent : Int) :
    gridStep exponent = (10 ^ exponent.toNat * (2 * unitsPerOne), 10 ^ (-exponent).toNat) := by
  unfold gridStep
  split
  · next h =>
    have hwhole : (-exponent).toNat = 0 := by omega
    rw [hwhole]
    rfl
  · next h =>
    have hfraction : exponent.toNat = 0 := by omega
    rw [hfraction, Nat.pow_zero, Nat.one_mul]
    rfl

/-- A multiple of the step of a grid, as a decimal. -/
theorem decimal_roundsTo_iff {rank coefficient : Nat} {exponent : Int} :
    roundsTo rank (coefficient * (gridStep exponent).1) (gridStep exponent).2 = true
      ↔ (Decimal.mk coefficient exponent).RoundsTo rank := by
  have hnumerator : coefficient * (10 ^ exponent.toNat * (2 * unitsPerOne))
      = 2 * (coefficient * 10 ^ exponent.toNat * unitsPerOne) := by ring
  rw [roundsTo_iff, gridStep_eq, hnumerator]
  rfl

/-- What is found on a grid rounds to the rank. -/
theorem roundsTo_of_onGrid? {tie : Tie} {rank coefficient : Nat} {exponent : Int}
    (h : onGrid? tie rank exponent = some coefficient) :
    (Decimal.mk coefficient exponent).RoundsTo rank := by
  rw [← decimal_roundsTo_iff]
  unfold onGrid? at h
  dsimp only at h
  split at h
  · next hboth =>
    obtain ⟨hlow, hhigh⟩ := Bool.and_eq_true_iff.1 hboth
    split at h
    · cases h
      exact hlow
    · cases h
      exact hhigh
    · cases h
      exact hhigh
    · split at h
      · cases h
        exact hlow
      · cases h
        exact hhigh
  · split at h
    · next hlow =>
      cases h
      exact hlow
    · split at h
      · next hhigh =>
        cases h
        exact hhigh
      · cases h

theorem gridStep_pos (exponent : Int) : 0 < (gridStep exponent).1 ∧ 0 < (gridStep exponent).2 := by
  have hpower (n : Nat) : 0 < 10 ^ n := Nat.pow_pos (by decide)
  rw [gridStep_eq]
  exact ⟨Nat.mul_pos (hpower _) (Nat.mul_pos (by decide) unitsPerOne_pos), hpower _⟩

/-- A number that is itself a multiple of the step is found. -/
theorem onGrid?_ne_none {rank k : Nat} {exponent : Int} (tie : Tie)
    (h : 2 * units rank * (gridStep exponent).2 = k * (gridStep exponent).1) :
    onGrid? tie rank exponent ≠ none := by
  obtain ⟨hstep, hdenominator⟩ := gridStep_pos exponent
  have hbelow : k * (gridStep exponent).1 / (gridStep exponent).1 = k := Nat.mul_div_cancel _ hstep
  have hlow : roundsTo rank (k * (gridStep exponent).1) (gridStep exponent).2 = true := by
    rw [roundsTo_iff, ← h]
    exact roundsTo_self rank hdenominator
  unfold onGrid?
  simp only [h, hbelow, hlow, Bool.true_and, if_true]
  split
  · split
    · nofun
    · nofun
    · nofun
    · nofun
  · nofun

/-! ## The search -/

/-- A decimal that is exactly a number rounds to it. -/
theorem roundsTo_of_eq {rank : Nat} {d : Decimal}
    (h : d.coefficient * 10 ^ d.exponent.toNat * unitsPerOne
      = units rank * 10 ^ (-d.exponent).toNat) : d.RoundsTo rank := by
  have hself := roundsTo_self rank (Nat.pow_pos (n := (-d.exponent).toNat) (by decide : 0 < 10))
  rw [Nat.mul_assoc, ← h] at hself
  exact hself

theorem roundsTo_of_mul_units (rank : Nat) {p : Nat} {exponent : Int}
    (h : p * 10 ^ exponent.toNat * unitsPerOne = 10 ^ (-exponent).toNat) :
    (Decimal.mk (units rank * p) exponent).RoundsTo rank := by
  apply roundsTo_of_eq
  rw [← h]
  ring

/-- Whatever the search ends with rounds to the rank. -/
theorem searchGrids_roundsTo (tie : Tie) (rank count : Nat) (exponent : Int) :
    (searchGrids tie rank count exponent).RoundsTo rank := by
  induction count generalizing exponent with
  | zero => exact roundsTo_of_mul_units rank (by decide +kernel)
  | succ count ih =>
    rw [searchGrids]
    split
    · next coefficient hgrid => exact roundsTo_of_onGrid? hgrid
    · exact ih (exponent - 1)

theorem shortest_roundsTo (tie : Tie) (rank : Nat) : (shortest tie rank).RoundsTo rank :=
  searchGrids_roundsTo ..

/-- The search does not go past a grid on which there is something to find. -/
theorem le_searchGrids_exponent {tie : Tie} {rank count : Nat} {least exponent : Int}
    (hleast : onGrid? tie rank least ≠ none) (hle : least ≤ exponent)
    (hcount : exponent - least < count) : least ≤ (searchGrids tie rank count exponent).exponent := by
  induction count generalizing exponent with
  | zero => omega
  | succ count ih =>
    rw [searchGrids]
    split
    · exact hle
    · next hgrid =>
      have hne : exponent ≠ least := by
        rintro rfl
        exact hleast hgrid
      exact ih (by omega) (by omega)

/-! ## Whole numbers -/

theorem dvd_of_eq_two_pow {m k n : Nat} (h : m = Nat.pow 2 k) (hk : n ≤ k) : 2 ^ n ∣ m :=
  h ▸ Nat.pow_dvd_pow 2 hk

theorem eq_two_pow_dvd {m k n : Nat} (h : m = Nat.pow 2 k) (hk : k ≤ n) : m ∣ 2 ^ n :=
  h ▸ Nat.pow_dvd_pow 2 hk

theorem le_log2_of_eq_two_pow {m k n : Nat} (h : m = Nat.pow 2 k) (hle : m ≤ n) : k ≤ n.log2 := by
  have hpos : 0 < m := h ▸ Nat.two_pow_pos k
  exact (Nat.le_log2 (Nat.ne_of_gt (Nat.lt_of_lt_of_le hpos hle))).2
    (Nat.le_trans (Nat.le_of_eq h.symm) hle)

theorem unitsPerOne_eq : unitsPerOne = Nat.pow 2 1074 := by
  unfold unitsPerOne
  rfl

/-- In the cell of a number with digits behind the point there is no whole number. -/
theorem unitsPerOne_dvd_of_roundsTo {rank n : Nat} (h : RoundsTo rank (2 * (n * unitsPerOne)) 1) :
    unitsPerOne ∣ units rank := by
  by_cases hscale : 1074 ≤ scale rank
  · exact Nat.dvd_trans (eq_two_pow_dvd unitsPerOne_eq hscale) (two_pow_scale_dvd_units rank)
  -- Both are multiples of the step of the scale, and so they are one step apart or the same.
  have hstep := two_pow_scale_dvd_units rank
  have hstep' : 2 ^ scale rank ∣ n * unitsPerOne :=
    Nat.dvd_mul_left_of_dvd (dvd_of_eq_two_pow unitsPerOne_eq (by omega)) n
  have hlow := h.low
  have hhigh := h.high
  rw [Nat.mul_one] at hlow hhigh
  rcases Nat.lt_trichotomy (n * unitsPerOne) (units rank) with hlt | heq | hgt
  · have hapart := Nat.le_of_dvd (Nat.sub_pos_of_lt hlt) (Nat.dvd_sub hstep hstep')
    have hrank : rank - 1 + 1 = rank := by
      have hne : rank ≠ 0 := by
        rintro rfl
        rw [units_of_lt (by decide)] at hlt
        exact Nat.not_lt_zero _ hlt
      omega
    have hprev := units_succ (rank - 1)
    have hless := units_lt_units_succ (rank - 1)
    have hscales : 2 ^ scale (rank - 1) ≤ 2 ^ scale rank :=
      Nat.pow_le_pow_right (by decide) (scale_mono (Nat.sub_le rank 1))
    rw [hrank] at hprev hless
    omega
  · exact heq ▸ Nat.dvd_mul_left _ _
  · have hapart := Nat.le_of_dvd (Nat.sub_pos_of_lt hgt) (Nat.dvd_sub hstep' hstep)
    have hnext := units_succ rank
    have hmore := units_lt_units_succ rank
    omega

theorem exponent_neg_of_not_dvd {rank : Nat} (tie : Tie) (h : ¬unitsPerOne ∣ units rank) :
    (shortest tie rank).exponent < 0 := by
  by_contra hnot
  have hrounds := shortest_roundsTo tie rank
  have hwhole : (-(shortest tie rank).exponent).toNat = 0 := by omega
  unfold Decimal.RoundsTo at hrounds
  rw [hwhole, Nat.pow_zero] at hrounds
  exact h (unitsPerOne_dvd_of_roundsTo hrounds)

/-- From one on, the coarsest grid is no finer than that of the whole numbers. -/
theorem coarsestGrid_nonneg {rank : Nat} (h : unitsPerOne ≤ units rank) : 0 ≤ coarsestGrid rank := by
  have hlog := le_log2_of_eq_two_pow unitsPerOne_eq h
  unfold coarsestGrid
  omega

theorem exponent_nonneg_of_dvd {rank : Nat} (tie : Tie) (hdvd : unitsPerOne ∣ units rank)
    (h : unitsPerOne ≤ units rank) : 0 ≤ (shortest tie rank).exponent := by
  obtain ⟨k, hk⟩ := hdvd
  have hgrid : onGrid? tie rank 0 ≠ none := by
    apply onGrid?_ne_none (k := k)
    rw [gridStep_eq, hk]
    simp only [Int.neg_zero, Int.toNat_zero, Nat.pow_zero]
    ring
  exact le_searchGrids_exponent hgrid (coarsestGrid_nonneg h) (by omega)

end Binary64

end Stencil
