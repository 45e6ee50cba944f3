-- SUMMARY: Rounding takes the nearest float: what rounds to a rank lies between the middles to its neighbours.
import Stencil.Binary64.Shortest
import Stencil.Proofs.ExactComparison

/-!
# Rounding

The units of the ranks ascend, so the middles between neighbours cut the number line into
cells, one for each rank. A middle belongs to the cell of the even rank beside it. Rounding
finds the cell that a number lies in, and no other float is nearer to the number than the one
in its cell.
-/

namespace Stencil.Binary64

/-! ## Ranks in ascending order -/

theorem rank_cases (rank : Nat) :
    rank < 2 ^ 52 ∨
      ∃ exponent fraction, fraction < 2 ^ 52 ∧ rank = (exponent + 1) * 2 ^ 52 + fraction := by
  by_cases h : rank < 2 ^ 52
  · exact .inl h
  · refine .inr ⟨rank / 2 ^ 52 - 1, rank % 2 ^ 52, Nat.mod_lt _ (by decide), ?_⟩
    omega

/-- The next number is one step of the scale further. -/
theorem units_succ (rank : Nat) : units (rank + 1) = units rank + 2 ^ scale rank := by
  rcases rank_cases rank with h | ⟨exponent, fraction, hfraction, rfl⟩
  · rw [units_of_lt h, scale_of_lt h]
    by_cases hnext : rank + 1 < 2 ^ 52
    · exact units_of_lt hnext
    · have hrank : rank + 1 = (0 + 1) * 2 ^ 52 + 0 := by omega
      rw [hrank, units_of_fields (by decide)]
      omega
  · rw [units_of_fields hfraction, scale_of_fields hfraction]
    by_cases hnext : fraction + 1 < 2 ^ 52
    · rw [Nat.add_assoc, units_of_fields hnext, ← Nat.add_assoc, Nat.add_one_mul]
    · have hrank : (exponent + 1) * 2 ^ 52 + fraction + 1 = (exponent + 1 + 1) * 2 ^ 52 + 0 := by
        omega
      have hfull : 2 ^ 52 + fraction + 1 = 2 * 2 ^ 52 := by omega
      rw [hrank, units_of_fields (by decide), ← Nat.add_one_mul, hfull, Nat.pow_succ]
      ring

theorem units_lt_units_succ (rank : Nat) : units rank < units (rank + 1) := by
  rw [units_succ]
  exact Nat.lt_add_of_pos_right (Nat.two_pow_pos _)

theorem strictMono_units : StrictMono units := strictMono_nat_of_lt_succ units_lt_units_succ

theorem scale_mono : Monotone scale := fun _ _ h => Nat.sub_le_sub_right (Nat.div_le_div_right h) 1

theorem two_pow_scale_dvd_units (rank : Nat) : 2 ^ scale rank ∣ units rank := Nat.dvd_mul_left ..

theorem rankBelow_of_lt {m : Nat} (h : m < 2 ^ 52) : rankBelow m = m := by
  have hshift : m.log2 - 52 = 0 := by
    by_cases hzero : m = 0
    · rw [hzero]
      rfl
    · exact Nat.sub_eq_zero_of_le (Nat.le_of_lt ((Nat.log2_lt hzero).2 h))
  rw [rankBelow, hshift]
  show 0 * Nat.pow 2 52 + m / 2 ^ 0 = m
  omega

/-- The leading 53 bits of a large number are the significand of the rank below it. -/
theorem exists_fields_of_rankBelow {m : Nat} (h : 2 ^ 52 ≤ m) :
    ∃ exponent fraction, fraction < 2 ^ 52 ∧ m / 2 ^ exponent = 2 ^ 52 + fraction
      ∧ rankBelow m = (exponent + 1) * 2 ^ 52 + fraction := by
  have hm : m ≠ 0 := by omega
  have hlog : 52 ≤ m.log2 := (Nat.le_log2 hm).2 h
  have hsplit : m.log2 = 52 + (m.log2 - 52) := by omega
  have hlow : 2 ^ 52 * 2 ^ (m.log2 - 52) ≤ m := by
    rw [← Nat.pow_add, ← hsplit]
    exact Nat.log2_self_le hm
  have hhigh : m < 2 ^ 53 * 2 ^ (m.log2 - 52) := by
    have hlt : m < 2 ^ (m.log2 + 1) := Nat.lt_log2_self
    have hpow : 2 ^ (m.log2 + 1) = 2 ^ 53 * 2 ^ (m.log2 - 52) := by
      rw [← Nat.pow_add]
      congr 1
      omega
    exact hpow ▸ hlt
  have hpos := Nat.two_pow_pos (m.log2 - 52)
  have hleast : 2 ^ 52 ≤ m / 2 ^ (m.log2 - 52) := (Nat.le_div_iff_mul_le hpos).2 hlow
  have hmost : m / 2 ^ (m.log2 - 52) < 2 ^ 53 := (Nat.div_lt_iff_lt_mul hpos).2 hhigh
  refine ⟨m.log2 - 52, m / 2 ^ (m.log2 - 52) - 2 ^ 52, by omega, by omega, ?_⟩
  show (m.log2 - 52) * 2 ^ 52 + m / 2 ^ (m.log2 - 52) = _
  omega

/-- The rank below a number has the largest units that are at most the number. -/
theorem units_rankBelow (m : Nat) : units (rankBelow m) ≤ m ∧ m < units (rankBelow m + 1) := by
  rw [units_succ]
  rcases Nat.lt_or_ge m (2 ^ 52) with hsmall | hlarge
  · rw [rankBelow_of_lt hsmall, units_of_lt hsmall, scale_of_lt hsmall]
    omega
  · obtain ⟨exponent, fraction, hfraction, hleading, hrank⟩ := exists_fields_of_rankBelow hlarge
    rw [hrank, units_of_fields hfraction, scale_of_fields hfraction, ← hleading]
    have hdiv := Nat.div_add_mod' m (2 ^ exponent)
    have hmod := Nat.mod_lt m (Nat.two_pow_pos exponent)
    omega

/-! ## Cells -/

/-- What it means that `numerator / denominator` half units round to a rank. -/
structure RoundsTo (rank numerator denominator : Nat) : Prop where
  low : (units (rank - 1) + units rank) * denominator ≤ numerator
  high : numerator ≤ (units rank + units (rank + 1)) * denominator
  even_of_low : numerator = (units (rank - 1) + units rank) * denominator → rank % 2 = 0
  even_of_high : numerator = (units rank + units (rank + 1)) * denominator → rank % 2 = 0

theorem roundsTo_iff {rank numerator denominator : Nat} :
    roundsTo rank numerator denominator = true ↔ RoundsTo rank numerator denominator := by
  unfold roundsTo
  by_cases heven : rank % 2 = 0
  · simp only [heven, if_true, Bool.and_eq_true, decide_eq_true_eq]
    exact ⟨fun ⟨hlow, hhigh⟩ => ⟨hlow, hhigh, fun _ => heven, fun _ => heven⟩,
      fun h => ⟨h.low, h.high⟩⟩
  · simp only [heven, if_false, Bool.and_eq_true, decide_eq_true_eq]
    constructor
    · rintro ⟨hlow, hhigh⟩
      exact ⟨Nat.le_of_lt hlow, Nat.le_of_lt hhigh, fun h => absurd h.symm (Nat.ne_of_lt hlow),
        fun h => absurd h (Nat.ne_of_lt hhigh)⟩
    · intro h
      exact ⟨Nat.lt_of_le_of_ne h.low fun heq => heven (h.even_of_low heq.symm),
        Nat.lt_of_le_of_ne h.high fun heq => heven (h.even_of_high heq)⟩

/-- Every number rounds to itself. -/
theorem roundsTo_self (rank : Nat) {denominator : Nat} (hpos : 0 < denominator) :
    RoundsTo rank (2 * units rank * denominator) denominator := by
  have hdouble : 2 * units rank = units rank + units rank := Nat.two_mul _
  have hhigh : 2 * units rank * denominator < (units rank + units (rank + 1)) * denominator := by
    apply Nat.mul_lt_mul_of_pos_right _ hpos
    have := units_lt_units_succ rank
    omega
  refine ⟨?_, Nat.le_of_lt hhigh, ?_, fun h => absurd h (Nat.ne_of_lt hhigh)⟩
  · apply Nat.mul_le_mul_right
    have := strictMono_units.monotone (Nat.sub_le rank 1)
    omega
  · intro h
    have hunits := Nat.eq_of_mul_eq_mul_right hpos h
    have hprev : rank = rank - 1 := strictMono_units.injective (by omega)
    omega

/-- The cells of different ranks have no number in common. -/
theorem RoundsTo.rank_le {rank rank' numerator denominator : Nat} (hpos : 0 < denominator)
    (h : RoundsTo rank numerator denominator) (h' : RoundsTo rank' numerator denominator) :
    rank ≤ rank' := by
  by_contra hnot
  have hlt : rank' < rank := Nat.lt_of_not_le hnot
  have hprev : units rank' ≤ units (rank - 1) := strictMono_units.monotone (by omega)
  have hnext : units (rank' + 1) ≤ units rank := strictMono_units.monotone hlt
  have hmiddle : (units rank' + units (rank' + 1)) * denominator
      ≤ (units (rank - 1) + units rank) * denominator :=
    Nat.mul_le_mul_right _ (Nat.add_le_add hprev hnext)
  -- The two cells meet in a middle at most, and then both ranks are even.
  have heq := Nat.le_antisymm hmiddle (Nat.le_trans h.low h'.high)
  have heven := h.even_of_low (Nat.le_antisymm (heq ▸ h'.high) h.low)
  have heven' := h'.even_of_high (Nat.le_antisymm h'.high (heq ▸ h.low))
  have hapart : units (rank' + 1) < units rank := strictMono_units (by omega)
  have := Nat.eq_of_mul_eq_mul_right hpos heq
  omega

theorem RoundsTo.rank_eq {rank rank' numerator denominator : Nat} (hpos : 0 < denominator)
    (h : RoundsTo rank numerator denominator) (h' : RoundsTo rank' numerator denominator) :
    rank = rank' :=
  Nat.le_antisymm (h.rank_le hpos h') (h'.rank_le hpos h)

theorem RoundsTo.of_below {rank numerator denominator : Nat} (hpos : 0 < denominator)
    (hlow : units rank * denominator ≤ numerator)
    (hhigh : 2 * numerator ≤ (units rank + units (rank + 1)) * denominator)
    (heven : 2 * numerator = (units rank + units (rank + 1)) * denominator → rank % 2 = 0) :
    RoundsTo rank (2 * numerator) denominator := by
  have hself := roundsTo_self rank hpos
  have hexact : 2 * units rank * denominator ≤ 2 * numerator := by
    rw [Nat.mul_assoc]
    exact Nat.mul_le_mul_left 2 hlow
  refine ⟨Nat.le_trans hself.low hexact, hhigh, ?_, heven⟩
  intro h
  exact hself.even_of_low (Nat.le_antisymm (h ▸ hexact) hself.low)

theorem RoundsTo.of_above {rank numerator denominator : Nat} (hpos : 0 < denominator)
    (hlow : (units rank + units (rank + 1)) * denominator ≤ 2 * numerator)
    (hhigh : numerator < units (rank + 1) * denominator)
    (heven : 2 * numerator = (units rank + units (rank + 1)) * denominator →
      (rank + 1) % 2 = 0) :
    RoundsTo (rank + 1) (2 * numerator) denominator := by
  have hself := roundsTo_self (rank + 1) hpos
  have hexact : 2 * numerator < 2 * units (rank + 1) * denominator := by
    rw [Nat.mul_assoc]
    exact Nat.mul_lt_mul_of_pos_left hhigh (by decide)
  have hbelow := Nat.lt_of_lt_of_le hexact hself.high
  exact ⟨hlow, Nat.le_of_lt hbelow, heven, fun h => absurd h (Nat.ne_of_lt hbelow)⟩

/-- What rounds to a lower rank is below the number of a rank. -/
theorem RoundsTo.lt_units {rank bound numerator denominator : Nat} (hpos : 0 < denominator)
    (h : RoundsTo rank (2 * numerator) denominator) (hlt : rank < bound) :
    numerator < units bound * denominator := by
  have hcell : units rank + units (rank + 1) < 2 * units bound := by
    have hrank := strictMono_units hlt
    have hnext : units (rank + 1) ≤ units bound := strictMono_units.monotone hlt
    omega
  have hbelow := Nat.lt_of_le_of_lt h.high (Nat.mul_lt_mul_of_pos_right hcell hpos)
  rw [Nat.mul_assoc] at hbelow
  omega

/-- What rounds to a higher rank is above the number of a rank. -/
theorem RoundsTo.units_lt {rank bound numerator denominator : Nat} (hpos : 0 < denominator)
    (h : RoundsTo rank (2 * numerator) denominator) (hlt : bound < rank) :
    units bound * denominator < numerator := by
  have hcell : 2 * units bound < units (rank - 1) + units rank := by
    have hrank := strictMono_units hlt
    have hprev := strictMono_units.monotone (Nat.le_sub_one_of_lt hlt)
    omega
  have habove := Nat.lt_of_lt_of_le (Nat.mul_lt_mul_of_pos_right hcell hpos) h.low
  rw [Nat.mul_assoc] at habove
  omega

/-- Rounding finds the rank whose cell a fraction lies in. -/
theorem roundsTo_nearestRank (numerator : Nat) {denominator : Nat} (hpos : 0 < denominator) :
    RoundsTo (nearestRank numerator denominator) (2 * numerator) denominator := by
  obtain ⟨hbelow, habove⟩ := units_rankBelow (numerator / denominator)
  rw [Nat.le_div_iff_mul_le hpos] at hbelow
  rw [Nat.div_lt_iff_lt_mul hpos] at habove
  unfold nearestRank
  generalize rankBelow (numerator / denominator) = below at hbelow habove ⊢
  dsimp only
  split
  · next hless =>
    exact .of_below hpos hbelow (Nat.le_of_lt hless) fun h => absurd h (Nat.ne_of_lt hless)
  · next hnot =>
    have hle := Nat.le_of_not_lt hnot
    split
    · next hmore => exact .of_above hpos hle habove fun h => absurd h.symm (Nat.ne_of_lt hmore)
    · next hnot =>
      split
      · next heven => exact .of_below hpos hbelow (Nat.le_of_not_lt hnot) fun _ => heven
      · next hodd => exact .of_above hpos hle habove fun _ => by omega

theorem nearestRank_eq_iff {rank numerator denominator : Nat} (hpos : 0 < denominator) :
    nearestRank numerator denominator = rank ↔ RoundsTo rank (2 * numerator) denominator := by
  have hnearest := roundsTo_nearestRank numerator hpos
  exact ⟨fun h => h ▸ hnearest, hnearest.rank_eq hpos⟩

/-! ## The nearest float -/

/-- Numbers whose significand is even; the infinities count as such. -/
def IsEven : Binary64 → Prop
  | .nan => False
  | .infinity _ => True
  | .finite _ rank => rank.val % 2 = 0

/-- What it means that a number is the nearest to an exact value: no other is nearer, and of
two at the same distance it is the even one. Zero stands in one place, with either sign. -/
def IsNearest (x : Binary64) (value : ℚ) : Prop :=
  ∃ p, x.position? = some p ∧ ∀ (y : Binary64) (q : Int), y.position? = some q →
    |value * unitsPerOne - p| ≤ |value * unitsPerOne - q|
      ∧ (|value * unitsPerOne - p| = |value * unitsPerOne - q| → p = q ∨ x.IsEven)

/-- The places of the numbers: the units of the ranks, with either sign. -/
def IsPlace (q : Int) : Prop := ∃ k ≤ overflowRank, q = units k ∨ q = -units k

theorem isPlace_signed (negative : Bool) {k : Nat} (h : k ≤ overflowRank) :
    IsPlace (signed negative (units k)) := by
  cases negative with
  | false => exact ⟨k, h, .inl (if_neg Bool.false_ne_true)⟩
  | true => exact ⟨k, h, .inr (if_pos rfl)⟩

theorem isPlace_of_position? {x : Binary64} {q : Int} (h : x.position? = some q) : IsPlace q := by
  cases x with
  | nan => cases h
  | infinity negative =>
    cases h
    exact isPlace_signed negative (Nat.le_refl _)
  | finite negative rank =>
    cases h
    exact isPlace_signed negative (Nat.le_of_lt rank.isLt)

theorem IsPlace.neg {q : Int} (h : IsPlace q) : IsPlace (-q) := by
  obtain ⟨k, hk, rfl | rfl⟩ := h
  · exact ⟨k, hk, .inr rfl⟩
  · exact ⟨k, hk, .inl (Int.neg_neg _)⟩

/-- A smaller place is at most that of the rank before. -/
theorem IsPlace.le_of_lt {q : Int} {rank : Nat} (hq : IsPlace q) (h : q < units rank) :
    q ≤ units (rank - 1) := by
  obtain ⟨k, -, rfl | rfl⟩ := hq
  · have hlt : k < rank := strictMono_units.lt_iff_lt.1 (Int.ofNat_lt.1 h)
    exact Int.ofNat_le.2 (strictMono_units.monotone (Nat.le_sub_one_of_lt hlt))
  · omega

/-- A larger place is at least that of the rank after, if there is one. -/
theorem IsPlace.ge_of_gt {q : Int} {rank : Nat} (hq : IsPlace q) (h : (units rank : Int) < q) :
    rank < overflowRank ∧ (units (rank + 1) : Int) ≤ q := by
  obtain ⟨k, hk, rfl | rfl⟩ := hq
  · have hlt : rank < k := strictMono_units.lt_iff_lt.1 (Int.ofNat_lt.1 h)
    exact ⟨Nat.lt_of_lt_of_le hlt hk, Int.ofNat_le.2 (strictMono_units.monotone hlt)⟩
  · omega

/-- Of two points, the lower one is nearer exactly up to the middle. -/
theorem abs_sub_le_abs_sub_iff {a b t : ℚ} (h : a < b) : |t - a| ≤ |t - b| ↔ 2 * t ≤ a + b := by
  rw [← sq_le_sq]
  constructor <;> intro h <;> nlinarith

theorem abs_sub_ge_abs_sub_iff {a b t : ℚ} (h : a < b) : |t - b| ≤ |t - a| ↔ a + b ≤ 2 * t := by
  rw [← sq_le_sq]
  constructor <;> intro h <;> nlinarith

theorem abs_sub_eq_abs_sub_iff {a b t : ℚ} (h : a < b) : |t - a| = |t - b| ↔ 2 * t = a + b := by
  rw [le_antisymm_iff, abs_sub_le_abs_sub_iff h, abs_sub_ge_abs_sub_iff h, le_antisymm_iff]

/-- The cell of a rank, in units. -/
theorem RoundsTo.cast {rank numerator denominator : Nat} (hpos : 0 < denominator)
    (h : RoundsTo rank (2 * numerator) denominator) {t : ℚ} (ht : t = numerator / denominator) :
    (units (rank - 1) + units rank : ℚ) ≤ 2 * t ∧ 2 * t ≤ (units rank + units (rank + 1) : ℚ)
      ∧ (2 * t = (units (rank - 1) + units rank : ℚ) → rank % 2 = 0)
      ∧ (2 * t = (units rank + units (rank + 1) : ℚ) → rank % 2 = 0) := by
  have hd : (0 : ℚ) < denominator := Nat.cast_pos.2 hpos
  have hdouble : 2 * t = (2 * numerator : ℕ) / denominator := by
    rw [ht, Nat.cast_mul, Nat.cast_ofNat, mul_div_assoc]
  rw [hdouble, le_div_iff₀ hd, div_le_iff₀ hd, div_eq_iff hd.ne', div_eq_iff hd.ne']
  norm_cast
  exact ⟨h.low, h.high, h.even_of_low, h.even_of_high⟩

/-- A fraction of units is nearest to the place of the rank whose cell it lies in. The
infinities stand for all ranks past the finite ones. -/
theorem RoundsTo.nearest {rank numerator denominator : Nat} (hpos : 0 < denominator)
    (h : RoundsTo rank (2 * numerator) denominator) {t : ℚ} (ht : t = numerator / denominator)
    {q : Int} (hq : IsPlace q) :
    |t - units (min rank overflowRank)| ≤ |t - q|
      ∧ (|t - units (min rank overflowRank)| = |t - q| →
        (units (min rank overflowRank) : Int) = q ∨ overflowRank ≤ rank ∨ rank % 2 = 0) := by
  obtain ⟨hlow, hhigh, heven_low, heven_high⟩ := h.cast hpos ht
  have hmono := strictMono_units.monotone
  rcases Int.lt_trichotomy q (units (min rank overflowRank)) with hlt | rfl | hgt
  · have hprev : (q : ℚ) ≤ units (rank - 1) := by
      exact_mod_cast (hq.le_of_lt hlt).trans
        (Int.ofNat_le.2 (hmono (Nat.sub_le_sub_right (Nat.min_le_left ..) 1)))
    have hmin : (units (min rank overflowRank) : ℚ) ≤ units rank :=
      Nat.cast_le.2 (hmono (Nat.min_le_left ..))
    have hlt : (q : ℚ) < units (min rank overflowRank) := by exact_mod_cast hlt
    rw [abs_sub_ge_abs_sub_iff hlt, eq_comm, abs_sub_eq_abs_sub_iff hlt]
    refine ⟨by linarith, fun heq => .inr (.inr (heven_low ?_))⟩
    linarith
  · rw [Int.cast_natCast]
    exact ⟨le_refl _, fun _ => .inl rfl⟩
  · obtain ⟨hfinite, hnext⟩ := hq.ge_of_gt hgt
    have hmin : min rank overflowRank = rank := by omega
    rw [hmin] at hgt hnext ⊢
    have hnext : (units (rank + 1) : ℚ) ≤ q := by exact_mod_cast hnext
    have hgt : (units rank : ℚ) < q := by exact_mod_cast hgt
    rw [abs_sub_le_abs_sub_iff hgt, abs_sub_eq_abs_sub_iff hgt]
    refine ⟨by linarith, fun heq => .inr (.inr (heven_high ?_))⟩
    linarith

/-! ## Rounding a fraction -/

theorem position?_ofRank (negative : Bool) (rank : Nat) :
    (ofRank negative rank).position? = some (signed negative (units (min rank overflowRank))) := by
  unfold ofRank
  split
  · next h => rw [position?, Nat.min_eq_left (Nat.le_of_lt h)]
  · next h => rw [position?, Nat.min_eq_right (Nat.le_of_not_lt h)]

theorem isEven_ofRank {negative : Bool} {rank : Nat} (h : overflowRank ≤ rank ∨ rank % 2 = 0) :
    (ofRank negative rank).IsEven := by
  unfold ofRank
  split
  · next hlt => exact h.resolve_left (Nat.not_le.2 hlt)
  · trivial

/-- A fraction is rounded to the float that is nearest to it. -/
theorem isNearest_ofFraction (negative : Bool) (numerator : Nat) {denominator : Nat}
    (hpos : 0 < denominator) :
    (ofFraction negative numerator denominator).IsNearest
      (if negative then -(numerator / denominator) else numerator / denominator) := by
  have hrounds := roundsTo_nearestRank (numerator * unitsPerOne) hpos
  refine ⟨_, position?_ofRank _ _, fun y q hq => ?_⟩
  have hplace := isPlace_of_position? hq
  have ht : (numerator / denominator * unitsPerOne : ℚ)
      = (numerator * unitsPerOne : ℕ) / denominator := by
    rw [Nat.cast_mul, div_mul_eq_mul_div]
  cases negative with
  | false =>
    obtain ⟨hle, heq⟩ := hrounds.nearest hpos ht hplace
    simp only [signed, Bool.false_eq_true, if_false, Int.cast_natCast]
    exact ⟨hle, fun h => (heq h).imp_right isEven_ofRank⟩
  | true =>
    obtain ⟨hle, heq⟩ := hrounds.nearest hpos ht hplace.neg
    have hmirror (a b : ℚ) : |-a - b| = |a - -b| := by
      rw [← abs_neg, neg_sub, sub_neg_eq_add, sub_neg_eq_add, add_comm]
    simp only [signed, if_true, Int.cast_neg, Int.cast_natCast, neg_mul, hmirror, neg_neg] at hle heq ⊢
    refine ⟨hle, fun h => ?_⟩
    rcases heq h with hsame | heven
    · exact .inl (by rw [hsame, Int.neg_neg])
    · exact .inr (isEven_ofRank heven)

theorem isNearest_ofInt (n : Int) : (ofInt n).IsNearest n := by
  have hnearest := isNearest_ofFraction (decide (n < 0)) n.natAbs Nat.one_pos
  have hvalue : (if decide (n < 0) = true then -((n.natAbs : ℚ) / (1 : ℕ)) else n.natAbs / (1 : ℕ))
      = n := by
    rcases Int.lt_or_le n 0 with hneg | hnonneg
    · simp [hneg, Nat.cast_natAbs, abs_of_neg]
    · simp [Int.not_lt.2 hnonneg, Nat.cast_natAbs, abs_of_nonneg hnonneg]
  rwa [hvalue] at hnearest

theorem ofFraction_eq_finite (negative : Bool) {rank : Fin overflowRank}
    {numerator denominator : Nat} (hpos : 0 < denominator)
    (h : RoundsTo rank (2 * (numerator * unitsPerOne)) denominator) :
    ofFraction negative numerator denominator = .finite negative rank := by
  rw [ofFraction, (nearestRank_eq_iff hpos).2 h, ofRank, dif_pos rank.isLt]

theorem ofInt_signed (negative : Bool) {n : Nat} (hpos : 0 < n) :
    ofInt (signed negative n) = ofFraction negative n 1 := by
  cases negative with
  | false =>
    have hsign : decide (signed false n < 0) = false := by
      simp [signed]
    rw [ofInt, hsign]
    simp [signed]
  | true =>
    have hsign : decide (signed true n < 0) = true := by
      simp [signed, hpos]
    rw [ofInt, hsign]
    simp [signed]

/-! ## Rounding a decimal -/

theorem nearestRank_zero {denominator : Nat} (hpos : 0 < denominator) :
    nearestRank 0 denominator = 0 := by
  have hself := roundsTo_self 0 hpos
  rw [nearestRank_eq_iff hpos]
  rwa [units_of_lt (by decide), Nat.mul_zero, Nat.zero_mul] at hself

theorem overflowRank_le_nearestRank {numerator denominator : Nat} (hpos : 0 < denominator)
    (h : units overflowRank * denominator ≤ numerator) :
    overflowRank ≤ nearestRank numerator denominator := by
  by_contra hlt
  have hbelow := (roundsTo_nearestRank numerator hpos).lt_units hpos (Nat.lt_of_not_le hlt)
  exact absurd h (Nat.not_le.2 hbelow)

/-- Below half of the least positive number everything rounds to zero. -/
theorem nearestRank_of_le {numerator denominator : Nat} (hpos : 0 < denominator)
    (h : 2 * numerator ≤ denominator) : nearestRank numerator denominator = 0 := by
  have hzero : units 0 = 0 := units_of_lt (by decide)
  have hone : units 1 = 1 := units_of_lt (by decide)
  rw [nearestRank_eq_iff hpos]
  refine ⟨?_, ?_, fun _ => rfl, fun _ => rfl⟩
  · rw [hzero, Nat.zero_mul]
    exact Nat.zero_le _
  · rwa [hzero, hone, Nat.zero_add, Nat.one_mul]

theorem le_ten_pow {m k n : Nat} (h : m ≤ Nat.pow 10 k) (hk : k ≤ n) : m ≤ 10 ^ n :=
  Nat.le_trans h (Nat.pow_le_pow_right (by decide) hk)

theorem overflows_of_lt_exponent {coefficient : Nat} {exponent : Int} (hzero : coefficient ≠ 0)
    (h : 400 < exponent) :
    overflowRank ≤ nearestRank (coefficient * 10 ^ exponent.toNat * unitsPerOne)
      (10 ^ (-exponent).toNat) := by
  have hwhole : (-exponent).toNat = 0 := by omega
  obtain ⟨bound, hbound, hpower⟩ :
      ∃ bound, units overflowRank = bound * unitsPerOne ∧ bound ≤ 10 ^ exponent.toNat :=
    ⟨Nat.pow 2 1024, by decide +kernel, le_ten_pow (k := 401) (by decide +kernel) (by omega)⟩
  rw [hwhole]
  apply overflowRank_le_nearestRank Nat.one_pos
  rw [Nat.mul_one, hbound]
  exact Nat.mul_le_mul_right _
    (Nat.le_trans hpower (Nat.le_mul_of_pos_left _ (Nat.pos_of_ne_zero hzero)))

theorem vanishes_of_exponent_le {coefficient : Nat} {exponent : Int}
    (h : exponent + (coefficient.log2 + 1) ≤ -324) :
    nearestRank (coefficient * 10 ^ exponent.toNat * unitsPerOne) (10 ^ (-exponent).toNat) = 0 := by
  have hfraction : exponent.toNat = 0 := by omega
  have hsplit : (-exponent).toNat - (coefficient.log2 + 1) + (coefficient.log2 + 1)
      = (-exponent).toNat := by omega
  have hunits : 2 * unitsPerOne ≤ 10 ^ ((-exponent).toNat - (coefficient.log2 + 1)) :=
    le_ten_pow (k := 324) (by decide +kernel) (by omega)
  have hcoefficient : coefficient ≤ 10 ^ (coefficient.log2 + 1) :=
    Nat.le_trans (Nat.le_of_lt Nat.lt_log2_self) (Nat.pow_le_pow_left (by decide) _)
  apply nearestRank_of_le (Nat.pow_pos (by decide))
  calc 2 * (coefficient * 10 ^ exponent.toNat * unitsPerOne)
      = 2 * unitsPerOne * coefficient := by rw [hfraction]; ring
    _ ≤ 10 ^ ((-exponent).toNat - (coefficient.log2 + 1)) * 10 ^ (coefficient.log2 + 1) :=
      Nat.mul_le_mul hunits hcoefficient
    _ = 10 ^ (-exponent).toNat := by rw [← Nat.pow_add, hsplit]

/-- The exponents that are settled without computing a power are out of range indeed, so a
decimal is always rounded as the fraction that it is. -/
theorem ofDecimal_eq (negative : Bool) (coefficient : Nat) (exponent : Int) :
    ofDecimal negative coefficient exponent
      = ofFraction negative (coefficient * 10 ^ exponent.toNat) (10 ^ (-exponent).toNat) := by
  unfold ofDecimal ofFraction
  split
  · next hzero =>
    rw [hzero, Nat.zero_mul, Nat.zero_mul, nearestRank_zero (Nat.pow_pos (by decide))]
  next hzero =>
  split
  · next hlarge => rw [ofRank, dif_neg (Nat.not_lt.2 (overflows_of_lt_exponent hzero hlarge))]
  next =>
  split
  · next hsmall => rw [vanishes_of_exponent_le hsmall]
  next =>
  split
  · next hnonneg =>
    have hwhole : (-exponent).toNat = 0 := by omega
    rw [hwhole]
    rfl
  · next hneg =>
    have hfraction : exponent.toNat = 0 := by omega
    rw [hfraction, Nat.pow_zero, Nat.mul_one]
    rfl

/-- A decimal is rounded to the rank whose cell it lies in. -/
theorem ofDecimal_eq_finite (negative : Bool) {rank : Fin overflowRank} {coefficient : Nat}
    {exponent : Int} (h : RoundsTo rank (2 * (coefficient * 10 ^ exponent.toNat * unitsPerOne))
      (10 ^ (-exponent).toNat)) :
    ofDecimal negative coefficient exponent = .finite negative rank := by
  rw [ofDecimal_eq, ofFraction_eq_finite negative (Nat.pow_pos (by decide)) h]

end Stencil.Binary64
