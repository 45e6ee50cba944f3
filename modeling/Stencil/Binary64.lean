-- SUMMARY: Binary64 numbers as exact values: bit patterns, order, and correct rounding.

/-!
# Binary64 Numbers

The finite numbers of one sign are counted in ascending order from zero: the
place of a number in that count is its rank. Every finite number is a whole
multiple of the least positive one, so its exact value is a whole number of
units of `2 ^ (-1074)`. Order and rounding are worked out on these whole
numbers, without a floating-point operation.
-/

namespace Stencil

/-- The rank just past the largest finite number, where rounding overflows. -/
def overflowRank : Nat := 2047 * Nat.pow 2 52

/-- A binary64 number. All values that are not numbers count as one. -/
inductive Binary64 where
  | nan
  | infinity (negative : Bool)
  | finite (negative : Bool) (rank : Fin overflowRank)
deriving DecidableEq, Repr

namespace Binary64

/-! ## Exact values -/

/-- The exponent by which the significand of a rank is scaled. Ranks below
`2 ^ 53` are not scaled. -/
def scale (rank : Nat) : Nat := rank / Nat.pow 2 52 - 1

/-- The whole number of at most 53 bits that a rank scales. -/
def significand (rank : Nat) : Nat := rank - scale rank * Nat.pow 2 52

/-- The number with a given rank, in units of `2 ^ (-1074)`. -/
def units (rank : Nat) : Nat := significand rank * Nat.pow 2 (scale rank)

/-- How many units make one. -/
def unitsPerOne : Nat := Nat.pow 2 1074

/-- A magnitude with a sign. -/
def signed (negative : Bool) (magnitude : Nat) : Int :=
  if negative then -(magnitude : Int) else magnitude

/-- Where a number stands on the number line, in units. The infinities stand
where the next number of their sign would be, beyond all others. -/
def position? : Binary64 → Option Int
  | .nan => none
  | .infinity negative => some (signed negative (units overflowRank))
  | .finite negative rank => some (signed negative (units rank))

/-- The position of a whole number, in units. -/
def positionOfInt (n : Int) : Int := n * unitsPerOne

/-- Compares two numbers by their exact values; nothing compares with a value
that is not a number. -/
def order (x y : Binary64) : Option Ordering :=
  x.position?.bind fun p => y.position?.map fun q => compare p q

/-- How a number stands to the whole numbers of 64 bits. -/
inductive Standing where
  /-- It is not a number. -/
  | unordered
  /-- Above all of them. -/
  | above
  /-- Below all of them. -/
  | below
  /-- Among them, with its whole part towards zero and the rest in units. -/
  | among (whole rest : Int)
deriving DecidableEq, Repr

/-- The first whole number above all those of 64 bits. -/
def int64Bound : Int := Nat.pow 2 63

/-- How a number stands to the whole numbers of 64 bits. -/
def standing (x : Binary64) : Standing :=
  match x.position? with
  | none => .unordered
  | some p =>
    if positionOfInt int64Bound ≤ p then .above
    else if p < -positionOfInt int64Bound then .below
    else .among (p.tdiv unitsPerOne) (p.tmod unitsPerOne)

/-- Compares an integer with a number: with the whole part, as an integer, and if
these are equal by the sign of the rest. The conversion clamps what is out of
range, which no whole part is. -/
def orderInt64 (n : Int64) (x : Binary64) : Option Ordering :=
  match x.standing with
  | .unordered => none
  | .above => some .lt
  | .below => some .gt
  | .among whole rest => some ((compare n (Int64.ofIntClamp whole)).then (compare 0 rest))

/-- Whether a number is zero, of either sign. -/
def isZero : Binary64 → Bool
  | .finite _ rank => rank.val == 0
  | _ => false

/-! ## Bit patterns -/

/-- The number with a given bit pattern. -/
def ofBits (word : UInt64) : Binary64 :=
  let negative := Nat.pow 2 63 ≤ word.toNat
  let rank := word.toNat % Nat.pow 2 63
  if h : rank < overflowRank then .finite negative ⟨rank, h⟩
  else if rank = overflowRank then .infinity negative
  else .nan

/-- The bit pattern of a sign and the bits below it. -/
def signedBits (negative : Bool) (magnitude : Nat) : UInt64 :=
  UInt64.ofNat (if negative then Nat.pow 2 63 + magnitude else magnitude)

/-- The bit pattern of a number. -/
def toBits : Binary64 → UInt64
  | .nan => UInt64.ofNat (overflowRank + Nat.pow 2 51)
  | .infinity negative => signedBits negative overflowRank
  | .finite negative rank => signedBits negative rank

/-! ## Rounding -/

/-- The number with a given rank, an infinity if there is none. -/
def ofRank (negative : Bool) (rank : Nat) : Binary64 :=
  if h : rank < overflowRank then .finite negative ⟨rank, h⟩ else .infinity negative

/-- The largest rank whose number is at most a given number of units. -/
def rankBelow (magnitude : Nat) : Nat :=
  let shift := magnitude.log2 - 52
  shift * Nat.pow 2 52 + magnitude / Nat.pow 2 shift

/-- The rank nearest to `numerator / denominator` units, the even one of two
that are equally near. -/
def nearestRank (numerator denominator : Nat) : Nat :=
  let below := rankBelow (numerator / denominator)
  let middle := (units below + units (below + 1)) * denominator
  if 2 * numerator < middle then below
  else if middle < 2 * numerator then below + 1
  else if below % 2 = 0 then below
  else below + 1

/-- The number nearest to a fraction. -/
def ofFraction (negative : Bool) (numerator denominator : Nat) : Binary64 :=
  ofRank negative (nearestRank (numerator * unitsPerOne) denominator)

/-- The number nearest to a whole number. -/
def ofInt (n : Int) : Binary64 := ofFraction (n < 0) n.natAbs 1

/-- The number nearest to `coefficient * 10 ^ exponent`. Exponents that are far
out of range are settled without computing the power. -/
def ofDecimal (negative : Bool) (coefficient : Nat) (exponent : Int) : Binary64 :=
  if coefficient = 0 then ofRank negative 0
  else if 400 < exponent then .infinity negative
  else if exponent + (coefficient.log2 + 1) ≤ -324 then ofRank negative 0
  else if 0 ≤ exponent then ofFraction negative (coefficient * Nat.pow 10 exponent.toNat) 1
  else ofFraction negative coefficient (Nat.pow 10 (-exponent).toNat)

end Binary64

end Stencil
