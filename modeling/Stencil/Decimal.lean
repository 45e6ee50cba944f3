-- SUMMARY: Decimal numbers, and writing them with a decimal point or an exponent.

/-!
# Decimal Numbers

A decimal is a coefficient and a power of ten. Positional text writes out all
zeros between the digits and the decimal point; scientific text has one digit
before the point and an exponent.
-/

namespace Stencil

/-- The number `coefficient * 10 ^ exponent`. -/
structure Decimal where
  coefficient : Nat
  exponent : Int
deriving DecidableEq, Repr

namespace Decimal

/-- The decimal digits of the coefficient. -/
def digits (d : Decimal) : List Char := Nat.toDigits 10 d.coefficient

/-- How many digits stand before the decimal point; not positive if the number
is below one tenth. -/
def pointPlace (d : Decimal) : Int := d.digits.length + d.exponent

/-- The number with all its zeros written out, without a point if it is whole. -/
def positional (d : Decimal) : List Char :=
  if 0 ≤ d.exponent then d.digits ++ List.replicate d.exponent.toNat '0'
  else if d.pointPlace ≤ 0 then
    '0' :: '.' :: List.replicate (-d.pointPlace).toNat '0' ++ d.digits
  else d.digits.take d.pointPlace.toNat ++ '.' :: d.digits.drop d.pointPlace.toNat

/-- The number with one digit before the point and a signed exponent. -/
def scientific (d : Decimal) : List Char :=
  let power := d.pointPlace - 1
  let sign := if power < 0 then '-' else '+'
  let fraction := if d.digits.length ≤ 1 then [] else '.' :: d.digits.drop 1
  d.digits.take 1 ++ fraction ++ 'e' :: sign :: Nat.toDigits 10 power.natAbs

end Decimal

end Stencil
