-- SUMMARY: Decimal text of whole numbers, and whole numbers of 64 bits.

/-!
# Whole Numbers in Text

Whole numbers are written in decimal with a minus sign if they are negative.
They are read with an optional sign and at least one digit.
-/

namespace Stencil.Text

/-- The decimal text of a whole number. -/
def integerText (n : Int) : List Char :=
  if n < 0 then '-' :: Nat.toDigits 10 n.natAbs else Nat.toDigits 10 n.natAbs

/-- The 64-bit integer equal to a whole number, if it is in range. -/
def int64? (n : Int) : Option Int64 :=
  if Int64.minValue.toInt ≤ n ∧ n ≤ Int64.maxValue.toInt then some (Int64.ofInt n) else none

/-- The number that one or more decimal digits write. -/
def readNatural? (cs : List Char) : Option Nat :=
  if cs ≠ [] ∧ cs.all Char.isDigit then some (Nat.ofDigitChars 10 cs 0) else none

/-- The number that one or more decimal digits write, if it fits 64 bits without
a sign. -/
def readWord64? (cs : List Char) : Option Nat := (readNatural? cs).filter (· < UInt64.size)

/-- The number that an optional sign and decimal digits write. -/
def readInteger? : List Char → Option Int
  | '-' :: cs => (readNatural? cs).map fun n => -(n : Int)
  | '+' :: cs => (readNatural? cs).map fun n => (n : Int)
  | cs => (readNatural? cs).map fun n => (n : Int)

/-- The 64-bit integer that a text writes, if it is in range. -/
def readInt64? (cs : List Char) : Option Int64 := (readInteger? cs).bind int64?

end Stencil.Text
