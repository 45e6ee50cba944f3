-- SUMMARY: The shortest decimal that reads back as a given binary64 number.
import Stencil.Binary64
import Stencil.Decimal

/-!
# Shortest Decimals

The decimals that round to a number fill the interval between the midpoints to
its neighbours. The shortest of them lies on the coarsest grid of multiples of
a power of ten that meets the interval, and then next to the number itself, so
it is enough to try the two neighbours of the number on each grid.
-/

namespace Stencil.Binary64

/-- Which of two equally near decimals is taken. -/
inductive Tie where
  /-- The one away from zero. -/
  | away
  /-- The one with the even last digit. -/
  | even
deriving DecidableEq, Repr

/-- The fraction `numerator / denominator` that equals `10 ^ exponent` in half
units. -/
def gridStep (exponent : Int) : Nat × Nat :=
  if 0 ≤ exponent then (Nat.pow 10 exponent.toNat * (2 * unitsPerOne), 1)
  else (2 * unitsPerOne, Nat.pow 10 (-exponent).toNat)

/-- Whether `numerator / denominator` half units round to a rank. -/
def roundsTo (rank numerator denominator : Nat) : Bool :=
  let low := (units (rank - 1) + units rank) * denominator
  let high := (units rank + units (rank + 1)) * denominator
  if rank % 2 = 0 then low ≤ numerator && numerator ≤ high
  else low < numerator && numerator < high

/-- The multiple of `10 ^ exponent` that rounds to a rank and is nearest to its
number, if there is one. -/
def onGrid? (tie : Tie) (rank : Nat) (exponent : Int) : Option Nat :=
  let step := (gridStep exponent).1
  let denominator := (gridStep exponent).2
  let exact := 2 * units rank * denominator
  let below := exact / step
  let lowFits := roundsTo rank (below * step) denominator
  let highFits := roundsTo rank ((below + 1) * step) denominator
  if lowFits && highFits then
    match compare (exact - below * step) ((below + 1) * step - exact), tie with
    | .lt, _ => some below
    | .gt, _ => some (below + 1)
    | .eq, .away => some (below + 1)
    | .eq, .even => some (if below % 2 = 0 then below else below + 1)
  else if lowFits then some below
  else if highFits then some (below + 1)
  else none

/-- Tries finer and finer grids, at most `count` of them, and takes the exact
number when none is left. -/
def searchGrids (tie : Tie) (rank : Nat) : Nat → Int → Decimal
  | 0, _ => ⟨units rank * Nat.pow 5 1074, -1074⟩
  | count + 1, exponent =>
    match onGrid? tie rank exponent with
    | some coefficient => ⟨coefficient, exponent⟩
    | none => searchGrids tie rank count (exponent - 1)

/-- A power of ten above every decimal that rounds to a rank. -/
def coarsestGrid (rank : Nat) : Int :=
  (((units rank).log2 : Int) - 1072) * 30103 / 100000 + 2

/-- The shortest decimal that rounds to a rank other than zero. -/
def shortest (tie : Tie) (rank : Nat) : Decimal :=
  searchGrids tie rank (coarsestGrid rank + 1074).toNat (coarsestGrid rank)

/-! ## Text -/

/-- A minus sign in front of the text of a negative number. -/
def withSign (negative : Bool) (text : List Char) : List Char :=
  if negative then '-' :: text else text

/-- The text of a finite magnitude. A whole number below `10 ^ 16` is written
out with one decimal; all others are written as the shortest decimal, without
an exponent. -/
def magnitudeText (rank : Nat) : List Char :=
  let whole := units rank / unitsPerOne
  if units rank % unitsPerOne = 0 ∧ whole < Nat.pow 10 16 then Nat.toDigits 10 whole ++ ['.', '0']
  else (shortest .away rank).positional

/-- The text of a number. -/
def text : Binary64 → String
  | .nan => "NaN"
  | .infinity negative => String.ofList (withSign negative ['i', 'n', 'f'])
  | .finite negative rank => String.ofList (withSign negative (magnitudeText rank))

/-- The compact text of a finite magnitude: positional from `10 ^ (-5)` up to
`10 ^ 16`, with one decimal if it is whole, and scientific elsewhere. -/
def compactMagnitude (rank : Nat) : List Char :=
  if rank = 0 then ['0', '.', '0']
  else
    let d := shortest .even rank
    if d.pointPlace ≤ -5 ∨ 16 < d.pointPlace then d.scientific
    else if 0 ≤ d.exponent then d.positional ++ ['.', '0']
    else d.positional

/-- The compact text of a number, if it is finite. -/
def compactText? : Binary64 → Option String
  | .finite negative rank => some (String.ofList (withSign negative (compactMagnitude rank)))
  | _ => none

end Stencil.Binary64
