-- SUMMARY: Ascending tables of code point ranges and membership in them.

/-!
# Code Point Ranges

A property of characters is a list of inclusive code point ranges in ascending
order. Membership stops at the first range that starts above the character.
-/

namespace Stencil.Text

/-- Inclusive code point ranges, each wholly below the next. -/
abbrev Ranges := List (Nat × Nat)

/-- Whether a code point lies in one of the ranges. -/
def Ranges.has : Ranges → Nat → Bool
  | [], _ => false
  | (low, high) :: rest, n => if n < low then false else n ≤ high || Ranges.has rest n

end Stencil.Text
