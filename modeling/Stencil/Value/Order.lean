-- SUMMARY: Equality, order and sameness of values.
import Stencil.Value

/-!
# Comparing Values

Equality holds between values of one kind, and between integers and floats of
the same exact value. Objects and functions equal only themselves. Numbers,
strings, booleans, lists and tuples are ordered within their kind, lists and
tuples by their first items that are not equal.
-/

namespace Stencil.Value

/-! ## Equality -/

mutual

/-- Whether two values are equal. -/
def equal : Value → Value → Bool
  | .null, .null => true
  | .bool a, .bool b => a == b
  | .int a, .int b => a == b
  | .int a, .float y => Binary64.orderInt64 a y == some .eq
  | .float x, .int b => Binary64.orderInt64 b x == some .eq
  | .float x, .float y => Binary64.order x y == some .eq
  | .string a, .string b => a == b
  | .list as, .list bs => equalItems as bs
  | .tuple as, .tuple bs => equalItems as bs
  | .map as, .map bs => equalEntries as bs
  | .object a _ _, .object b _ _ => a == b
  | .function a _, .function b _ => a == b
  | _, _ => false

/-- Whether two sequences have equal items. -/
def equalItems : List Value → List Value → Bool
  | [], [] => true
  | a :: as, b :: bs => equal a b && equalItems as bs
  | _, _ => false

/-- Whether two maps have the same keys with equal items. -/
def equalEntries : List (String × Value) → List (String × Value) → Bool
  | [], [] => true
  | (k, a) :: as, (l, b) :: bs => k == l && equal a b && equalEntries as bs
  | _, _ => false

end

/-! ## Order -/

/-- Two kinds of values between which no order is defined. -/
structure Unorderable where
  left : Kind
  right : Kind
deriving DecidableEq, Repr

/-- The message for two kinds without an order. -/
def Unorderable.message (u : Unorderable) : String :=
  "cannot order " ++ u.left.name ++ " and " ++ u.right.name

mutual

/-- The order of two values: an error if their kinds have none, and nothing if
a value that is not a number decides. -/
def order : Value → Value → Except Unorderable (Option Ordering)
  | .int a, .int b => .ok (some (compare a.toInt b.toInt))
  | .int a, .float y => .ok (Binary64.orderInt64 a y)
  | .float x, .int b => .ok ((Binary64.orderInt64 b x).map Ordering.swap)
  | .float x, .float y => .ok (Binary64.order x y)
  | .string a, .string b => .ok (some (compare a b))
  | .bool a, .bool b => .ok (some (compare a b))
  | .list as, .list bs => orderItems as bs
  | .tuple as, .tuple bs => orderItems as bs
  | a, b => .error ⟨a.kind, b.kind⟩

/-- The order of the first two items that are not equal; the shorter sequence
comes first if there are none. -/
def orderItems : List Value → List Value → Except Unorderable (Option Ordering)
  | [], [] => .ok (some .eq)
  | [], _ :: _ => .ok (some .lt)
  | _ :: _, [] => .ok (some .gt)
  | a :: as, b :: bs => if equal a b then orderItems as bs else order a b

end

/-! ## Sameness -/

/-- Whether two values are one and the same by themselves: null, equal
booleans, or the same object or function. -/
def isSame : Value → Value → Bool
  | .null, .null => true
  | .bool a, .bool b => a == b
  | .object a _ _, .object b _ _ => a == b
  | .function a _, .function b _ => a == b
  | _, _ => false

end Stencil.Value
