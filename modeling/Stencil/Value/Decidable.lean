-- SUMMARY: Deciding whether two values are the same in every part.
import Stencil.Value

/-!
# Decidable Sameness of Values

Equality of values as data is decidable: same kind, same parts and, for objects
and functions, same handles. The equality that templates test is coarser.
-/

namespace Stencil.Value

mutual

/-- Decides whether two values are the same in every part, handles included. -/
def decEq : (a b : Value) → Decidable (a = b)
  | .null, b => by cases b <;> first | exact isTrue rfl | exact isFalse nofun
  | .bool x, b => match b with
    | .bool y => decidable_of_iff (x = y) (by simp)
    | .null | .int _ | .float _ | .string _ | .list _
    | .tuple _ | .map _ | .object .. | .function .. => isFalse nofun
  | .int x, b => match b with
    | .int y => decidable_of_iff (x = y) (by simp)
    | .null | .bool _ | .float _ | .string _ | .list _
    | .tuple _ | .map _ | .object .. | .function .. => isFalse nofun
  | .float x, b => match b with
    | .float y => decidable_of_iff (x = y) (by simp)
    | .null | .bool _ | .int _ | .string _ | .list _
    | .tuple _ | .map _ | .object .. | .function .. => isFalse nofun
  | .string x, b => match b with
    | .string y => decidable_of_iff (x = y) (by simp)
    | .null | .bool _ | .int _ | .float _ | .list _
    | .tuple _ | .map _ | .object .. | .function .. => isFalse nofun
  | .list x, b => match b with
    | .list y => @decidable_of_iff _ (x = y) (by simp) (decEqItems x y)
    | .null | .bool _ | .int _ | .float _ | .string _
    | .tuple _ | .map _ | .object .. | .function .. => isFalse nofun
  | .tuple x, b => match b with
    | .tuple y => @decidable_of_iff _ (x = y) (by simp) (decEqItems x y)
    | .null | .bool _ | .int _ | .float _ | .string _
    | .list _ | .map _ | .object .. | .function .. => isFalse nofun
  | .map x, b => match b with
    | .map y => @decidable_of_iff _ (x = y) (by simp) (decEqEntries x y)
    | .null | .bool _ | .int _ | .float _ | .string _
    | .list _ | .tuple _ | .object .. | .function .. => isFalse nofun
  | .object h t x, b => match b with
    | .object i u y =>
      @decidable_of_iff _ ((h = i ∧ t = u) ∧ x = y) (by simp [and_assoc])
        (@instDecidableAnd _ _ _ (decEqEntries x y))
    | .null | .bool _ | .int _ | .float _ | .string _ | .list _ | .tuple _ | .map _
    | .function .. => isFalse nofun
  | .function h x, b => match b with
    | .function i y =>
      @decidable_of_iff _ (h = i ∧ x = y) (by simp) (@instDecidableAnd _ _ _ (decEq x y))
    | .null | .bool _ | .int _ | .float _ | .string _
    | .list _ | .tuple _ | .map _ | .object .. => isFalse nofun

/-- Decides whether two sequences of values are the same. -/
def decEqItems : (as bs : List Value) → Decidable (as = bs)
  | [], [] => isTrue rfl
  | [], _ :: _ => isFalse nofun
  | _ :: _, [] => isFalse nofun
  | a :: as, b :: bs =>
    @decidable_of_iff _ (a = b ∧ as = bs) (by simp)
      (@instDecidableAnd _ _ (decEq a b) (decEqItems as bs))

/-- Decides whether two sequences of entries are the same. -/
def decEqEntries : (as bs : List (String × Value)) → Decidable (as = bs)
  | [], [] => isTrue rfl
  | [], _ :: _ => isFalse nofun
  | _ :: _, [] => isFalse nofun
  | (k, a) :: as, (l, b) :: bs =>
    @decidable_of_iff _ (k = l ∧ a = b ∧ as = bs) (by simp [and_assoc])
      (@instDecidableAnd _ _ _ (@instDecidableAnd _ _ (decEq a b) (decEqEntries as bs)))
end
instance : DecidableEq Value := decEq

end Stencil.Value
