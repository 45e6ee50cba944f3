-- SUMMARY: Comparison operators and the conditions of `if` tags.
import Stencil.Expr
import Stencil.Value.Order

/-!
# Conditions

A condition tests whether an operand is true, how two operands compare, or
whether they are one and the same.
-/

namespace Stencil

/-- A comparison operator. -/
inductive CompareOp where
  | lt | gt | le | ge | eq | ne
deriving DecidableEq, Repr

namespace CompareOp

/-- All operators. -/
def all : List CompareOp := [.lt, .gt, .le, .ge, .eq, .ne]

/-- How an operator is written. -/
def symbol : CompareOp → String
  | .lt => "<"
  | .gt => ">"
  | .le => "<="
  | .ge => ">="
  | .eq => "=="
  | .ne => "!="

/-- The operator with a given symbol. -/
def ofSymbol? (s : String) : Option CompareOp := all.find? (·.symbol = s)

@[simp] theorem ofSymbol?_symbol (op : CompareOp) : ofSymbol? op.symbol = some op := by
  cases op <;> decide

/-- Whether an operator accepts an ordering. -/
def accepts : CompareOp → Ordering → Bool
  | .lt, o => o.isLT
  | .gt, o => o.isGT
  | .le, o => o.isLE
  | .ge, o => o.isGE
  | .eq, o => o.isEq
  | .ne, o => o.isNe

/-- Applies an operator. Only the four that order can fail, and values without
an order between them fail every one of their tests. -/
def apply (op : CompareOp) (left right : Value) : Except Value.Unorderable Bool :=
  match op with
  | .eq => .ok (left.equal right)
  | .ne => .ok (!left.equal right)
  | _ => (left.order right).map fun o? => o?.any op.accepts

end CompareOp

/-- The condition of an `if` tag. -/
inductive Condition where
  /-- The operand is true. -/
  | truthy (operand : Expr)
  /-- The operands compare as the operator says. -/
  | compare (left : Expr) (op : CompareOp) (right : Expr)
  /-- The operands are one and the same, or not if negated. -/
  | identity (left : Expr) (negated : Bool) (right : Expr)
deriving DecidableEq

end Stencil
