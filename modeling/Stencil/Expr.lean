-- SUMMARY: Operands of tags: literals and names.
import Stencil.Literal
import Stencil.Path
import Stencil.Value.Decidable

/-!
# Operands

An operand is a literal if it reads as one, and otherwise a name to look up
when the template is rendered.
-/

namespace Stencil

/-- An operand of a tag. -/
inductive Expr where
  | literal (value : Value)
  | name (path : Path)
deriving DecidableEq

/-- The operand that a text writes. -/
def Expr.ofString (source : String) : Expr :=
  match Literal.read? source with
  | some v => .literal v
  | none => .name (Path.ofString (Text.trim source))

end Stencil
