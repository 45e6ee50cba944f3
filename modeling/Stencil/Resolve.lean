-- SUMMARY: Resolving dotted paths in a scope.
import Stencil.Context
import Stencil.Error
import Stencil.Value.Order

/-!
# Resolving Paths

The root of a path is looked up in the scope. Each further segment leads to an
attribute, else to an item, else to a character; if that is a function, it is
called and its result is used instead. A value that is reached through items
alone is still the one in the scope, in a slot of its own. Whatever comes from
an attribute, a call or a character is a copy without a slot.
-/

namespace Stencil

/-- A place in a scope: a name and the steps from its value. -/
structure Slot where
  root : String
  steps : List Step
deriving DecidableEq, Repr

/-- A value with the slot that holds it, if it is not a copy. -/
structure Resolved where
  value : Value
  slot : Option Slot

namespace Resolved

/-- A value without a slot. -/
def copy (v : Value) : Resolved := ⟨v, none⟩

/-- The value of a name. -/
def ofRoot (name : String) (v : Value) : Resolved := ⟨v, some ⟨name, []⟩⟩

/-- The part that a segment leads to: an attribute, else an item, else a
character. -/
def part? (r : Resolved) (segment : String) : Option Resolved :=
  match r.value.attribute? segment with
  | some v => some (copy v)
  | none =>
    match r.value.locate? segment with
    | some (step, v) => some ⟨v, r.slot.map fun slot => ⟨slot.root, slot.steps ++ [step]⟩⟩
    | none => (r.value.character? segment).map copy

/-- The result of a function; all else stays as it is. -/
def call (r : Resolved) : Resolved :=
  match r.value with
  | .function _ result => copy result
  | _ => r

/-- Follows a segment, and calls the function it leads to. -/
def step? (r : Resolved) (segment : String) : Option Resolved := (r.part? segment).map call

/-- Follows segments one after another. -/
def follow? (r : Resolved) (segments : List String) : Option Resolved :=
  segments.foldlM step? r

/-- Whether two values are identical: in the same slot, or the same by
themselves. -/
def isIdentical (a b : Resolved) : Bool :=
  (match a.slot, b.slot with
    | some s, some t => s == t
    | _, _ => false)
  || a.value.isSame b.value

end Resolved

variable {σ : Type} [Scope σ]

/-- The value of a path in a scope. -/
def Path.resolve (s : σ) (p : Path) : Except TemplateError Resolved :=
  match (Scope.lookup s p.root).bind fun v => (Resolved.ofRoot p.root v).follow? p.rest with
  | some r => .ok r
  | none => .error (.unresolved p)

/-- The value of the path that a text writes, in a context. -/
def Context.resolve (c : Context) (source : String) : Except TemplateError Value :=
  ((Path.ofString source).resolve c).map (·.value)

/-- The value of an operand in a scope. A literal is in no slot. -/
def Expr.resolve (s : σ) : Expr → Except TemplateError Resolved
  | .literal v => .ok (.copy v)
  | .name path => path.resolve s

end Stencil
