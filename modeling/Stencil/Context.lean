-- SUMMARY: Contexts and scopes: where names get their values while a template is rendered.
import Stencil.Dictionary
import Stencil.Value

/-!
# Contexts and Scopes

A context maps names to values. A scope is whatever names can be looked up in
and bound in: a context itself, or a context with a layer of local bindings
that shadow it and leave it as it is.
-/

namespace Stencil

/-- Names with their values. -/
abbrev Context := Dictionary Value

/-- Name lookup and binding. -/
class Scope (σ : Type) where
  /-- The value of a name. -/
  lookup : σ → String → Option Value
  /-- Gives a name a value. -/
  bind : σ → String → Value → σ

instance : Scope Context where
  lookup := Dictionary.get?
  bind := Dictionary.insert

/-- A context under local bindings. -/
structure Layered where
  base : Context
  locals : Context

namespace Layered

/-- A context without local bindings yet. -/
def ofContext (base : Context) : Layered := ⟨base, .empty⟩

/-- The context with the local bindings written into it. -/
def flatten (l : Layered) : Context := l.base.insertAll l.locals.entries

end Layered

instance : Scope Layered where
  lookup l name := (l.locals.get? name).or (l.base.get? name)
  bind l name value := ⟨l.base, l.locals.insert name value⟩

end Stencil
