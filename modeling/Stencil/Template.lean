-- SUMMARY: Compiled templates and how to render them.
import Stencil.Node.OfTokens
import Stencil.Render

/-!
# Templates

A template is compiled once and rendered any number of times: over a context
that stays as it is, in a context that takes the loop bindings, or in any
scope.
-/

namespace Stencil

/-- A compiled template. -/
structure Template where
  root : Node
  source : String
  /-- The name of the template in reports. -/
  filename : String

namespace Template

/-- The name of a template that is given none. -/
def defaultFilename : String := "<template>"

/-- Compiles a source. -/
def compile (source : String) (filename : String) : Except TemplateError Template :=
  (Node.ofTokens (tokenize source)).map fun root => ⟨root, source, filename⟩

/-- Renders in any scope. -/
def renderWith {σ : Type} [Scope σ] (t : Template) : Rendering σ := t.root.render

/-- Renders over a context, which keeps its bindings. -/
def render (t : Template) (c : Context) : Except TemplateError String :=
  (t.renderWith (Layered.ofContext c)).output

/-- Renders in a context, which takes the bindings of loops. -/
def renderInPlace (t : Template) (c : Context) : Outcome Context := t.renderWith c

end Template

end Stencil
