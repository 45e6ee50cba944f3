-- SUMMARY: Rendering template trees in a scope.
import Stencil.Node
import Stencil.Resolve

/-!
# Rendering

Rendering turns a scope into an output, or an error, and the scope as it is
afterwards. Loops bind their variable and `index`; the bindings stay, also when
an error ends the rendering. Renderings form a monoid: one after another, with
the outputs joined, as long as there is no error.
-/

namespace Stencil

/-- What rendering comes to: an output or an error, and the scope afterwards. -/
structure Outcome (σ : Type) where
  output : Except TemplateError String
  scope : σ

/-- Something that renders in a scope. -/
abbrev Rendering (σ : Type) := σ → Outcome σ

namespace Rendering

variable {σ : Type}

/-- Puts out a text. -/
def emit (text : String) : Rendering σ := fun s => ⟨.ok text, s⟩

/-- Stops with an error. -/
def fail (e : TemplateError) : Rendering σ := fun s => ⟨.error e, s⟩

/-- Puts out nothing. -/
def skip : Rendering σ := emit ""

/-- Renders one thing and, unless it fails, another one in the scope it leaves. -/
def andThen (first second : Rendering σ) : Rendering σ := fun s =>
  let before := first s
  match before.output with
  | .error e => ⟨.error e, before.scope⟩
  | .ok text =>
    let after := second before.scope
    ⟨after.output.map (text ++ ·), after.scope⟩

/-- Works something out in the scope, fails if that fails, and goes on with it
otherwise. -/
def reading {α : Type} (ask : σ → Except TemplateError α) (next : α → Rendering σ) :
    Rendering σ := fun s =>
  match ask s with
  | .error e => fail e s
  | .ok a => next a s

/-- Binds a name. -/
def binding [Scope σ] (name : String) (v : Value) : Rendering σ := fun s =>
  ⟨.ok "", Scope.bind s name v⟩

/-! ### Renderings form a monoid -/

@[simp] theorem skip_andThen (r : Rendering σ) : skip.andThen r = r := by
  funext s
  simp only [andThen, skip, emit]
  rcases r s with ⟨output, after⟩
  cases output <;> simp [Except.map]

@[simp] theorem andThen_skip (r : Rendering σ) : r.andThen skip = r := by
  funext s
  simp only [andThen, skip, emit]
  rcases r s with ⟨output, after⟩
  cases output <;> simp [Except.map]

theorem andThen_assoc (r₁ r₂ r₃ : Rendering σ) :
    (r₁.andThen r₂).andThen r₃ = r₁.andThen (r₂.andThen r₃) := by
  funext s
  simp only [andThen]
  rcases r₁ s with ⟨output₁, s₁⟩
  cases output₁ with
  | error e => rfl
  | ok text₁ =>
    dsimp only
    rcases r₂ s₁ with ⟨output₂, s₂⟩
    cases output₂ with
    | error e => rfl
    | ok text₂ =>
      dsimp only [Except.map]
      rcases r₃ s₂ with ⟨output₃, s₃⟩
      cases output₃ <;> simp [String.append_assoc]

end Rendering

open Rendering

variable {σ : Type} [Scope σ]

/-! ## Loops and conditions -/

/-- The name that holds the number of the current round of a loop, from zero. -/
def indexName : String := "index"

/-- What a loop over an operand visits. -/
def Expr.items (e : Expr) (s : σ) : Except TemplateError (List Value) :=
  match e.resolve s with
  | .error error => .error error
  | .ok r =>
    match r.value.items? with
    | some items => .ok items
    | none => .error (.mistyped (.notIterable r.value.kind))

/-- Whether a condition holds. A single name whose root has no value counts as
false. -/
def Condition.holds (c : Condition) (s : σ) : Except TemplateError Bool :=
  match c with
  | .truthy (.literal v) => .ok v.isTruthy
  | .truthy (.name path) =>
    if (Scope.lookup s path.root).isNone then .ok false
    else (path.resolve s).map fun r => r.value.isTruthy
  | .compare left op right =>
    (left.resolve s).bind fun l => (right.resolve s).bind fun r => op.test l.value r.value
  | .identity left negated right =>
    (left.resolve s).bind fun l => (right.resolve s).map fun r => l.isIdentical r != negated

/-- Renders a body once for each item, with the number of the round and then
the item bound. -/
def Rendering.forEach (name : String) (body : Rendering σ) : Nat → List Value → Rendering σ
  | _, [] => skip
  | round, item :: items =>
    (binding indexName (.ofInt round)).andThen <|
      (binding name item).andThen <|
        body.andThen (forEach name body (round + 1) items)

/-! ## Trees -/

namespace Node

mutual

/-- Renders a tree. An else branch renders through its conditional only. -/
def render : Node → Rendering σ
  | .root children => renderAll children
  | .text content _ => emit content
  | .placeholder path _ => reading (path.resolve ·) fun r => emit r.value.text
  | .forLoop name iterable children _ =>
    reading iterable.items fun items => forEach name (renderAll children) 0 items
  | .conditional test children _ =>
    reading test.holds fun holds => if holds then renderAll children else renderElse children
  | .elseBranch .. => skip

/-- Renders some trees one after another. -/
def renderAll : List Node → Rendering σ
  | [] => skip
  | node :: nodes => (render node).andThen (renderAll nodes)

/-- Renders the children of the first else branch among some nodes. -/
def renderElse : List Node → Rendering σ
  | [] => skip
  | .elseBranch children _ :: _ => renderAll children
  | _ :: nodes => renderElse nodes

end

/-- Rendering some trees and then others renders them all. -/
theorem renderAll_append (nodes more : List Node) :
    (renderAll (nodes ++ more) : Rendering σ) = (renderAll nodes).andThen (renderAll more) := by
  induction nodes with
  | nil => simp [renderAll]
  | cons node nodes ih => simp [renderAll, ih, andThen_assoc]

end Node

end Stencil
