-- SUMMARY: Scopes that rendering cannot tell apart: what a tree shows in two scopes that agree on the names it reads.
import Stencil.Render

/-!
# Bisimilar Scopes

Rendering uses a scope in two ways only: it looks names up and it binds names.
A relation between two kinds of scopes that forces equal lookups and survives
equal bindings is therefore kept by every rendering, and all that a rendering
shows is the same on both sides: its output or error, and the outcome of every
condition that it tests on the way.

Lookups have to agree only on the names that a tree reads, so the relation may
leave all other names open.
-/

namespace Stencil

open Rendering

variable {σ τ : Type}

/-! ## The names that a tree reads -/

def Expr.roots : Expr → List String
  | .literal _ => []
  | .name path => [path.root]

def Condition.roots : Condition → List String
  | .truthy operand => operand.roots
  | .compare left _ right => left.roots ++ right.roots
  | .identity left _ right => left.roots ++ right.roots

namespace Node

mutual

/-- The root names of all paths in a tree. -/
def roots : Node → List String
  | .root children => rootsAll children
  | .text .. => []
  | .placeholder path _ => [path.root]
  | .forLoop _ iterable children _ => iterable.roots ++ rootsAll children
  | .conditional test children _ => test.roots ++ rootsAll children
  | .elseBranch children _ => rootsAll children

def rootsAll : List Node → List String
  | [] => []
  | node :: nodes => roots node ++ rootsAll nodes

end

end Node

/-! ## The conditions that a rendering tests -/

/-- A condition that was tested, and what came of it. -/
abbrev Trial := Condition × Except TemplateError Bool

/-- What is seen in the scope that a rendering leaves; nothing if it fails. -/
def Rendering.after {α : Type} (r : Rendering σ) (seen : σ → List α) : σ → List α := fun s =>
  match (r s).output with
  | .error _ => []
  | .ok _ => seen (r s).scope

/-- What is seen in the rounds of a loop, up to the first round that fails. -/
def Rendering.seenInRounds {α : Type} [Scope σ] (name : String) (body : Rendering σ)
    (seen : σ → List α) : Nat → List Value → σ → List α
  | _, [] => fun _ => []
  | round, item :: items =>
    (binding indexName (.ofInt round)).after <|
      (binding name item).after fun s =>
        seen s ++ body.after (seenInRounds name body seen (round + 1) items) s

namespace Node

variable [Scope σ]

mutual

/-- The conditions that rendering a tree tests, in order, with their outcomes. -/
def trials : Node → σ → List Trial
  | .root children, s => trialsAll children s
  | .text .., _ => []
  | .placeholder .., _ => []
  | .forLoop name iterable children _, s =>
    match iterable.items s with
    | .error _ => []
    | .ok items => seenInRounds name (renderAll children) (trialsAll children) 0 items s
  | .conditional test children _, s =>
    (test, test.holds s) ::
      match test.holds s with
      | .error _ => []
      | .ok true => trialsAll children s
      | .ok false => trialsElse children s
  | .elseBranch .., _ => []

def trialsAll : List Node → σ → List Trial
  | [], _ => []
  | node :: nodes, s => trials node s ++ (render node).after (trialsAll nodes) s

def trialsElse : List Node → σ → List Trial
  | [], _ => []
  | .elseBranch children _ :: _, s => trialsAll children s
  | _ :: nodes, s => trialsElse nodes s

end

end Node

/-! ## Bisimulations -/

section

variable [Scope σ] [Scope τ] {s : σ} {t : τ} {P : String → Prop} {R : σ → τ → Prop}

/-- Related scopes agree on the names with `P`, and stay related when a name is
bound in both. -/
structure Bisimulation (P : String → Prop) (R : σ → τ → Prop) : Prop where
  lookup : ∀ {s t}, R s t → ∀ name, P name → Scope.lookup s name = Scope.lookup t name
  bind : ∀ {s t}, R s t → ∀ name v, R (Scope.bind s name v) (Scope.bind t name v)

namespace Bisimulation

theorem resolve_path (hR : Bisimulation P R) (h : R s t) {p : Path} (hp : P p.root) :
    p.resolve s = p.resolve t := by
  unfold Path.resolve
  rw [hR.lookup h p.root hp]

theorem resolve (hR : Bisimulation P R) (h : R s t) {e : Expr} (he : ∀ name ∈ e.roots, P name) :
    e.resolve s = e.resolve t := by
  cases e with
  | literal v => rfl
  | name path => exact hR.resolve_path h (he path.root (by simp [Expr.roots]))

theorem items (hR : Bisimulation P R) (h : R s t) {e : Expr} (he : ∀ name ∈ e.roots, P name) :
    e.items s = e.items t := by
  unfold Expr.items
  rw [hR.resolve h he]

theorem holds (hR : Bisimulation P R) (h : R s t) {c : Condition}
    (hc : ∀ name ∈ c.roots, P name) : c.holds s = c.holds t := by
  cases c with
  | truthy operand =>
    cases operand with
    | literal v => rfl
    | name path =>
      have hp : P path.root := hc path.root (by simp [Condition.roots, Expr.roots])
      simp only [Condition.holds]
      rw [hR.lookup h path.root hp, hR.resolve_path h hp]
  | compare left op right =>
    obtain ⟨hleft, hright⟩ := List.forall_mem_append.1 hc
    simp only [Condition.holds, hR.resolve h hleft, hR.resolve h hright]
  | identity left negated right =>
    obtain ⟨hleft, hright⟩ := List.forall_mem_append.1 hc
    simp only [Condition.holds, hR.resolve h hleft, hR.resolve h hright]

end Bisimulation

end

/-! ## Renderings that simulate each other -/

/-- From related scopes, both renderings come to the same output or error and
to related scopes. -/
def Rendering.Simulates (R : σ → τ → Prop) (f : Rendering σ) (g : Rendering τ) : Prop :=
  ∀ s t, R s t → (f s).output = (g t).output ∧ R (f s).scope (g t).scope

namespace Rendering.Simulates

variable {R : σ → τ → Prop} {α : Type}

theorem emit (text : String) : Simulates R (emit text) (emit text) :=
  fun _ _ h => ⟨rfl, h⟩

theorem andThen {f₁ f₂ : Rendering σ} {g₁ g₂ : Rendering τ} (h₁ : Simulates R f₁ g₁)
    (h₂ : Simulates R f₂ g₂) : Simulates R (f₁.andThen f₂) (g₁.andThen g₂) := by
  intro s t h
  obtain ⟨hout, hscope⟩ := h₁ s t h
  simp only [Rendering.andThen, ← hout]
  cases (f₁ s).output with
  | error e => exact ⟨rfl, hscope⟩
  | ok text =>
    obtain ⟨hout₂, hscope₂⟩ := h₂ _ _ hscope
    refine ⟨?_, hscope₂⟩
    simp only [hout₂]

theorem reading {ask : σ → Except TemplateError α} {ask' : τ → Except TemplateError α}
    {next : α → Rendering σ} {next' : α → Rendering τ} (hask : ∀ s t, R s t → ask s = ask' t)
    (hnext : ∀ a, Simulates R (next a) (next' a)) :
    Simulates R (reading ask next) (reading ask' next') := by
  intro s t h
  simp only [Rendering.reading, ← hask s t h]
  cases ask s with
  | error e => exact ⟨rfl, h⟩
  | ok a => exact hnext a s t h

/-- What is seen after two renderings is the same if it is the same in all
related scopes. -/
theorem after_eq {f : Rendering σ} {g : Rendering τ} {seen : σ → List α} {seen' : τ → List α}
    (hf : Simulates R f g) (hseen : ∀ s t, R s t → seen s = seen' t) {s : σ} {t : τ}
    (h : R s t) : f.after seen s = g.after seen' t := by
  obtain ⟨hout, hscope⟩ := hf s t h
  simp only [after, ← hout]
  cases (f s).output with
  | error e => rfl
  | ok text => exact hseen _ _ hscope

end Rendering.Simulates

namespace Bisimulation

variable [Scope σ] [Scope τ] {P : String → Prop} {R : σ → τ → Prop}

theorem simulates_binding (hR : Bisimulation P R) (name : String) (v : Value) :
    Simulates R (binding name v) (binding name v) :=
  fun _ _ h => ⟨rfl, hR.bind h name v⟩

theorem simulates_forEach (hR : Bisimulation P R) (name : String) {body : Rendering σ}
    {body' : Rendering τ} (hbody : Simulates R body body') (round : Nat) (items : List Value) :
    Simulates R (forEach name body round items) (forEach name body' round items) := by
  induction items generalizing round with
  | nil => exact Simulates.emit ""
  | cons item items ih =>
    refine (hR.simulates_binding indexName (.ofInt round)).andThen ?_
    refine (hR.simulates_binding name item).andThen ?_
    exact hbody.andThen (ih (round + 1))

theorem seenInRounds_eq {α : Type} (hR : Bisimulation P R) (name : String) {body : Rendering σ}
    {body' : Rendering τ} (hbody : Simulates R body body') {seen : σ → List α}
    {seen' : τ → List α} (hseen : ∀ s t, R s t → seen s = seen' t) (round : Nat)
    (items : List Value) {s : σ} {t : τ} (h : R s t) :
    seenInRounds name body seen round items s = seenInRounds name body' seen' round items t := by
  induction items generalizing round s t with
  | nil => rfl
  | cons item items ih =>
    refine (hR.simulates_binding indexName (.ofInt round)).after_eq (fun s t h => ?_) h
    refine (hR.simulates_binding name item).after_eq (fun s t h => ?_) h
    rw [hseen s t h, hbody.after_eq (fun s t h => ih (round + 1) h) h]

/-! ## Trees -/

mutual

/-- A tree renders alike in related scopes, if they agree on the names that it
reads. -/
theorem simulates_render (hR : Bisimulation P R) : (node : Node) →
    (∀ name ∈ node.roots, P name) → Simulates R node.render node.render
  | .root children, hP => by
    simp only [Node.render]
    exact hR.simulates_renderAll children hP
  | .text content _, _ => by
    simp only [Node.render]
    exact Simulates.emit content
  | .placeholder path _, hP => by
    simp only [Node.render]
    apply Simulates.reading
    · intro s t h
      exact hR.resolve_path h (hP path.root (by simp [Node.roots]))
    · intro r
      exact Simulates.emit _
  | .forLoop name iterable children _, hP => by
    obtain ⟨hiterable, hchildren⟩ := List.forall_mem_append.1 hP
    simp only [Node.render]
    apply Simulates.reading
    · intro s t h
      exact hR.items h hiterable
    · intro items
      exact hR.simulates_forEach name (hR.simulates_renderAll children hchildren) 0 items
  | .conditional test children _, hP => by
    obtain ⟨htest, hchildren⟩ := List.forall_mem_append.1 hP
    simp only [Node.render]
    apply Simulates.reading
    · intro s t h
      exact hR.holds h htest
    · intro holds
      cases holds with
      | true => exact hR.simulates_renderAll children hchildren
      | false => exact hR.simulates_renderElse children hchildren
  | .elseBranch .., _ => by
    simp only [Node.render]
    exact Simulates.emit ""

theorem simulates_renderAll (hR : Bisimulation P R) : (nodes : List Node) →
    (∀ name ∈ Node.rootsAll nodes, P name) →
    Simulates R (Node.renderAll nodes) (Node.renderAll nodes)
  | [], _ => by
    simp only [Node.renderAll]
    exact Simulates.emit ""
  | node :: nodes, hP => by
    obtain ⟨hnode, hnodes⟩ := List.forall_mem_append.1 hP
    simp only [Node.renderAll]
    exact (hR.simulates_render node hnode).andThen (hR.simulates_renderAll nodes hnodes)

theorem simulates_renderElse (hR : Bisimulation P R) : (nodes : List Node) →
    (∀ name ∈ Node.rootsAll nodes, P name) →
    Simulates R (Node.renderElse nodes) (Node.renderElse nodes)
  | [], _ => by
    simp only [Node.renderElse]
    exact Simulates.emit ""
  | node :: nodes, hP => by
    obtain ⟨hnode, hnodes⟩ := List.forall_mem_append.1 hP
    have hrest := hR.simulates_renderElse nodes hnodes
    cases node with
    | elseBranch children location =>
      simp only [Node.renderElse]
      exact hR.simulates_renderAll children hnode
    | _ =>
      simp only [Node.renderElse]
      exact hrest

end

mutual

/-- A tree tests the same conditions with the same outcomes in related scopes. -/
theorem trials_eq (hR : Bisimulation P R) : (node : Node) → (∀ name ∈ node.roots, P name) →
    ∀ s t, R s t → node.trials s = node.trials t
  | .root children, hP, s, t, h => by
    simp only [Node.trials]
    exact hR.trialsAll_eq children hP s t h
  | .text .., _, _, _, _ => by simp only [Node.trials]
  | .placeholder .., _, _, _, _ => by simp only [Node.trials]
  | .forLoop name iterable children _, hP, s, t, h => by
    obtain ⟨hiterable, hchildren⟩ := List.forall_mem_append.1 hP
    simp only [Node.trials]
    rw [hR.items h hiterable]
    cases iterable.items t with
    | error e => rfl
    | ok items =>
      exact hR.seenInRounds_eq name (hR.simulates_renderAll children hchildren)
        (hR.trialsAll_eq children hchildren) 0 items h
  | .conditional test children _, hP, s, t, h => by
    obtain ⟨htest, hchildren⟩ := List.forall_mem_append.1 hP
    simp only [Node.trials]
    rw [hR.holds h htest]
    refine congrArg _ ?_
    cases test.holds t with
    | error e => rfl
    | ok holds =>
      cases holds with
      | true => exact hR.trialsAll_eq children hchildren s t h
      | false => exact hR.trialsElse_eq children hchildren s t h
  | .elseBranch .., _, _, _, _ => by simp only [Node.trials]

theorem trialsAll_eq (hR : Bisimulation P R) : (nodes : List Node) →
    (∀ name ∈ Node.rootsAll nodes, P name) →
    ∀ s t, R s t → Node.trialsAll nodes s = Node.trialsAll nodes t
  | [], _, _, _, _ => by simp only [Node.trialsAll]
  | node :: nodes, hP, s, t, h => by
    obtain ⟨hnode, hnodes⟩ := List.forall_mem_append.1 hP
    have hrest := hR.trialsAll_eq nodes hnodes
    simp only [Node.trialsAll]
    rw [hR.trials_eq node hnode s t h, (hR.simulates_render node hnode).after_eq hrest h]

theorem trialsElse_eq (hR : Bisimulation P R) : (nodes : List Node) →
    (∀ name ∈ Node.rootsAll nodes, P name) →
    ∀ s t, R s t → Node.trialsElse nodes s = Node.trialsElse nodes t
  | [], _, _, _, _ => by simp only [Node.trialsElse]
  | node :: nodes, hP, s, t, h => by
    obtain ⟨hnode, hnodes⟩ := List.forall_mem_append.1 hP
    have hrest := hR.trialsElse_eq nodes hnodes
    cases node with
    | elseBranch children location =>
      simp only [Node.trialsElse]
      exact hR.trialsAll_eq children hnode s t h
    | _ =>
      simp only [Node.trialsElse]
      exact hrest s t h

end

end Bisimulation

end Stencil
