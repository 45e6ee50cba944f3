-- SUMMARY: The errors of renderings: each is raised by a node of the tree, and a tree without such a node renders.
import Stencil.Proofs.Layers
import Stencil.Proofs.LoopBindings
import Stencil.Proofs.PathComposition

/-!
# Errors of Renderings

A rendering fails for two reasons only: a path of the tree leads to no value, or a value has
the wrong kind for a loop or for an order. `IsRaisedBy` says of a single node which errors
can come from it, and every error of a rendering is raised by a node of the tree.

Conversely, a tree in which no node depends on the kind of a value renders as soon as its
paths resolve. Without loops nothing is bound, so they only have to resolve in the scope at
the start.
-/

namespace Stencil

open Rendering

/-! ## The errors of a node -/

/-- The operators that need an order between their operands. -/
def CompareOp.ordering : List CompareOp := [.lt, .gt, .le, .ge]

/-- The node runs over a value or puts two values in order. -/
def Node.DependsOnKind : Node → Prop
  | .forLoop .. => True
  | .conditional (.compare _ op _) .. => op ∈ CompareOp.ordering
  | _ => False

/-- The errors that can come from a node itself, apart from the nodes below it. -/
inductive TemplateError.IsRaisedBy (node : Node) : TemplateError → Prop where
  | unresolved {path : Path} (hpath : path ∈ node.paths) : IsRaisedBy node (.unresolved path)
  | mistyped {fault : TypeFault} (hkind : node.DependsOnKind) : IsRaisedBy node (.mistyped fault)

/-- Some node of the tree raises the error. -/
def TemplateError.ComesFrom (tree : Node) (e : TemplateError) : Prop :=
  ∃ node, tree.Contains node ∧ e.IsRaisedBy node

theorem TemplateError.ComesFrom.of_mem_children {parent child : Node} {e : TemplateError}
    (hmem : child ∈ parent.children) (h : e.ComesFrom child) : e.ComesFrom parent := by
  obtain ⟨node, hcontains, hraised⟩ := h
  exact ⟨node, hcontains.of_mem_children hmem, hraised⟩

section

variable {σ : Type} [Scope σ] {s : σ} {e : TemplateError}

theorem Expr.resolve_eq_error {operand : Expr} (h : operand.resolve s = .error e) :
    ∃ path ∈ operand.paths, e = .unresolved path := by
  cases operand with
  | literal v => cases h
  | name path => exact ⟨path, List.mem_cons_self, Path.resolve_eq_error h⟩

theorem Expr.items_eq_error {operand : Expr} (h : operand.items s = .error e) :
    (∃ path ∈ operand.paths, e = .unresolved path) ∨ ∃ fault, e = .mistyped fault := by
  unfold items at h
  cases hresolve : operand.resolve s with
  | error error =>
    rw [hresolve] at h
    cases h
    exact .inl (resolve_eq_error hresolve)
  | ok r =>
    simp only [hresolve] at h
    split at h
    · cases h
    · cases h
      exact .inr ⟨_, rfl⟩

theorem CompareOp.test_eq_error {op : CompareOp} {left right : Value}
    (h : op.test left right = .error e) : op ∈ ordering ∧ ∃ fault, e = .mistyped fault := by
  have hop : op ∈ ordering := by
    cases op with
    | eq => cases h
    | ne => cases h
    | _ => decide
  refine ⟨hop, ?_⟩
  unfold test at h
  cases happly : op.apply left right with
  | error kinds =>
    rw [happly] at h
    cases h
    exact ⟨_, rfl⟩
  | ok result =>
    rw [happly] at h
    cases h

/-- What asks for two operands fails if one of them does, or with their values. -/
theorem Expr.bind_resolve_eq_error {left right : Expr}
    {test : Resolved → Resolved → Except TemplateError Bool}
    (h : ((left.resolve s).bind fun l => (right.resolve s).bind (test l)) = .error e) :
    (∃ path ∈ left.paths ++ right.paths, e = .unresolved path)
      ∨ ∃ l r, test l r = .error e := by
  cases hleft : left.resolve s with
  | error error =>
    rw [hleft] at h
    cases h
    obtain ⟨path, hpath, he⟩ := resolve_eq_error hleft
    exact .inl ⟨path, List.mem_append_left _ hpath, he⟩
  | ok l =>
    rw [hleft] at h
    cases hright : right.resolve s with
    | error error =>
      simp only [Except.bind, hright] at h
      cases h
      obtain ⟨path, hpath, he⟩ := resolve_eq_error hright
      exact .inl ⟨path, List.mem_append_right _ hpath, he⟩
    | ok r =>
      simp only [Except.bind, hright] at h
      exact .inr ⟨l, r, h⟩

/-- A condition fails if an operand does, and else only with an order between two values. -/
theorem Condition.holds_eq_error {test : Condition} (h : test.holds s = .error e) :
    (∃ path ∈ test.paths, e = .unresolved path)
      ∨ ∃ left op right fault,
        test = .compare left op right ∧ op ∈ CompareOp.ordering ∧ e = .mistyped fault := by
  cases test with
  | truthy operand =>
    cases operand with
    | literal v => cases h
    | name path =>
      simp only [holds] at h
      split at h
      · cases h
      · cases hresolve : path.resolve s with
        | error error =>
          rw [hresolve] at h
          cases h
          exact .inl ⟨path, List.mem_cons_self, Path.resolve_eq_error hresolve⟩
        | ok r =>
          rw [hresolve] at h
          cases h
  | compare left op right =>
    rcases Expr.bind_resolve_eq_error h with hpath | ⟨l, r, htest⟩
    · exact .inl hpath
    · obtain ⟨hop, fault, he⟩ := CompareOp.test_eq_error htest
      exact .inr ⟨left, op, right, fault, rfl, hop, he⟩
  | identity left negated right =>
    rcases Expr.bind_resolve_eq_error h with hpath | ⟨l, r, htest⟩
    · exact .inl hpath
    · cases htest

end

/-! ## What a rendering can fail with -/

/-- Wherever the rendering fails, the error has the property. -/
def Rendering.FailsWith {σ : Type} (r : Rendering σ) (P : TemplateError → Prop) : Prop :=
  ∀ s e, (r s).output = .error e → P e

namespace Rendering.FailsWith

variable {σ : Type} {r r₁ r₂ body : Rendering σ} {P Q : TemplateError → Prop}

theorem mono (h : r.FailsWith P) (hPQ : ∀ e, P e → Q e) : r.FailsWith Q :=
  fun s e he => hPQ e (h s e he)

theorem emit (text : String) : (emit text : Rendering σ).FailsWith P := by
  intro s e he
  cases he

theorem andThen (h₁ : r₁.FailsWith P) (h₂ : r₂.FailsWith P) : (r₁.andThen r₂).FailsWith P := by
  intro s e he
  simp only [Rendering.andThen] at he
  cases hfirst : (r₁ s).output with
  | error error =>
    simp only [hfirst] at he
    cases he
    exact h₁ s e hfirst
  | ok text =>
    simp only [hfirst] at he
    cases hsecond : (r₂ (r₁ s).scope).output with
    | error error =>
      rw [hsecond] at he
      cases he
      exact h₂ _ e hsecond
    | ok text' =>
      rw [hsecond] at he
      cases he

theorem reading {α : Type} {ask : σ → Except TemplateError α} {next : α → Rendering σ}
    (hask : ∀ s e, ask s = .error e → P e) (hnext : ∀ a, (next a).FailsWith P) :
    (reading ask next).FailsWith P := by
  intro s e he
  simp only [Rendering.reading] at he
  cases hasked : ask s with
  | error error =>
    rw [hasked] at he
    cases he
    exact hask s e hasked
  | ok a =>
    rw [hasked] at he
    exact hnext a s e he

theorem binding [Scope σ] (name : String) (v : Value) :
    (binding name v : Rendering σ).FailsWith P := by
  intro s e he
  cases he

theorem forEach [Scope σ] (hbody : body.FailsWith P) (name : String) (round : Nat)
    (items : List Value) : (forEach name body round items).FailsWith P := by
  induction items generalizing round with
  | nil => exact emit ""
  | cons item items ih =>
    exact (binding indexName _).andThen ((binding name item).andThen (hbody.andThen (ih _)))

end Rendering.FailsWith

namespace Node

variable {σ : Type} [Scope σ]

omit [Scope σ] in
/-- What comes from among the children of a node comes from the node. -/
theorem failsWith_of_children {r : Rendering σ} {nodes : List Node} {parent : Node}
    (h : r.FailsWith fun e => ∃ node ∈ nodes, e.ComesFrom node) (hnodes : parent.children = nodes) :
    r.FailsWith (TemplateError.ComesFrom parent) := by
  subst hnodes
  refine h.mono fun e he => ?_
  obtain ⟨child, hmem, hcomes⟩ := he
  exact hcomes.of_mem_children hmem

mutual

theorem failsWith_render : (node : Node) →
    (node.render : Rendering σ).FailsWith (TemplateError.ComesFrom node)
  | .root children => by
    simp only [render]
    exact failsWith_of_children (failsWith_renderAll children) rfl
  | .text content _ => by
    simp only [render]
    exact FailsWith.emit content
  | .placeholder path _ => by
    simp only [render]
    refine FailsWith.reading (fun s e he => ?_) fun r => FailsWith.emit _
    rw [Path.resolve_eq_error he]
    exact ⟨_, .self, .unresolved List.mem_cons_self⟩
  | .forLoop name iterable children _ => by
    simp only [render]
    refine FailsWith.reading (fun s e he => ?_) fun items => ?_
    · rcases Expr.items_eq_error he with ⟨path, hpath, rfl⟩ | ⟨fault, rfl⟩
      · exact ⟨_, .self, .unresolved hpath⟩
      · exact ⟨_, .self, .mistyped trivial⟩
    · exact (failsWith_of_children (failsWith_renderAll children) rfl).forEach name 0 items
  | .conditional test children _ => by
    simp only [render]
    refine FailsWith.reading (fun s e he => ?_) fun holds => ?_
    · rcases Condition.holds_eq_error he with
        ⟨path, hpath, rfl⟩ | ⟨left, op, right, fault, rfl, hop, rfl⟩
      · exact ⟨_, .self, .unresolved hpath⟩
      · exact ⟨_, .self, .mistyped hop⟩
    · cases holds with
      | true => exact failsWith_of_children (failsWith_renderAll children) rfl
      | false => exact failsWith_of_children (failsWith_renderElse children) rfl
  | .elseBranch .. => by
    simp only [render]
    exact FailsWith.emit ""

theorem failsWith_renderAll : (nodes : List Node) →
    (renderAll nodes : Rendering σ).FailsWith fun e => ∃ node ∈ nodes, e.ComesFrom node
  | [] => by
    simp only [renderAll]
    exact FailsWith.emit ""
  | node :: nodes => by
    simp only [renderAll]
    refine FailsWith.andThen ?_ ?_
    · exact (failsWith_render node).mono fun e he => ⟨node, List.mem_cons_self, he⟩
    · refine (failsWith_renderAll nodes).mono fun e ⟨later, hmem, he⟩ => ?_
      exact ⟨later, List.mem_cons_of_mem _ hmem, he⟩

theorem failsWith_renderElse : (nodes : List Node) →
    (renderElse nodes : Rendering σ).FailsWith fun e => ∃ node ∈ nodes, e.ComesFrom node
  | [] => by
    simp only [renderElse]
    exact FailsWith.emit ""
  | node :: nodes => by
    have hrest : (renderElse nodes : Rendering σ).FailsWith
        fun e => ∃ later ∈ node :: nodes, e.ComesFrom later := by
      refine (failsWith_renderElse nodes).mono fun e ⟨later, hmem, he⟩ => ?_
      exact ⟨later, List.mem_cons_of_mem _ hmem, he⟩
    cases node with
    | elseBranch children place =>
      simp only [renderElse]
      have hbranch : (renderAll children : Rendering σ).FailsWith
          (TemplateError.ComesFrom (.elseBranch children place)) :=
        failsWith_of_children (failsWith_renderAll children) rfl
      exact hbranch.mono fun e he => ⟨_, List.mem_cons_self, he⟩
    | _ =>
      simp only [renderElse]
      exact hrest

end

end Node

/-! ## Trees that render -/

section

variable {σ : Type} [Scope σ]

/-- The operand has a value in the scope. -/
def Expr.HasValue (s : σ) (operand : Expr) : Prop := ∃ r, operand.resolve s = .ok r

/-- The operands have values in the scope. A single one may also have an unbound root. -/
def Condition.HasValues (s : σ) : Condition → Prop
  | .truthy operand =>
    operand.HasValue s ∨ ∃ path, operand = .name path ∧ Scope.lookup s path.root = none
  | .compare left _ right => left.HasValue s ∧ right.HasValue s
  | .identity left _ right => left.HasValue s ∧ right.HasValue s

/-- What the node prints or tests has values in the scope. -/
def Node.HasValues (s : σ) : Node → Prop
  | .placeholder path _ => (Expr.name path).HasValue s
  | .conditional test .. => test.HasValues s
  | _ => True

/-- The rendering succeeds in the scope and leaves it as it is. -/
def Rendering.SucceedsIn (r : Rendering σ) (s : σ) : Prop := ∃ text, r s = ⟨.ok text, s⟩

variable {s : σ}

omit [Scope σ] in
theorem Rendering.SucceedsIn.emit (text : String) (s : σ) : (emit text).SucceedsIn s := ⟨text, rfl⟩

omit [Scope σ] in
theorem Rendering.SucceedsIn.andThen {r₁ r₂ : Rendering σ} (h₁ : r₁.SucceedsIn s)
    (h₂ : r₂.SucceedsIn s) : (r₁.andThen r₂).SucceedsIn s := by
  obtain ⟨text₁, h₁⟩ := h₁
  obtain ⟨text₂, h₂⟩ := h₂
  refine ⟨text₁ ++ text₂, ?_⟩
  simp only [Rendering.andThen, h₁, h₂]
  rfl

omit [Scope σ] in
theorem Rendering.SucceedsIn.reading {α : Type} {ask : σ → Except TemplateError α} {a : α}
    {next : α → Rendering σ} (hask : ask s = .ok a) (hnext : (next a).SucceedsIn s) :
    (reading ask next).SucceedsIn s := by
  unfold SucceedsIn Rendering.reading
  rw [hask]
  exact hnext

theorem CompareOp.exists_test_eq {op : CompareOp} (hop : op ∉ ordering) (left right : Value) :
    ∃ result, op.test left right = .ok result := by
  cases op with
  | eq => exact ⟨_, rfl⟩
  | ne => exact ⟨_, rfl⟩
  | _ => exact absurd (by decide) hop

theorem Condition.exists_holds_eq {test : Condition} (hvalues : test.HasValues s)
    (hkind : ∀ left op right, test = .compare left op right → op ∉ CompareOp.ordering) :
    ∃ result, test.holds s = .ok result := by
  cases test with
  | truthy operand =>
    cases operand with
    | literal v => exact ⟨_, rfl⟩
    | name path =>
      simp only [holds]
      rcases hvalues with ⟨r, hr⟩ | ⟨other, heq, hroot⟩
      · have hresolve : path.resolve s = .ok r := hr
        split
        · exact ⟨_, rfl⟩
        · rw [hresolve]
          exact ⟨_, rfl⟩
      · cases heq
        rw [hroot]
        exact ⟨_, rfl⟩
  | compare left op right =>
    obtain ⟨⟨l, hl⟩, r, hr⟩ := hvalues
    simp only [holds, hl, hr]
    exact CompareOp.exists_test_eq (hkind left op right rfl) l.value r.value
  | identity left negated right =>
    obtain ⟨⟨l, hl⟩, r, hr⟩ := hvalues
    simp only [holds, hl, hr]
    exact ⟨_, rfl⟩

/-- No node of the tree depends on the kind of a value, and all have their values in the
scope. -/
def Node.IsReady (s : σ) (tree : Node) : Prop :=
  ∀ node, tree.Contains node → ¬node.DependsOnKind ∧ node.HasValues s

namespace Node

theorem IsReady.of_mem_children {parent child : Node} (h : parent.IsReady s)
    (hmem : child ∈ parent.children) : child.IsReady s :=
  fun node hnode => h node (hnode.of_mem_children hmem)

mutual

theorem succeedsIn_render : (node : Node) → node.IsReady s → node.render.SucceedsIn s
  | .root children, h => by
    simp only [render]
    exact succeedsIn_renderAll children fun _ hmem => h.of_mem_children hmem
  | .text content _, _ => by
    simp only [render]
    exact SucceedsIn.emit content s
  | .placeholder path _, h => by
    obtain ⟨r, hr⟩ := (h _ .self).2
    have hresolve : path.resolve s = .ok r := hr
    simp only [render]
    exact SucceedsIn.reading hresolve (SucceedsIn.emit _ s)
  | .forLoop .., h => absurd trivial (h _ .self).1
  | .conditional test children place, h => by
    have hchildren : ∀ child ∈ children, child.IsReady s := fun _ hmem => h.of_mem_children hmem
    obtain ⟨hkind, hvalues⟩ := h _ .self
    obtain ⟨holds, hholds⟩ := Condition.exists_holds_eq hvalues fun left op right heq hop => by
      subst heq
      exact hkind hop
    simp only [render]
    refine SucceedsIn.reading hholds ?_
    cases holds with
    | true => exact succeedsIn_renderAll children hchildren
    | false => exact succeedsIn_renderElse children hchildren
  | .elseBranch .., _ => by
    simp only [render]
    exact SucceedsIn.emit "" s

theorem succeedsIn_renderAll : (nodes : List Node) → (∀ node ∈ nodes, node.IsReady s) →
    (renderAll nodes).SucceedsIn s
  | [], _ => by
    simp only [renderAll]
    exact SucceedsIn.emit "" s
  | node :: nodes, h => by
    obtain ⟨hnode, hnodes⟩ := List.forall_mem_cons.1 h
    simp only [renderAll]
    exact (succeedsIn_render node hnode).andThen (succeedsIn_renderAll nodes hnodes)

theorem succeedsIn_renderElse : (nodes : List Node) → (∀ node ∈ nodes, node.IsReady s) →
    (renderElse nodes).SucceedsIn s
  | [], _ => by
    simp only [renderElse]
    exact SucceedsIn.emit "" s
  | node :: nodes, h => by
    obtain ⟨hnode, hnodes⟩ := List.forall_mem_cons.1 h
    have hrest := succeedsIn_renderElse nodes hnodes
    cases node with
    | elseBranch children place =>
      simp only [renderElse]
      exact succeedsIn_renderAll children fun _ hmem => hnode.of_mem_children hmem
    | _ =>
      simp only [renderElse]
      exact hrest

end

end Node

end

namespace Template

/-- Rendering over a context shows the same as rendering in it. -/
theorem render_eq_output_renderInPlace (t : Template) (c : Context) :
    t.render c = (t.renderInPlace c).output :=
  ((Layered.bisimulation_over c).simulates_render t.root (fun _ _ => trivial) _ c
    (Layered.over_ofContext c)).1

/-- Every error of a rendering names a path of the tree that leads to no value, or is about
the kind of a value in a tree with a loop or an order. A tree without these two renders if
all that it prints and tests has values, but for the unbound roots of single operands. -/
theorem render_error_traceable (t : Template) (c : Context) :
    t.render c = (t.renderInPlace c).output
      ∧ (∀ e, t.render c = .error e →
          (∃ node path, t.root.Contains node ∧ path ∈ node.paths ∧ e = .unresolved path)
            ∨ ∃ fault node, t.root.Contains node ∧ node.DependsOnKind ∧ e = .mistyped fault)
      ∧ ((∀ node, t.root.Contains node → ¬node.DependsOnKind) →
          (∀ node, t.root.Contains node → node.HasValues c) →
          ∃ text, t.render c = .ok text ∧ t.renderInPlace c = ⟨.ok text, c⟩) := by
  have hsame := t.render_eq_output_renderInPlace c
  refine ⟨hsame, ?_, ?_⟩
  · intro e he
    rw [hsame] at he
    obtain ⟨node, hcontains, hraised⟩ := t.root.failsWith_render c e he
    cases hraised with
    | unresolved hpath => exact .inl ⟨node, _, hcontains, hpath, rfl⟩
    | mistyped hkind => exact .inr ⟨_, node, hcontains, hkind, rfl⟩
  · intro hkinds hvalues
    have hready : t.root.IsReady c := fun node hnode => ⟨hkinds node hnode, hvalues node hnode⟩
    obtain ⟨text, htext⟩ := t.root.succeedsIn_render hready
    have hinPlace : t.renderInPlace c = ⟨.ok text, c⟩ := htext
    refine ⟨text, ?_, hinPlace⟩
    rw [hsame, hinPlace]

/-- A placeholder under a condition on a longer path. -/
def guarded : Template :=
  let place : Node := .placeholder ⟨"a", []⟩ ⟨12, 0, 12⟩
  ⟨.root [.conditional (.truthy (.name ⟨"o", ["x"]⟩)) [place] ⟨0, 0, 0⟩],
    "\x7b% if o.x %\x7d\x7b\x7b a \x7d\x7d\x7b% endif %\x7d", defaultFilename⟩

theorem render_error_traceable_guarded :
    let c : Context := .ofList [("a", .int 1)]
    let d : Context := .ofList [("o", .map [])]
    (∀ node, guarded.root.Contains node → ¬node.DependsOnKind)
      ∧ (∀ node, guarded.root.Contains node → node.HasValues c)
      ∧ (∃ text, guarded.render c = .ok text ∧ guarded.renderInPlace c = ⟨.ok text, c⟩)
      ∧ guarded.render d = .error (.unresolved ⟨"o", ["x"]⟩)
      ∧ ((∃ node path, guarded.root.Contains node ∧ path ∈ node.paths
            ∧ TemplateError.unresolved ⟨"o", ["x"]⟩ = .unresolved path)
          ∨ ∃ fault node, guarded.root.Contains node ∧ node.DependsOnKind
            ∧ TemplateError.unresolved ⟨"o", ["x"]⟩ = .mistyped fault) := by
  intro c d
  have hnodes (node) (h : guarded.root.Contains node) : ¬node.DependsOnKind ∧ node.HasValues c := by
    rcases h.eq_or_exists_child with rfl | ⟨test, htest, h⟩
    · exact ⟨nofun, trivial⟩
    obtain rfl := List.mem_singleton.1 htest
    rcases h.eq_or_exists_child with rfl | ⟨place, hplace, h⟩
    · exact ⟨nofun, .inr ⟨_, rfl, rfl⟩⟩
    obtain rfl := List.mem_singleton.1 hplace
    rcases h.eq_or_exists_child with rfl | ⟨below, hbelow, h⟩
    · exact ⟨nofun, _, rfl⟩
    · cases hbelow
  have herror : guarded.render d = .error (.unresolved ⟨"o", ["x"]⟩) := by rfl
  obtain ⟨-, -, hrenders⟩ := render_error_traceable guarded c
  obtain ⟨-, herrors, -⟩ := render_error_traceable guarded d
  have hkinds (node) (h : guarded.root.Contains node) := (hnodes node h).1
  have hvalues (node) (h : guarded.root.Contains node) := (hnodes node h).2
  exact ⟨hkinds, hvalues, hrenders hkinds hvalues, herror, herrors _ herror⟩

end Template

end Stencil
