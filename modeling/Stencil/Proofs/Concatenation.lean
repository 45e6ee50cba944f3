-- SUMMARY: Token lists one after another: their trees stand side by side, and what a tree renders does not depend on where its tokens were.
import Stencil.Proofs.BlockGrammar
import Stencil.Template

/-!
# Concatenation

Tokens that come after a list with a tree are read as if they stood alone: what
is finished before them stays in front, and where they are in the source shows
only in the locations of nodes and errors. Rendering does not look at locations,
so a list of tokens with a tree stands for a rendering, and two such lists one
after another stand for the two renderings one after another.
-/

namespace Stencil

/-! ## Changing locations -/

def Token.relocate (f : Location → Location) (t : Token) : Token :=
  ⟨t.kind, t.raw, t.content, f t.location⟩

/-- The same error at another place. Only malformed templates have a place. -/
def TemplateError.relocate (f : Location → Location) : TemplateError → TemplateError
  | .malformed fault location length => .malformed fault (f location) length
  | e => e

namespace Node

mutual

/-- The same tree with other locations. -/
def relocate (f : Location → Location) : Node → Node
  | .root children => .root (relocateAll f children)
  | .text content location => .text content (f location)
  | .placeholder path location => .placeholder path (f location)
  | .forLoop binding iterable children location =>
    .forLoop binding iterable (relocateAll f children) (f location)
  | .conditional test children location => .conditional test (relocateAll f children) (f location)
  | .elseBranch children location => .elseBranch (relocateAll f children) (f location)

def relocateAll (f : Location → Location) : List Node → List Node
  | [] => []
  | node :: nodes => relocate f node :: relocateAll f nodes

end

theorem relocateAll_append (f : Location → Location) (nodes more : List Node) :
    relocateAll f (nodes ++ more) = relocateAll f nodes ++ relocateAll f more := by
  induction nodes with
  | nil => rfl
  | cons node nodes ih => simp only [List.cons_append, relocateAll, ih]

section

variable {σ : Type} [Scope σ]

mutual

/-- What a tree renders does not depend on its locations. -/
theorem render_relocate (f : Location → Location) :
    (node : Node) → ((relocate f node).render : Rendering σ) = node.render
  | .root children => by simp only [relocate, render, renderAll_relocate f children]
  | .text .. => by simp only [relocate, render]
  | .placeholder .. => by simp only [relocate, render]
  | .forLoop _ _ children _ => by simp only [relocate, render, renderAll_relocate f children]
  | .conditional _ children _ => by
    simp only [relocate, render, renderAll_relocate f children, renderElse_relocate f children]
  | .elseBranch .. => by simp only [relocate, render]

theorem renderAll_relocate (f : Location → Location) :
    (nodes : List Node) → (renderAll (relocateAll f nodes) : Rendering σ) = renderAll nodes
  | [] => rfl
  | node :: nodes => by
    simp only [relocateAll, renderAll, render_relocate f node, renderAll_relocate f nodes]

theorem renderElse_relocate (f : Location → Location) :
    (nodes : List Node) → (renderElse (relocateAll f nodes) : Rendering σ) = renderElse nodes
  | [] => rfl
  | .elseBranch children _ :: _ => by
    simp only [relocateAll, relocate, renderElse, renderAll_relocate f children]
  | .root _ :: nodes | .text .. :: nodes | .placeholder .. :: nodes | .forLoop .. :: nodes
  | .conditional .. :: nodes => by
    simp only [relocateAll, relocate, renderElse, renderElse_relocate f nodes]

end

end

end Node

/-! ## Outlines within a longer list of tokens -/

def OpenBlock.relocate (f : Location → Location) (b : OpenBlock) : OpenBlock :=
  ⟨b.head, b.opener.relocate f, Node.relocateAll f b.children⟩

theorem OpenBlock.toNode_relocate (f : Location → Location) (b : OpenBlock) :
    (b.relocate f).toNode = b.toNode.relocate f := by
  rcases b with ⟨head, opener, children⟩
  cases head <;> simp [relocate, toNode, BlockHead.toNode, Node.relocate, Token.relocate]

namespace Outline

variable (before : List Node) (f : Location → Location)

/-- The outline as part of a longer one: finished nodes stand before it, and its
locations have changed. -/
def within (o : Outline) : Outline :=
  ⟨o.blocks.map (OpenBlock.relocate f), before ++ Node.relocateAll f o.finished⟩

theorem within_add (o : Outline) (node : Node) :
    (o.add node).within before f = (o.within before f).add (node.relocate f) := by
  rcases o with ⟨blocks, finished⟩
  cases blocks with
  | nil => simp [within, add, Node.relocateAll_append, Node.relocateAll]
  | cons b rest =>
    simp [within, add, OpenBlock.relocate, Node.relocateAll_append, Node.relocateAll]

theorem within_pop (o : Outline) : o.pop.within before f = (o.within before f).pop := by
  rcases o with ⟨blocks, finished⟩
  cases blocks with
  | nil => rfl
  | cons b rest =>
    have hrest := within_add before f ⟨rest, finished⟩ b.toNode
    rw [← OpenBlock.toNode_relocate] at hrest
    exact hrest

theorem take_within (o : Outline) (t : Token) (tag : Tag) :
    (o.within before f).take (t.relocate f) tag = (o.take t tag).map (within before f) := by
  cases tag with
  | text => exact congrArg Except.ok (within_add before f o (.text t.raw t.location)).symm
  | placeholder path =>
    exact congrArg Except.ok (within_add before f o (.placeholder path t.location)).symm
  | forLoop name iterable => rfl
  | conditional test => rfl
  | inert => rfl
  | otherwise =>
    rcases o with ⟨blocks, finished⟩
    cases blocks with
    | nil => rfl
    | cons b rest =>
      rcases b with ⟨head, opener, children⟩
      cases head <;> rfl
  | close closer =>
    have hpop := within_pop before f o
    have hpops := within_pop before f o.pop
    rw [hpop] at hpops
    rcases o with ⟨blocks, finished⟩
    cases blocks with
    | nil => rfl
    | cons b rest =>
      rcases b with ⟨head, opener, children⟩
      cases head with
      | forLoop name iterable =>
        cases closer with
        | endfor => exact congrArg Except.ok hpop.symm
        | endif => rfl
      | conditional test =>
        cases closer with
        | endfor => rfl
        | endif => exact congrArg Except.ok hpop.symm
      | elseBranch =>
        cases closer with
        | endfor => rfl
        | endif => exact congrArg Except.ok hpops.symm

/-- A result in a longer list of tokens: an error is at its new place. -/
def resultWithin (result : Except TemplateError Outline) : Except TemplateError Outline :=
  (result.map (within before f)).mapError (TemplateError.relocate f)

theorem step_within (o : Outline) (t : Token) :
    (o.within before f).step (t.relocate f) = resultWithin before f (o.step t) := by
  have htag : Tag.ofToken (t.relocate f) = Tag.ofToken t := rfl
  unfold step
  rw [htag]
  cases Tag.ofToken t with
  | error fault => rfl
  | ok tag =>
    simp only [Except.bind, take_within]
    cases o.take t tag with
    | error fault => rfl
    | ok o' => rfl

theorem foldlM_step_within (o : Outline) (ts : List Token) :
    (ts.map (Token.relocate f)).foldlM step (o.within before f)
      = resultWithin before f (ts.foldlM step o) := by
  induction ts generalizing o with
  | nil => rfl
  | cons t ts ih =>
    rw [List.map_cons, List.foldlM_cons, List.foldlM_cons, step_within]
    cases o.step t with
    | error e => rfl
    | ok o' => exact ih o'

theorem Runs.exists_of_append {o o' : Outline} {ts us : List Token} (h : Runs o (ts ++ us) o') :
    ∃ m, Runs o ts m ∧ Runs m us o' := by
  unfold Runs at h
  rw [List.foldlM_append] at h
  cases hm : ts.foldlM step o with
  | error e =>
    rw [hm] at h
    cases h
  | ok m =>
    rw [hm] at h
    exact ⟨m, hm, h⟩

end Outline

/-- After tokens that have a tree, others are read as if they stood alone. Their
nodes come after the ones before, and so do the places of their errors. -/
theorem Node.ofTokens_append (f : Location → Location) {ts : List Token} {nodes : List Node}
    (h : ofTokens ts = .ok (.root nodes)) (us : List Token) :
    ofTokens (ts ++ us.map (Token.relocate f))
      = ((ofTokens us).map fun root => .root (nodes ++ relocateAll f root.children)).mapError
          (TemplateError.relocate f) := by
  obtain ⟨o, hruns, hfinish⟩ := ofTokens_eq_ok_iff.1 h
  obtain ⟨hheads, hroot⟩ := Outline.finish_eq_ok_iff.1 hfinish
  have ho : o = Outline.start.within nodes f := by
    rcases o with ⟨blocks, finished⟩
    obtain rfl : blocks = [] := List.map_eq_nil_iff.1 hheads
    obtain rfl : nodes = finished := Node.root.inj hroot
    simp [Outline.within, Outline.start, relocateAll]
  subst ho
  unfold ofTokens
  rw [List.foldlM_append, show ts.foldlM Outline.step Outline.start = .ok _ from hruns]
  show Except.bind ((us.map (Token.relocate f)).foldlM Outline.step _) Outline.finish = _
  rw [Outline.foldlM_step_within]
  cases us.foldlM Outline.step Outline.start with
  | error e => rfl
  | ok o' =>
    rcases o' with ⟨blocks, finished⟩
    cases blocks with
    | nil => rfl
    | cons b rest => rfl

/-! ## Token lists that render -/

section

variable {σ : Type} [Scope σ]

/-- The tokens have a tree, and it renders as `r`. -/
def Token.RenderAs (ts : List Token) (r : Rendering σ) : Prop :=
  ∃ nodes, Node.ofTokens ts = .ok (.root nodes) ∧ Node.renderAll nodes = r

namespace Token.RenderAs

open Rendering

variable {ts us : List Token} {t : Token} {r s : Rendering σ}

theorem of_ofTokens {root : Node} (h : Node.ofTokens ts = .ok root) :
    RenderAs ts (root.render : Rendering σ) := by
  obtain ⟨o, -, hfinish⟩ := Node.ofTokens_eq_ok_iff.1 h
  obtain ⟨-, rfl⟩ := Outline.finish_eq_ok_iff.1 hfinish
  exact ⟨o.finished, h, by simp only [Node.render]⟩

theorem nil : RenderAs [] (skip : Rendering σ) := ⟨[], rfl, rfl⟩

theorem text (ht : t.kind = .text) : RenderAs [t] (emit t.raw : Rendering σ) := by
  refine ⟨[.text t.raw t.location], ?_, ?_⟩
  · have hstep : Outline.start.step t = .ok ⟨[], [.text t.raw t.location]⟩ :=
      Outline.step_eq_ok_iff.2 ⟨.text, Token.IsText.ofToken ht, rfl⟩
    exact Node.ofTokens_eq_ok_iff.2 ⟨_, .cons hstep (.nil _), rfl⟩
  · simp only [Node.renderAll, Node.render, andThen_skip]

theorem unique (h : RenderAs ts r) (h' : RenderAs ts s) : r = s := by
  obtain ⟨nodes, htree, rfl⟩ := h
  obtain ⟨nodes', htree', rfl⟩ := h'
  rw [htree] at htree'
  cases htree'
  rfl

theorem append (f : Location → Location) (h : RenderAs ts r) (h' : RenderAs us s) :
    RenderAs (ts ++ us.map (relocate f)) (r.andThen s) := by
  obtain ⟨nodes, htree, rfl⟩ := h
  obtain ⟨nodes', htree', rfl⟩ := h'
  refine ⟨nodes ++ Node.relocateAll f nodes', ?_, ?_⟩
  · rw [Node.ofTokens_append f htree, htree']
    rfl
  · rw [Node.renderAll_append, Node.renderAll_relocate]

theorem map_relocate_id (ts : List Token) : ts.map (relocate id) = ts := List.map_id ts

/-- Text in front renders first, and what follows it has a tree of its own. -/
theorem exists_of_cons (ht : t.kind = .text) (h : RenderAs (t :: ts) r) :
    ∃ s, RenderAs ts s ∧ r = (emit t.raw).andThen s := by
  obtain ⟨nodes, htree, -⟩ := id h
  obtain ⟨first, htext, -⟩ := text (σ := σ) ht
  have happend := Node.ofTokens_append id htext ts
  rw [map_relocate_id, List.singleton_append, htree] at happend
  cases hrest : Node.ofTokens ts with
  | error e =>
    rw [hrest] at happend
    cases happend
  | ok root =>
    have hs : RenderAs ts (root.render : Rendering σ) := of_ofTokens hrest
    have hall := (text ht).append id hs
    rw [map_relocate_id] at hall
    exact ⟨_, hs, h.unique hall⟩

/-- Text at the end renders last, and what precedes it has a tree of its own. -/
theorem exists_of_concat (ht : t.kind = .text) (h : RenderAs (ts ++ [t]) r) :
    ∃ s, RenderAs ts s ∧ r = s.andThen (emit t.raw) := by
  obtain ⟨nodes, htree, -⟩ := id h
  obtain ⟨o, hruns, hfinish⟩ := Node.ofTokens_eq_ok_iff.1 htree
  obtain ⟨m, hruns, hlast⟩ := hruns.exists_of_append
  obtain ⟨o', hstep, hnil⟩ := hlast.exists_of_cons
  cases hnil
  -- Text closes nothing, so nothing is open before it.
  obtain ⟨tag, htag, htake⟩ := Outline.step_eq_ok_iff.1 hstep
  rw [Token.IsText.ofToken ht] at htag
  cases htag
  have hheads : m.heads = [] := by
    cases htake
    have hfinal := (Outline.finish_eq_ok_iff.1 hfinish).1
    rwa [Outline.heads_add] at hfinal
  have hs : RenderAs ts ((Node.root m.finished).render : Rendering σ) :=
    of_ofTokens (Node.ofTokens_eq_ok_iff.2
      ⟨m, hruns, Outline.finish_eq_ok_iff.2 ⟨hheads, rfl⟩⟩)
  have hall := hs.append id (text ht)
  rw [map_relocate_id] at hall
  exact ⟨_, hs, h.unique hall⟩

end Token.RenderAs

end

end Stencil
