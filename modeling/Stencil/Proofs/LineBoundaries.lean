-- SUMMARY: Cutting a source after a line feed cuts its compilation and its rendering in two.
import Mathlib
import Stencil.Proofs.Concatenation
import Stencil.Proofs.Pieces

/-!
# Sources Line by Line

No tag reaches over a line feed, so two sources that compile, the first of which
ends with a line feed, compile together. The template that comes of it renders
the first source and then, in the context that this leaves, the second.

At the seam the text that ends the first source and the text that starts the
second become one token. The other tokens are those of the two sources, with the
locations of the second moved.
-/

namespace Stencil

/-! ## Moving locations -/

namespace Location

/-- The location that `l` becomes when the source it is in starts at `base`. -/
def shift (base l : Location) : Location :=
  ⟨base.offset + l.offset, base.row + l.row,
    if l.row = 0 then base.column + l.column else l.column⟩

@[simp] theorem shift_origin (base : Location) : base.shift .origin = base := rfl

theorem shift_step (base l : Location) (c : Char) :
    base.shift (l.step c) = (base.shift l).step c := by
  unfold step
  split
  · simp [shift, Nat.add_assoc]
  · simp only [shift]
    split <;> simp [Nat.add_assoc]

theorem shift_advance (base l : Location) (cs : List Char) :
    base.shift (l.advance cs) = (base.shift l).advance cs := by
  induction cs generalizing l with
  | nil => rfl
  | cons c cs ih =>
    have h := ih (l.step c)
    rw [shift_step] at h
    exact h

end Location

namespace Token

theorem relocate_ofPiece (f : Location → Location) (l : Location) (p : Piece) :
    (ofPiece l p).relocate f = ofPiece (f l) p := by
  cases p <;> rfl

theorem ofPieces_shift (base l : Location) (ps : List Piece) :
    ofPieces (base.shift l) ps = (ofPieces l ps).map (relocate base.shift) := by
  induction ps generalizing l with
  | nil => rfl
  | cons p ps ih =>
    simp only [ofPieces, List.map_cons, relocate_ofPiece, ← Location.shift_advance, ih]

theorem ofPieces_append (l : Location) (ps qs : List Piece) :
    ofPieces l (ps ++ qs) = ofPieces l ps ++ ofPieces (l.advance (ps.flatMap Piece.raw)) qs := by
  induction ps generalizing l with
  | nil => rfl
  | cons p ps ih =>
    simp only [List.cons_append, ofPieces, ih, List.flatMap_cons, Location.advance_append]

end Token

/-! ## Two sources -/

open Rendering Token

theorem Rendering.emit_append {σ : Type} (text more : String) :
    (emit (text ++ more) : Rendering σ) = (emit text).andThen (emit more) := rfl

theorem Rendering.andThen_of_error {σ : Type} {first second : Rendering σ} {s : σ}
    {e : TemplateError} (h : (first s).output = .error e) :
    first.andThen second s = ⟨.error e, (first s).scope⟩ := by
  simp only [andThen, h]

theorem Rendering.andThen_of_ok {σ : Type} {first second : Rendering σ} {s : σ} {text : String}
    (h : (first s).output = .ok text) :
    let after := second (first s).scope
    first.andThen second s = ⟨after.output.map (text ++ ·), after.scope⟩ := by
  simp only [andThen, h]

section

variable {σ : Type} [Scope σ] {s₁ s₂ : String} {r₁ r₂ : Rendering σ}

theorem Token.renderAs_textPiece (l : Location) (chars : List Char) :
    RenderAs [ofPiece l (.text chars)] (emit (String.ofList chars) : Rendering σ) :=
  .text rfl

/-- If the tokens of two sources render, and the first ends with a line feed, the
tokens of both sources together render as the one and then the other. -/
theorem Token.renderAs_tokenize_append (hline : s₁.toList.getLast? = some '\n')
    (h₁ : RenderAs (tokenize s₁) r₁) (h₂ : RenderAs (tokenize s₂) r₂) :
    RenderAs (tokenize (s₁ ++ s₂)) (r₁.andThen r₂) := by
  obtain ⟨ps, chars, hps, happend⟩ := pieces_append hline s₂.toList
  unfold tokenize at h₁ h₂ ⊢
  rw [String.toList_append, happend, ofPieces_append]
  rw [hps, ofPieces_append] at h₁
  generalize Location.advance _ (ps.flatMap Piece.raw) = seam at h₁ ⊢
  generalize pieces s₂.toList = qs at h₂ ⊢
  have hapart (hqs : Piece.consText chars qs = .text chars :: qs) :
      RenderAs (ofPieces .origin ps ++ ofPieces seam (Piece.consText chars qs))
        (r₁.andThen r₂) := by
    have hall := h₁.append (seam.advance chars).shift h₂
    rw [← ofPieces_shift, List.append_assoc] at hall
    rw [hqs]
    exact hall
  cases qs with
  | nil => exact hapart rfl
  | cons q qs =>
    cases q with
    | tag d content => exact hapart rfl
    | text more =>
      -- The two texts at the seam are one token.
      obtain ⟨first, hfirst, rfl⟩ := h₁.exists_of_concat rfl
      obtain ⟨others, hothers, rfl⟩ := h₂.exists_of_cons rfl
      have hseam := hfirst.append id (renderAs_textPiece seam (chars ++ more))
      have hall := hseam.append (seam.advance chars).shift hothers
      rw [← ofPieces_shift, List.append_assoc] at hall
      have hplace : (seam.advance chars).shift (Location.origin.advance more)
          = seam.advance (chars ++ more) := by
        rw [Location.shift_advance, Location.shift_origin, Location.advance_append]
      have hrendering : (first.andThen (emit (String.ofList (chars ++ more)))).andThen others
          = (first.andThen (emit (String.ofList chars))).andThen
              ((emit (String.ofList more)).andThen others) := by
        simp only [String.ofList_append, emit_append, andThen_assoc]
      rw [hrendering] at hall
      simp only [Piece.raw, hplace] at hall
      exact hall

end

theorem Template.compile_eq_ok_iff {source name : String} {t : Template} :
    Template.compile source name = .ok t ↔
      Node.ofTokens (tokenize source) = .ok t.root ∧ t.source = source ∧ t.filename = name := by
  rcases t with ⟨root, source', name'⟩
  unfold Template.compile
  cases Node.ofTokens (tokenize source) with
  | error e => simp [Except.map]
  | ok root' =>
    simp only [Except.map, Except.ok.injEq, Template.mk.injEq]
    exact and_congr_right fun _ => and_congr eq_comm eq_comm

/-- Two sources that compile, the first of which is empty or ends with a line
feed, compile together. In every context the template renders as the first one
does and then, unless that fails, as the second one does in the context that the
first one leaves. -/
theorem Template.compile_append_line {s₁ s₂ name₁ name₂ : String} {t₁ t₂ : Template}
    (hline : s₁ = "" ∨ s₁.toList.getLast? = some '\n')
    (h₁ : Template.compile s₁ name₁ = .ok t₁) (h₂ : Template.compile s₂ name₂ = .ok t₂)
    (name : String) :
    ∃ t, Template.compile (s₁ ++ s₂) name = .ok t ∧ ∀ c : Context,
      let first := t₁.renderInPlace c
      let second := t₂.renderInPlace first.scope
      (∀ e, first.output = .error e → t.renderInPlace c = ⟨.error e, first.scope⟩)
        ∧ (∀ text e, first.output = .ok text → second.output = .error e →
            t.renderInPlace c = ⟨.error e, second.scope⟩)
        ∧ (∀ text more, first.output = .ok text → second.output = .ok more →
            t.renderInPlace c = ⟨.ok (text ++ more), second.scope⟩) := by
  have hr₁ : RenderAs (tokenize s₁) t₁.renderInPlace := .of_ofTokens (compile_eq_ok_iff.1 h₁).1
  have hr₂ : RenderAs (tokenize s₂) t₂.renderInPlace := .of_ofTokens (compile_eq_ok_iff.1 h₂).1
  have hall : RenderAs (tokenize (s₁ ++ s₂)) (andThen t₁.renderInPlace t₂.renderInPlace) := by
    rcases hline with rfl | hline
    · have hempty : tokenize "" = [] := by simp [tokenize, pieces_nil, ofPieces]
      rw [hempty] at hr₁
      have hskip : t₁.renderInPlace = skip := hr₁.unique .nil
      rw [hskip, skip_andThen, String.empty_append]
      exact hr₂
    · exact renderAs_tokenize_append hline hr₁ hr₂
  obtain ⟨nodes, htree, hnodes⟩ := hall
  refine ⟨⟨.root nodes, s₁ ++ s₂, name⟩, compile_eq_ok_iff.2 ⟨htree, rfl, rfl⟩, fun c => ?_⟩
  intro first second
  have hboth : Template.renderInPlace ⟨.root nodes, s₁ ++ s₂, name⟩ c
      = andThen t₁.renderInPlace t₂.renderInPlace c := by
    rw [← hnodes, Template.renderInPlace, Template.renderWith, Node.render]
  rw [hboth]
  have hsecond : t₂.renderInPlace (t₁.renderInPlace c).scope = second := rfl
  refine ⟨fun e hfirst => andThen_of_error hfirst, ?_, ?_⟩
  · intro text e hfirst herror
    have htext : (t₁.renderInPlace c).output = .ok text := hfirst
    rw [andThen_of_ok htext, hsecond, herror]
    rfl
  · intro text more hfirst hmore
    have htext : (t₁.renderInPlace c).output = .ok text := hfirst
    rw [andThen_of_ok htext, hsecond, hmore]
    rfl

/-- A line with a loop. -/
def Template.loopLine : Template :=
  ⟨.root [.forLoop "x" (.name ⟨"xs", []⟩) [.placeholder ⟨"x", []⟩ ⟨17, 0, 17⟩] ⟨0, 0, 0⟩,
      .text "\n" ⟨34, 0, 34⟩],
    "\x7b% for x in xs %\x7d\x7b\x7bx\x7d\x7d\x7b% endfor %\x7d\n", "loop"⟩

/-- A line that starts with text and prints what the loop left behind. -/
def Template.nameLine : Template :=
  ⟨.root [.text "\x7d\x7d" ⟨0, 0, 0⟩, .placeholder ⟨"x", []⟩ ⟨2, 0, 2⟩],
    "\x7d\x7d\x7b\x7bx\x7d\x7d", "name"⟩

/-- A context with a list of one item. -/
def Context.oneItem : Context := Dictionary.empty.insert "xs" (.list [.bool true])

theorem Template.compile_append_line_loop :
    loopLine.source.toList.getLast? = some '\n'
      ∧ compile loopLine.source "loop" = .ok loopLine
      ∧ compile nameLine.source "name" = .ok nameLine
      ∧ ∃ t, compile (loopLine.source ++ nameLine.source) "both" = .ok t
        ∧ (t.renderInPlace .oneItem).output = .ok "true\n\x7d\x7dtrue" := by
  have hline : loopLine.source.toList.getLast? = some '\n' := by decide +kernel
  obtain ⟨h₁, h₂⟩ : compile loopLine.source "loop" = .ok loopLine
      ∧ compile nameLine.source "name" = .ok nameLine := by
    unfold loopLine nameLine
    constructor
    · cbv
    · cbv
  obtain ⟨t, ht, hrender⟩ := Template.compile_append_line (.inr hline) h₁ h₂ "both"
  obtain ⟨-, -, hboth⟩ := hrender .oneItem
  refine ⟨hline, h₁, h₂, t, ht, ?_⟩
  rw [hboth "true\n" "\x7d\x7dtrue" rfl rfl]
  rfl

end Stencil
