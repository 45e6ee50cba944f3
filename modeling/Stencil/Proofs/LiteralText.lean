-- SUMMARY: Sources whose tags have no effect render to their text, and sources without tags to themselves.
import Stencil.Proofs.LineBoundaries
import Stencil.Proofs.Locations
import Stencil.Proofs.RenderErrors

/-!
# Literal Text

The text of a source is put out as it stands. A comment, a tag of a block that is not
supported, or a closing tag of one leaves no trace, not even of a block being opened or
closed. So a source with such tags alone compiles, and renders in every scope to what stands
between the tags. Half a tag is text: an opening pair without its closing pair later on the
line, or a closing pair by itself.
-/

namespace Stencil

open Rendering

/-! ## Token lists without effect -/

namespace Token

/-- The text tokens among some tokens, joined. -/
def joinTexts (ts : List Token) : String :=
  String.join ((ts.filter (·.kind = .text)).map (·.raw))

variable {t : Token} {ts : List Token}

theorem joinTexts_cons_text (h : t.kind = .text) (ts : List Token) :
    joinTexts (t :: ts) = t.raw ++ joinTexts ts := by
  unfold joinTexts
  rw [List.filter_cons_of_pos (by simpa using h), List.map_cons, String.join_cons]

theorem joinTexts_cons_tag (h : t.kind ≠ .text) (ts : List Token) :
    joinTexts (t :: ts) = joinTexts ts := by
  unfold joinTexts
  rw [List.filter_cons_of_neg (by simpa using h)]

/-- Text alone is joined without a loss. -/
theorem joinTexts_of_forall_text (h : ∀ t ∈ ts, t.kind = .text) :
    joinTexts ts = String.join (ts.map (·.raw)) := by
  unfold joinTexts
  rw [List.filter_eq_self.2 fun t ht => decide_eq_true (h t ht)]

theorem RenderAs.inert {σ : Type} [Scope σ] (h : t.IsInert) :
    RenderAs [t] (skip : Rendering σ) := by
  have hstep : Outline.start.step t = .ok .start :=
    Outline.step_eq_ok_iff.2 ⟨.inert, h.ofToken, rfl⟩
  exact ⟨[], Node.ofTokens_eq_ok_iff.2 ⟨_, .cons hstep (.nil _), rfl⟩, by simp only [Node.renderAll]⟩

/-- Tokens with a tree of their own in front of others: the whole renders one after the
other. -/
theorem RenderAs.cons {σ : Type} [Scope σ] {r s : Rendering σ} (h : RenderAs [t] r)
    (h' : RenderAs ts s) : RenderAs (t :: ts) (r.andThen s) := by
  have happend := h.append id h'
  rwa [map_relocate_id, List.singleton_append] at happend

theorem renderAs_joinTexts {σ : Type} [Scope σ] (h : ∀ t ∈ ts, t.kind ≠ .text → t.IsInert) :
    RenderAs ts (emit (joinTexts ts) : Rendering σ) := by
  induction ts with
  | nil => exact .nil
  | cons t ts ih =>
    obtain ⟨ht, hrest⟩ := List.forall_mem_cons.1 h
    by_cases hkind : t.kind = .text
    · rw [joinTexts_cons_text hkind, emit_append]
      exact (RenderAs.text hkind).cons (ih hrest)
    · have hcons := (RenderAs.inert (ht hkind)).cons (ih hrest)
      rwa [skip_andThen, ← joinTexts_cons_tag hkind] at hcons

end Token

/-! ## Sources without tags -/

/-- A source in which no opening pair has its closing pair later on the line. -/
theorem kind_eq_text_of_not_opensTag {source : String}
    (h : ∀ before rest d content after, source.toList = before ++ rest →
      ¬Token.OpensTag d content after rest) :
    ∀ t ∈ tokenize source, t.kind = .text := by
  intro t ht
  obtain ⟨p, hp, l, -, rfl⟩ := Token.exists_of_mem_ofPieces ht
  cases p with
  | text chars => rfl
  | tag d content =>
    obtain ⟨ps, qs, hsplit⟩ := List.append_of_mem hp
    have hsource : source.toList = ps.flatMap Piece.raw
        ++ ((Piece.tag d content).raw ++ qs.flatMap Piece.raw) := by
      rw [← List.flatMap_cons, ← List.flatMap_append, ← hsplit, flatMap_raw_pieces]
    have hline : '\n' ∉ content := (Piece.encloses_of_mem_pieces hp).1
    exact absurd (Token.opensTag_iff.2 ⟨rfl, hline⟩) (h _ _ d content _ hsource)

/-! ## Templates -/

namespace Template

/-- A source whose tokens render as a text compiles, and renders to that text in every
scope, which it leaves as it is. -/
theorem exists_compile_of_renderAs {source text : String}
    (h : ∀ {σ : Type} [Scope σ], Token.RenderAs (tokenize source) (emit text : Rendering σ))
    (name : String) :
    ∃ t, Template.compile source name = .ok t ∧ (∀ c, t.render c = .ok text)
      ∧ ∀ {σ : Type} [Scope σ] (s : σ), t.renderWith s = ⟨.ok text, s⟩ := by
  obtain ⟨nodes, htree, -⟩ := h (σ := Context)
  have hrender {σ : Type} [Scope σ] (s : σ) :
      Template.renderWith ⟨.root nodes, source, name⟩ s = ⟨.ok text, s⟩ :=
    congrFun ((Token.RenderAs.of_ofTokens htree).unique h) s
  refine ⟨⟨.root nodes, source, name⟩, compile_eq_ok_iff.2 ⟨htree, rfl, rfl⟩, ?_, hrender⟩
  intro c
  rw [Template.render, hrender]

/-- The tokens of a source make it up. If its tags have no effect, it compiles and renders in
every scope to its text tokens, joined; if it has no tags, to itself. -/
theorem literal_text_unchanged (source name : String) :
    String.join ((tokenize source).map (·.raw)) = source
      ∧ ((∀ t ∈ tokenize source, t.kind ≠ .text → t.IsInert) →
          ∃ t, Template.compile source name = .ok t
            ∧ (∀ c, t.render c = .ok (Token.joinTexts (tokenize source)))
            ∧ ∀ {σ : Type} [Scope σ] (s : σ),
              t.renderWith s = ⟨.ok (Token.joinTexts (tokenize source)), s⟩)
      ∧ ((∀ before rest d content after, source.toList = before ++ rest →
            ¬Token.OpensTag d content after rest) →
          ∃ t, Template.compile source name = .ok t ∧ (∀ c, t.render c = .ok source)
            ∧ ∀ {σ : Type} [Scope σ] (s : σ), t.renderWith s = ⟨.ok source, s⟩) := by
  have hinert (h : ∀ t ∈ tokenize source, t.kind ≠ .text → t.IsInert) :=
    exists_compile_of_renderAs (fun {σ} _ => Token.renderAs_joinTexts (σ := σ) h) name
  refine ⟨Token.join_raw_tokenize source, hinert, ?_⟩
  intro hnone
  have htexts := kind_eq_text_of_not_opensTag hnone
  have hsource : Token.joinTexts (tokenize source) = source := by
    rw [Token.joinTexts_of_forall_text htexts, Token.join_raw_tokenize]
  have hall := hinert fun t ht htag => absurd (htexts t ht) htag
  rwa [hsource] at hall

/-- Tags without effect between blanks, and halves of tags. -/
def inertSource : String :=
  " \x7b# a #\x7d \x7b\x7b b\n\x7d\x7d\x7b% endblock c %\x7d\x7b% extends %\x7d\t%\x7d\x7b"

/-- An opening pair whose closing pair comes on the next line, and one without its own. -/
def halfTags : String := "\x7b\x7b a \n\x7d\x7d\x7b%\x7d \x7d\x7d"

theorem literal_text_unchanged_inert :
    ((∀ t ∈ tokenize inertSource, t.kind ≠ .text → t.IsInert)
      ∧ ∃ t, Template.compile inertSource "inert" = .ok t
        ∧ (∀ c, t.render c = .ok "  \x7b\x7b b\n\x7d\x7d\t%\x7d\x7b")
        ∧ ∀ c, t.renderInPlace c = ⟨.ok "  \x7b\x7b b\n\x7d\x7d\t%\x7d\x7b", c⟩)
      ∧ (∀ before rest d content after, halfTags.toList = before ++ rest →
          ¬Token.OpensTag d content after rest)
      ∧ ∃ t, Template.compile halfTags "half" = .ok t ∧ ∀ c, t.renderInPlace c = ⟨.ok halfTags, c⟩ := by
  constructor
  case left =>
    obtain ⟨-, hinert, -⟩ := literal_text_unchanged inertSource "inert"
    have htags : ∀ t ∈ tokenize inertSource, t.kind ≠ .text → t.IsInert := by decide +kernel
    have htext : Token.joinTexts (tokenize inertSource)
        = "  \x7b\x7b b\n\x7d\x7d\t%\x7d\x7b" := by
      decide +kernel
    obtain ⟨t, hcompile, hrender, hscope⟩ := hinert htags
    rw [htext] at hrender
    simp only [htext] at hscope
    exact ⟨htags, t, hcompile, hrender, fun c => hscope c⟩
  case right =>
    obtain ⟨-, -, hnone⟩ := literal_text_unchanged halfTags "half"
    have hreads : ∀ rest ∈ halfTags.toList.tails, readTag? rest = none := by decide +kernel
    have htags : ∀ before rest d content after, halfTags.toList = before ++ rest →
        ¬Token.OpensTag d content after rest := by
      intro before rest d content after hsource hopens
      obtain ⟨hrest, hline⟩ := Token.opensTag_iff.1 hopens
      obtain ⟨content', rest', hread⟩ := exists_readTag? d after hline
      have hread' := hreads rest ((List.mem_tails _ _).2 ⟨before, hsource.symm⟩)
      rw [hrest, hread] at hread'
      cases hread'
    obtain ⟨t, hcompile, -, hscope⟩ := hnone htags
    exact ⟨htags, t, hcompile, fun c => hscope c⟩

end Template

end Stencil
