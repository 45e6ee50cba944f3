-- SUMMARY: The tokens of a source make up the source, and each location says what stands before its token.
import Mathlib
import Stencil.Proofs.TagPlaces

/-!
# Locations of Tokens

The tokens of a source, one after another, are the source again: text between tags
is one token, and no token is empty. Locations are carried along from token to token,
but each can be read off the part of the source before its token alone: `ending` does
so, and every character takes the location of a text to that of the longer text.
-/

namespace Stencil

open Text (byteSize)

/-! ## Locations without walking -/

namespace Location

/-- The location right after a text that stands at the start of the source. -/
def ending (cs : List Char) : Location :=
  ⟨byteSize cs, cs.count '\n', (cs.rtakeWhile (· ≠ '\n')).length⟩

theorem ending_nil : ending [] = origin := rfl

theorem step_ending (cs : List Char) (c : Char) : (ending cs).step c = ending (cs ++ [c]) := by
  unfold step ending
  split
  · next hfeed =>
    subst hfeed
    simp
  · next hother => simp [hother]

theorem advance_ending (cs ds : List Char) : (ending cs).advance ds = ending (cs ++ ds) := by
  induction ds generalizing cs with
  | nil => rw [List.append_nil, advance_nil]
  | cons d ds ih =>
    calc (ending cs).advance (d :: ds)
      _ = ((ending cs).step d).advance ds := rfl
      _ = ending (cs ++ [d] ++ ds) := by rw [step_ending, ih]
      _ = ending (cs ++ d :: ds) := by rw [List.append_assoc, List.singleton_append]

theorem advance_origin (cs : List Char) : origin.advance cs = ending cs := by
  rw [← ending_nil, advance_ending, List.nil_append]

end Location

/-! ## Pieces without gaps -/

namespace Piece

variable {c : Char} {p : Piece} {ps : List Piece}

/-- Whether a piece is text. -/
def isText : Piece → Bool
  | .text _ => true
  | .tag .. => false

theorem mem_consChar_cases (h : p ∈ consChar c ps) :
    (∃ chars, p = .text (c :: chars)) ∨ p ∈ ps := by
  unfold consChar at h
  split at h
  · rcases List.mem_cons.1 h with rfl | hmem
    · exact .inl ⟨_, rfl⟩
    · exact .inr (List.mem_cons_of_mem _ hmem)
  · rcases List.mem_cons.1 h with rfl | hmem
    · exact .inl ⟨_, rfl⟩
    · exact .inr hmem

/-- Neighbours, at least one of which is a tag. -/
def Separate (p q : Piece) : Prop := p.isText → ¬q.isText

theorem isChain_consChar (h : ps.IsChain Separate) : (consChar c ps).IsChain Separate := by
  cases ps with
  | nil => exact .singleton _
  | cons p ps =>
    cases p with
    | text chars =>
      obtain ⟨hnext, hrest⟩ := List.isChain_cons.1 h
      exact List.isChain_cons.2 ⟨hnext, hrest⟩
    | tag d content => exact List.isChain_cons_cons.2 ⟨fun _ => Bool.false_ne_true, h⟩

end Piece

theorem raw_ne_nil_of_mem_pieces {cs : List Char} {p : Piece} (h : p ∈ pieces cs) :
    p.raw ≠ [] := by
  fun_induction pieces cs with
  | case1 => cases h
  | case2 c cs d content rest hread _ ih =>
    rcases List.mem_cons.1 h with rfl | hmem
    · exact List.cons_ne_nil _ _
    · exact ih hmem
  | case3 c cs hread ih =>
    rcases Piece.mem_consChar_cases h with ⟨chars, rfl⟩ | hmem
    · exact List.cons_ne_nil _ _
    · exact ih hmem

theorem Piece.encloses_of_mem_pieces {cs content : List Char} {d : Delimiter}
    (h : .tag d content ∈ pieces cs) : d.Encloses content := by
  fun_induction pieces cs with
  | case1 => cases h
  | case2 c cs d' content' rest hread _ ih =>
    rcases List.mem_cons.1 h with heq | hmem
    · cases heq
      exact Delimiter.encloses_of_readTag? hread
    · exact ih hmem
  | case3 c cs hread ih =>
    rcases mem_consChar_cases h with ⟨chars, heq⟩ | hmem
    · cases heq
    · exact ih hmem

/-- Text stands between tags only. -/
theorem isChain_pieces (cs : List Char) : (pieces cs).IsChain Piece.Separate := by
  fun_induction pieces cs with
  | case1 => exact .nil
  | case2 c cs d content rest hread _ ih =>
    refine List.isChain_cons.2 ⟨fun next _ htag => ?_, ih⟩
    exact absurd htag Bool.false_ne_true
  | case3 c cs hread ih => exact Piece.isChain_consChar ih

/-! ## Tokens of pieces -/

namespace Token

variable {l : Location} {ps : List Piece} {before after : List Token} {t : Token}

theorem kind_ofPiece_eq_text_iff {p : Piece} : (ofPiece l p).kind = .text ↔ p.isText := by
  cases p with
  | text chars => exact iff_of_true rfl rfl
  | tag d inner => exact iff_of_false (kind_ofPiece_tag l d inner) nofun

theorem map_raw_ofPieces (l : Location) (ps : List Piece) :
    (ofPieces l ps).map (·.raw) = ps.map fun p => String.ofList p.raw := by
  induction ps generalizing l with
  | nil => rfl
  | cons p ps ih =>
    have hraw : (ofPiece l p).raw = String.ofList p.raw := by cases p <;> rfl
    simp only [ofPieces, List.map_cons, hraw, ih]

/-- The bytes of some pieces are those of their tokens together. -/
theorem byteSize_flatMap_raw (l : Location) (ps : List Piece) :
    byteSize (ps.flatMap Piece.raw) = ((ofPieces l ps).map (·.raw.utf8ByteSize)).sum := by
  calc byteSize (ps.flatMap Piece.raw)
    _ = (ps.map fun p => byteSize p.raw).sum := by
      induction ps with
      | nil => rfl
      | cons p ps ih =>
        rw [List.flatMap_cons, Text.byteSize_append, ih, List.map_cons, List.sum_cons]
    _ = (((ofPieces l ps).map (·.raw)).map String.utf8ByteSize).sum := by
      rw [map_raw_ofPieces, List.map_map]
      rfl
    _ = ((ofPieces l ps).map (·.raw.utf8ByteSize)).sum := by
      rw [List.map_map]
      rfl

/-- What stands in front of a token comes from the pieces in front of its piece. -/
theorem exists_of_ofPieces_eq_append {ts : List Token} (h : ofPieces l ps = before ++ ts) :
    ∃ ps₁ ps₂, ps = ps₁ ++ ps₂ ∧ before = ofPieces l ps₁
      ∧ ts = ofPieces (l.advance (ps₁.flatMap Piece.raw)) ps₂ := by
  induction before generalizing l ps with
  | nil => exact ⟨[], ps, rfl, rfl, h.symm⟩
  | cons t before ih =>
    cases ps with
    | nil => cases h
    | cons p ps =>
      obtain ⟨rfl, htail⟩ := List.cons.inj h
      obtain ⟨ps₁, ps₂, rfl, rfl, rfl⟩ := ih htail
      refine ⟨p :: ps₁, ps₂, rfl, rfl, ?_⟩
      rw [List.flatMap_cons, Location.advance_append]

/-- A token stands right behind the pieces in front of its own. -/
theorem exists_piece_of_tokenize_eq {source : String} {before after : List Token} {t : Token}
    (h : tokenize source = before ++ t :: after) :
    ∃ ps p qs, pieces source.toList = ps ++ p :: qs ∧ before = ofPieces .origin ps
      ∧ t = ofPiece (.ending (ps.flatMap Piece.raw)) p
      ∧ after = ofPieces ((Location.ending (ps.flatMap Piece.raw)).advance p.raw) qs := by
  obtain ⟨ps, qs, hpieces, hbefore, hafter⟩ := exists_of_ofPieces_eq_append h
  rw [Location.advance_origin] at hafter
  cases qs with
  | nil => cases hafter
  | cons p qs =>
    obtain ⟨rfl, rfl⟩ := List.cons.inj hafter
    exact ⟨ps, p, qs, hpieces, hbefore, rfl, rfl⟩

theorem join_raw_tokenize (source : String) :
    String.join ((tokenize source).map (·.raw)) = source := by
  apply String.toList_inj.1
  calc (String.join ((tokenize source).map (·.raw))).toList
    _ = ((pieces source.toList).map fun p => String.ofList p.raw).flatMap String.toList := by
      rw [String.toList_join, tokenize, map_raw_ofPieces]
    _ = (pieces source.toList).flatMap Piece.raw := by simp [List.flatMap_map]
    _ = source.toList := flatMap_raw_pieces source.toList

end Token

/-- Tokens lose nothing of the source, and their locations are exact. -/
theorem tokenize_lossless (source : String) :
    String.join ((tokenize source).map (·.raw)) = source
    ∧ (∀ t ∈ tokenize source, t.raw ≠ "")
    ∧ (∀ before t u after, tokenize source = before ++ t :: u :: after →
        t.kind = .text → u.kind ≠ .text)
    ∧ (∀ t ∈ tokenize source, t.kind = .text → t.content = t.raw)
    ∧ ∀ before t after, tokenize source = before ++ t :: after →
        ∃ front rest, source.toList = front ++ t.raw.toList ++ rest
          ∧ byteSize front = t.location.offset
          ∧ t.location.offset = (before.map (·.raw.utf8ByteSize)).sum
          ∧ t.location.row = front.count '\n'
          ∧ t.location.column = (front.rtakeWhile (· ≠ '\n')).length := by
  refine ⟨Token.join_raw_tokenize source, ?_, ?_, ?_, ?_⟩
  · intro t ht hempty
    obtain ⟨p, hp, l, -, rfl⟩ := Token.exists_of_mem_ofPieces ht
    apply raw_ne_nil_of_mem_pieces hp
    rw [← Token.toList_raw_ofPiece l p, hempty]
    rfl
  · intro before t u after hsplit
    obtain ⟨ps, p, qs, hpieces, -, rfl, hafter⟩ := Token.exists_piece_of_tokenize_eq hsplit
    cases qs with
    | nil => cases hafter
    | cons q qs =>
      obtain ⟨rfl, -⟩ := List.cons.inj hafter
      have hchain := isChain_pieces source.toList
      rw [hpieces] at hchain
      have hseparate : p.Separate q := (List.isChain_append_cons_cons.1 hchain).2.1
      simp only [ne_eq, Token.kind_ofPiece_eq_text_iff]
      exact hseparate
  · intro t ht htext
    obtain ⟨p, -, l, -, rfl⟩ := Token.exists_of_mem_ofPieces ht
    cases p with
    | text chars => rfl
    | tag d inner => exact absurd htext (Token.kind_ofPiece_tag l d inner)
  · intro before t after hsplit
    obtain ⟨ps, p, qs, hpieces, rfl, rfl, -⟩ := Token.exists_piece_of_tokenize_eq hsplit
    have hsource : source.toList
        = ps.flatMap Piece.raw ++ p.raw ++ qs.flatMap Piece.raw := by
      rw [List.append_assoc, ← List.flatMap_cons, ← List.flatMap_append, ← hpieces,
        flatMap_raw_pieces]
    rw [Token.location_ofPiece, Token.toList_raw_ofPiece]
    exact ⟨_, _, hsource, rfl, Token.byteSize_flatMap_raw .origin ps, rfl, rfl⟩

/-- Two rows with a carriage return and characters of two bytes, and tags side by side. -/
theorem tokenize_lossless_two_rows :
    let source := "é\r\n\x7b#ü#\x7dß\x7b\x7bx\x7d\x7d\x7b\x7by\x7d\x7d"
    let before := (tokenize source).take 3
    tokenize source = before ++ [⟨.placeholder, "\x7b\x7bx\x7d\x7d", "x", ⟨12, 1, 6⟩⟩,
        ⟨.placeholder, "\x7b\x7by\x7d\x7d", "y", ⟨17, 1, 11⟩⟩]
      ∧ String.join (before.map (·.raw)) = "é\r\n\x7b#ü#\x7dß"
      ∧ ∃ front rest, source.toList = front ++ "\x7b\x7bx\x7d\x7d".toList ++ rest
        ∧ byteSize front = 12 ∧ front.count '\n' = 1
        ∧ (front.rtakeWhile (· ≠ '\n')).length = 6 := by
  intro source before
  have hsplit : tokenize source = before ++ [⟨.placeholder, "\x7b\x7bx\x7d\x7d", "x", ⟨12, 1, 6⟩⟩,
      ⟨.placeholder, "\x7b\x7by\x7d\x7d", "y", ⟨17, 1, 11⟩⟩] := by decide +kernel
  obtain ⟨-, -, -, -, hlocations⟩ := tokenize_lossless source
  obtain ⟨front, rest, hsource, hoffset, -, hrow, hcolumn⟩ := hlocations _ _ _ hsplit
  exact ⟨hsplit, by decide +kernel, front, rest, hsource, hoffset, hrow.symm, hcolumn.symm⟩

end Stencil
