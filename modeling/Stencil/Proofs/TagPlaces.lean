-- SUMMARY: Where tags start and end in a source, in bytes, and what a token alone is read as.
import Stencil.Proofs.Pieces
import Stencil.Proofs.Words
import Stencil.Token

/-!
# Places of Tags

A tag starts wherever an opening pair has its closing pair later on the same
line, unless an earlier tag reaches over that place, and it ends with the first
such closing pair. Places are counted in bytes, as the locations of tokens are.
-/

namespace Stencil

/-! ## Counting bytes -/

namespace Text

/-- How many bytes some characters take. -/
def byteSize (cs : List Char) : Nat := (String.ofList cs).utf8ByteSize

@[simp] theorem byteSize_nil : byteSize [] = 0 := rfl

@[simp] theorem byteSize_cons (c : Char) (cs : List Char) :
    byteSize (c :: cs) = c.utf8Size + byteSize cs := by
  simp [byteSize, String.ofList_cons]

@[simp] theorem byteSize_append (cs ds : List Char) :
    byteSize (cs ++ ds) = byteSize cs + byteSize ds := by
  simp [byteSize]

theorem byteSize_pos {cs : List Char} (h : cs ≠ []) : 0 < byteSize cs := by
  obtain ⟨c, cs, rfl⟩ := List.exists_cons_of_ne_nil h
  have := c.utf8Size_pos
  rw [byteSize_cons]
  omega

theorem eq_nil_of_byteSize_append {cs ds : List Char} (h : byteSize cs = byteSize (cs ++ ds)) :
    ds = [] := by
  cases ds with
  | nil => rfl
  | cons d ds =>
    have := byteSize_pos (List.cons_ne_nil d ds)
    rw [byteSize_append] at h
    omega

/-- Two places in one text are the same if as many bytes stand before them. -/
theorem eq_of_byteSize_eq {before rest other more : List Char}
    (h : before ++ rest = other ++ more) (hsize : byteSize before = byteSize other) :
    before = other := by
  rcases List.append_eq_append_iff.1 h with ⟨between, rfl, -⟩ | ⟨between, rfl, -⟩
  · rw [eq_nil_of_byteSize_append hsize, List.append_nil]
  · rw [eq_nil_of_byteSize_append hsize.symm, List.append_nil]

end Text

open Text (byteSize)

theorem Location.offset_advance (l : Location) (cs : List Char) :
    (l.advance cs).offset = l.offset + byteSize cs := by
  induction cs generalizing l with
  | nil => rfl
  | cons c cs ih =>
    have hstep : (l.step c).offset = l.offset + c.utf8Size := by
      unfold step
      split
      · rfl
      · rfl
    have h := ih (l.step c)
    rw [hstep, Nat.add_assoc, ← Text.byteSize_cons] at h
    exact h

namespace Token

/-! ## Tokens of pieces -/

@[simp] theorem location_ofPiece (l : Location) (p : Piece) : (ofPiece l p).location = l := by
  cases p <;> rfl

@[simp] theorem toList_raw_ofPiece (l : Location) (p : Piece) :
    (ofPiece l p).raw.toList = p.raw := by
  cases p <;> simp [ofPiece, Piece.raw]

theorem kind_ofPiece_tag (l : Location) (d : Delimiter) (inner : List Char) :
    (ofPiece l (.tag d inner)).kind ≠ .text := by
  cases d with
  | placeholder => exact nofun
  | comment => exact nofun
  | block =>
    simp only [ofPiece, kindOfTag]
    split
    · exact nofun
    · exact nofun

theorem exists_of_mem_ofPieces {t : Token} {l : Location} {ps : List Piece}
    (h : t ∈ ofPieces l ps) : ∃ p ∈ ps, ∃ m : Location, l.offset ≤ m.offset ∧ t = ofPiece m p := by
  induction ps generalizing l with
  | nil => cases h
  | cons p ps ih =>
    rcases List.mem_cons.1 h with rfl | h
    · exact ⟨p, List.mem_cons_self, l, Nat.le_refl _, rfl⟩
    · obtain ⟨q, hq, m, hle, rfl⟩ := ih h
      rw [Location.offset_advance] at hle
      exact ⟨q, List.mem_cons_of_mem _ hq, m, by omega, rfl⟩

/-- The tag tokens of a text that starts at a location. -/
def tags (l : Location) (cs : List Char) : List Token :=
  (ofPieces l (pieces cs)).filter (·.kind ≠ .text)

theorem mem_tags_origin {t : Token} {source : String} :
    t ∈ tags .origin source.toList ↔ t ∈ tokenize source ∧ t.kind ≠ .text := by
  simp [tags, tokenize]

theorem tags_nil (l : Location) : tags l [] = [] := by
  simp [tags, pieces_nil, ofPieces]

theorem tags_of_readTag? {cs content rest : List Char} {d : Delimiter} (l : Location)
    (h : readTag? cs = some (d, content, rest)) :
    tags l cs = ofPiece l (.tag d content) :: tags (l.advance (Piece.tag d content).raw) rest := by
  rw [tags, pieces_of_readTag? h, ofPieces, List.filter_cons_of_pos]
  · rfl
  · simpa using kind_ofPiece_tag l d content

/-- A character that starts no tag only moves the tags after it. -/
theorem tags_cons {c : Char} {cs : List Char} (l : Location) (h : readTag? (c :: cs) = none) :
    tags l (c :: cs) = tags (l.step c) cs := by
  have hstep (chars : List Char) : l.advance (c :: chars) = (l.step c).advance chars := rfl
  rw [tags, tags, pieces_cons h]
  cases pieces cs with
  | nil => rfl
  | cons p ps =>
    cases p with
    | text chars => simp [Piece.consChar, ofPieces, ofPiece, Piece.raw, hstep]
    | tag d content => simp [Piece.consChar, ofPieces, ofPiece, Piece.raw, hstep]

theorem offset_le_of_mem_tags {t : Token} {l : Location} {cs : List Char} (h : t ∈ tags l cs) :
    l.offset ≤ t.location.offset := by
  obtain ⟨p, -, m, hle, rfl⟩ := exists_of_mem_ofPieces (List.mem_filter.1 h).1
  rwa [location_ofPiece]

/-! ## Where tags start -/

/-- The token reaches over a place: it starts before it and ends after it. -/
def Covers (t : Token) (place : Nat) : Prop :=
  t.location.offset < place ∧ place < t.location.offset + t.raw.utf8ByteSize

instance (t : Token) (place : Nat) : Decidable (t.Covers place) :=
  inferInstanceAs (Decidable (_ ∧ _))

/-- `OpensTag d content after cs`: the text `cs` starts with the opening pair of
`d`, then `content` on the same line, then a closing pair of `d`. -/
def OpensTag (d : Delimiter) (content after cs : List Char) : Prop :=
  cs = '{' :: d.openMark :: (content ++ d.closeMark :: '}' :: after) ∧ '\n' ∉ content

theorem opensTag_iff {d : Delimiter} {content after cs : List Char} :
    OpensTag d content after cs ↔ cs = (Piece.tag d content).raw ++ after ∧ '\n' ∉ content := by
  simp [OpensTag, Piece.raw]

theorem exists_opensTag_of_readTag? {d : Delimiter} {content rest cs : List Char}
    (h : readTag? cs = some (d, content, rest)) : OpensTag d content rest cs := by
  obtain ⟨heq, hencloses⟩ := readTag?_eq_some_iff.1 h
  exact opensTag_iff.2 ⟨heq, hencloses.1⟩

theorem not_opensTag_of_readTag? {d : Delimiter} {content after cs : List Char}
    (h : readTag? cs = none) : ¬OpensTag d content after cs := by
  intro hopens
  obtain ⟨rfl, hline⟩ := opensTag_iff.1 hopens
  obtain ⟨content', rest', hread⟩ := exists_readTag? d after hline
  rw [hread] at h
  cases h

/-- A place behind the start of a token is inside the token or after it. -/
theorem covers_or_exists_after (l : Location) {p : Piece} {before rest tail : List Char}
    (hne : before ≠ []) (h : p.raw ++ tail = before ++ rest) :
    (ofPiece l p).Covers (l.offset + byteSize before)
      ∨ ∃ later, before = p.raw ++ later ∧ tail = later ++ rest := by
  rcases List.append_eq_append_iff.1 h with ⟨later, hbefore, htail⟩ | ⟨inside, hraw, hrest⟩
  · exact .inr ⟨later, hbefore, htail⟩
  · cases inside with
    | nil => exact .inr ⟨[], by rw [hraw, List.append_nil, List.append_nil], hrest.symm⟩
    | cons c inside =>
      have hbefore := Text.byteSize_pos hne
      have hinside := Text.byteSize_pos (List.cons_ne_nil c inside)
      have hsize : (ofPiece l p).raw.utf8ByteSize = byteSize before + byteSize (c :: inside) := by
        rw [← Text.byteSize_append, ← hraw, byteSize, ← toList_raw_ofPiece l p, String.ofList_toList]
      refine .inl ⟨?_, ?_⟩
      · rw [location_ofPiece]
        omega
      · rw [location_ofPiece, hsize]
        omega

/-- A tag starts at every place where one can be read and that no tag covers, and
at no other place. -/
theorem exists_mem_tags_iff {l : Location} {cs before rest : List Char} (hcs : cs = before ++ rest)
    (hfree : ∀ t ∈ tags l cs, ¬t.Covers (l.offset + byteSize before)) :
    (∃ t ∈ tags l cs, t.location.offset = l.offset + byteSize before)
      ↔ ∃ d content after, OpensTag d content after rest := by
  induction cs using pieces.induct generalizing l before with
  | case1 =>
    obtain ⟨rfl, rfl⟩ := List.nil_eq_append_iff.1 hcs
    constructor
    · rintro ⟨t, ht, -⟩
      simp [tags_nil] at ht
    · rintro ⟨d, content, after, heq, -⟩
      cases heq
  | case2 c cs d content tail hread _ ih =>
    rw [tags_of_readTag? l hread] at hfree ⊢
    cases before with
    | nil =>
      obtain rfl : c :: cs = rest := hcs
      refine iff_of_true ⟨_, List.mem_cons_self, by simp⟩ ?_
      exact ⟨d, content, tail, exists_opensTag_of_readTag? hread⟩
    | cons b before =>
      have hraw := (eq_append_of_readTag? hread).symm.trans hcs
      rcases covers_or_exists_after l (List.cons_ne_nil b before) hraw with hcovers | hafter
      · exact absurd hcovers (hfree _ List.mem_cons_self)
      · obtain ⟨later, hlater, htail⟩ := hafter
        have hsize : 0 < byteSize (Piece.tag d content).raw :=
          Text.byteSize_pos (by simp [Piece.raw])
        have hplace : l.offset + byteSize (b :: before)
            = (l.advance (Piece.tag d content).raw).offset + byteSize later := by
          rw [hlater, Text.byteSize_append, Location.offset_advance]
          omega
        rw [hplace] at hfree ⊢
        rw [← ih htail fun t ht => hfree t (List.mem_cons_of_mem _ ht)]
        constructor
        · rintro ⟨t, ht, hoffset⟩
          rcases List.mem_cons.1 ht with rfl | ht
          · rw [location_ofPiece, Location.offset_advance] at hoffset
            omega
          · exact ⟨t, ht, hoffset⟩
        · rintro ⟨t, ht, hoffset⟩
          exact ⟨t, List.mem_cons_of_mem _ ht, hoffset⟩
  | case3 c cs hread ih =>
    have hstep : (l.step c).offset = l.offset + byteSize [c] := Location.offset_advance l [c]
    rw [tags_cons l hread] at hfree ⊢
    cases before with
    | nil =>
      obtain rfl : c :: cs = rest := hcs
      constructor
      · rintro ⟨t, ht, hoffset⟩
        have hle := offset_le_of_mem_tags ht
        have hpos := Text.byteSize_pos (List.cons_ne_nil c [])
        rw [Text.byteSize_nil] at hoffset
        omega
      · rintro ⟨d, content, after, hopens⟩
        exact absurd hopens (not_opensTag_of_readTag? hread)
    | cons b before =>
      obtain ⟨rfl, hcs'⟩ := List.cons.inj hcs
      have hplace : l.offset + byteSize (c :: before) = (l.step c).offset + byteSize before := by
        rw [hstep, Nat.add_assoc, ← Text.byteSize_append]
        rfl
      rw [hplace] at hfree ⊢
      exact ih hcs' hfree

/-! ## What a tag token is -/

theorem exists_of_mem_tags {t : Token} {l : Location} {cs : List Char} (h : t ∈ tags l cs) :
    ∃ before d content after, cs = before ++ ((Piece.tag d content).raw ++ after)
      ∧ d.Encloses content ∧ t = ofPiece (l.advance before) (.tag d content) := by
  induction cs using pieces.induct generalizing l with
  | case1 => simp [tags_nil] at h
  | case2 c cs d content tail hread _ ih =>
    have hraw := eq_append_of_readTag? hread
    rw [tags_of_readTag? l hread] at h
    rcases List.mem_cons.1 h with rfl | h
    · exact ⟨[], d, content, tail, hraw, Delimiter.encloses_of_readTag? hread, rfl⟩
    · obtain ⟨before, d', content', after, htail, hencloses, rfl⟩ := ih h
      refine ⟨(Piece.tag d content).raw ++ before, d', content', after, ?_, hencloses, ?_⟩
      · rw [hraw, htail, List.append_assoc]
      · rw [Location.advance_append]
  | case3 c cs hread ih =>
    rw [tags_cons l hread] at h
    obtain ⟨before, d, content, after, rfl, hencloses, rfl⟩ := ih h
    exact ⟨c :: before, d, content, after, rfl, hencloses, rfl⟩

/-- `IsTagOf d inner t`: the token `t` is the tag of `inner` between the delimiters
`d`, with its content trimmed and its kind read off the delimiters and the first
word of the content. -/
structure IsTagOf (d : Delimiter) (inner : List Char) (t : Token) : Prop where
  raw : t.raw.toList = '{' :: d.openMark :: (inner ++ [d.closeMark, '}'])
  content : Text.Trimmed inner t.content.toList
  placeholder : t.kind = .placeholder ↔ d = .placeholder
  comment : t.kind = .comment ↔ d = .comment
  blockEnd : t.kind = .blockEnd ↔ d = .block ∧ endMark <+: t.keyword.toList
  block : t.kind = .block ↔ d = .block ∧ ¬endMark <+: t.keyword.toList

theorem toList_keyword_ofPiece (l : Location) (d : Delimiter) (inner : List Char) :
    (ofPiece l (.tag d inner)).keyword.toList
      = (Text.wordsOf (Text.trimChars inner)).headD [] := by
  have hcontent : (ofPiece l (.tag d inner)).content.toList = Text.trimChars inner :=
    String.toList_ofList
  unfold keyword Text.firstWord Text.words
  rw [hcontent]
  cases Text.wordsOf (Text.trimChars inner) with
  | nil => rfl
  | cons word words => exact String.toList_ofList

theorem kind_ofPiece_block (l : Location) (inner : List Char) :
    let t := ofPiece l (.tag .block inner)
    (endMark <+: t.keyword.toList → t.kind = .blockEnd)
      ∧ (¬endMark <+: t.keyword.toList → t.kind = .block) := by
  intro t
  rw [toList_keyword_ofPiece, ← List.isPrefixOf_iff_prefix]
  exact ⟨fun h => if_pos h, fun h => if_neg h⟩

theorem isTagOf_ofPiece (l : Location) (d : Delimiter) (inner : List Char) :
    IsTagOf d inner (ofPiece l (.tag d inner)) := by
  have hraw : (ofPiece l (.tag d inner)).raw.toList
      = '{' :: d.openMark :: (inner ++ [d.closeMark, '}']) := toList_raw_ofPiece l (.tag d inner)
  have hcontent : Text.Trimmed inner (ofPiece l (.tag d inner)).content.toList := by
    simpa [ofPiece] using Text.trimmed_trimChars inner
  cases d with
  | placeholder =>
    have hkind : (ofPiece l (.tag .placeholder inner)).kind = .placeholder := rfl
    exact ⟨hraw, hcontent, by simp [hkind], by simp [hkind], by simp [hkind], by simp [hkind]⟩
  | comment =>
    have hkind : (ofPiece l (.tag .comment inner)).kind = .comment := rfl
    exact ⟨hraw, hcontent, by simp [hkind], by simp [hkind], by simp [hkind], by simp [hkind]⟩
  | block =>
    obtain ⟨hcloses, hopens⟩ := kind_ofPiece_block l inner
    by_cases hend : endMark <+: (ofPiece l (.tag .block inner)).keyword.toList
    · have hkind := hcloses hend
      exact ⟨hraw, hcontent, by simp [hkind], by simp [hkind], by simp [hkind, hend],
        by simp [hkind, hend]⟩
    · have hkind := hopens hend
      exact ⟨hraw, hcontent, by simp [hkind], by simp [hkind], by simp [hkind, hend],
        by simp [hkind, hend]⟩

/-- A token of a source is the only token of its own characters. -/
theorem tokenize_raw {t : Token} {source : String} (h : t ∈ tokenize source) :
    tokenize t.raw = [⟨t.kind, t.raw, t.content, .origin⟩] := by
  obtain ⟨p, hp, m, -, rfl⟩ := exists_of_mem_ofPieces h
  rw [tokenize, toList_raw_ofPiece, pieces_raw hp]
  cases p with
  | text chars => rfl
  | tag d inner => rfl

end Token

/-- Tags are found where they start first, end with the first closing pair on
their line, and leave the rest to text. -/
theorem tokenize_finds_tags (source : String) :
    (∀ before rest, source.toList = before ++ rest →
      (∀ t ∈ tokenize source, t.kind ≠ .text → ¬t.Covers (byteSize before)) →
      ((∃ t ∈ tokenize source, t.kind ≠ .text ∧ t.location.offset = byteSize before)
        ↔ ∃ d inner after, Token.OpensTag d inner after rest)
      ∧ ∀ t ∈ tokenize source, t.kind ≠ .text → t.location.offset = byteSize before →
        ∃ d inner after, Token.OpensTag d inner after rest
          ∧ (∀ other more, Token.OpensTag d other more rest → inner.length ≤ other.length)
          ∧ t.IsTagOf d inner ∧ '\n' ∉ t.content.toList)
    ∧ ∀ t ∈ tokenize source, tokenize t.raw = [⟨t.kind, t.raw, t.content, .origin⟩] := by
  refine ⟨fun before rest hsource hfree => ⟨?_, ?_⟩, fun t ht => Token.tokenize_raw ht⟩
  · have hplace : Location.origin.offset + byteSize before = byteSize before := Nat.zero_add _
    have hfree' : ∀ t ∈ Token.tags .origin source.toList,
        ¬t.Covers (Location.origin.offset + byteSize before) := by
      intro t ht
      obtain ⟨hmem, htag⟩ := Token.mem_tags_origin.1 ht
      rw [hplace]
      exact hfree t hmem htag
    rw [← Token.exists_mem_tags_iff hsource hfree', hplace]
    simp only [Token.mem_tags_origin, and_assoc]
  · intro t ht htag hoffset
    obtain ⟨before', d, inner, after, hcs, hencloses, rfl⟩ :=
      Token.exists_of_mem_tags (Token.mem_tags_origin.2 ⟨ht, htag⟩)
    have hsame : before' = before := by
      apply Text.eq_of_byteSize_eq (hcs.symm.trans hsource)
      simpa [Location.offset_advance, Location.origin] using hoffset
    subst hsame
    have hrest : rest = (Piece.tag d inner).raw ++ after :=
      List.append_cancel_left (hsource.symm.trans hcs)
    refine ⟨d, inner, after, Token.opensTag_iff.2 ⟨hrest, hencloses.1⟩, ?_,
      Token.isTagOf_ofPiece _ d inner, ?_⟩
    · intro other more hopens
      have heq := (Token.opensTag_iff.1 hopens).1
      rw [hrest] at heq
      exact length_le_of_closer hencloses.2 (by simpa [Piece.raw] using heq)
    · exact fun hmem => hencloses.1 ((Token.isTagOf_ofPiece _ d inner).content.subset hmem)

/-- Two braces without a closing pair, a closing tag, and the end of a comment. -/
theorem tokenize_finds_tags_stray_braces :
    let source := "\x7b\x7b\x7b% endif x %\x7d#\x7d"
    let before := ['{', '{']
    let rest := "\x7b% endif x %\x7d#\x7d".toList
    source.toList = before ++ rest
      ∧ (∀ t ∈ tokenize source, t.kind ≠ .text → ¬t.Covers (byteSize before))
      ∧ (∃ t ∈ tokenize source, t.kind ≠ .text ∧ t.location.offset = byteSize before)
      ∧ tokenize "\x7b% endif x %\x7d"
        = [⟨.blockEnd, "\x7b% endif x %\x7d", "endif x", .origin⟩] := by
  intro source before rest
  have hsource : source.toList = before ++ rest := by decide +kernel
  have hfree : ∀ t ∈ tokenize source, t.kind ≠ .text → ¬t.Covers (byteSize before) := by
    decide +kernel
  obtain ⟨hplaces, halone⟩ := tokenize_finds_tags source
  obtain ⟨hstarts, -⟩ := hplaces before rest hsource hfree
  have hopens : Token.OpensTag .block " endif x ".toList "#\x7d".toList rest :=
    ⟨by decide +kernel, by decide +kernel⟩
  refine ⟨hsource, hfree, hstarts.2 ⟨_, _, _, hopens⟩, ?_⟩
  exact halone ⟨.blockEnd, "\x7b% endif x %\x7d", "endif x", ⟨2, 0, 2⟩⟩ (by decide +kernel)

end Stencil
