-- SUMMARY: The pieces of a source: tags between delimiters, and the text around them.

/-!
# Pieces of a Source

A tag is an opening pair, a content without line feeds, and the closing pair
that belongs to the opening one, as early as it occurs. All else is text, and
adjacent text is one piece. Splitting a source into pieces never fails and
loses nothing.
-/

namespace Stencil

/-! ## Delimiters -/

/-- The three pairs of tag delimiters. -/
inductive Delimiter where
  /-- Double braces around a path to print. -/
  | placeholder
  /-- Braces with percent signs around a block tag. -/
  | block
  /-- Braces with number signs around a comment. -/
  | comment
deriving DecidableEq, Repr

namespace Delimiter

/-- The character after the brace that opens the tag. -/
def openMark : Delimiter → Char
  | .placeholder => '{'
  | .block => '%'
  | .comment => '#'

/-- The character before the brace that closes the tag. -/
def closeMark : Delimiter → Char
  | .placeholder => '}'
  | .block => '%'
  | .comment => '#'

/-- The delimiter with a given opening mark. -/
def ofOpenMark? (c : Char) : Option Delimiter :=
  if c = '{' then some .placeholder
  else if c = '%' then some .block
  else if c = '#' then some .comment
  else none

@[simp] theorem ofOpenMark?_openMark (d : Delimiter) : ofOpenMark? d.openMark = some d := by
  cases d <;> rfl

theorem eq_openMark_of_ofOpenMark? {c : Char} {d : Delimiter} (h : ofOpenMark? c = some d) :
    c = d.openMark := by
  unfold ofOpenMark? at h
  split at h
  · next hc => cases h; exact hc
  · split at h
    · next hc => cases h; exact hc
    · split at h
      · next hc => cases h; exact hc
      · cases h

end Delimiter

/-! ## Reading one tag -/

/-- Splits at the first `mark` with a closing brace after it. The part before
holds no line feed. -/
def splitCloser (mark : Char) : List Char → Option (List Char × List Char)
  | c :: d :: rest =>
    if c = mark ∧ d = '}' then some ([], rest)
    else if c = '\n' then none
    else (splitCloser mark (d :: rest)).map fun split => (c :: split.1, split.2)
  | _ => none

/-- What `splitCloser` splits is the content, the closing pair and the rest. -/
theorem eq_append_of_splitCloser {mark : Char} {cs content rest : List Char}
    (h : splitCloser mark cs = some (content, rest)) : cs = content ++ mark :: '}' :: rest := by
  fun_induction splitCloser mark cs generalizing content rest with
  | case1 c d rest' hc => simp_all
  | case2 => simp at h
  | case3 c d rest' _ _ ih =>
    obtain ⟨⟨content', rest''⟩, hsplit, heq⟩ := Option.map_eq_some_iff.1 h
    simp only [Prod.mk.injEq] at heq
    obtain ⟨rfl, rfl⟩ := heq
    simp [ih hsplit]
  | case4 => simp at h

/-- Reads a tag at the front of a text: its delimiter, its content and the text
after it. -/
def readTag? : List Char → Option (Delimiter × List Char × List Char)
  | c :: mark :: rest =>
    if c = '{' then
      (Delimiter.ofOpenMark? mark).bind fun d =>
        (splitCloser d.closeMark rest).map fun split => (d, split.1, split.2)
    else none
  | _ => none

/-! ## Pieces -/

/-- A tag, or a run of text between tags. -/
inductive Piece where
  | text (chars : List Char)
  | tag (delimiter : Delimiter) (content : List Char)
deriving DecidableEq, Repr

namespace Piece

/-- The characters of the source that a piece stands for. -/
def raw : Piece → List Char
  | .text chars => chars
  | .tag d content => '{' :: d.openMark :: content ++ [d.closeMark, '}']

/-- Puts a character in front, joining it with the text that follows. -/
def consChar (c : Char) : List Piece → List Piece
  | .text chars :: pieces => .text (c :: chars) :: pieces
  | pieces => .text [c] :: pieces

end Piece

/-- What `readTag?` reads is the tag and the rest. -/
theorem eq_append_of_readTag? {cs content rest : List Char} {d : Delimiter}
    (h : readTag? cs = some (d, content, rest)) : cs = (Piece.tag d content).raw ++ rest := by
  unfold readTag? at h
  split at h
  · next c mark tail =>
    split at h
    · next hc =>
      obtain ⟨d', hd, hsplit⟩ := Option.bind_eq_some_iff.1 h
      obtain ⟨⟨content', rest'⟩, hcloser, heq⟩ := Option.map_eq_some_iff.1 hsplit
      simp only [Prod.mk.injEq] at heq
      obtain ⟨rfl, rfl, rfl⟩ := heq
      have hmark := Delimiter.eq_openMark_of_ofOpenMark? hd
      simp [Piece.raw, hc, hmark, eq_append_of_splitCloser hcloser]
    · simp at h
  · simp at h

theorem length_lt_of_readTag? {cs content rest : List Char} {d : Delimiter}
    (h : readTag? cs = some (d, content, rest)) : rest.length < cs.length := by
  rw [eq_append_of_readTag? h]
  simp [Piece.raw]
  omega

/-- The pieces of a source, in order: a tag wherever one can be read, and text
in between. -/
def pieces : List Char → List Piece
  | [] => []
  | c :: cs =>
    match h : readTag? (c :: cs) with
    | some (d, content, rest) =>
      have := length_lt_of_readTag? h
      .tag d content :: pieces rest
    | none => Piece.consChar c (pieces cs)
termination_by cs => cs.length
decreasing_by
  · assumption
  · exact Nat.lt_succ_self _

theorem Piece.flatMap_raw_consChar (c : Char) (ps : List Piece) :
    (consChar c ps).flatMap raw = c :: ps.flatMap raw := by
  cases ps with
  | nil => rfl
  | cons p ps => cases p <;> rfl

/-- The pieces of a source make up the source. -/
theorem flatMap_raw_pieces (cs : List Char) : (pieces cs).flatMap Piece.raw = cs := by
  fun_induction pieces cs with
  | case1 => rfl
  | case2 c cs d content rest h _ ih =>
    rw [List.flatMap_cons, ih, ← eq_append_of_readTag? h]
  | case3 c cs _ ih => rw [Piece.flatMap_raw_consChar, ih]

end Stencil
