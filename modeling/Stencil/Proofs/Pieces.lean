-- SUMMARY: Laws of pieces: when a tag can be read, that a piece alone is one piece, and what a line feed between two sources does.
import Stencil.Piece

/-!
# Laws of Pieces

Whether a tag can be read at the front of a text depends on the characters of
that tag alone: its content is on one line and holds no closing pair of its own.
So a text after the tag changes nothing, a piece is the only piece of its own
characters, and a source that ends with a line feed is cut into the same pieces
whatever follows it, but for the text at the seam.
-/

namespace Stencil

/-! ## The first closing pair -/

/-- No closing pair starts earlier than the one after a content that holds none. -/
theorem length_le_of_closer {mark : Char} {content rest other more : List Char}
    (h : ¬[mark, '}'] <:+: content ++ [mark])
    (heq : content ++ mark :: '}' :: rest = other ++ mark :: '}' :: more) :
    content.length ≤ other.length := by
  refine Nat.le_of_not_lt fun hlt => h ?_
  have hother : other ++ [mark, '}'] <+: content ++ mark :: '}' :: rest := ⟨more, by simp [heq]⟩
  have hcontent : content ++ [mark] <+: content ++ mark :: '}' :: rest := ⟨'}' :: rest, by simp⟩
  have hprefix := List.prefix_of_prefix_length_le hother hcontent (by simp; omega)
  exact (List.suffix_append other _).isInfix.trans hprefix.isInfix

/-- The content that is split off is on one line and holds no closing pair. -/
theorem enclosed_of_splitCloser {mark : Char} {cs content rest : List Char}
    (h : splitCloser mark cs = some (content, rest)) :
    '\n' ∉ content ∧ ¬[mark, '}'] <:+: content ++ [mark] := by
  fun_induction splitCloser mark cs generalizing content rest with
  | case1 c d tail hcloser =>
    cases h
    exact ⟨List.not_mem_nil, fun hinfix => absurd hinfix.length_le (by simp)⟩
  | case2 => cases h
  | case3 c d tail hcloser hc ih =>
    obtain ⟨⟨content', rest'⟩, hsplit, heq⟩ := Option.map_eq_some_iff.1 h
    cases heq
    obtain ⟨hline, hinfix⟩ := ih hsplit
    refine ⟨List.not_mem_cons_of_ne_of_not_mem (Ne.symm hc) hline, ?_⟩
    intro h
    rcases List.infix_cons_iff.1 h with hprefix | hlater
    · obtain ⟨rfl, hsecond⟩ := List.cons_prefix_cons.1 hprefix
      have hd : ['}'] <+: d :: tail := by
        rw [eq_append_of_splitCloser hsplit, List.append_cons]
        exact hsecond.trans (List.prefix_append _ _)
      exact hcloser ⟨rfl, (List.cons_prefix_cons.1 hd).1.symm⟩
    · exact hinfix hlater
  | case4 => cases h

/-- A closing pair on the same line is enough to split. -/
theorem exists_splitCloser (mark : Char) (rest : List Char) {content : List Char}
    (h : '\n' ∉ content) :
    ∃ split, splitCloser mark (content ++ mark :: '}' :: rest) = some split := by
  induction content with
  | nil => exact ⟨([], rest), by simp [splitCloser]⟩
  | cons c content ih =>
    have hc : c ≠ '\n' := fun hc => h (hc ▸ List.mem_cons_self)
    obtain ⟨split, hsplit⟩ := ih fun hmem => h (List.mem_cons_of_mem _ hmem)
    obtain ⟨d, tail, htail⟩ := List.exists_cons_of_ne_nil
      (show content ++ mark :: '}' :: rest ≠ [] by simp)
    rw [List.cons_append]
    rw [htail] at hsplit ⊢
    simp only [splitCloser, hc, hsplit, if_false]
    split
    · exact ⟨_, rfl⟩
    · exact ⟨_, rfl⟩

theorem splitCloser_eq_some_iff {mark : Char} {cs content rest : List Char} :
    splitCloser mark cs = some (content, rest) ↔
      cs = content ++ mark :: '}' :: rest ∧ '\n' ∉ content
        ∧ ¬[mark, '}'] <:+: content ++ [mark] := by
  constructor
  · intro h
    exact ⟨eq_append_of_splitCloser h, enclosed_of_splitCloser h⟩
  · rintro ⟨rfl, hline, hinfix⟩
    obtain ⟨⟨content', rest'⟩, hsplit⟩ := exists_splitCloser mark rest hline
    have heq := eq_append_of_splitCloser hsplit
    have hlength := Nat.le_antisymm (length_le_of_closer hinfix heq)
      (length_le_of_closer (enclosed_of_splitCloser hsplit).2 heq.symm)
    obtain ⟨rfl, hrest⟩ := List.append_inj heq hlength
    cases hrest
    exact hsplit

/-! ## Reading one tag -/

/-- The delimiter can enclose the content: it is on one line, and no closing pair
starts before its end. -/
def Delimiter.Encloses (d : Delimiter) (content : List Char) : Prop :=
  '\n' ∉ content ∧ ¬[d.closeMark, '}'] <:+: content ++ [d.closeMark]

/-- A tag is read where it is written, if its delimiter can enclose its content. -/
theorem readTag?_eq_some_iff {cs content rest : List Char} {d : Delimiter} :
    readTag? cs = some (d, content, rest) ↔
      cs = (Piece.tag d content).raw ++ rest ∧ d.Encloses content := by
  constructor
  · intro h
    refine ⟨eq_append_of_readTag? h, ?_⟩
    unfold readTag? at h
    split at h
    · split at h
      · obtain ⟨d', -, hsplit⟩ := Option.bind_eq_some_iff.1 h
        obtain ⟨⟨content', rest'⟩, hcloser, heq⟩ := Option.map_eq_some_iff.1 hsplit
        cases heq
        exact (splitCloser_eq_some_iff.1 hcloser).2
      · cases h
    · cases h
  · rintro ⟨rfl, hencloses⟩
    have hsplit : splitCloser d.closeMark (content ++ d.closeMark :: '}' :: rest)
        = some (content, rest) := splitCloser_eq_some_iff.2 ⟨rfl, hencloses⟩
    simp [readTag?, Piece.raw, hsplit]

theorem Delimiter.encloses_of_readTag? {cs content rest : List Char} {d : Delimiter}
    (h : readTag? cs = some (d, content, rest)) : d.Encloses content :=
  (readTag?_eq_some_iff.1 h).2

/-- What follows a tag has no part in reading it. -/
theorem readTag?_append {cs content rest : List Char} {d : Delimiter}
    (h : readTag? cs = some (d, content, rest)) (more : List Char) :
    readTag? (cs ++ more) = some (d, content, rest ++ more) := by
  obtain ⟨rfl, hencloses⟩ := readTag?_eq_some_iff.1 h
  refine readTag?_eq_some_iff.2 ⟨?_, hencloses⟩
  rw [List.append_assoc]

theorem readTag?_eq_none_of_append {cs more : List Char} (h : readTag? (cs ++ more) = none) :
    readTag? cs = none := by
  cases hread : readTag? cs with
  | none => rfl
  | some read =>
    rw [readTag?_append hread] at h
    cases h

/-- A closing pair on the same line is enough for a tag. -/
theorem exists_readTag? (d : Delimiter) (rest : List Char) {content : List Char}
    (h : '\n' ∉ content) :
    ∃ content' rest', readTag? ((Piece.tag d content).raw ++ rest) = some (d, content', rest') := by
  obtain ⟨⟨content', rest'⟩, hsplit⟩ := exists_splitCloser d.closeMark rest h
  exact ⟨content', rest', by simp [readTag?, Piece.raw, hsplit]⟩

/-! ## Pieces one by one -/

theorem pieces_of_readTag? {cs content rest : List Char} {d : Delimiter}
    (h : readTag? cs = some (d, content, rest)) : pieces cs = .tag d content :: pieces rest := by
  cases cs with
  | nil => cases h
  | cons c cs =>
    rw [pieces]
    split
    · next h' =>
      rw [h] at h'
      cases h'
      rfl
    · next h' =>
      rw [h] at h'
      cases h'

theorem pieces_cons {c : Char} {cs : List Char} (h : readTag? (c :: cs) = none) :
    pieces (c :: cs) = Piece.consChar c (pieces cs) := by
  rw [pieces]
  split
  · next h' =>
    rw [h] at h'
    cases h'
  · rfl

theorem pieces_nil : pieces [] = [] := by
  rw [pieces]

/-- A piece is the only piece of its own characters. -/
theorem pieces_raw {cs : List Char} {p : Piece} (h : p ∈ pieces cs) : pieces p.raw = [p] := by
  fun_induction pieces cs generalizing p with
  | case1 => cases h
  | case2 c cs d content rest hread _ ih =>
    rcases List.mem_cons.1 h with rfl | h
    · have halone : readTag? (Piece.tag d content).raw = some (d, content, []) :=
        readTag?_eq_some_iff.2 ⟨(List.append_nil _).symm, Delimiter.encloses_of_readTag? hread⟩
      rw [pieces_of_readTag? halone, pieces_nil]
    · exact ih h
  | case3 c cs hread ih =>
    have hraw := flatMap_raw_pieces cs
    cases hps : pieces cs with
    | nil =>
      rw [hps] at h hraw
      obtain rfl : cs = [] := hraw.symm
      obtain rfl := List.mem_singleton.1 h
      rw [Piece.raw, pieces_cons hread, pieces_nil]
      rfl
    | cons first others =>
      rw [hps] at h hraw ih
      have hfirst := ih List.mem_cons_self
      cases first with
      | text chars =>
        rcases List.mem_cons.1 h with rfl | h
        · -- No tag starts in the text, with less after it than in the source.
          have hshort : readTag? (c :: chars) = none := by
            rw [← hraw] at hread
            exact readTag?_eq_none_of_append hread
          rw [Piece.raw, pieces_cons hshort, show pieces chars = _ from hfirst]
          rfl
        · exact ih (List.mem_cons_of_mem _ h)
      | tag d content =>
        rcases List.mem_cons.1 h with rfl | h
        · have hmore : readTag? ([c] ++ cs) = none := hread
          have hshort : readTag? [c] = none := readTag?_eq_none_of_append hmore
          rw [Piece.raw, pieces_cons hshort, pieces_nil]
          rfl
        · exact ih h

/-! ## A line feed at the seam -/

theorem Delimiter.Encloses.lineFeed_not_mem_raw {d : Delimiter} {content : List Char}
    (h : d.Encloses content) : '\n' ∉ (Piece.tag d content).raw := by
  have hline := h.1
  cases d with
  | placeholder => simp [Piece.raw, Delimiter.openMark, Delimiter.closeMark, hline]
  | block => simp [Piece.raw, Delimiter.openMark, Delimiter.closeMark, hline]
  | comment => simp [Piece.raw, Delimiter.openMark, Delimiter.closeMark, hline]

/-- No tag reaches over a line feed, so what follows one has no part in whether
a tag can be read before it. -/
theorem readTag?_append_eq_none {cs : List Char} (hline : '\n' ∈ cs) (h : readTag? cs = none)
    (more : List Char) : readTag? (cs ++ more) = none := by
  cases hread : readTag? (cs ++ more) with
  | none => rfl
  | some read =>
    obtain ⟨d, content, rest⟩ := read
    obtain ⟨heq, hencloses⟩ := readTag?_eq_some_iff.1 hread
    rcases List.append_eq_append_iff.1 heq with ⟨inside, hraw, -⟩ | ⟨after, rfl, -⟩
    · have hmem : '\n' ∈ (Piece.tag d content).raw := by
        rw [hraw]
        exact List.mem_append_left _ hline
      exact absurd hmem hencloses.lineFeed_not_mem_raw
    · have halone : readTag? ((Piece.tag d content).raw ++ after) = some (d, content, after) :=
        readTag?_eq_some_iff.2 ⟨rfl, hencloses⟩
      rw [h] at halone
      cases halone

namespace Piece

theorem getLast?_raw_tag (d : Delimiter) (content : List Char) :
    (tag d content).raw.getLast? = some '}' := by
  simp [raw, List.getLast?_cons]

/-- Puts text in front, joining it with the text that follows. -/
def consText (chars : List Char) : List Piece → List Piece
  | .text more :: ps => .text (chars ++ more) :: ps
  | ps => .text chars :: ps

theorem consChar_consText (c : Char) (chars : List Char) (ps : List Piece) :
    consChar c (consText chars ps) = consText (c :: chars) ps := by
  cases ps with
  | nil => rfl
  | cons p ps => cases p <;> rfl

theorem consChar_eq_consText (c : Char) (ps : List Piece) : consChar c ps = consText [c] ps := by
  cases ps with
  | nil => rfl
  | cons p ps => cases p <;> rfl

theorem consChar_append (c : Char) (p : Piece) (ps qs : List Piece) :
    consChar c (p :: ps ++ qs) = consChar c (p :: ps) ++ qs := by
  cases p <;> rfl

end Piece

/-- A source that ends with a line feed ends with text, and is cut as it would be
alone: all that follows it can do is make that text longer. -/
theorem pieces_append {cs : List Char} (h : cs.getLast? = some '\n') (more : List Char) :
    ∃ ps chars, pieces cs = ps ++ [.text chars]
      ∧ pieces (cs ++ more) = ps ++ Piece.consText chars (pieces more) := by
  fun_induction pieces cs with
  | case1 => cases h
  | case2 c cs d content rest hread _ ih =>
    have hrest : rest.getLast? = some '\n' := by
      rw [eq_append_of_readTag? hread, List.getLast?_append] at h
      cases hlast : rest.getLast? with
      | none =>
        rw [hlast, Piece.getLast?_raw_tag] at h
        cases h
      | some last =>
        rw [hlast] at h
        exact h
    obtain ⟨ps, chars, hrest', hmore⟩ := ih hrest
    refine ⟨.tag d content :: ps, chars, congrArg (_ :: ·) hrest', ?_⟩
    rw [pieces_of_readTag? (readTag?_append hread more), hmore]
    rfl
  | case3 c cs hread ih =>
    have hmore : readTag? (c :: (cs ++ more)) = none :=
      readTag?_append_eq_none (List.mem_of_getLast? h) hread more
    rw [List.cons_append, pieces_cons hmore]
    cases cs with
    | nil => exact ⟨[], [c], by rw [pieces_nil]; rfl, Piece.consChar_eq_consText c _⟩
    | cons d cs =>
      obtain ⟨ps, chars, hcs, happend⟩ := ih (by simpa using h)
      rw [hcs, happend]
      cases ps with
      | nil => exact ⟨[], c :: chars, rfl, Piece.consChar_consText c chars _⟩
      | cons p ps =>
        refine ⟨Piece.consChar c (p :: ps), chars, ?_, ?_⟩
        · exact Piece.consChar_append c p ps _
        · exact Piece.consChar_append c p ps _

end Stencil
