-- SUMMARY: Where a report and the display line of a malformed template say that the fault is: at one tag of the source, which the report underlines.
import Stencil.Proofs.FirstFault
import Stencil.Proofs.Locations
import Stencil.Report

/-!
# Places in Reports

A template that cannot be compiled is malformed at one of its tags. The display line
takes its line and column from the location that was carried along from token to token
in bytes; the report counts characters from the start of the source again and splits
the source into lines. Both come to the same place, and the report underlines the
columns of that tag and no others: a tag stays on its line and does not end in a blank,
so nothing of it is lost when the line is cut out and the blanks at its end are dropped.
Lines end at line feeds; a carriage return in front of one is such a blank.
-/

namespace Stencil

open Text (byteSize)

/-! ## Bytes and characters -/

theorem charsBefore_append (front rest : List Char) :
    charsBefore (byteSize front) (front ++ rest) = front.length := by
  induction front with
  | nil =>
    cases rest with
    | nil => rfl
    | cons c rest => rfl
  | cons c front ih =>
    have hpos := c.utf8Size_pos
    have hne : c.utf8Size + byteSize front ≠ 0 := by omega
    rw [Text.byteSize_cons, List.cons_append, charsBefore, if_neg hne, Nat.add_sub_cancel_left, ih,
      List.length_cons]

/-! ## The quoted line -/

theorem rtakeWhile_append_lineFeed (before after : List Char) :
    (before ++ '\n' :: after).rtakeWhile (· ≠ '\n') = after.rtakeWhile (· ≠ '\n') := by
  unfold List.rtakeWhile
  rw [List.reverse_append, List.reverse_cons, List.append_assoc, List.takeWhile_append]
  split
  · next hall =>
    rw [(List.takeWhile_prefix _).eq_of_length hall, List.singleton_append,
      List.takeWhile_cons_of_neg (by simp), List.append_nil]
  · rfl

namespace QuotedLine

variable {line front rest : List Char}

theorem find_fields_first (number : Nat) (hfront : '\n' ∉ front) :
    find number front.length (Text.fields (· == '\n') (front ++ rest))
      = ⟨number, front.length, front ++ rest.takeWhile (· ≠ '\n')⟩ := by
  obtain ⟨others, hothers⟩ := Text.exists_fields_eq_cons '\n' (front ++ rest)
  rw [List.takeWhile_append_of_pos fun d hd =>
    decide_eq_true (ne_of_mem_of_not_mem hd hfront)] at hothers
  rw [hothers]
  cases others with
  | nil => rfl
  | cons next others =>
    rw [find, if_pos (.inl (by simp))]

theorem find_fields_later (number : Nat) (hline : '\n' ∉ line) (hrest : front ++ rest ≠ []) :
    find number (line ++ '\n' :: front).length
        (Text.fields (· == '\n') (line ++ '\n' :: front ++ rest))
      = find (number + 1) front.length (Text.fields (· == '\n') (front ++ rest)) := by
  have hfields : Text.fields (· == '\n') (line ++ '\n' :: front ++ rest)
      = line :: Text.fields (· == '\n') (front ++ rest) := by
    rw [List.append_assoc, List.cons_append]
    refine Text.fields_append_cons (fun d hd => ?_) rfl
    exact beq_eq_false_iff_ne.2 (ne_of_mem_of_not_mem hd hline)
  have hjoin := Text.joinFields_fields '\n' (front ++ rest)
  rw [hfields]
  cases hnext : Text.fields (· == '\n') (front ++ rest) with
  | nil => exact absurd hnext (Text.fields_ne_nil _ _)
  | cons next others =>
    have hpast : ¬((line ++ '\n' :: front).length ≤ line.length ∨ (next = [] ∧ others = [])) := by
      rintro (hle | ⟨rfl, rfl⟩)
      · simp at hle
      · rw [hnext] at hjoin
        exact hrest hjoin.symm
    have hposition : (line ++ '\n' :: front).length - (line.length + 1) = front.length := by
      simp only [List.length_append, List.length_cons]
      omega
    rw [find, if_neg hpast, hposition]

/-- The line of a position that is not at the end has as its number the line feeds before
the position, and starts after the last of them. -/
theorem find_fields (number : Nat) (front : List Char) (hrest : rest ≠ []) :
    let lead := front.rtakeWhile (· ≠ '\n')
    find number front.length (Text.fields (· == '\n') (front ++ rest))
      = ⟨number + front.count '\n', lead.length, lead ++ rest.takeWhile (· ≠ '\n')⟩ := by
  intro lead
  -- one line is taken off the front at a time
  by_cases hfeed : '\n' ∈ front
  · obtain ⟨line, later, rfl, hline⟩ := List.eq_append_cons_of_mem hfeed
    have hlead : lead = later.rtakeWhile (· ≠ '\n') := rtakeWhile_append_lineFeed line later
    have hcount : (line ++ '\n' :: later).count '\n' = later.count '\n' + 1 := by
      rw [List.count_append, List.count_eq_zero.2 hline, List.count_cons_self, Nat.zero_add]
    rw [find_fields_later number hline (by simp [hrest]), find_fields (number + 1) later hrest,
      hlead, hcount, Nat.add_right_comm, Nat.add_assoc]
  · have hlead : lead = front := List.rtakeWhile_eq_self_iff.2 fun d hd =>
      decide_eq_true (ne_of_mem_of_not_mem hd hfeed)
    rw [find_fields_first number hfeed, hlead, List.count_eq_zero.2 hfeed, Nat.add_zero]
termination_by front.length
decreasing_by
  subst_vars
  simp only [List.length_append, List.length_cons]
  omega

end QuotedLine

/-! ## Columns -/

theorem length_showBlanks_cons (place : Nat) (c : Char) (cs : List Char) :
    (showBlanks place (c :: cs)).length
      = columnsAt place c + (showBlanks (place + 1) cs).length := by
  rw [showBlanks, List.length_append]
  split
  · rw [List.length_replicate]
  · next hsolid =>
    have htab : c ≠ '\t' := by
      rintro rfl
      exact hsolid (by decide)
    rw [columnsAt, if_neg htab, List.length_singleton]

theorem showBlanks_append (place : Nat) (cs ds : List Char) :
    showBlanks place (cs ++ ds) = showBlanks place cs ++ showBlanks (place + cs.length) ds := by
  induction cs generalizing place with
  | nil => rfl
  | cons c cs ih =>
    simp only [List.cons_append, showBlanks, ih, List.append_assoc, List.length_cons,
      Nat.add_assoc, Nat.add_comm 1]

theorem columnsOf_append (before : List Char) (c : Char) (after : List Char) :
    columnsOf (before ++ c :: after) before.length = columnsAt before.length c := by
  simp [columnsOf]

theorem columnsAt_pos (place : Nat) (c : Char) : 0 < columnsAt place c := by
  unfold columnsAt
  split
  · omega
  · omega

/-- What a row shows below consecutive places of a line. -/
def showPlaces (line : List Char) (show? : Nat → Nat → List Char) (start count : Nat) :
    List Char :=
  (List.range' start count).flatMap fun place => show? place (columnsOf line place)

theorem showPlaces_append (line : List Char) (show? : Nat → Nat → List Char)
    (start count more : Nat) :
    showPlaces line show? start (count + more)
      = showPlaces line show? start count ++ showPlaces line show? (start + count) more := by
  rw [showPlaces, ← List.range'_append_1, List.flatMap_append]
  rfl

theorem exists_place_of_mem_showPlaces {line : List Char} {show? : Nat → Nat → List Char}
    {start count : Nat} {c : Char} (h : c ∈ showPlaces line show? start count) :
    ∃ place, (start ≤ place ∧ place < start + count) ∧ c ∈ show? place (columnsOf line place) := by
  obtain ⟨place, hplace, hmem⟩ := List.mem_flatMap.1 h
  exact ⟨place, List.mem_range'_1.1 hplace, hmem⟩

/-- Below some characters, a row takes as many columns as they do. -/
theorem length_showPlaces {show? : Nat → Nat → List Char}
    (hshow : ∀ place columns, 0 < columns → (show? place columns).length = columns)
    (before cs after : List Char) :
    (showPlaces (before ++ cs ++ after) show? before.length cs.length).length
      = (showBlanks before.length cs).length := by
  induction cs generalizing before with
  | nil => rfl
  | cons c cs ih =>
    -- the line stays the same while its characters move over to `before`
    have hrest := ih (before ++ [c])
    rw [List.append_assoc before, List.singleton_append, List.length_append,
      List.length_singleton] at hrest
    have hfirst : showPlaces (before ++ (c :: cs) ++ after) show? before.length 1
        = show? before.length (columnsAt before.length c) := by
      rw [List.append_assoc, List.cons_append, ← columnsOf_append before c (cs ++ after)]
      exact List.append_nil _
    rw [List.length_cons, Nat.add_comm, showPlaces_append, List.length_append, hrest, hfirst,
      hshow _ _ (columnsAt_pos _ _), length_showBlanks_cons]

/-! ## The underline -/

/-- `Underlines lead marked below`: the row `below` marks the columns that `marked` takes
behind `lead`, and no others. -/
def Underlines (lead marked below : List Char) : Prop :=
  ∃ marks rest, below = List.replicate lead.length ' ' ++ marks ++ rest
    ∧ marks.length = marked.length ∧ (∀ c ∈ marks, c = '─' ∨ c = '┬') ∧ ∀ c ∈ rest, c = ' '

namespace Underline

variable {u : Underline} {place columns : Nat}

theorem length_barAt (u : Underline) (place : Nat) (h : 0 < columns) :
    (u.barAt place columns).length = columns := by
  unfold barAt
  split
  · rw [List.length_cons, List.length_replicate]
    omega
  · split
    · exact List.length_replicate
    · exact List.length_replicate

theorem eq_mark_of_mem_barAt (hfirst : u.first ≤ place) (hstop : place < u.stop) {c : Char}
    (h : c ∈ u.barAt place columns) : c = '─' ∨ c = '┬' := by
  unfold barAt at h
  split at h
  · rcases List.mem_cons.1 h with rfl | hmem
    · exact .inr rfl
    · exact .inl (List.eq_of_mem_replicate hmem)
  · rw [if_pos ⟨hfirst, hstop⟩] at h
    exact .inl (List.eq_of_mem_replicate h)

theorem eq_space_of_mem_barAt (hfirst : u.first ≤ u.middle) (hstop : u.middle < u.stop)
    (houtside : place < u.first ∨ u.stop ≤ place) {c : Char} (h : c ∈ u.barAt place columns) :
    c = ' ' := by
  have hmiddle : place ≠ u.middle := by omega
  have hpart : ¬(u.first ≤ place ∧ place < u.stop) := by omega
  rw [barAt, if_neg hmiddle, if_neg hpart] at h
  exact List.eq_of_mem_replicate h

theorem row_eq (u : Underline) (line : List Char) (show? : Nat → Nat → List Char) :
    u.row line show? = showPlaces line show? 0 (u.stop + 2) := by
  rw [row, List.range_eq_range']
  rfl

theorem underlines_row {lead marked : List Char} (tail : List Char) (hfirst : u.first = lead.length)
    (hstop : u.stop = lead.length + marked.length) (hmiddle : u.first ≤ u.middle)
    (hinside : u.middle < u.stop) :
    Underlines (showBlanks 0 lead) (showBlanks lead.length marked)
      (u.row (lead ++ marked ++ tail) u.barAt) := by
  have hlength := length_showPlaces fun place _ => u.length_barAt place
  have hrow : u.row (lead ++ marked ++ tail) u.barAt
      = showPlaces (lead ++ marked ++ tail) u.barAt 0 lead.length
        ++ showPlaces (lead ++ marked ++ tail) u.barAt lead.length marked.length
        ++ showPlaces (lead ++ marked ++ tail) u.barAt u.stop 2 := by
    rw [row_eq, hstop, showPlaces_append, showPlaces_append, Nat.zero_add, Nat.zero_add]
  have hlead : showPlaces (lead ++ marked ++ tail) u.barAt 0 lead.length
      = List.replicate (showBlanks 0 lead).length ' ' := by
    refine List.eq_replicate_iff.2 ⟨?_, ?_⟩
    · rw [List.append_assoc]
      exact hlength [] lead (marked ++ tail)
    · intro c hc
      obtain ⟨place, hplace, hmem⟩ := exists_place_of_mem_showPlaces hc
      exact eq_space_of_mem_barAt hmiddle hinside (by omega) hmem
  refine ⟨_, _, by rw [hrow, hlead], hlength lead marked tail, ?_, ?_⟩
  · intro c hc
    obtain ⟨place, hplace, hmem⟩ := exists_place_of_mem_showPlaces hc
    exact eq_mark_of_mem_barAt (by omega) (by omega) hmem
  · intro c hc
    obtain ⟨place, hplace, hmem⟩ := exists_place_of_mem_showPlaces hc
    exact eq_space_of_mem_barAt hmiddle hinside (by omega) hmem

end Underline

/-! ## Diagnostics at a tag -/

namespace Diagnostic

/-- `d.IsAt front marked`: the diagnostic is about `marked`, which stands behind `front`,
has no line feed and does not end in a blank. -/
structure IsAt (d : Diagnostic) (front marked : List Char) : Prop where
  location_eq : d.location = .ending front
  length_eq : d.length = byteSize marked
  ne_nil : marked ≠ []
  lineFeed_not_mem : '\n' ∉ marked
  solidLast : Text.SolidLast marked

namespace IsAt

variable {d : Diagnostic} {front marked : List Char}

theorem display_eq (h : d.IsAt front marked) :
    d.display = "Syntax error at line " ++ toString (front.count '\n' + 1) ++ ", column "
      ++ toString ((front.rtakeWhile (· ≠ '\n')).length + 1) ++ ": " ++ d.message := by
  rw [display, h.location_eq]
  rfl

theorem firstChar_eq (h : d.IsAt front marked) (rest : List Char) :
    d.firstChar (front ++ marked ++ rest) = front.length := by
  rw [firstChar, h.location_eq, List.append_assoc]
  exact charsBefore_append front (marked ++ rest)

theorem charsBefore_end (h : d.IsAt front marked) (rest : List Char) :
    charsBefore (d.location.offset + d.length) (front ++ marked ++ rest)
      = front.length + marked.length := by
  have hend : d.location.offset + d.length = byteSize (front ++ marked) := by
    rw [h.location_eq, h.length_eq, Text.byteSize_append]
    rfl
  rw [hend, charsBefore_append, List.length_append]

theorem endChar_eq (h : d.IsAt front marked) (rest : List Char) :
    d.endChar (front ++ marked ++ rest) = front.length + marked.length := by
  have hpos := List.length_pos_iff.2 h.ne_nil
  rw [endChar, h.charsBefore_end, h.firstChar_eq]
  omega

theorem line_eq (h : d.IsAt front marked) (rest : List Char) :
    let lead := front.rtakeWhile (· ≠ '\n')
    d.line (front ++ marked ++ rest)
      = ⟨front.count '\n' + 1, lead.length, lead ++ marked ++ rest.takeWhile (· ≠ '\n')⟩ := by
  intro lead
  have hmarked : ∀ c ∈ marked, decide (c ≠ '\n') = true := fun c hc =>
    decide_eq_true (ne_of_mem_of_not_mem hc h.lineFeed_not_mem)
  rw [line, h.firstChar_eq, List.append_assoc, QuotedLine.find_fields 1 front (by simp [h.ne_nil]),
    List.takeWhile_append_of_pos hmarked, List.append_assoc, Nat.add_comm]

theorem underline_eq (h : d.IsAt front marked) (rest : List Char) :
    let lead := front.rtakeWhile (· ≠ '\n')
    d.underline (front ++ marked ++ rest)
      = ⟨lead.length, lead.length + marked.length, lead.length + marked.length / 2⟩ := by
  intro lead
  have hle : lead.length ≤ front.length := (List.rtakeWhile_suffix _ _).length_le
  rw [underline, h.firstChar_eq, h.endChar_eq, h.line_eq]
  congr 1
  · show front.length - (front.length - lead.length) = lead.length
    omega
  · show front.length + marked.length - (front.length - lead.length) = lead.length + marked.length
    omega
  · show (front.length + (front.length + marked.length)) / 2 - (front.length - lead.length)
      = lead.length + marked.length / 2
    omega

theorem shown_eq (h : d.IsAt front marked) (rest : List Char) :
    Text.dropTrailingBlanks (d.line (front ++ marked ++ rest)).chars
      = front.rtakeWhile (· ≠ '\n') ++ marked
        ++ Text.dropTrailingBlanks (rest.takeWhile (· ≠ '\n')) := by
  rw [h.line_eq]
  refine Text.dropTrailingBlanks_append (by simp [h.ne_nil]) (fun c hc => ?_) _
  rw [List.getLast?_append_of_ne_nil _ h.ne_nil] at hc
  exact h.solidLast c hc

theorem underlines_row (h : d.IsAt front marked) (rest after : List Char) :
    let lead := front.rtakeWhile (· ≠ '\n')
    let underline := d.underline (front ++ marked ++ rest)
    Underlines (showBlanks 0 lead) (showBlanks lead.length marked)
      (underline.row (lead ++ marked ++ after) underline.barAt) := by
  intro lead underline
  have hpos := List.length_pos_iff.2 h.ne_nil
  have hunderline : underline
      = ⟨lead.length, lead.length + marked.length, lead.length + marked.length / 2⟩ :=
    h.underline_eq rest
  rw [hunderline]
  refine Underline.underlines_row after rfl rfl (Nat.le_add_right _ _) ?_
  show lead.length + marked.length / 2 < lead.length + marked.length
  omega

end IsAt

/-- A report that names a place and shows a line with two rows below it, the message at
the end of the second. -/
def laidOut (filename line column : String) (shown below hook : List Char) (message : String) :
    String :=
  let margin := String.ofList (List.replicate (line.length + 2) ' ')
  let rows :=
    [ "Error: Invalid template syntax",
      margin ++ "╭─[" ++ filename ++ ":" ++ line ++ ":" ++ column ++ "]",
      margin ++ "│",
      quotedRow (" " ++ line ++ " ") shown,
      quotedRow margin below,
      quotedRow margin hook ++ " " ++ message,
      String.ofList (List.replicate (line.length + 2) '─') ++ "╯" ]
  String.join (rows.map (· ++ "\n"))

theorem IsAt.exists_report_eq {d : Diagnostic} {front marked rest : List Char} {source : String}
    (h : d.IsAt front marked) (hsource : source.toList = front ++ marked ++ rest) :
    let lead := front.rtakeWhile (· ≠ '\n')
    ∃ tail below hook, Underlines (showBlanks 0 lead) (showBlanks lead.length marked) below
      ∧ ∀ filename, d.report source filename
        = laidOut filename (toString (front.count '\n' + 1)) (toString (lead.length + 1))
            (showBlanks 0 lead ++ showBlanks lead.length marked ++ tail) below hook d.message := by
  intro lead
  let after := Text.dropTrailingBlanks (rest.takeWhile (· ≠ '\n'))
  let underline := d.underline (front ++ marked ++ rest)
  have hshown : Text.dropTrailingBlanks (d.line (front ++ marked ++ rest)).chars
      = lead ++ marked ++ after := h.shown_eq rest
  have hblanks : showBlanks 0 (lead ++ marked ++ after)
      = showBlanks 0 lead ++ showBlanks lead.length marked
        ++ showBlanks (lead.length + marked.length) after := by
    rw [showBlanks_append, showBlanks_append, Nat.zero_add, Nat.zero_add, List.length_append]
  have hnonempty : source.isEmpty = false := by
    rw [Bool.eq_false_iff, ne_eq, String.isEmpty_iff]
    rintro rfl
    simp [h.ne_nil] at hsource
  have hinside : d.firstChar (front ++ marked ++ rest) < (front ++ marked ++ rest).length := by
    have hpos := List.length_pos_iff.2 h.ne_nil
    rw [h.firstChar_eq]
    simp only [List.length_append]
    omega
  refine ⟨showBlanks (lead.length + marked.length) after,
    underline.row (lead ++ marked ++ after) underline.barAt,
    underline.row (lead ++ marked ++ after) underline.hookAt, h.underlines_row rest after,
    fun filename => ?_⟩
  simp only [report, hnonempty, hsource, quotation, hinside, if_true, quotedLine, hshown, hblanks]
  rw [h.line_eq]
  rfl

end Diagnostic

/-! ## Templates -/

/-- The diagnostic of a tag is about the characters of the tag. -/
theorem Token.isAt_of_tokenize {source : String} {before after : List Token} {t : Token}
    (hsplit : tokenize source = before ++ t :: after) (hkind : t.kind ≠ .text) (message : String) :
    ∃ front rest, source.toList = front ++ t.raw.toList ++ rest
      ∧ Diagnostic.IsAt ⟨message, t.location, t.raw.utf8ByteSize⟩ front t.raw.toList := by
  obtain ⟨ps, p, qs, hpieces, -, rfl, -⟩ := exists_piece_of_tokenize_eq hsplit
  refine ⟨ps.flatMap Piece.raw, qs.flatMap Piece.raw, ?_, ?_⟩
  · rw [toList_raw_ofPiece, List.append_assoc, ← List.flatMap_cons, ← List.flatMap_append,
      ← hpieces, flatMap_raw_pieces]
  · cases p with
    | text chars => exact absurd rfl hkind
    | tag d content =>
      have hencloses : d.Encloses content :=
        Piece.encloses_of_mem_pieces (hpieces ▸ List.mem_append_right _ List.mem_cons_self)
      have hlast : Text.SolidLast (Piece.tag d content).raw := by
        intro c hc
        rw [Piece.getLast?_raw_tag] at hc
        cases hc
        decide
      have hlength (u : Token) : u.raw.utf8ByteSize = byteSize u.raw.toList := by
        rw [byteSize, String.ofList_toList]
      refine ⟨location_ofPiece _ _, hlength _, ?_, ?_, ?_⟩
      · rw [toList_raw_ofPiece]
        exact List.cons_ne_nil _ _
      · rw [toList_raw_ofPiece]
        exact hencloses.lineFeed_not_mem_raw
      · rw [toList_raw_ofPiece]
        exact hlast

/-- A template that cannot be compiled is malformed at one of its tokens, and the display
line, the span in characters and the report all name and mark the place of that token. -/
theorem Template.report_marks_token_at_fault {source filename : String} {e : TemplateError}
    (h : compile source filename = .error e) :
    ∃ fault before t after front rest, tokenize source = before ++ t :: after
      ∧ e = .malformed fault t.location t.raw.utf8ByteSize
      ∧ source.toList = front ++ t.raw.toList ++ rest
      ∧ t.location.offset = byteSize front
      ∧ let d : Diagnostic := ⟨fault.message, t.location, t.raw.utf8ByteSize⟩
        let lead := front.rtakeWhile (· ≠ '\n')
        let line := toString (front.count '\n' + 1)
        let column := toString (lead.length + 1)
        d.firstChar source.toList = front.length
        ∧ charsBefore (t.location.offset + t.raw.utf8ByteSize) source.toList
          = front.length + t.raw.toList.length
        ∧ d.endChar source.toList = front.length + t.raw.toList.length
        ∧ e.display = "Syntax error at line " ++ line ++ ", column " ++ column ++ ": "
          ++ fault.message
        ∧ ∃ tail below hook,
          Underlines (showBlanks 0 lead) (showBlanks lead.length t.raw.toList) below
          ∧ ∀ name, e.report source name = Diagnostic.laidOut name line column
              (showBlanks 0 lead ++ showBlanks lead.length t.raw.toList ++ tail) below hook
              fault.message := by
  have htokens : Node.ofTokens (tokenize source) = .error e := by
    cases hnode : Node.ofTokens (tokenize source) with
    | ok root =>
      rw [compile, hnode] at h
      cases h
    | error e' =>
      rw [compile, hnode] at h
      cases h
      rfl
  obtain ⟨before, t, after, fault, hsplit, hkind, rfl⟩ :=
    Node.exists_tag_of_ofTokens_error htokens
  obtain ⟨front, rest, hsource, hat⟩ := Token.isAt_of_tokenize hsplit hkind fault.message
  refine ⟨fault, before, t, after, front, rest, hsplit, rfl, hsource,
    congrArg Location.offset hat.location_eq, ?_⟩
  intro d lead line column
  rw [hsource]
  refine ⟨hat.firstChar_eq rest, hat.charsBefore_end rest, hat.endChar_eq rest, hat.display_eq, ?_⟩
  exact hat.exists_report_eq hsource

/-- A tag behind a carriage return, a tab and characters of two bytes, with such
characters in it. -/
theorem Template.report_marks_token_at_fault_wide :
    let lead := ['\t', 'ü', ' ']
    let tag := "\x7b% ß\t%\x7d"
    let source := "é\r\n" ++ String.ofList lead ++ tag ++ " \r\nz"
    let e : TemplateError := .malformed (.invalidKeyword "ß") ⟨8, 1, 3⟩ 8
    compile source "page" = .error e
      ∧ charsBefore 8 source.toList = 6 ∧ charsBefore (8 + 8) source.toList = 6 + 7
      ∧ e.display = "Syntax error at line 2, column 4: invalid keyword \"ß\""
      ∧ ∃ tail below hook,
        Underlines (showBlanks 0 lead) (showBlanks 3 tag.toList) below
        ∧ e.report source "page" = Diagnostic.laidOut "page" "2" "4"
            (showBlanks 0 lead ++ showBlanks 3 tag.toList ++ tail) below hook
            "invalid keyword \"ß\"" := by
  intro lead tag source e
  have he : compile source "page" = .error e := by cbv
  obtain ⟨fault, -, t, -, front, rest, -, herror, hsource, hoffset, hfirst, hend, -, hdisplay,
    tail, below, hook, hunderlines, hreport⟩ := report_marks_token_at_fault he
  obtain ⟨rfl, hlocation, hsize⟩ := TemplateError.malformed.inj herror
  rw [← hlocation] at hoffset hend hfirst
  rw [← hsize] at hend
  have hsplit : source.toList = "é\r\n\tü ".toList ++ tag.toList ++ " \r\nz".toList := by
    decide +kernel
  have hplaces := hsource.symm.trans hsplit
  rw [List.append_assoc, List.append_assoc] at hplaces
  obtain rfl : front = "é\r\n\tü ".toList :=
    Text.eq_of_byteSize_eq hplaces (hoffset.symm.trans (by decide +kernel))
  have hraw : t.raw.toList = tag.toList :=
    Text.eq_of_byteSize_eq (List.append_cancel_left hplaces) (by
      rw [byteSize, String.ofList_toList, ← hsize]
      decide +kernel)
  rw [hraw] at hend hunderlines hreport
  refine ⟨he, hfirst.trans (by decide), hend.trans (by decide +kernel), hdisplay, ?_⟩
  exact ⟨tail, below, hook, hunderlines, hreport "page"⟩

end Stencil
