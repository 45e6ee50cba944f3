-- SUMMARY: Operands by their trimmed text: whether one is a literal or a name does not depend on the blanks around it, and a name keeps all of its text.
import Stencil.Expr
import Stencil.Proofs.LiteralAcceptance
import Stencil.Proofs.PathComposition

/-!
# Operands and Their Text

A literal starts and ends with a character that is no blank. So a text reads as a literal
exactly if what is left after trimming is one, and blanks around an operand never make a
name of a literal or a literal of a name. A name is its whole trimmed text, cut at the dots.
-/

namespace Stencil

/-! ## How a literal ends -/

namespace Text

/-- What a numeral is written with. -/
def IsNumeralChar (c : Char) : Prop := c.isDigit = true ∨ c ∈ ['_', '+', '-', '.', 'e', 'E']

theorem IsNumeralChar.isBlank_eq_false {c : Char} (h : IsNumeralChar c) : isBlank c = false := by
  rcases h with hdigit | hmem
  · exact isBlank_of_isWordChar (isWordChar_of_isDigit hdigit)
  · simp only [List.mem_cons, List.not_mem_nil, or_false] at hmem
    rcases hmem with rfl | rfl | rfl | rfl | rfl | rfl <;> decide

theorem DigitGroup.isNumeralChar {text ds : List Char} (h : DigitGroup text ds) :
    ∀ c ∈ text, IsNumeralChar c := by
  induction h with
  | one hd => exact List.forall_mem_singleton.2 (.inl hd)
  | next hd _ ih => exact List.forall_mem_cons.2 ⟨.inl hd, ih⟩
  | grouped hd _ ih =>
    refine List.forall_mem_cons.2 ⟨.inl hd, List.forall_mem_cons.2 ⟨.inr ?_, ih⟩⟩
    decide

theorem OptionalDigits.isNumeralChar {text ds : List Char} (h : OptionalDigits text ds) :
    ∀ c ∈ text, IsNumeralChar c := by
  cases h with
  | none => exact List.forall_mem_nil _
  | some h => exact h.isNumeralChar

theorem SignText.isNumeralChar {text : List Char} {negative : Bool} (h : SignText text negative) :
    ∀ c ∈ text, IsNumeralChar c := by
  cases h with
  | none => exact List.forall_mem_nil _
  | plus => exact List.forall_mem_singleton.2 (.inr (by decide))
  | minus => exact List.forall_mem_singleton.2 (.inr (by decide))

theorem FractionText.isNumeralChar {text : List Char} {f : Option (List Char)}
    (h : FractionText text f) : ∀ c ∈ text, IsNumeralChar c := by
  cases h with
  | none => exact List.forall_mem_nil _
  | some h => exact List.forall_mem_cons.2 ⟨.inr (by decide), h.isNumeralChar⟩

theorem ExponentText.isNumeralChar {text : List Char} {e : Option Int} (h : ExponentText text e) :
    ∀ c ∈ text, IsNumeralChar c := by
  cases h with
  | none => exact List.forall_mem_nil _
  | some he hs h =>
    refine List.forall_mem_cons.2 ⟨.inr ?_, ?_⟩
    · rcases he with rfl | rfl <;> decide
    · exact List.forall_mem_append.2 ⟨hs.isNumeralChar, h.isNumeralChar⟩

theorem NumeralText.solid {text : List Char} {n : Numeral} (h : NumeralText text n) :
    Solid text := by
  cases h with
  | mk hs hw hf _ he =>
    intro c hc
    apply IsNumeralChar.isBlank_eq_false
    simp only [List.mem_append] at hc
    rcases hc with ((hc | hc) | hc) | hc
    · exact hs.isNumeralChar c hc
    · exact hw.isNumeralChar c hc
    · exact hf.isNumeralChar c hc
    · exact he.isNumeralChar c hc

end Text

namespace Literal

open Text (isBlank skipBlanks trimChars Blanks SolidFirst SolidLast)

theorem Keyword.solid {word : List Char} {v : Value} (h : Keyword word v) : Text.Solid word := by
  obtain ⟨c, cs, rfl, hc, hcs⟩ := h.exists_cons
  have hfirst : ∀ d ∈ ['T', 't', 'F', 'f', 'N', 'n'], Text.isWordChar d = true :=
    List.all_eq_true.1 rfl
  have hword : ∀ d ∈ c :: cs, Text.isWordChar d = true :=
    List.forall_mem_cons.2 ⟨hfirst c hc, hcs⟩
  exact fun d hd => Text.isBlank_of_isWordChar (hword d hd)

theorem solidLast_bracketed (opening : Char) (text : List Char) {closing : Char}
    (h : isBlank closing = false) : SolidLast (opening :: (text ++ [closing])) := by
  intro c hc
  rw [← List.cons_append, List.getLast?_concat] at hc
  obtain rfl := Option.some.inj hc
  exact h

theorem Denotes.solidLast {text : List Char} {v : Value} (h : Denotes text v) : SolidLast text := by
  cases h with
  | integer hn _ => exact hn.solid.solidLast
  | float hn _ => exact hn.solid.solidLast
  | @string mark body _ hmark _ =>
    apply solidLast_bracketed
    rcases hmark with rfl | rfl <;> decide
  | keyword h => exact h.solid.solidLast
  | list _ => exact solidLast_bracketed _ _ (by decide)
  | tuple _ _ => exact solidLast_bracketed _ _ (by decide)
  | grouped _ => exact solidLast_bracketed _ _ (by decide)
  | map _ => exact solidLast_bracketed _ _ (by decide)

theorem Denotes.solidFirst {text : List Char} {v : Value} (h : Denotes text v) :
    SolidFirst text := by
  obtain ⟨c, cs, rfl, hc, -⟩ := h.startsItem
  intro d hd
  obtain rfl := Option.some.inj hd
  exact hc

/-! ## Reading a text and its trimmed form -/

/-- A text is read as a literal exactly if its trimmed form is one. -/
theorem read?_eq_some_iff {source : String} {v : Value} :
    read? source = some v ↔ Denotes (trimChars source.toList) v := by
  rw [read?_eq]
  constructor
  · intro h
    obtain ⟨⟨v', rest⟩, hread, heq⟩ := Option.bind_eq_some_iff.1 h
    obtain ⟨text, htext, hv⟩ := sound_value _ hread
    split at heq
    · next hrest =>
      cases heq
      obtain ⟨before, hbefore, hsource⟩ := Text.exists_blanks_append source.toList
      have htrimmed : Text.Trimmed source.toList text := by
        refine ⟨before, rest, hbefore, Text.blanks_of_skipBlanks_eq_nil hrest, ?_,
          hv.solidFirst, hv.solidLast⟩
        rw [List.append_assoc, ← htext]
        exact hsource
      rwa [htrimmed.trimChars_eq]
    · cases heq
  · intro hv
    obtain ⟨after, hafter, hskip, -⟩ := Text.exists_append_blanks (skipBlanks source.toList)
    have hsplit : skipBlanks source.toList = trimChars source.toList ++ after := hskip
    have hlength : (trimChars source.toList).length
        ≤ (trimChars source.toList ++ after).length + 1 := by
      rw [List.length_append]
      omega
    rw [hsplit, complete_value _ hv hlength (follows_blanks hafter), Option.bind_some]
    exact if_pos (Text.skipBlanks_blanks hafter)

theorem read?_trim (source : String) : read? (Text.trim source) = read? source := by
  apply Option.ext
  intro v
  rw [read?_eq_some_iff, read?_eq_some_iff, Text.trim, String.toList_ofList,
    Text.trimChars_trimChars]

end Literal

/-! ## Names -/

namespace Expr

theorem ofString_of_read? {source : String} {v : Value} (h : Literal.read? source = some v) :
    ofString source = .literal v := by
  unfold ofString
  rw [h]

theorem ofString_of_read?_eq_none {source : String} (h : Literal.read? source = none) :
    ofString source = .name (.ofString (Text.trim source)) := by
  unfold ofString
  rw [h]

theorem ofString_trim (source : String) : ofString (Text.trim source) = ofString source := by
  unfold ofString
  rw [Literal.read?_trim, Text.trim_trim]

theorem text_of_ofString_eq_name {source : String} {path : Path}
    (h : ofString source = .name path) : path.text = Text.trim source := by
  cases hread : Literal.read? source with
  | some v =>
    rw [ofString_of_read? hread] at h
    cases h
  | none =>
    rw [ofString_of_read?_eq_none hread] at h
    cases h
    exact Path.text_ofString _

/-- Blanks around an operand make no difference, and a name is all of the text between
them, whose segments are those between its dots. -/
theorem ofString_ignores_blanks (source : String) :
    ofString source = ofString (Text.trim source)
      ∧ Literal.read? source = Literal.read? (Text.trim source)
      ∧ (∀ path, ofString source = .name path →
          ".".intercalate path.segments = Text.trim source
            ∧ ofString (".".intercalate path.segments) = .name path)
      ∧ ∀ segments : List String, segments ≠ [] → (∀ segment ∈ segments, '.' ∉ segment.toList) →
          (Path.ofString (".".intercalate segments)).segments = segments := by
  refine ⟨(ofString_trim source).symm, (Literal.read?_trim source).symm, ?_, ?_⟩
  · intro path hpath
    have htext := text_of_ofString_eq_name hpath
    rw [Path.text_eq_intercalate] at htext
    rw [htext, ofString_trim]
    exact ⟨rfl, hpath⟩
  · intro segments hne hdots
    obtain ⟨root, rest, rfl⟩ := List.exists_cons_of_ne_nil hne
    rw [Path.ofString_intercalate hdots]
    rfl

theorem ofString_ignores_blanks_unfinished :
    Literal.read? "\u3000 (1, 'a.b\\ \t" = Literal.read? (Text.trim "\u3000 (1, 'a.b\\ \t")
      ∧ ofString "\u3000 (1, 'a.b\\ \t" = .name ⟨"(1, 'a", ["b\\"]⟩
      ∧ ofString (Text.trim "\u3000 (1, 'a.b\\ \t") = .name ⟨"(1, 'a", ["b\\"]⟩
      ∧ ofString (".".intercalate ["(1, 'a", "b\\"]) = .name ⟨"(1, 'a", ["b\\"]⟩
      ∧ ["", "(1, 'a", "", "b\\"] ≠ []
      ∧ (∀ segment ∈ ["", "(1, 'a", "", "b\\"], '.' ∉ segment.toList)
      ∧ (Path.ofString (".".intercalate ["", "(1, 'a", "", "b\\"])).segments
          = ["", "(1, 'a", "", "b\\"] := by
  have hname : ofString "\u3000 (1, 'a.b\\ \t" = .name ⟨"(1, 'a", ["b\\"]⟩ := by
    decide +kernel
  have hne : ["", "(1, 'a", "", "b\\"] ≠ [] := List.cons_ne_nil _ _
  have hdots : ∀ segment ∈ ["", "(1, 'a", "", "b\\"], '.' ∉ segment.toList := by decide
  obtain ⟨htrim, hread, hnames, hsegments⟩ := ofString_ignores_blanks "\u3000 (1, 'a.b\\ \t"
  obtain ⟨-, hagain⟩ := hnames _ hname
  exact ⟨hread, hname, htrim.symm.trans hname, hagain, hne, hdots, hsegments _ hne hdots⟩

end Expr

end Stencil
