-- SUMMARY: The grammar of literals with the values they denote.
import Stencil.Proofs.LiteralReaders
import Stencil.Proofs.NumeralGrammar
import Stencil.Proofs.Words

/-!
# The Grammar of Literals

`Denotes text v` says that a text, without blanks around it, is a literal with
the value `v`. A literal inside another one is followed by a blank, a comma, a
colon or a closing character, so a number in it is never followed by a letter,
digit or underscore, and a keyword is always a whole word.
-/

namespace Stencil.Literal

open Text (isBlank isWordChar skipBlanks Blanks)

variable {α : Type}

/-! ## Quoted text -/

/-- What a backslash stands for together with the character after it. -/
inductive Escape : Char → List Char → Prop where
  | lineFeed : Escape 'n' ['\n']
  | tab : Escape 't' ['\t']
  | carriageReturn : Escape 'r' ['\r']
  | null : Escape '0' ['\x00']
  | itself {c : Char} (hc : c = '\\' ∨ c = '\'' ∨ c = '"') : Escape c [c]
  | kept {c : Char} (hc : c ∉ ['n', 't', 'r', '0', '\\', '\'', '"']) : Escape c ['\\', c]

/-- The characters between two quotation marks, and the text they stand for. -/
inductive QuotedBody (mark : Char) : List Char → List Char → Prop where
  | nil : QuotedBody mark [] []
  | plain {c : Char} {body text : List Char} (hmark : c ≠ mark) (hfeed : c ≠ '\n')
      (hescape : c ≠ '\\') (h : QuotedBody mark body text) :
      QuotedBody mark (c :: body) (c :: text)
  | escaped {c : Char} {body escape text : List Char} (he : Escape c escape)
      (h : QuotedBody mark body text) : QuotedBody mark ('\\' :: c :: body) (escape ++ text)

/-! ## Numbers and keywords -/

/-- A numeral without point and exponent writes a 64-bit integer. -/
def IsInteger (n : Text.Numeral) (i : Int64) : Prop :=
  n.fraction = none ∧ n.exponent = none
    ∧ i.toInt = if n.negative then -(n.coefficient : Int) else n.coefficient

inductive Keyword : List Char → Value → Prop where
  | capitalTrue : Keyword ['T', 'r', 'u', 'e'] (.bool true)
  | lowerTrue : Keyword ['t', 'r', 'u', 'e'] (.bool true)
  | capitalFalse : Keyword ['F', 'a', 'l', 's', 'e'] (.bool false)
  | lowerFalse : Keyword ['f', 'a', 'l', 's', 'e'] (.bool false)
  | none : Keyword ['N', 'o', 'n', 'e'] .null
  | null : Keyword ['n', 'u', 'l', 'l'] .null

/-! ## Sequences -/

/-- Items with commas between them and blanks around each. The flag tells that
nothing follows the last comma, or that there is nothing at all. -/
inductive Items (D : List Char → α → Prop) : List Char → List α → Bool → Prop where
  | none {blanks : List Char} (hblanks : Blanks blanks) : Items D blanks [] true
  | last {before text after : List Char} {a : α} (hbefore : Blanks before) (ha : D text a)
      (hafter : Blanks after) : Items D (before ++ text ++ after) [a] false
  | more {before text after tail : List Char} {a : α} {as : List α} {comma : Bool}
      (hbefore : Blanks before) (ha : D text a) (hafter : Blanks after)
      (htail : Items D tail as comma) :
      Items D (before ++ text ++ after ++ ',' :: tail) (a :: as) comma

/-- A key and an item with a colon between them. The text of the key, as it
prints, names the item. -/
inductive Entry (D : List Char → Value → Prop) : List Char → String × Value → Prop where
  | mk {keyText before after text : List Char} {key v : Value} (hkey : D keyText key)
      (hbefore : Blanks before) (hafter : Blanks after) (hv : D text v) :
      Entry D (keyText ++ before ++ ':' :: after ++ text) (key.text, v)

/-! ## Literals -/

inductive Denotes : List Char → Value → Prop where
  | integer {text : List Char} {n : Text.Numeral} {i : Int64} (hn : Text.NumeralText text n)
      (hi : IsInteger n i) : Denotes text (.int i)
  | float {text : List Char} {n : Text.Numeral} (hn : Text.NumeralText text n)
      (hi : ∀ i, ¬IsInteger n i) :
      Denotes text (.float (Binary64.ofDecimal n.negative n.coefficient n.power))
  | string {mark : Char} {body text : List Char} (hmark : mark = '\'' ∨ mark = '"')
      (h : QuotedBody mark body text) :
      Denotes (mark :: (body ++ [mark])) (.string (String.ofList text))
  | keyword {word : List Char} {v : Value} (h : Keyword word v) : Denotes word v
  | list {text : List Char} {vs : List Value} {comma : Bool} (h : Items Denotes text vs comma) :
      Denotes ('[' :: (text ++ [']'])) (.list vs)
  | tuple {text : List Char} {vs : List Value} {comma : Bool} (h : Items Denotes text vs comma)
      (hlength : vs.length ≠ 1 ∨ comma = true) : Denotes ('(' :: (text ++ [')'])) (.tuple vs)
  | grouped {text : List Char} {v : Value} (h : Items Denotes text [v] false) :
      Denotes ('(' :: (text ++ [')'])) v
  | map {text : List Char} {entries : Entries Value} {comma : Bool}
      (h : Items (Entry Denotes) text entries comma) :
      Denotes ('{' :: (text ++ ['}'])) (.ofEntries entries)

/-! ## Quoted text is read to its closing mark -/

theorem escape_unescape (c : Char) : Escape c (Text.unescape c) := by
  unfold Text.unescape
  split
  · next hc => rw [hc]; exact .lineFeed
  split
  · next hc => rw [hc]; exact .tab
  split
  · next hc => rw [hc]; exact .carriageReturn
  split
  · next hc => rw [hc]; exact .null
  split
  · next hc => exact .itself hc
  · apply Escape.kept
    simp_all

theorem Escape.eq_unescape {c : Char} {text : List Char} (h : Escape c text) :
    Text.unescape c = text := by
  cases h with
  | lineFeed => rfl
  | tab => rfl
  | carriageReturn => rfl
  | null => rfl
  | itself hc => rcases hc with rfl | rfl | rfl <;> rfl
  | kept hc =>
    unfold Text.unescape
    simp_all

theorem exists_of_unquote {mark : Char} {cs text rest : List Char}
    (h : Text.unquote mark cs = some (text, rest)) :
    ∃ body, cs = body ++ mark :: rest ∧ QuotedBody mark body text := by
  fun_induction Text.unquote mark cs generalizing text rest with
  | case1 => cases h
  | case2 cs =>
    cases h
    exact ⟨[], rfl, .nil⟩
  | case3 => cases h
  | case4 => cases h
  | case5 d rest' _ _ ih =>
    obtain ⟨⟨text', rest''⟩, hread, heq⟩ := Option.map_eq_some_iff.1 h
    cases heq
    obtain ⟨body, rfl, hbody⟩ := ih hread
    exact ⟨'\\' :: d :: body, rfl, .escaped (escape_unescape d) hbody⟩
  | case6 c cs hmark hfeed hescape ih =>
    obtain ⟨⟨text', rest''⟩, hread, heq⟩ := Option.map_eq_some_iff.1 h
    cases heq
    obtain ⟨body, rfl, hbody⟩ := ih hread
    exact ⟨c :: body, rfl, .plain hmark hfeed hescape hbody⟩

theorem unquote_mark (mark : Char) (cs : List Char) :
    Text.unquote mark (mark :: cs) = some ([], cs) := by
  rw [Text.unquote.eq_def]
  exact if_pos rfl

theorem unquote_lineFeed {mark : Char} (hmark : mark ≠ '\n') (cs : List Char) :
    Text.unquote mark ('\n' :: cs) = none := by
  rw [Text.unquote.eq_def]
  simp only [if_neg hmark.symm, if_true]

theorem unquote_plain {mark c : Char} (hmark : c ≠ mark) (hfeed : c ≠ '\n') (hescape : c ≠ '\\')
    (cs : List Char) :
    Text.unquote mark (c :: cs) = (Text.unquote mark cs).map fun r => (c :: r.1, r.2) := by
  rw [Text.unquote.eq_def]
  simp only [if_neg hmark, if_neg hfeed, if_neg hescape]

theorem unquote_escape {mark : Char} (hmark : mark ≠ '\\') (c : Char) (cs : List Char) :
    Text.unquote mark ('\\' :: c :: cs)
      = (Text.unquote mark cs).map fun r => (Text.unescape c ++ r.1, r.2) := by
  rw [Text.unquote.eq_def]
  simp only [if_neg hmark.symm, if_true, if_neg (show '\\' ≠ '\n' by decide)]

theorem QuotedBody.unquote_append {mark : Char} {body text : List Char}
    (h : QuotedBody mark body text) (hmark : mark ≠ '\\') (rest : List Char) :
    Text.unquote mark (body ++ mark :: rest) = some (text, rest) := by
  induction h with
  | nil => exact unquote_mark mark rest
  | plain hc hfeed hescape _ ih =>
    rw [List.cons_append, unquote_plain hc hfeed hescape, ih]
    rfl
  | escaped he _ ih =>
    rw [List.cons_append, List.cons_append, unquote_escape hmark, ih, he.eq_unescape]
    rfl

/-! ## Numbers -/

theorem int64?_eq_some_iff {n : Int} {i : Int64} : Text.int64? n = some i ↔ i.toInt = n := by
  unfold Text.int64?
  constructor
  · intro h
    split at h
    · next hrange =>
      cases h
      obtain ⟨hlow, hhigh⟩ := hrange
      rw [Int64.toInt_minValue] at hlow
      rw [Int64.toInt_maxValue] at hhigh
      exact Int64.toInt_ofInt_of_le hlow (Int.lt_of_le_sub_one hhigh)
    · cases h
  · rintro rfl
    rw [if_pos ⟨i.minValue_le_toInt, i.toInt_le⟩, Int64.ofInt_toInt]

theorem integer?_bind_int64?_eq_some_iff {n : Text.Numeral} {i : Int64} :
    n.integer?.bind Text.int64? = some i ↔ IsInteger n i := by
  obtain ⟨negative, whole, fraction, exponent⟩ := n
  cases fraction with
  | some ds => simp [Text.Numeral.integer?, IsInteger]
  | none =>
    cases exponent with
    | some e => simp [Text.Numeral.integer?, IsInteger]
    | none => simp [Text.Numeral.integer?, IsInteger, int64?_eq_some_iff]

theorem denotes_ofNumeral {text : List Char} {n : Text.Numeral} (h : Text.NumeralText text n) :
    Denotes text (ofNumeral n) := by
  unfold ofNumeral
  split
  · next i hi => exact .integer h (integer?_bind_int64?_eq_some_iff.1 hi)
  · next hnone =>
    refine .float h fun i hi => ?_
    rw [integer?_bind_int64?_eq_some_iff.2 hi] at hnone
    cases hnone

theorem ofNumeral_of_isInteger {n : Text.Numeral} {i : Int64} (h : IsInteger n i) :
    ofNumeral n = .int i := by
  unfold ofNumeral
  rw [integer?_bind_int64?_eq_some_iff.2 h]

theorem ofNumeral_of_not_isInteger {n : Text.Numeral} (h : ∀ i, ¬IsInteger n i) :
    ofNumeral n = .float (Binary64.ofDecimal n.negative n.coefficient n.power) := by
  unfold ofNumeral
  split
  · next i hi => exact absurd (integer?_bind_int64?_eq_some_iff.1 hi) (h i)
  · rfl

/-! ## Keywords -/

theorem keyword_of_ofKeyword? {word : List Char} {v : Value}
    (h : ofKeyword? (String.ofList word) = some v) : Keyword word v := by
  have hword {other : String} (heq : String.ofList word = other) : word = other.toList := by
    rw [← heq, String.toList_ofList]
  unfold ofKeyword? at h
  split at h
  · next hc =>
    cases h
    rcases hc with hc | hc
    · exact hword hc ▸ .capitalTrue
    · exact hword hc ▸ .lowerTrue
  split at h
  · next hc =>
    cases h
    rcases hc with hc | hc
    · exact hword hc ▸ .capitalFalse
    · exact hword hc ▸ .lowerFalse
  split at h
  · next hc =>
    cases h
    rcases hc with hc | hc
    · exact hword hc ▸ .none
    · exact hword hc ▸ .null
  · cases h

theorem Keyword.ofKeyword?_eq {word : List Char} {v : Value} (h : Keyword word v) :
    ofKeyword? (String.ofList word) = some v := by
  cases h <;> rfl

theorem Keyword.exists_cons {word : List Char} {v : Value} (h : Keyword word v) :
    ∃ c cs, word = c :: cs ∧ c ∈ ['T', 't', 'F', 'f', 'N', 'n']
      ∧ ∀ d ∈ cs, isWordChar d = true := by
  cases h <;> exact ⟨_, _, rfl, by decide, List.all_eq_true.1 rfl⟩

theorem outcome_keyword_append {c : Char} {cs rest : List Char} {v : Value}
    (h : Keyword (c :: cs) v) (hcs : ∀ d ∈ cs, isWordChar d = true)
    (hrest : Text.EndsNumeral rest) : outcome (keyword c (cs ++ rest)) = some (v, rest) := by
  have htake : rest.takeWhile isWordChar = [] := by
    cases rest with
    | nil => rfl
    | cons d rest => exact List.takeWhile_cons_of_neg (by simp [(hrest d rfl).1])
  have hdrop : rest.dropWhile isWordChar = rest := by
    cases rest with
    | nil => rfl
    | cons d rest => exact List.dropWhile_cons_of_neg (by simp [(hrest d rfl).1])
  rw [outcome_keyword, List.takeWhile_append_of_pos hcs, List.dropWhile_append_of_pos hcs, htake,
    hdrop, List.append_nil, h.ofKeyword?_eq]
  rfl

/-! ## Parentheses -/

theorem denotes_ofParenthesized {text : List Char} {vs : List Value} {comma : Bool}
    (h : Items Denotes text vs comma) :
    Denotes ('(' :: (text ++ [')'])) (ofParenthesized (vs, comma)) := by
  unfold ofParenthesized
  split
  · next v heq =>
    cases heq
    exact .grouped h
  · next hne heq =>
    cases heq
    apply Denotes.tuple h
    cases comma with
    | true => exact .inr rfl
    | false =>
      refine .inl fun hlength => ?_
      obtain ⟨v, rfl⟩ := List.length_eq_one_iff.1 hlength
      exact hne v rfl rfl

theorem ofParenthesized_tuple {vs : List Value} {comma : Bool}
    (h : vs.length ≠ 1 ∨ comma = true) : ofParenthesized (vs, comma) = .tuple vs := by
  unfold ofParenthesized
  split
  · next v heq =>
    cases heq
    simp at h
  · next heq =>
    cases heq
    rfl

end Stencil.Literal
