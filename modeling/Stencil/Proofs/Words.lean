-- SUMMARY: Laws of blanks and words, and what it means that a text starts with some words.
import Stencil.Text.Blank
import Stencil.Text.Identifier

/-!
# Laws of Words

The words of a text are what is left when its blanks are taken out, so a run of
blanks in front changes nothing and a word in front is the first of the words.
`LeadingWords` says in the same terms what the first words of a text are and
what is left after them. No blank continues an identifier, since the tables have
no code point in common.
-/

namespace Stencil.Text

/-- A run of blanks, possibly empty. -/
def Blanks (cs : List Char) : Prop := ∀ c ∈ cs, isBlank c = true

/-- A run of other characters, possibly empty. -/
def Solid (cs : List Char) : Prop := ∀ c ∈ cs, isBlank c = false

/-- The text is empty or starts with a blank. -/
def BlankFirst (cs : List Char) : Prop := ∀ c ∈ cs.head?, isBlank c = true

/-- The text is empty or starts with another character. -/
def SolidFirst (cs : List Char) : Prop := ∀ c ∈ cs.head?, isBlank c = false

theorem blanks_nil : Blanks [] := by
  intro c hc
  cases hc

theorem blanks_space : Blanks [' '] := by
  intro c hc
  rw [List.mem_singleton.1 hc]
  decide

/-! ## Blanks are no part of a word -/

theorem Ranges.exists_of_has {ranges : Ranges} {n : Nat} (h : ranges.has n = true) :
    ∃ range ∈ ranges, range.1 ≤ n ∧ n ≤ range.2 := by
  induction ranges with
  | nil => cases h
  | cons range ranges ih =>
    unfold Ranges.has at h
    split at h
    · cases h
    · next hlow =>
      rcases Bool.or_eq_true_iff.1 h with hhigh | hlater
      · exact ⟨range, List.mem_cons_self, Nat.not_lt.1 hlow, of_decide_eq_true hhigh⟩
      · obtain ⟨other, hmem, hother⟩ := ih hlater
        exact ⟨other, List.mem_cons_of_mem _ hmem, hother⟩

/-- Two tables without a common code point. -/
def Ranges.Disjoint (ranges others : Ranges) : Prop :=
  ∀ range ∈ ranges, ∀ other ∈ others, range.2 < other.1 ∨ other.2 < range.1

theorem Ranges.Disjoint.has_eq_false {ranges others : Ranges} {n : Nat}
    (hdisjoint : ranges.Disjoint others) (h : ranges.has n = true) : others.has n = false := by
  cases hother : others.has n with
  | false => rfl
  | true =>
    obtain ⟨range, hmem, hrange⟩ := exists_of_has h
    obtain ⟨other, hmem', hrange'⟩ := exists_of_has hother
    have := hdisjoint range hmem other hmem'
    omega

theorem blankRanges_disjoint_alphabeticRanges : blankRanges.Disjoint alphabeticRanges := by
  unfold Ranges.Disjoint
  decide +kernel

theorem blankRanges_disjoint_numericRanges : blankRanges.Disjoint numericRanges := by
  unfold Ranges.Disjoint
  decide +kernel

theorem isWordChar_of_isBlank {c : Char} (hc : isBlank c = true) : isWordChar c = false := by
  have halphabetic : isAlphabetic c = false :=
    blankRanges_disjoint_alphabeticRanges.has_eq_false hc
  have hnumeric : isNumeric c = false := blankRanges_disjoint_numericRanges.has_eq_false hc
  have hunderscore : c ≠ '_' := by
    rintro rfl
    revert hc
    decide
  simp [isWordChar, isAlphanumeric, halphabetic, hnumeric, hunderscore]

theorem isBlank_of_isWordChar {c : Char} (hc : isWordChar c = true) : isBlank c = false := by
  cases hblank : isBlank c with
  | false => rfl
  | true =>
    rw [isWordChar_of_isBlank hblank] at hc
    cases hc

/-! ## Skipping blanks -/

theorem skipBlanks_cons_blank {c : Char} (hc : isBlank c = true) (cs : List Char) :
    skipBlanks (c :: cs) = skipBlanks cs :=
  List.dropWhile_cons_of_pos hc

theorem skipBlanks_of_solidFirst {cs : List Char} (h : SolidFirst cs) : skipBlanks cs = cs := by
  cases cs with
  | nil => rfl
  | cons c cs =>
    have hc : isBlank c = false := h c rfl
    exact List.dropWhile_cons_of_neg (by simp [hc])

theorem skipBlanks_append {blanks : List Char} (h : Blanks blanks) (cs : List Char) :
    skipBlanks (blanks ++ cs) = skipBlanks cs := by
  induction blanks with
  | nil => rfl
  | cons c blanks ih =>
    rw [List.cons_append, skipBlanks_cons_blank (h c List.mem_cons_self)]
    exact ih fun d hd => h d (List.mem_cons_of_mem _ hd)

theorem skipBlanks_append_cons {blanks : List Char} {c : Char} (h : Blanks blanks)
    (hc : isBlank c = false) (cs : List Char) : skipBlanks (blanks ++ c :: cs) = c :: cs := by
  rw [skipBlanks_append h]
  apply skipBlanks_of_solidFirst
  intro d hd
  obtain rfl := Option.some.inj hd
  exact hc

theorem skipBlanks_blanks {blanks : List Char} (h : Blanks blanks) : skipBlanks blanks = [] := by
  have happ := skipBlanks_append h []
  rwa [List.append_nil] at happ

theorem solidFirst_skipBlanks (cs : List Char) : SolidFirst (skipBlanks cs) := by
  intro c hc
  have hhead := List.head?_dropWhile_not isBlank cs
  unfold skipBlanks at hc
  rw [Option.mem_def] at hc
  rw [hc] at hhead
  simpa using hhead

theorem skipBlanks_skipBlanks (cs : List Char) : skipBlanks (skipBlanks cs) = skipBlanks cs :=
  skipBlanks_of_solidFirst (solidFirst_skipBlanks cs)

/-- A text is some blanks and what is left without them. -/
theorem exists_blanks_append (cs : List Char) :
    ∃ blanks, Blanks blanks ∧ cs = blanks ++ skipBlanks cs :=
  ⟨cs.takeWhile isBlank, List.all_eq_true.1 List.all_takeWhile,
    (List.takeWhile_append_dropWhile).symm⟩

theorem blanks_of_skipBlanks_eq_nil {cs : List Char} (h : skipBlanks cs = []) : Blanks cs := by
  obtain ⟨blanks, hblanks, heq⟩ := exists_blanks_append cs
  rw [h, List.append_nil] at heq
  rwa [heq]

/-! ## Trimming -/

/-- The text is empty or ends with another character than a blank. -/
def SolidLast (cs : List Char) : Prop := ∀ c ∈ cs.getLast?, isBlank c = false

/-- `Trimmed cs content`: the text `cs` is `content` with blanks around it, and
no more blanks can be taken off. -/
def Trimmed (cs content : List Char) : Prop :=
  ∃ before after, Blanks before ∧ Blanks after ∧ cs = before ++ content ++ after
    ∧ SolidFirst content ∧ SolidLast content

theorem exists_append_blanks (cs : List Char) :
    ∃ after, Blanks after ∧ cs = dropTrailingBlanks cs ++ after
      ∧ SolidLast (dropTrailingBlanks cs) := by
  induction cs with
  | nil => exact ⟨[], blanks_nil, rfl, nofun⟩
  | cons c cs ih =>
    obtain ⟨after, hafter, heq, hlast⟩ := ih
    simp only [dropTrailingBlanks]
    split
    · next hnil =>
      rw [hnil, List.nil_append] at heq
      subst heq
      cases hc : isBlank c with
      | true =>
        refine ⟨c :: cs, ?_, rfl, nofun⟩
        exact List.forall_mem_cons.2 ⟨hc, hafter⟩
      | false =>
        refine ⟨cs, hafter, rfl, ?_⟩
        intro d hd
        obtain rfl := Option.some.inj hd
        exact hc
    · next hne =>
      refine ⟨after, hafter, congrArg (c :: ·) heq, ?_⟩
      intro d hd
      rw [List.getLast?_cons_of_ne_nil hne] at hd
      exact hlast d hd

theorem dropTrailingBlanks_append {cs : List Char} (hne : cs ≠ []) (hlast : SolidLast cs)
    (ds : List Char) : dropTrailingBlanks (cs ++ ds) = cs ++ dropTrailingBlanks ds := by
  induction cs with
  | nil => exact absurd rfl hne
  | cons c cs ih =>
    rw [List.cons_append, dropTrailingBlanks]
    cases cs with
    | nil =>
      have hc : isBlank c = false := hlast c rfl
      cases hds : dropTrailingBlanks ds with
      | nil => simp [hds, hc]
      | cons d kept => simp [hds]
    | cons c' cs =>
      have hkept := ih (List.cons_ne_nil _ _) (by simpa [SolidLast] using hlast)
      rw [hkept]
      rfl

theorem solidFirst_dropTrailingBlanks {cs : List Char} (h : SolidFirst cs) :
    SolidFirst (dropTrailingBlanks cs) := by
  obtain ⟨after, -, heq, -⟩ := exists_append_blanks cs
  intro c hc
  refine h c ?_
  rw [heq, List.head?_append, Option.mem_def.1 hc]
  rfl

theorem trimmed_trimChars (cs : List Char) : Trimmed cs (trimChars cs) := by
  obtain ⟨before, hbefore, hcs⟩ := exists_blanks_append cs
  obtain ⟨after, hafter, hskip, hlast⟩ := exists_append_blanks (skipBlanks cs)
  refine ⟨before, after, hbefore, hafter, ?_, ?_, hlast⟩
  · rw [List.append_assoc]
    exact hcs.trans (congrArg (before ++ ·) hskip)
  · exact solidFirst_dropTrailingBlanks (solidFirst_skipBlanks cs)

theorem Trimmed.subset {cs content : List Char} (h : Trimmed cs content) : content ⊆ cs := by
  obtain ⟨before, after, -, -, rfl, -, -⟩ := h
  intro c hc
  simp [hc]

theorem dropTrailingBlanks_blanks {blanks : List Char} (h : Blanks blanks) :
    dropTrailingBlanks blanks = [] := by
  induction blanks with
  | nil => rfl
  | cons c blanks ih =>
    rw [dropTrailingBlanks, ih fun d hd => h d (List.mem_cons_of_mem _ hd)]
    exact if_pos (h c List.mem_cons_self)

/-- There is only one way to trim a text. -/
theorem Trimmed.trimChars_eq {cs content : List Char} (h : Trimmed cs content) :
    trimChars cs = content := by
  obtain ⟨before, after, hbefore, hafter, rfl, hfirst, hlast⟩ := h
  unfold trimChars
  rw [List.append_assoc, skipBlanks_append hbefore]
  cases content with
  | nil => rw [List.nil_append, skipBlanks_blanks hafter, dropTrailingBlanks]
  | cons c cs =>
    have hstart : SolidFirst (c :: cs ++ after) := hfirst
    rw [skipBlanks_of_solidFirst hstart, dropTrailingBlanks_append (List.cons_ne_nil c cs) hlast,
      dropTrailingBlanks_blanks hafter, List.append_nil]

theorem trimmed_self {cs : List Char} (hfirst : SolidFirst cs) (hlast : SolidLast cs) :
    Trimmed cs cs :=
  ⟨[], [], blanks_nil, blanks_nil, (List.append_nil _).symm, hfirst, hlast⟩

theorem trimChars_trimChars (cs : List Char) : trimChars (trimChars cs) = trimChars cs := by
  obtain ⟨_, _, -, -, -, hfirst, hlast⟩ := trimmed_trimChars cs
  exact (trimmed_self hfirst hlast).trimChars_eq

theorem trim_trim (s : String) : trim (trim s) = trim s := by
  rw [trim, trim, String.toList_ofList, trimChars_trimChars]

theorem Solid.solidFirst {cs : List Char} (h : Solid cs) : SolidFirst cs :=
  fun c hc => h c (List.mem_of_mem_head? hc)

theorem Solid.solidLast {cs : List Char} (h : Solid cs) : SolidLast cs :=
  fun c hc => h c (List.mem_of_mem_getLast? hc)

/-- Trimming takes nothing off a text without blanks. -/
theorem trimChars_of_solid {cs : List Char} (h : Solid cs) : trimChars cs = cs :=
  (trimmed_self h.solidFirst h.solidLast).trimChars_eq

/-! ## Words -/

/-- No separator is left in a field. -/
theorem not_isSeparator_of_mem_fields {isSeparator : Char → Bool} {cs field : List Char}
    (h : field ∈ fields isSeparator cs) : ∀ c ∈ field, isSeparator c = false := by
  induction cs generalizing field with
  | nil =>
    obtain rfl := List.mem_singleton.1 h
    exact nofun
  | cons c cs ih =>
    simp only [fields] at h
    split at h
    · rcases List.mem_cons.1 h with rfl | h
      · exact nofun
      · exact ih h
    · next hc =>
      have hc : isSeparator c = false := by simpa using hc
      obtain ⟨first, others, hfields⟩ := List.exists_cons_of_ne_nil (fields_ne_nil isSeparator cs)
      rw [hfields] at h ih
      rcases List.mem_cons.1 h with rfl | h
      · exact List.forall_mem_cons.2 ⟨hc, ih List.mem_cons_self⟩
      · exact ih (List.mem_cons_of_mem _ h)

theorem solid_of_mem_wordsOf {cs word : List Char} (h : word ∈ wordsOf cs) :
    word ≠ [] ∧ Solid word := by
  obtain ⟨hmem, hne⟩ := List.mem_filter.1 h
  exact ⟨by simpa using hne, not_isSeparator_of_mem_fields hmem⟩

theorem wordsOf_cons_blank {c : Char} (hc : isBlank c = true) (cs : List Char) :
    wordsOf (c :: cs) = wordsOf cs := by
  unfold wordsOf
  rw [fields, if_pos hc]
  rfl

theorem wordsOf_append_of_blanks {blanks : List Char} (h : Blanks blanks) (cs : List Char) :
    wordsOf (blanks ++ cs) = wordsOf cs := by
  induction blanks with
  | nil => rfl
  | cons c blanks ih =>
    rw [List.cons_append, wordsOf_cons_blank (h c List.mem_cons_self)]
    exact ih fun d hd => h d (List.mem_cons_of_mem _ hd)

theorem wordsOf_append_of_solid {word rest : List Char} (hne : word ≠ []) (hword : Solid word)
    (hrest : BlankFirst rest) : wordsOf (word ++ rest) = word :: wordsOf rest := by
  have hkept (others : List (List Char)) :
      (word :: others).filter (!·.isEmpty) = word :: others.filter (!·.isEmpty) :=
    List.filter_cons_of_pos (by simp [hne])
  cases rest with
  | nil =>
    rw [List.append_nil]
    unfold wordsOf
    rw [fields_of_forall_not hword, hkept]
    rfl
  | cons c rest =>
    have hc : isBlank c = true := hrest c rfl
    rw [wordsOf_cons_blank hc]
    unfold wordsOf
    rw [fields_append_cons hword hc, hkept]

/-! ## The first words of a text -/

/-- `LeadingWords words rest cs`: the text `cs` starts with `words`, and `rest`
is what is left after them and the blanks that follow. -/
inductive LeadingWords (rest : List Char) : List (List Char) → List Char → Prop where
  | none {blanks : List Char} (hblanks : Blanks blanks) (hrest : SolidFirst rest) :
      LeadingWords rest [] (blanks ++ rest)
  | word {blanks word cs : List Char} {words : List (List Char)} (hblanks : Blanks blanks)
      (hne : word ≠ []) (hword : Solid word) (hcs : BlankFirst cs)
      (h : LeadingWords rest words cs) : LeadingWords rest (word :: words) (blanks ++ word ++ cs)

namespace LeadingWords

variable {rest cs : List Char} {words : List (List Char)}

theorem wordsOf_eq (h : LeadingWords rest words cs) : wordsOf cs = words ++ wordsOf rest := by
  induction h with
  | none hblanks _ => exact wordsOf_append_of_blanks hblanks rest
  | word hblanks hne hword hcs _ ih =>
    rw [List.append_assoc, wordsOf_append_of_blanks hblanks,
      wordsOf_append_of_solid hne hword hcs, ih]
    rfl

theorem splitWords_eq (h : LeadingWords rest words cs) :
    splitWords words.length cs = (words, rest) := by
  induction h with
  | none hblanks hrest =>
    simp only [List.length_nil, splitWords]
    rw [skipBlanks_append hblanks, skipBlanks_of_solidFirst hrest]
  | @word blanks word cs words hblanks hne hword hcs _ ih =>
    obtain ⟨c, word, rfl⟩ := List.exists_cons_of_ne_nil hne
    have hskip : skipBlanks (blanks ++ (c :: word) ++ cs) = c :: (word ++ cs) := by
      rw [List.append_assoc]
      exact skipBlanks_append_cons hblanks (hword c List.mem_cons_self) _
    have hpos : ∀ d ∈ c :: word, (!isBlank d) = true := fun d hd => by simp [hword d hd]
    have htake : cs.takeWhile (!isBlank ·) = [] := by
      cases cs with
      | nil => rfl
      | cons d cs => exact List.takeWhile_cons_of_neg (by simp [hcs d rfl])
    have hdrop : cs.dropWhile (!isBlank ·) = cs := by
      cases cs with
      | nil => rfl
      | cons d cs => exact List.dropWhile_cons_of_neg (by simp [hcs d rfl])
    simp only [List.length_cons, splitWords, hskip]
    rw [← List.cons_append, List.takeWhile_append_of_pos hpos, List.dropWhile_append_of_pos hpos,
      htake, hdrop, List.append_nil, ih]

end LeadingWords

/-- Splitting words off a text finds its leading words, if there are enough. -/
theorem leadingWords_of_splitWords {count : Nat} {cs rest : List Char}
    {words : List (List Char)} (h : splitWords count cs = (words, rest))
    (hlength : words.length = count) : LeadingWords rest words cs := by
  induction count generalizing cs words with
  | zero =>
    simp only [splitWords, Prod.mk.injEq] at h
    obtain ⟨rfl, rfl⟩ := h
    obtain ⟨blanks, hblanks, heq⟩ := exists_blanks_append cs
    have hnone := LeadingWords.none hblanks (solidFirst_skipBlanks cs)
    rwa [← heq] at hnone
  | succ count ih =>
    obtain ⟨blanks, hblanks, heq⟩ := exists_blanks_append cs
    have hfirst := solidFirst_skipBlanks cs
    simp only [splitWords] at h
    split at h
    · cases h
      cases hlength
    · next c tail hskip =>
      cases h
      rw [hskip] at hfirst heq
      have hc : isBlank c = false := hfirst c rfl
      have hsplit : (c :: tail).takeWhile (!isBlank ·) ++ (c :: tail).dropWhile (!isBlank ·)
          = c :: tail := List.takeWhile_append_dropWhile
      have hne : (c :: tail).takeWhile (!isBlank ·) ≠ [] := by
        rw [List.takeWhile_cons_of_pos (by simp [hc])]
        exact List.cons_ne_nil _ _
      have hword : Solid ((c :: tail).takeWhile (!isBlank ·)) := by
        intro d hd
        simpa using List.all_eq_true.1 List.all_takeWhile d hd
      have hcs : BlankFirst ((c :: tail).dropWhile (!isBlank ·)) := by
        intro d hd
        have hhead := List.head?_dropWhile_not (!isBlank ·) (c :: tail)
        rw [Option.mem_def.1 hd] at hhead
        simpa using hhead
      have hrest := ih (Prod.ext rfl rfl) (Nat.succ.inj hlength)
      have h := LeadingWords.word hblanks hne hword hcs hrest
      rwa [List.append_assoc, hsplit, ← heq] at h

end Stencil.Text
