-- SUMMARY: The classes of tokens that the block grammar is made of, and that reading a tag decides them.
import Stencil.Proofs.Words
import Stencil.Tag

/-!
# Classes of Tokens

What a token can be in a template is said here on its kind, its content and the
words of its content, without reading it as a tag. The laws below say that
`Tag.ofToken` decides these classes: it gives a tag of some form exactly if the
token is in the class of that form.
-/

namespace Stencil

namespace Token

/-! ## Classes -/

def IsText (t : Token) : Prop := t.kind = .text

/-- A placeholder with a path: not empty, without blanks, and without an empty
segment between its dots. -/
def IsPlaceholder (t : Token) : Prop :=
  t.kind = .placeholder ∧ t.content ≠ "" ∧ Text.Solid t.content.toList
    ∧ ∀ segment ∈ Text.fields (· == '.') t.content.toList, segment ≠ []

/-- A comment, or a tag of a block that is not supported. -/
def IsInert (t : Token) : Prop :=
  t.kind = .comment
    ∨ t.kind = .block ∧ (t.words.head? = some "block" ∨ t.words.head? = some "extends")
    ∨ t.kind = .blockEnd ∧ t.words.head? = some "endblock"

/-- A single operand of a loop: not empty, and without blanks unless it is a
literal. -/
def IsSingleOperand (cs : List Char) : Prop :=
  cs ≠ [] ∧ (Text.Solid cs ∨ (Literal.read? (String.ofList cs)).isSome)

/-- The opening of a loop: `for`, an identifier, `in`, and a single operand. -/
def IsFor (t : Token) : Prop :=
  t.kind = .block ∧ ∃ name operand,
    Text.LeadingWords operand ["for".toList, name, "in".toList] t.content.toList
      ∧ Text.isIdentifier (String.ofList name) ∧ IsSingleOperand operand

/-- The operators between the two operands of a conditional. -/
def conditionOperators : List String := ["<", ">", "<=", ">=", "==", "!=", "is"]

/-- The opening of a conditional: `if` and an operand, or two operands with an
operator or `is not` between them. -/
def IsIf (t : Token) : Prop :=
  t.kind = .block
    ∧ ((∃ operand, t.words = ["if", operand])
      ∨ (∃ left op right, t.words = ["if", left, op, right] ∧ op ∈ conditionOperators)
      ∨ (∃ left right, t.words = ["if", left, "is", "not", right]))

def IsElse (t : Token) : Prop := t.kind = .block ∧ t.words = ["else"]

def IsCloser (closer : Closer) (t : Token) : Prop :=
  t.kind = .blockEnd ∧ t.words = [closer.keyword]

/-! ## Headers -/

/-- The header of a loop: its variable, and the operand after `in`. -/
def WritesLoop (t : Token) (binding : String) (iterable : Expr) : Prop :=
  ∃ operand,
    Text.LeadingWords operand ["for".toList, binding.toList, "in".toList] t.content.toList
      ∧ iterable = .ofString (String.ofList operand)

/-- The header of a conditional: the operands after `if`, and what stands between
them. -/
def WritesTest (t : Token) : Condition → Prop
  | .truthy operand => ∃ word, t.words = ["if", word] ∧ operand = .ofString word
  | .compare left op right =>
    ∃ first second, t.words = ["if", first, op.symbol, second]
      ∧ left = .ofString first ∧ right = .ofString second
  | .identity left false right =>
    ∃ first second, t.words = ["if", first, "is", second]
      ∧ left = .ofString first ∧ right = .ofString second
  | .identity left true right =>
    ∃ first second, t.words = ["if", first, "is", "not", second]
      ∧ left = .ofString first ∧ right = .ofString second

/-! ## First words -/

theorem head?_words_of_keyword {t : Token} {word : String} (h : t.keyword = word)
    (hne : word ≠ "") : t.words.head? = some word := by
  change (Text.words t.content).headD "" = word at h
  change (Text.words t.content).head? = some word
  cases hwords : Text.words t.content with
  | nil =>
    rw [hwords] at h
    exact absurd h.symm hne
  | cons first others =>
    rw [hwords] at h
    exact congrArg some h

theorem keyword_of_head?_words {t : Token} {word : String} (h : t.words.head? = some word) :
    t.keyword = word := by
  change (Text.words t.content).headD "" = word
  rw [List.headD_eq_head?_getD, show (Text.words t.content).head? = some word from h]
  rfl

theorem keyword_of_words {t : Token} {word : String} {others : List String}
    (h : t.words = word :: others) : t.keyword = word :=
  keyword_of_head?_words (by rw [h]; rfl)

theorem keyword_of_leadingWords {t : Token} {word rest : List Char} {others : List (List Char)}
    (h : Text.LeadingWords rest (word :: others) t.content.toList) :
    t.keyword = String.ofList word := by
  have hwords : t.words = String.ofList word :: (others ++ Text.wordsOf rest).map String.ofList :=
    congrArg (List.map String.ofList) h.wordsOf_eq
  exact keyword_of_words hwords

/-! ## Contents -/

theorem hasBlank_eq_false_iff {s : String} : Text.hasBlank s = false ↔ Text.Solid s.toList := by
  unfold Text.hasBlank
  rw [List.any_eq_false]
  exact forall₂_congr fun c _ => by simp

theorem empty_mem_segments_iff {s : String} :
    "" ∈ (Path.ofString s).segments ↔ [] ∈ Text.fields (· == '.') s.toList := by
  rw [Path.segments_ofString, List.mem_map]
  constructor
  · rintro ⟨field, hmem, hfield⟩
    have hnil : field = [] := by simpa using congrArg String.toList hfield
    exact hnil ▸ hmem
  · intro hmem
    exact ⟨[], hmem, rfl⟩

theorem isOperand_iff {cs : List Char} :
    Tag.isOperand (String.ofList cs) = true ↔ IsSingleOperand cs := by
  have hne : String.ofList cs ≠ "" ↔ cs ≠ [] := by
    refine not_congr ⟨fun h => ?_, fun h => ?_⟩
    · simpa using congrArg String.toList h
    · rw [h]
  have hblank : (!Text.hasBlank (String.ofList cs)) = true ↔ Text.Solid cs := by
    have h := hasBlank_eq_false_iff (s := String.ofList cs)
    rwa [String.toList_ofList, ← Bool.not_eq_true'] at h
  unfold Tag.isOperand IsSingleOperand
  rw [Bool.and_eq_true, decide_eq_true_iff, hne, Bool.or_eq_true, hblank]

theorem isSome_ofSymbol?_or_is_iff {op : String} :
    (op = "is" ∨ ∃ o, CompareOp.ofSymbol? op = some o) ↔ op ∈ conditionOperators := by
  constructor
  · rintro (rfl | ⟨o, ho⟩)
    · decide
    · have hsymbol : o.symbol = op := by simpa using List.find?_some ho
      rw [← hsymbol]
      cases o <;> decide
  · intro hop
    simp only [conditionOperators, List.mem_cons, List.not_mem_nil, or_false] at hop
    rcases hop with rfl | rfl | rfl | rfl | rfl | rfl | rfl
    · exact .inr ⟨.lt, rfl⟩
    · exact .inr ⟨.gt, rfl⟩
    · exact .inr ⟨.le, rfl⟩
    · exact .inr ⟨.ge, rfl⟩
    · exact .inr ⟨.eq, rfl⟩
    · exact .inr ⟨.ne, rfl⟩
    · exact .inl rfl

/-! ## From tags to classes -/

/-- The class of the tokens that can have a tag of the same form. -/
def InClass (t : Token) : Tag → Prop
  | .text => t.IsText
  | .placeholder _ => t.IsPlaceholder
  | .forLoop .. => t.IsFor
  | .conditional _ => t.IsIf
  | .otherwise => t.IsElse
  | .close closer => t.IsCloser closer
  | .inert => t.IsInert

variable {t : Token} {tag : Tag}

theorem inClass_of_ofPlaceholder (hkind : t.kind = .placeholder)
    (h : Tag.ofPlaceholder t.content = .ok tag) : t.InClass tag := by
  unfold Tag.ofPlaceholder at h
  split at h
  · cases h
  · next hempty =>
    split at h
    · cases h
    · next hvalid =>
      cases h
      obtain ⟨hblank, hsegments⟩ := not_or.1 hvalid
      refine ⟨hkind, hempty, hasBlank_eq_false_iff.1 (by simpa using hblank), ?_⟩
      rintro segment hmem rfl
      exact hsegments (empty_mem_segments_iff.2 hmem)

theorem inClass_of_ofFor (hkind : t.kind = .block) (h : Tag.ofFor t = .ok tag) :
    t.InClass tag := by
  unfold Tag.ofFor at h
  rcases hsplit : Text.splitWords 3 t.content.toList with ⟨words, operand⟩
  simp only [hsplit] at h
  split at h
  · next binding hwords =>
    split at h
    · next hvalid =>
      cases h
      have hchars : words = ["for".toList, binding.toList, "in".toList] := by
        have hmap := congrArg (List.map String.toList) hwords
        simpa [Function.comp_def] using hmap
      subst hchars
      have hleading := Text.leadingWords_of_splitWords hsplit rfl
      refine ⟨hkind, binding.toList, operand, hleading, ?_, isOperand_iff.1 hvalid.2⟩
      rw [String.ofList_toList]
      exact hvalid.1
    · cases h
  · cases h

theorem inClass_of_ofIf (hkind : t.kind = .block) (hkeyword : t.keyword = "if")
    (h : Tag.ofIf t = .ok tag) : t.InClass tag := by
  have hfirst {word : String} {others : List String} (hwords : t.words = word :: others) :
      word = "if" := by
    rw [← hkeyword, keyword_of_words hwords]
  unfold Tag.ofIf at h
  split at h
  · next operand hwords =>
    cases h
    cases hfirst hwords
    exact ⟨hkind, .inl ⟨operand, hwords⟩⟩
  · next left op right hwords =>
    cases hfirst hwords
    have hclass (hop : op ∈ conditionOperators) : t.IsIf :=
      ⟨hkind, .inr (.inl ⟨left, op, right, hwords, hop⟩)⟩
    split at h
    · next his =>
      cases h
      exact hclass (isSome_ofSymbol?_or_is_iff.1 (.inl his))
    · split at h
      · next o ho =>
        cases h
        exact hclass (isSome_ofSymbol?_or_is_iff.1 (.inr ⟨o, ho⟩))
      · cases h
  · next left right hwords =>
    cases h
    cases hfirst hwords
    exact ⟨hkind, .inr (.inr ⟨left, right, hwords⟩)⟩
  · cases h

theorem inClass_of_ofBlock (hkind : t.kind = .block) (h : Tag.ofBlock t = .ok tag) :
    t.InClass tag := by
  have hinert {word : String} (hword : t.keyword = word) (hne : word ≠ "")
      (hinert : word = "block" ∨ word = "extends") : t.IsInert := by
    have hhead := head?_words_of_keyword hword hne
    refine .inr (.inl ⟨hkind, hinert.imp ?_ ?_⟩)
    · rintro rfl
      exact hhead
    · rintro rfl
      exact hhead
  unfold Tag.ofBlock at h
  split at h
  · exact inClass_of_ofFor hkind h
  · next hkeyword => exact inClass_of_ofIf hkind hkeyword h
  · next hkeyword =>
    split at h
    · next hlength =>
      cases h
      have hhead := head?_words_of_keyword hkeyword (by decide)
      obtain ⟨word, hwords⟩ := List.length_eq_one_iff.1 hlength
      rw [hwords] at hhead
      cases hhead
      exact ⟨hkind, hwords⟩
    · cases h
  · cases h
  · next hkeyword =>
    cases h
    exact hinert hkeyword (by decide) (.inl rfl)
  · next hkeyword =>
    cases h
    exact hinert hkeyword (by decide) (.inr rfl)
  · cases h
  · cases h

theorem inClass_of_ofBlockEnd (hkind : t.kind = .blockEnd) (h : Tag.ofBlockEnd t = .ok tag) :
    t.InClass tag := by
  unfold Tag.ofBlockEnd at h
  split at h
  · next hkeyword =>
    cases h
    exact .inr (.inr ⟨hkind, head?_words_of_keyword hkeyword (by decide)⟩)
  · split at h
    · cases h
    · next hlength =>
      obtain ⟨word, hwords⟩ := List.length_eq_one_iff.1 (Decidable.not_not.1 hlength)
      have hkeyword := keyword_of_words hwords
      split at h
      · next hendfor =>
        cases h
        exact ⟨hkind, by rw [hwords, ← hkeyword, hendfor]; rfl⟩
      · next hendif =>
        cases h
        exact ⟨hkind, by rw [hwords, ← hkeyword, hendif]; rfl⟩
      · cases h

/-- A token that reads as a tag is in the class of that tag. -/
theorem inClass_of_ofToken (h : Tag.ofToken t = .ok tag) : t.InClass tag := by
  unfold Tag.ofToken at h
  split at h
  · next hkind =>
    cases h
    exact hkind
  · next hkind => exact inClass_of_ofPlaceholder hkind h
  · next hkind =>
    cases h
    exact .inl hkind
  · next hkind => exact inClass_of_ofBlock hkind h
  · next hkind => exact inClass_of_ofBlockEnd hkind h

/-! ## From classes to tags -/

theorem IsText.ofToken (h : t.IsText) : Tag.ofToken t = .ok .text := by
  unfold Tag.ofToken
  rw [show t.kind = .text from h]

theorem IsPlaceholder.ofToken (h : t.IsPlaceholder) :
    ∃ path, Tag.ofToken t = .ok (.placeholder path) := by
  obtain ⟨hkind, hempty, hsolid, hsegments⟩ := h
  refine ⟨Path.ofString t.content, ?_⟩
  have hblank : ¬Text.hasBlank t.content = true := by
    simp [hasBlank_eq_false_iff.2 hsolid]
  have hsegment : "" ∉ (Path.ofString t.content).segments := fun hmem =>
    hsegments [] (empty_mem_segments_iff.1 hmem) rfl
  unfold Tag.ofToken
  simp only [hkind]
  unfold Tag.ofPlaceholder
  rw [if_neg hempty, if_neg (not_or.2 ⟨hblank, hsegment⟩)]

theorem ofToken_of_block (hkind : t.kind = .block) : Tag.ofToken t = Tag.ofBlock t := by
  unfold Tag.ofToken
  rw [hkind]

theorem ofToken_of_blockEnd (hkind : t.kind = .blockEnd) :
    Tag.ofToken t = Tag.ofBlockEnd t := by
  unfold Tag.ofToken
  rw [hkind]

theorem IsInert.ofToken (h : t.IsInert) : Tag.ofToken t = .ok .inert := by
  rcases h with hkind | ⟨hkind, hhead⟩ | ⟨hkind, hhead⟩
  · unfold Tag.ofToken
    rw [hkind]
  · rw [ofToken_of_block hkind]
    unfold Tag.ofBlock
    rcases hhead with hhead | hhead
    · rw [keyword_of_head?_words hhead]
      rfl
    · rw [keyword_of_head?_words hhead]
      rfl
  · rw [ofToken_of_blockEnd hkind]
    unfold Tag.ofBlockEnd
    rw [if_pos (keyword_of_head?_words hhead)]

theorem IsFor.exists_writesLoop (h : t.IsFor) :
    ∃ binding iterable, Tag.ofToken t = .ok (.forLoop binding iterable)
      ∧ t.WritesLoop binding iterable := by
  obtain ⟨hkind, name, operand, hleading, hname, hoperand⟩ := h
  refine ⟨String.ofList name, .ofString (String.ofList operand), ?_, operand, ?_, rfl⟩
  · have hkeyword : t.keyword = "for" := keyword_of_leadingWords hleading
    have hsplit : Text.splitWords 3 t.content.toList
        = (["for".toList, name, "in".toList], operand) := hleading.splitWords_eq
    rw [ofToken_of_block hkind]
    unfold Tag.ofBlock
    rw [hkeyword]
    simp only [Tag.ofFor, hsplit]
    exact if_pos ⟨hname, isOperand_iff.2 hoperand⟩
  · have hchars : (String.ofList name).toList = name := String.toList_ofList
    rwa [hchars]

theorem IsFor.ofToken (h : t.IsFor) :
    ∃ binding iterable, Tag.ofToken t = .ok (.forLoop binding iterable) := by
  obtain ⟨binding, iterable, htag, -⟩ := h.exists_writesLoop
  exact ⟨binding, iterable, htag⟩

theorem IsIf.exists_writesTest (h : t.IsIf) :
    ∃ test, Tag.ofToken t = .ok (.conditional test) ∧ t.WritesTest test := by
  obtain ⟨hkind, hwords⟩ := h
  rw [ofToken_of_block hkind]
  unfold Tag.ofBlock
  rcases hwords with ⟨operand, hwords⟩ | ⟨left, op, right, hwords, hop⟩ | ⟨left, right, hwords⟩
  · rw [keyword_of_words hwords]
    simp only [Tag.ofIf, hwords]
    exact ⟨_, rfl, operand, hwords, rfl⟩
  · rw [keyword_of_words hwords]
    simp only [Tag.ofIf, hwords]
    by_cases his : op = "is"
    · subst his
      exact ⟨_, if_pos rfl, left, right, hwords, rfl, rfl⟩
    · obtain ⟨o, ho⟩ := (isSome_ofSymbol?_or_is_iff.2 hop).resolve_left his
      have hsymbol : o.symbol = op := by simpa using List.find?_some ho
      rw [if_neg his, ho]
      exact ⟨_, rfl, left, right, by rw [hwords, hsymbol], rfl, rfl⟩
  · rw [keyword_of_words hwords]
    simp only [Tag.ofIf, hwords]
    exact ⟨_, rfl, left, right, hwords, rfl, rfl⟩

theorem IsIf.ofToken (h : t.IsIf) : ∃ test, Tag.ofToken t = .ok (.conditional test) := by
  obtain ⟨test, htag, -⟩ := h.exists_writesTest
  exact ⟨test, htag⟩

theorem IsElse.ofToken (h : t.IsElse) : Tag.ofToken t = .ok .otherwise := by
  obtain ⟨hkind, hwords⟩ := h
  have hlength : t.words.length = 1 := by rw [hwords]; rfl
  rw [ofToken_of_block hkind]
  unfold Tag.ofBlock
  rw [keyword_of_words hwords]
  exact if_pos hlength

theorem IsCloser.ofToken {closer : Closer} (h : t.IsCloser closer) :
    Tag.ofToken t = .ok (.close closer) := by
  obtain ⟨hkind, hwords⟩ := h
  have hlength : ¬t.words.length ≠ 1 := by rw [hwords]; exact Decidable.not_not.2 rfl
  have hkeyword := keyword_of_words hwords
  rw [ofToken_of_blockEnd hkind]
  unfold Tag.ofBlockEnd
  cases closer with
  | endfor =>
    rw [if_neg (by rw [hkeyword]; decide), if_neg hlength, hkeyword]
    rfl
  | endif =>
    rw [if_neg (by rw [hkeyword]; decide), if_neg hlength, hkeyword]
    rfl

end Token

end Stencil
