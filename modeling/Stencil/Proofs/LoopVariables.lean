-- SUMMARY: Loop variables as operands: an identifier other than the keywords of literals is read as a name, which stands for the value that the loop has bound.
import Stencil.Proofs.LoopBindings
import Stencil.Proofs.Operands
import Stencil.Proofs.PathComposition

/-!
# Loop Variables as Operands

A loop binds an identifier, and the tags in its body read an operand first as a literal and
then as a name. The two agree but for the keywords: no other literal starts as an identifier
does. So a loop variable is a name of one segment wherever it stands as an operand, and all
tags find the value there that a placeholder prints. A variable that is named by a keyword
can be printed, but as an operand it is the literal.
-/

namespace Stencil

/-! ## Identifiers are no literals -/

namespace Text

theorem isAlphabetic_of_isDigit {c : Char} (hc : c.isDigit = true) : isAlphabetic c = false := by
  have hdisjoint : Ranges.Disjoint [(0x30, 0x39)] alphabeticRanges := by
    unfold Ranges.Disjoint
    decide +kernel
  apply hdisjoint.has_eq_false
  simp only [Char.isDigit, Bool.and_eq_true, decide_eq_true_eq] at hc
  have hlow : ¬c.toNat < 0x30 := Nat.not_lt.2 hc.1
  have hhigh : c.toNat ≤ 0x39 := hc.2
  rw [Ranges.has, if_neg hlow, decide_eq_true hhigh, Bool.true_or]

theorem isWordStart_of_isDigit {c : Char} (hc : c.isDigit = true) : isWordStart c = false := by
  have hunderscore : c ≠ '_' := by
    rintro rfl
    cases hc
  simp [isWordStart, isAlphabetic_of_isDigit hc, hunderscore]

theorem isWordStart_of_mem {c : Char} (hc : c ∈ ['+', '-', '.', '\'', '"', '[', '(', '{']) :
    isWordStart c = false := by
  simp only [List.mem_cons, List.not_mem_nil, or_false] at hc
  rcases hc with rfl | rfl | rfl | rfl | rfl | rfl | rfl | rfl <;> decide

theorem NumeralText.exists_not_isWordStart {text : List Char} {n : Numeral}
    (h : NumeralText text n) : ∃ c cs, text = c :: cs ∧ isWordStart c = false := by
  obtain ⟨c, cs, rfl, hc⟩ := h.exists_cons
  refine ⟨c, cs, rfl, ?_⟩
  rcases hc with hdigit | rfl | rfl | rfl
  · exact isWordStart_of_isDigit hdigit
  · exact isWordStart_of_mem (by decide)
  · exact isWordStart_of_mem (by decide)
  · exact isWordStart_of_mem (by decide)

theorem IsName.isWordChar {name : String} (h : IsName name) :
    ∀ c ∈ name.toList, isWordChar c = true := by
  obtain ⟨first, others, hchars, hfirst, hothers⟩ := h
  rw [hchars]
  refine List.forall_mem_cons.2 ⟨?_, fun c hc => ?_⟩
  · rcases hfirst with hfirst | rfl
    · simp [Text.isWordChar, isAlphanumeric, hfirst]
    · decide
  · simpa [Text.isWordChar, isAlphanumeric, or_assoc] using hothers c hc

theorem IsName.ne_empty {name : String} (h : IsName name) : name ≠ "" := by
  obtain ⟨first, others, hchars, -⟩ := h
  rintro rfl
  cases hchars

theorem IsName.solid {name : String} (h : IsName name) : Solid name.toList :=
  fun c hc => isBlank_of_isWordChar (h.isWordChar c hc)

theorem IsName.dot_not_mem {name : String} (h : IsName name) : '.' ∉ name.toList := by
  intro hmem
  have hdot := h.isWordChar '.' hmem
  revert hdot
  decide

end Text

namespace Literal

/-- The words that are literals. -/
def keywords : List String := ["True", "true", "False", "false", "None", "null"]

theorem ofKeyword?_eq_none_iff {word : String} : ofKeyword? word = none ↔ word ∉ keywords := by
  unfold ofKeyword? keywords
  simp only [List.mem_cons, List.not_mem_nil, or_false, not_or]
  split
  · next h => rcases h with rfl | rfl <;> simp
  split
  · next h => rcases h with rfl | rfl <;> simp
  split
  · next h => rcases h with rfl | rfl <;> simp
  · next htrue hfalse hnull =>
    obtain ⟨h₁, h₂⟩ := not_or.1 htrue
    obtain ⟨h₃, h₄⟩ := not_or.1 hfalse
    obtain ⟨h₅, h₆⟩ := not_or.1 hnull
    exact iff_of_true rfl ⟨h₁, h₂, h₃, h₄, h₅, h₆⟩

/-- Only a keyword starts as an identifier does. -/
theorem Denotes.keyword_or_exists {text : List Char} {v : Value} (h : Denotes text v) :
    Keyword text v ∨ ∃ c cs, text = c :: cs ∧ Text.isWordStart c = false := by
  cases h with
  | keyword h => exact .inl h
  | integer hn _ => exact .inr hn.exists_not_isWordStart
  | float hn _ => exact .inr hn.exists_not_isWordStart
  | string hmark _ =>
    refine .inr ⟨_, _, rfl, Text.isWordStart_of_mem ?_⟩
    rcases hmark with rfl | rfl <;> decide
  | list _ => exact .inr ⟨_, _, rfl, Text.isWordStart_of_mem (by decide)⟩
  | tuple _ _ => exact .inr ⟨_, _, rfl, Text.isWordStart_of_mem (by decide)⟩
  | grouped _ => exact .inr ⟨_, _, rfl, Text.isWordStart_of_mem (by decide)⟩
  | map _ => exact .inr ⟨_, _, rfl, Text.isWordStart_of_mem (by decide)⟩

/-- An identifier reads as a literal exactly if it is a keyword. -/
theorem read?_of_isName {name : String} (h : Text.IsName name) :
    read? name = ofKeyword? name := by
  apply Option.ext
  intro v
  rw [read?_eq_some_iff, Text.trimChars_of_solid h.solid]
  constructor
  · intro hv
    rcases hv.keyword_or_exists with hkeyword | ⟨c, cs, hchars, hc⟩
    · have hread := hkeyword.ofKeyword?_eq
      rwa [String.ofList_toList] at hread
    · obtain ⟨first, others, hname, hfirst, -⟩ := h
      rw [hname] at hchars
      cases hchars
      rcases hfirst with hfirst | rfl
      · simp [Text.isWordStart, hfirst] at hc
      · cases hc
  · intro hv
    rw [← String.ofList_toList (s := name)] at hv
    exact .keyword (keyword_of_ofKeyword? hv)

end Literal

theorem Path.ofString_of_dot_not_mem {name : String} (h : '.' ∉ name.toList) :
    ofString name = ⟨name, []⟩ := by
  have hpath := ofString_intercalate (List.forall_mem_singleton.2 h)
  rwa [String.intercalate_singleton] at hpath

namespace Expr

theorem ofString_of_isName {name : String} (h : Text.IsName name)
    (hkeyword : name ∉ Literal.keywords) : ofString name = .name ⟨name, []⟩ := by
  have hread : Literal.read? name = none := by
    rw [Literal.read?_of_isName h]
    exact Literal.ofKeyword?_eq_none_iff.2 hkeyword
  have htrim : Text.trim name = name := by
    rw [Text.trim, Text.trimChars_of_solid h.solid, String.ofList_toList]
  rw [ofString_of_read?_eq_none hread, htrim, Path.ofString_of_dot_not_mem h.dot_not_mem]

theorem ofString_of_isName_keyword {name : String} {v : Value} (h : Text.IsName name)
    (hkeyword : Literal.ofKeyword? name = some v) : ofString name = .literal v :=
  ofString_of_read? ((Literal.read?_of_isName h).trans hkeyword)

end Expr

/-! ## Tags with a word as an operand -/

/-- What stands between the operands of an identity test. -/
def Condition.identityWords : Bool → List String
  | false => ["is"]
  | true => ["is", "not"]

/-- `u.HasOperand word operand tag`: one of the operands of the tag `u` is `word`, and if
this reads as `operand`, the token means `tag`. -/
inductive Token.HasOperand (u : Token) (word : String) (operand : Expr) : Tag → Prop where
  | truthy (hkind : u.kind = .block) (hwords : u.words = ["if", word]) :
      HasOperand u word operand (.conditional (.truthy operand))
  | left {op : CompareOp} {other : String} (hkind : u.kind = .block)
      (hwords : u.words = ["if", word, op.symbol, other]) :
      HasOperand u word operand (.conditional (.compare operand op (.ofString other)))
  | right {op : CompareOp} {other : String} (hkind : u.kind = .block)
      (hwords : u.words = ["if", other, op.symbol, word]) :
      HasOperand u word operand (.conditional (.compare (.ofString other) op operand))
  | identityLeft {negated : Bool} {other : String} (hkind : u.kind = .block)
      (hwords : u.words = ["if", word] ++ Condition.identityWords negated ++ [other]) :
      HasOperand u word operand (.conditional (.identity operand negated (.ofString other)))
  | identityRight {negated : Bool} {other : String} (hkind : u.kind = .block)
      (hwords : u.words = ["if", other] ++ Condition.identityWords negated ++ [word]) :
      HasOperand u word operand (.conditional (.identity (.ofString other) negated operand))
  | iterable {name : String} (hkind : u.kind = .block) (hname : Text.isIdentifier name = true)
      (hwords : Text.LeadingWords word.toList ["for".toList, name.toList, "in".toList]
        u.content.toList) :
      HasOperand u word operand (.forLoop name operand)

namespace Token

variable {u : Token}

theorem ofToken_of_if {others : List String} (hkind : u.kind = .block)
    (hwords : u.words = "if" :: others) : Tag.ofToken u = Tag.ofIf u := by
  rw [ofToken_of_block hkind]
  unfold Tag.ofBlock
  rw [keyword_of_words hwords]
  rfl

theorem ofToken_of_compare {left right : String} {op : CompareOp} (hkind : u.kind = .block)
    (hwords : u.words = ["if", left, op.symbol, right]) :
    Tag.ofToken u = .ok (.conditional (.compare (.ofString left) op (.ofString right))) := by
  have his : op.symbol ≠ "is" := by cases op <;> decide
  rw [ofToken_of_if hkind hwords]
  simp only [Tag.ofIf, hwords]
  rw [if_neg his, CompareOp.ofSymbol?_symbol]

theorem ofToken_of_identity {left right : String} {negated : Bool} (hkind : u.kind = .block)
    (hwords : u.words = ["if", left] ++ Condition.identityWords negated ++ [right]) :
    Tag.ofToken u = .ok (.conditional (.identity (.ofString left) negated (.ofString right))) := by
  rw [ofToken_of_if hkind hwords]
  unfold Tag.ofIf
  rw [hwords]
  cases negated with
  | false => rfl
  | true => rfl

theorem ofToken_of_loop {name word : String} (hkind : u.kind = .block)
    (hname : Text.isIdentifier name = true) (hne : word ≠ "") (hsolid : Text.Solid word.toList)
    (hwords : Text.LeadingWords word.toList ["for".toList, name.toList, "in".toList]
      u.content.toList) :
    Tag.ofToken u = .ok (.forLoop name (.ofString word)) := by
  have hsplit : Text.splitWords 3 u.content.toList
      = (["for".toList, name.toList, "in".toList], word.toList) := hwords.splitWords_eq
  have hblank : Text.hasBlank word = false := hasBlank_eq_false_iff.2 hsolid
  have hoperand : Tag.isOperand word = true := by simp [Tag.isOperand, hne, hblank]
  rw [ofToken_of_block hkind]
  unfold Tag.ofBlock
  rw [keyword_of_leadingWords hwords]
  simp only [String.ofList_toList, Tag.ofFor, hsplit, List.map_cons, List.map_nil]
  exact if_pos ⟨hname, hoperand⟩

/-- A word is read as the same operand in every place. -/
theorem HasOperand.ofToken_eq {word : String} {operand : Expr} {tag : Tag}
    (h : u.HasOperand word operand tag) (hne : word ≠ "") (hsolid : Text.Solid word.toList)
    (hread : Expr.ofString word = operand) : Tag.ofToken u = .ok tag := by
  subst hread
  cases h with
  | truthy hkind hwords =>
    rw [ofToken_of_if hkind hwords]
    unfold Tag.ofIf
    rw [hwords]
  | left hkind hwords => exact ofToken_of_compare hkind hwords
  | right hkind hwords => exact ofToken_of_compare hkind hwords
  | identityLeft hkind hwords => exact ofToken_of_identity hkind hwords
  | identityRight hkind hwords => exact ofToken_of_identity hkind hwords
  | iterable hkind hname hwords => exact ofToken_of_loop hkind hname hne hsolid hwords

theorem ofToken_of_isName (hkind : u.kind = .placeholder) (h : Text.IsName u.content) :
    Tag.ofToken u = .ok (.placeholder ⟨u.content, []⟩) := by
  have hpath := Path.ofString_of_dot_not_mem h.dot_not_mem
  have hne : u.content ≠ "" := h.ne_empty
  have hblank : ¬Text.hasBlank u.content = true := by simp [hasBlank_eq_false_iff.2 h.solid]
  have hsegments : "" ∉ (Path.ofString u.content).segments := by
    rw [hpath]
    simpa [Path.segments] using hne.symm
  unfold Tag.ofToken
  rw [hkind]
  show Tag.ofPlaceholder u.content = _
  unfold Tag.ofPlaceholder
  rw [if_neg hne, if_neg (not_or.2 ⟨hblank, hsegments⟩), hpath]

end Token

/-! ## What a name stands for -/

/-- All tags find the value `v` where they have the operand. -/
structure Expr.StandsFor {σ : Type} [Scope σ] (operand : Expr) (s : σ) (v : Value) : Prop where
  resolves : ∃ slot, operand.resolve s = .ok ⟨v, slot⟩
  truthy : (Condition.truthy operand).holds s = .ok v.isTruthy
  compare : ∀ op other r, other.resolve s = .ok r →
    (Condition.compare operand op other).holds s = op.test v r.value
      ∧ (Condition.compare other op operand).holds s = op.test r.value v
  items : operand.items s = match v.items? with
    | some items => .ok items
    | none => .error (.mistyped (.notIterable v.kind))

section

variable {σ : Type} [Scope σ]

theorem Path.resolve_single {s : σ} {name : String} {v : Value}
    (h : Scope.lookup s name = some v) :
    (Path.mk name []).resolve s = .ok (.ofRoot name v) := by
  unfold resolve
  rw [show Scope.lookup s (Path.mk name []).root = some v from h]
  rfl

theorem Condition.holds_compare {s : σ} {left right : Expr} {l r : Resolved}
    (hl : left.resolve s = .ok l) (hr : right.resolve s = .ok r) (op : CompareOp) :
    (Condition.compare left op right).holds s = op.test l.value r.value := by
  simp only [holds, hl, hr, Except.bind]

theorem Expr.standsFor_of_lookup {s : σ} {name : String} {v : Value}
    (h : Scope.lookup s name = some v) : (Expr.name ⟨name, []⟩).StandsFor s v where
  resolves := ⟨_, Path.resolve_single h⟩
  truthy := by
    simp [Condition.holds, h, Path.resolve_single h, Except.map, Resolved.ofRoot]
  compare op other r hr := by
    have hname : (Expr.name ⟨name, []⟩).resolve s = .ok (.ofRoot name v) := Path.resolve_single h
    exact ⟨Condition.holds_compare hname hr op, Condition.holds_compare hr hname op⟩
  items := by
    have hname : (Expr.name ⟨name, []⟩).resolve s = .ok (.ofRoot name v) := Path.resolve_single h
    cases hitems : v.items? with
    | some items => simp [Expr.items, hname, Resolved.ofRoot, hitems]
    | none => simp [Expr.items, hname, Resolved.ofRoot, hitems]

theorem Round.lookup_writes [LawfulScope σ] (r : Round) (s : σ) :
    Scope.lookup (Scope.bindAll s r.writes) r.binding = some r.item := by
  show Scope.lookup (Scope.bind (Scope.bind s indexName (.ofInt r.number)) r.binding r.item)
    r.binding = some r.item
  rw [LawfulScope.lookup_bind, if_pos rfl]

end

/-- A loop variable that is named by no keyword is a name of one segment wherever it is an
operand, and all tags find the value there that a placeholder prints; in a round of the loop
this is the item. One that is named by a keyword is printed as well, but as an operand it is
the literal. -/
theorem loopVariable_reads_back {σ : Type} [Scope σ] [LawfulScope σ] {t : Token} {name : String}
    {iterable : Expr} (h : Tag.ofToken t = .ok (.forLoop name iterable)) :
    (name ∉ Literal.keywords →
        Expr.ofString name = .name ⟨name, []⟩
          ∧ (∀ u tag, Token.HasOperand u name (.name ⟨name, []⟩) tag → Tag.ofToken u = .ok tag)
          ∧ ∀ (s : σ) v, Scope.lookup s name = some v →
              (Expr.name ⟨name, []⟩).StandsFor s v)
      ∧ (∀ u : Token, u.kind = .placeholder → u.content = name →
          Tag.ofToken u = .ok (.placeholder ⟨name, []⟩))
      ∧ (∀ (s : σ) v place, Scope.lookup s name = some v →
          ((Node.placeholder ⟨name, []⟩ place).render s).output = .ok v.text)
      ∧ (∀ (s : σ) (r : Round), r.binding = name →
          Scope.lookup (Scope.bindAll s r.writes) name = some r.item)
      ∧ ∀ v, Literal.ofKeyword? name = some v →
          Expr.ofString name = .literal v
            ∧ ∀ u tag, Token.HasOperand u name (.literal v) tag → Tag.ofToken u = .ok tag := by
  have hname : Text.IsName name := (Token.isSound_of_ofToken_forLoop h).1
  have hne : name ≠ "" := hname.ne_empty
  refine ⟨?_, ?_, ?_, ?_, ?_⟩
  · intro hkeyword
    have hread := Expr.ofString_of_isName hname hkeyword
    refine ⟨hread, ?_, fun s v hv => Expr.standsFor_of_lookup hv⟩
    intro u tag htag
    exact htag.ofToken_eq hne hname.solid hread
  · rintro u hkind rfl
    exact Token.ofToken_of_isName hkind hname
  · intro s v place hv
    simp [Node.render, Rendering.reading, Path.resolve_single hv, Rendering.emit, Resolved.ofRoot]
  · rintro s r rfl
    exact r.lookup_writes s
  · intro v hkeyword
    have hread := Expr.ofString_of_isName_keyword hname hkeyword
    refine ⟨hread, ?_⟩
    intro u tag htag
    exact htag.ofToken_eq hne hname.solid hread

theorem loopVariable_reads_back_prefix :
    let t : Token := ⟨.block, "", "for nulls in xs", ⟨0, 0, 0⟩⟩
    let u : Token := ⟨.block, "", "if 0 == nulls", ⟨0, 0, 0⟩⟩
    let c : Context := .ofList [("nulls", .int 0)]
    Tag.ofToken t = .ok (.forLoop "nulls" (.name ⟨"xs", []⟩))
      ∧ "nulls" ∉ Literal.keywords
      ∧ Expr.ofString "nulls" = .name ⟨"nulls", []⟩
      ∧ Tag.ofToken u = .ok (.conditional (.compare (.ofString "0") .eq (.name ⟨"nulls", []⟩)))
      ∧ Scope.lookup c "nulls" = some (.int 0)
      ∧ (Expr.name ⟨"nulls", []⟩).StandsFor c (.int 0)
      ∧ ((Node.placeholder ⟨"nulls", []⟩ ⟨0, 0, 0⟩).render c).output = .ok (Value.int 0).text := by
  intro t u c
  have htag : Tag.ofToken t = .ok (.forLoop "nulls" (.name ⟨"xs", []⟩)) := by cbv
  have hkeyword : "nulls" ∉ Literal.keywords := by decide
  have hoperand : u.HasOperand "nulls" (.name ⟨"nulls", []⟩)
      (.conditional (.compare (.ofString "0") .eq (.name ⟨"nulls", []⟩))) :=
    .right rfl (by decide +kernel)
  have hlookup : Scope.lookup c "nulls" = some (.int 0) := by rfl
  obtain ⟨hname, -, hprints, -⟩ := loopVariable_reads_back (σ := Context) htag
  obtain ⟨hread, htags, hstands⟩ := hname hkeyword
  exact ⟨htag, hkeyword, hread, htags u _ hoperand, hlookup, hstands c _ hlookup,
    hprints c _ _ hlookup⟩

/-- The loop variable `True` is printed, and is the literal in a condition. -/
theorem loopVariable_named_true :
    let t : Token := ⟨.block, "", "for True in xs", ⟨0, 0, 0⟩⟩
    let c : Context := .ofList [("True", .bool false)]
    Tag.ofToken t = .ok (.forLoop "True" (.name ⟨"xs", []⟩))
      ∧ Expr.ofString "True" ≠ .name ⟨"True", []⟩
      ∧ ((Node.placeholder ⟨"True", []⟩ ⟨0, 0, 0⟩).render c).output = .ok "false"
      ∧ (Condition.truthy (.ofString "True")).holds c = .ok true := by
  intro t c
  exact ⟨by cbv, by decide +kernel, by rfl, by rfl⟩

end Stencil
