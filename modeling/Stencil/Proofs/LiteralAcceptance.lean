-- SUMMARY: A text is accepted as a literal with some value exactly if the grammar gives it that value.
import Stencil.Proofs.LiteralGrammar

/-!
# Acceptance of Literals

A reader is sound for a grammar if what it takes off a text is in the grammar,
and complete up to a length if it takes a text of the grammar, of that length at
most, off any rest that may follow a literal. Both pass from the reader of an
item to the reader of a sequence, and from one depth of nesting to the next.
-/

namespace Stencil.Literal

open Text (isBlank isWordChar skipBlanks Blanks)

variable {α : Type} {D : List Char → α → Prop} {read : Reader α}

/-- What the reader takes off a text is in the grammar. -/
def Sound (D : List Char → α → Prop) (read : Reader α) : Prop :=
  ∀ {cs rest : List Char} {a : α}, outcome (read cs) = some (a, rest) →
    ∃ text, cs = text ++ rest ∧ D text a

/-! ## What is read is in the grammar -/

theorem exists_of_afterItem {close : Char} {cs rest before text : List Char} {item : α}
    {as : List α} {comma : Bool} (hbefore : Blanks before) (hD : D text item)
    (hmore : ∀ {more rest' : List Char} {as' : List α} {comma' : Bool}, more.length < cs.length →
      outcome (items read close more) = some ((as', comma'), rest') →
      ∃ others, more = others ++ close :: rest' ∧ Items D others as' comma')
    (h : afterItem read close item cs = some ((as, comma), rest)) :
    ∃ tail, cs = tail ++ close :: rest ∧ Items D (before ++ text ++ tail) as comma := by
  obtain ⟨blanks, hblanks, hcs⟩ := Text.exists_blanks_append cs
  unfold afterItem at h
  split at h
  · cases h
  · next d more hskip =>
    rw [hskip] at hcs
    split at h
    · next hcomma =>
      obtain ⟨⟨⟨as', comma'⟩, rest'⟩, hitems, heq⟩ := Option.map_eq_some_iff.1 h
      cases heq
      have hshorter : more.length < cs.length := by
        rw [hcs, List.length_append, List.length_cons]
        omega
      obtain ⟨others, hothers, hD'⟩ := hmore hshorter hitems
      refine ⟨blanks ++ ',' :: others, ?_, ?_⟩
      · rw [hcs, hothers, hcomma]
        simp
      · rw [← List.append_assoc]
        exact .more hbefore hD hblanks hD'
    · split at h
      · next hclose =>
        cases h
        refine ⟨blanks, ?_, .last hbefore hD hblanks⟩
        rw [hcs, hclose]
      · cases h

theorem exists_of_items (hread : Sound D read) {close : Char} {cs rest : List Char} {as : List α}
    {comma : Bool} (h : outcome (items read close cs) = some ((as, comma), rest)) :
    ∃ text, cs = text ++ close :: rest ∧ Items D text as comma := by
  induction hlength : cs.length using Nat.strongRecOn generalizing cs rest as comma with
  | ind length ih =>
    obtain ⟨before, hbefore, hcs⟩ := Text.exists_blanks_append cs
    rw [outcome_items] at h
    split at h
    · cases h
    · next c tail hskip =>
      rw [hskip] at hcs
      split at h
      · next hclose =>
        cases h
        exact ⟨before, by rw [hcs, hclose], .none hbefore⟩
      · obtain ⟨⟨item, after⟩, hitem, hafter⟩ := Option.bind_eq_some_iff.1 h
        obtain ⟨text, htext, hD⟩ := hread hitem
        have hle : after.length ≤ length := by
          rw [← hlength, hcs, htext, List.length_append, List.length_append]
          omega
        obtain ⟨tail', htail, hitems⟩ := exists_of_afterItem hbefore hD
          (fun hshorter hmore => ih _ (Nat.lt_of_lt_of_le hshorter hle) hmore rfl) hafter
        refine ⟨before ++ text ++ tail', ?_, hitems⟩
        rw [hcs, htext, htail]
        simp

theorem sound_entry {D : List Char → Value → Prop} {read : Reader Value} (hread : Sound D read) :
    Sound (Entry D) (entry read) := by
  intro cs rest a h
  rw [outcome_entry] at h
  obtain ⟨⟨key, cs'⟩, hkey, hafterKey⟩ := Option.bind_eq_some_iff.1 h
  obtain ⟨keyText, hcs, hD⟩ := hread hkey
  obtain ⟨before, hbefore, hcs'⟩ := Text.exists_blanks_append cs'
  unfold afterKey at hafterKey
  split at hafterKey
  · cases hafterKey
  · next c tail hskip =>
    rw [hskip] at hcs'
    split at hafterKey
    · next hcolon =>
      obtain ⟨⟨v, rest'⟩, hvalue, heq⟩ := Option.map_eq_some_iff.1 hafterKey
      cases heq
      obtain ⟨text, htext, hv⟩ := hread hvalue
      obtain ⟨after, hafter, htail⟩ := Text.exists_blanks_append tail
      refine ⟨_, ?_, .mk hD hbefore hafter hv⟩
      rw [hcs, hcs', hcolon, htail, htext]
      simp
    · cases hafterKey

/-- A reader of a sequence in brackets is sound if each sequence denotes what the
reader makes of it. -/
theorem exists_of_bracketed (hread : Sound D read) {opening closing : Char}
    (f : List α × Bool → Value) (hf : ∀ {text : List Char} {as : List α} {comma : Bool},
      Items D text as comma → Denotes (opening :: (text ++ [closing])) (f (as, comma)))
    {cs rest : List Char} {v : Value}
    (h : (outcome (items read closing cs)).map (fun r => (f r.1, r.2)) = some (v, rest)) :
    ∃ text, opening :: cs = text ++ rest ∧ Denotes text v := by
  obtain ⟨⟨⟨as, comma⟩, rest'⟩, hitems, heq⟩ := Option.map_eq_some_iff.1 h
  cases heq
  obtain ⟨text, rfl, has⟩ := exists_of_items hread hitems
  refine ⟨opening :: (text ++ [closing]), ?_, hf has⟩
  simp

theorem sound_value (depth : Nat) : Sound Denotes (value depth) := by
  induction depth with
  | zero =>
    intro cs rest v h
    cases h
  | succ depth ih =>
    intro cs rest v h
    cases cs with
    | nil => cases h
    | cons c cs =>
      rw [outcome_value_cons] at h
      split at h
      · next hmark =>
        rw [outcome_string] at h
        obtain ⟨⟨text, rest'⟩, hread, heq⟩ := Option.map_eq_some_iff.1 h
        cases heq
        obtain ⟨body, rfl, hbody⟩ := exists_of_unquote hread
        exact ⟨c :: (body ++ [c]), by simp, .string hmark hbody⟩
      split at h
      · next hopen =>
        subst hopen
        exact exists_of_bracketed ih (fun r => .list r.1) .list h
      split at h
      · next hopen =>
        subst hopen
        exact exists_of_bracketed ih ofParenthesized denotes_ofParenthesized h
      split at h
      · next hopen =>
        subst hopen
        exact exists_of_bracketed (sound_entry ih) (fun r => .ofEntries r.1) .map h
      split at h
      · rw [outcome_number] at h
        obtain ⟨⟨n, rest'⟩, hread, heq⟩ := Option.map_eq_some_iff.1 h
        cases heq
        obtain ⟨text, htext, hn⟩ := Text.exists_of_numeral hread
        exact ⟨text, htext, denotes_ofNumeral hn⟩
      split at h
      · rw [outcome_keyword] at h
        obtain ⟨v', hword, heq⟩ := Option.map_eq_some_iff.1 h
        cases heq
        refine ⟨c :: cs.takeWhile isWordChar, ?_, .keyword (keyword_of_ofKeyword? hword)⟩
        rw [List.cons_append, List.takeWhile_append_dropWhile]
      · cases h

/-! ## How a literal starts, and what may follow it -/

/-- The text starts with a character that is no blank and closes no sequence. -/
def StartsItem (text : List Char) : Prop :=
  ∃ c cs, text = c :: cs ∧ isBlank c = false ∧ c ∉ [']', ')', '}']

/-- The text is empty or starts with a character that may follow a literal. -/
def Follows (rest : List Char) : Prop :=
  ∀ c ∈ rest.head?, isBlank c = true ∨ c ∈ [',', ':', ']', ')', '}']

theorem Follows.endsNumeral {rest : List Char} (h : Follows rest) : Text.EndsNumeral rest := by
  intro c hc
  rcases h c hc with hblank | hmem
  · refine ⟨Text.isWordChar_of_isBlank hblank, ?_⟩
    rintro rfl
    revert hblank
    decide
  · simp only [List.mem_cons, List.not_mem_nil, or_false] at hmem
    rcases hmem with rfl | rfl | rfl | rfl | rfl <;> decide

theorem follows_cons {c : Char} (hc : c ∈ [',', ':', ']', ')', '}']) (cs : List Char) :
    Follows (c :: cs) := by
  intro d hd
  obtain rfl := Option.some.inj hd
  exact .inr hc

theorem follows_closing {close : Char} (h : close ∈ [']', ')', '}']) (cs : List Char) :
    Follows (close :: cs) :=
  follows_cons (List.mem_cons_of_mem _ (List.mem_cons_of_mem _ h)) cs

theorem isBlank_closing {close : Char} (h : close ∈ [']', ')', '}']) : isBlank close = false := by
  simp only [List.mem_cons, List.not_mem_nil, or_false] at h
  rcases h with rfl | rfl | rfl <;> decide

theorem follows_blanks {blanks : List Char} (h : Blanks blanks) : Follows blanks :=
  fun c hc => .inl (h c (List.mem_of_mem_head? hc))

theorem Follows.blanks_append {blanks rest : List Char} (h : Follows rest)
    (hblanks : Blanks blanks) : Follows (blanks ++ rest) := by
  cases blanks with
  | nil => exact h
  | cons c blanks =>
    intro d hd
    obtain rfl := Option.some.inj hd
    exact .inl (hblanks c List.mem_cons_self)

theorem StartsItem.append {text : List Char} (h : StartsItem text) (rest : List Char) :
    StartsItem (text ++ rest) := by
  obtain ⟨c, cs, rfl, hc⟩ := h
  exact ⟨c, cs ++ rest, rfl, hc⟩

theorem startsItem_numeral {text : List Char} {n : Text.Numeral} (h : Text.NumeralText text n) :
    StartsItem text := by
  obtain ⟨c, cs, rfl, hc⟩ := h.exists_cons
  refine ⟨c, cs, rfl, ?_⟩
  rcases hc with hdigit | rfl | rfl | rfl
  · refine ⟨Text.isBlank_of_isWordChar (Text.isWordChar_of_isDigit hdigit), fun hmem => ?_⟩
    simp only [List.mem_cons, List.not_mem_nil, or_false] at hmem
    rcases hmem with rfl | rfl | rfl <;> cases hdigit
  · decide
  · decide
  · decide

theorem Denotes.startsItem {text : List Char} {v : Value} (h : Denotes text v) :
    StartsItem text := by
  cases h with
  | integer hn _ => exact startsItem_numeral hn
  | float hn _ => exact startsItem_numeral hn
  | string hmark _ => rcases hmark with rfl | rfl <;> exact ⟨_, _, rfl, by decide⟩
  | keyword h => cases h <;> exact ⟨_, _, rfl, by decide⟩
  | list _ => exact ⟨_, _, rfl, by decide⟩
  | tuple _ _ => exact ⟨_, _, rfl, by decide⟩
  | grouped _ => exact ⟨_, _, rfl, by decide⟩
  | map _ => exact ⟨_, _, rfl, by decide⟩

theorem Entry.startsItem {D : List Char → Value → Prop} {text : List Char} {e : String × Value}
    (hD : ∀ {text v}, D text v → StartsItem text) (h : Entry D text e) : StartsItem text := by
  cases h with
  | mk hkey _ _ _ =>
    simp only [List.append_assoc]
    exact (hD hkey).append _

/-! ## What is in the grammar is read -/

/-- The reader takes a text of the grammar, of some length at most, off a rest
that may follow it. -/
def Complete (D : List Char → α → Prop) (length : Nat) (read : Reader α) : Prop :=
  ∀ {text rest : List Char} {a : α}, D text a → text.length ≤ length → Follows rest →
    outcome (read (text ++ rest)) = some (a, rest)

theorem StartsItem.skipBlanks_append {text : List Char} (h : StartsItem text)
    {blanks : List Char} (hblanks : Blanks blanks) : skipBlanks (blanks ++ text) = text := by
  obtain ⟨c, cs, rfl, hblank, _⟩ := h
  exact Text.skipBlanks_append_cons hblanks hblank cs

theorem outcome_items_close (read : Reader α) {close : Char} (hclose : close ∈ [']', ')', '}'])
    {blanks : List Char} (hblanks : Blanks blanks) (rest : List Char) :
    outcome (items read close (blanks ++ close :: rest)) = some (([], true), rest) := by
  rw [outcome_items, Text.skipBlanks_append_cons hblanks (isBlank_closing hclose)]
  exact if_pos rfl

theorem outcome_items_item (read : Reader α) {close : Char} (hclose : close ∈ [']', ')', '}'])
    {blanks text : List Char} (hblanks : Blanks blanks) (hstart : StartsItem text)
    (rest : List Char) : outcome (items read close (blanks ++ (text ++ rest))) =
      (outcome (read (text ++ rest))).bind fun r => afterItem read close r.1 r.2 := by
  rw [outcome_items, (hstart.append rest).skipBlanks_append hblanks]
  obtain ⟨c, cs, rfl, _, hc⟩ := hstart
  have hne : c ≠ close := fun heq => hc (heq ▸ hclose)
  exact if_neg hne

theorem afterItem_close (read : Reader α) {close : Char} (hclose : close ∈ [']', ')', '}'])
    {blanks : List Char} (hblanks : Blanks blanks) (a : α) (rest : List Char) :
    afterItem read close a (blanks ++ close :: rest) = some (([a], false), rest) := by
  have hcomma : close ≠ ',' := by
    rintro rfl
    revert hclose
    decide
  rw [afterItem, Text.skipBlanks_append_cons hblanks (isBlank_closing hclose)]
  simp only [if_neg hcomma, if_true]

theorem afterItem_comma (read : Reader α) (close : Char) {blanks : List Char}
    (hblanks : Blanks blanks) (a : α) (rest : List Char) :
    afterItem read close a (blanks ++ ',' :: rest) =
      (outcome (items read close rest)).map fun r => ((a :: r.1.1, r.1.2), r.2) := by
  rw [afterItem, Text.skipBlanks_append_cons hblanks (by decide)]
  exact if_pos rfl

theorem items_append {length : Nat} (hread : Complete D length read)
    (hstart : ∀ {text a}, D text a → StartsItem text) {close : Char}
    (hclose : close ∈ [']', ')', '}']) {text : List Char} {as : List α} {comma : Bool}
    (h : Items D text as comma) (hlength : text.length ≤ length) (rest : List Char) :
    outcome (items read close (text ++ close :: rest)) = some ((as, comma), rest) := by
  induction h with
  | none hblanks => exact outcome_items_close read hclose hblanks rest
  | last hbefore ha hafter =>
    simp only [List.length_append] at hlength
    have hitem := hread ha (by omega) ((follows_closing hclose rest).blanks_append hafter)
    rw [List.append_assoc, List.append_assoc, outcome_items_item read hclose hbefore (hstart ha),
      hitem, Option.bind_some]
    exact afterItem_close read hclose hafter _ rest
  | @more before text after tail a as comma hbefore ha hafter _ ih =>
    simp only [List.length_append, List.length_cons] at hlength
    have hcomma : Follows (',' :: (tail ++ close :: rest)) := follows_cons (by decide) _
    have hitem := hread ha (by omega) (hcomma.blanks_append hafter)
    rw [List.append_assoc, List.append_assoc, List.append_assoc, List.cons_append,
      outcome_items_item read hclose hbefore (hstart ha), hitem, Option.bind_some,
      afterItem_comma read close hafter, ih (by omega)]
    rfl

theorem complete_entry {D : List Char → Value → Prop} {read : Reader Value} {length : Nat}
    (hread : Complete D length read) (hstart : ∀ {text v}, D text v → StartsItem text) :
    Complete (Entry D) length (entry read) := by
  intro text rest e h hlength hrest
  cases h with
  | @mk keyText before after text key v hkey hbefore hafter hv =>
    simp only [List.length_append, List.length_cons] at hlength
    have hcolon : Follows (':' :: (after ++ (text ++ rest))) := follows_cons (by decide) _
    have hkey' := hread hkey (by omega) (hcolon.blanks_append hbefore)
    have hv' := hread hv (by omega) hrest
    have htext : keyText ++ before ++ ':' :: after ++ text ++ rest
        = keyText ++ (before ++ ':' :: (after ++ (text ++ rest))) := by simp
    rw [htext, outcome_entry, hkey', Option.bind_some, afterKey,
      Text.skipBlanks_append_cons hbefore (by decide)]
    simp only [if_true]
    rw [((hstart hv).append rest).skipBlanks_append hafter, hv']
    rfl

theorem outcome_value_numeral {text rest : List Char} {n : Text.Numeral}
    (h : Text.NumeralText text n) (hrest : Follows rest) (depth : Nat) :
    outcome (value (depth + 1) (text ++ rest)) = some (ofNumeral n, rest) := by
  have hread := Text.numeral_append h hrest.endsNumeral
  obtain ⟨c, cs, rfl, hc⟩ := h.exists_cons
  rw [List.cons_append] at hread ⊢
  rw [outcome_value_number hc, outcome_number, hread]
  rfl

theorem bracketed_append {depth : Nat} (hread : Complete D depth read)
    (hstart : ∀ {text a}, D text a → StartsItem text) {opening closing : Char}
    (hclosing : closing ∈ [']', ')', '}']) {text : List Char} {as : List α} {comma : Bool}
    (h : Items D text as comma) (hlength : (opening :: (text ++ [closing])).length ≤ depth + 1)
    (rest : List Char) :
    outcome (items read closing (text ++ [closing] ++ rest)) = some ((as, comma), rest) := by
  simp only [List.length_cons, List.length_append] at hlength
  rw [List.append_assoc, List.singleton_append]
  exact items_append hread hstart hclosing h (by omega) rest

theorem complete_value (depth : Nat) : Complete Denotes depth (value depth) := by
  induction depth with
  | zero =>
    intro text rest v h hlength _
    obtain ⟨c, cs, rfl, _⟩ := h.startsItem
    exact absurd hlength (Nat.not_succ_le_zero _)
  | succ depth ih =>
    intro text rest v h hlength hrest
    cases h with
    | integer hn hi =>
      rw [outcome_value_numeral hn hrest, ofNumeral_of_isInteger hi]
    | float hn hi =>
      rw [outcome_value_numeral hn hrest, ofNumeral_of_not_isInteger hi]
    | @string mark body text hmark h =>
      have hescape : mark ≠ '\\' := by rcases hmark with rfl | rfl <;> decide
      rw [List.cons_append, List.append_assoc, outcome_value_string hmark, outcome_string,
        List.singleton_append, h.unquote_append hescape]
      rfl
    | keyword h =>
      obtain ⟨c, cs, rfl, hc, hcs⟩ := h.exists_cons
      rw [List.cons_append, outcome_value_keyword hc]
      exact outcome_keyword_append h hcs hrest.endsNumeral
    | list h =>
      rw [List.cons_append, outcome_value_list,
        bracketed_append ih Denotes.startsItem (by decide) h hlength rest]
      rfl
    | tuple h hne =>
      rw [List.cons_append, outcome_value_tuple,
        bracketed_append ih Denotes.startsItem (by decide) h hlength rest, Option.map_some,
        ofParenthesized_tuple hne]
    | grouped h =>
      rw [List.cons_append, outcome_value_tuple,
        bracketed_append ih Denotes.startsItem (by decide) h hlength rest]
      rfl
    | map h =>
      have hentry : Complete (Entry Denotes) depth (entry (value depth)) :=
        complete_entry ih Denotes.startsItem
      rw [List.cons_append, outcome_value_map,
        bracketed_append hentry (Entry.startsItem Denotes.startsItem) (by decide) h hlength rest]
      rfl

/-! ## Whole texts -/

/-- A text is read as a literal with some value exactly if it is, between blanks,
a text that the grammar gives that value. -/
theorem accepted_iff_denotes (source : String) (v : Value) :
    read? source = some v ↔ ∃ before text after, source.toList = before ++ text ++ after ∧
      Blanks before ∧ Blanks after ∧ Denotes text v := by
  rw [read?_eq]
  constructor
  · intro h
    obtain ⟨⟨v', rest⟩, hread, heq⟩ := Option.bind_eq_some_iff.1 h
    obtain ⟨before, hbefore, hsource⟩ := Text.exists_blanks_append source.toList
    obtain ⟨text, htext, hv⟩ := sound_value _ hread
    split at heq
    · next hrest =>
      cases heq
      refine ⟨before, text, rest, ?_, hbefore, Text.blanks_of_skipBlanks_eq_nil hrest, hv⟩
      rw [List.append_assoc, ← htext]
      exact hsource
    · cases heq
  · rintro ⟨before, text, after, hsource, hbefore, hafter, hv⟩
    have hskip : skipBlanks source.toList = text ++ after := by
      rw [hsource, List.append_assoc]
      exact (hv.startsItem.append after).skipBlanks_append hbefore
    have hlength : text.length ≤ (text ++ after).length + 1 := by
      rw [List.length_append]
      omega
    rw [hskip, complete_value _ hv hlength (follows_blanks hafter), Option.bind_some]
    exact if_pos (Text.skipBlanks_blanks hafter)

end Stencil.Literal
