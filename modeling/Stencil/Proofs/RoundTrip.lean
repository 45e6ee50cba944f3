-- SUMMARY: Reading the text of plain data gives the data back, unless a string or key in it has a line feed.
import Stencil.Proofs.LiteralAcceptance

/-!
# Round Trip of Text

Booleans, integers, strings, and lists, tuples and maps of such values print as
literals. The text of such a value is read as that value if no string and no key
in it has a line feed, and is not read at all otherwise: quoted text ends at a
line feed, and a sequence fails with the first of its items that fails.
-/

namespace Stencil

/-! ## Ascending entries -/

namespace Entries

variable {α : Type}

theorem insert_of_forall_lt {name : String} {entries : Entries α}
    (h : ∀ entry ∈ entries, entry.1 < name) (value : α) :
    insert name value entries = entries ++ [(name, value)] := by
  induction entries with
  | nil => rfl
  | cons entry entries ih =>
    have hlt : entry.1 < name := h entry List.mem_cons_self
    have hnot : ¬name < entry.1 := String.lt_asymm hlt
    have hne : name ≠ entry.1 := by
      rintro rfl
      exact String.lt_irrefl _ hlt
    rw [insert, if_neg hnot, if_neg hne, ih fun e he => h e (List.mem_cons_of_mem _ he)]
    rfl

theorem foldl_insert_of_ascending {sorted entries : Entries α}
    (h : Ascending (sorted ++ entries)) :
    entries.foldl (fun sorted entry => insert entry.1 entry.2 sorted) sorted
      = sorted ++ entries := by
  induction entries generalizing sorted with
  | nil => simp
  | cons entry entries ih =>
    have hlt : ∀ e ∈ sorted, e.1 < entry.1 := fun e he =>
      (List.pairwise_append.1 h).2.2 e he entry List.mem_cons_self
    rw [List.foldl_cons, insert_of_forall_lt hlt, ih (by simpa using h)]
    simp

/-- Entries that ascend are their own dictionary. -/
theorem ofList_of_ascending {entries : Entries α} (h : Ascending entries) :
    ofList entries = entries :=
  foldl_insert_of_ascending h

end Entries

/-! ## Plain data -/

namespace Value

/-- Booleans, integers, strings, and sequences and maps of such values. -/
inductive IsPlain : Value → Prop where
  | bool (b : Bool) : IsPlain (.bool b)
  | int (n : Int64) : IsPlain (.int n)
  | string (s : String) : IsPlain (.string s)
  | list {items : List Value} (h : ∀ v ∈ items, IsPlain v) : IsPlain (.list items)
  | tuple {items : List Value} (h : ∀ v ∈ items, IsPlain v) : IsPlain (.tuple items)
  | map {entries : Entries Value} (hnames : Entries.Ascending entries)
      (h : ∀ e ∈ entries, IsPlain e.2) : IsPlain (.map entries)

mutual

/-- Whether a string or a key in a value has a line feed. -/
def hasLineFeed : Value → Bool
  | .string s => s.toList.contains '\n'
  | .list items => itemsHaveLineFeed items
  | .tuple items => itemsHaveLineFeed items
  | .map entries => entriesHaveLineFeed entries
  | _ => false

def itemsHaveLineFeed : List Value → Bool
  | [] => false
  | v :: rest => hasLineFeed v || itemsHaveLineFeed rest

def entriesHaveLineFeed : List (String × Value) → Bool
  | [] => false
  | (key, v) :: rest => (key.toList.contains '\n' || hasLineFeed v) || entriesHaveLineFeed rest

end

/-- Whether the key or the item of an entry has a line feed. -/
def entryHasLineFeed (entry : String × Value) : Bool :=
  entry.1.toList.contains '\n' || hasLineFeed entry.2

theorem itemsHaveLineFeed_eq (items : List Value) :
    itemsHaveLineFeed items = items.any hasLineFeed := by
  induction items with
  | nil => rfl
  | cons v items ih => rw [itemsHaveLineFeed, List.any_cons, ih]

theorem entriesHaveLineFeed_eq (entries : Entries Value) :
    entriesHaveLineFeed entries = entries.any entryHasLineFeed := by
  induction entries with
  | nil => rfl
  | cons e entries ih => rw [entriesHaveLineFeed, List.any_cons, ih]; rfl

end Value

/-! ## Numbers and quoted text -/

namespace Text

theorem digitGroup_of_digits {ds : List Char} (hne : ds ≠ [])
    (h : ∀ d ∈ ds, d.isDigit = true) : DigitGroup ds ds := by
  induction ds with
  | nil => exact absurd rfl hne
  | cons d ds ih =>
    have hd := h d List.mem_cons_self
    cases ds with
    | nil => exact .one hd
    | cons next ds =>
      exact .next hd (ih (List.cons_ne_nil _ _) fun c hc => h c (List.mem_cons_of_mem _ hc))

/-- A sign, digits and a fraction are a numeral without an exponent. -/
theorem numeralText_withSign (negative : Bool) {whole text : List Char}
    {fraction : Option (List Char)} (hne : whole ≠ []) (hwhole : ∀ d ∈ whole, d.isDigit = true)
    (hfraction : FractionText text fraction) :
    NumeralText (Binary64.withSign negative (whole ++ text)) ⟨negative, whole, fraction, none⟩ := by
  have hgroup := OptionalDigits.some (digitGroup_of_digits hne hwhole)
  cases negative with
  | false =>
    have h := NumeralText.mk .none hgroup hfraction (.inl hne) .none
    rwa [List.nil_append, List.append_nil] at h
  | true =>
    have h := NumeralText.mk .minus hgroup hfraction (.inl hne) .none
    rwa [List.append_nil] at h

/-- The text of a whole number is a numeral with neither point nor exponent. -/
theorem numeralText_integerText (n : Int) :
    NumeralText (integerText n) ⟨decide (n < 0), Nat.toDigits 10 n.natAbs, none, none⟩ := by
  have h := numeralText_withSign (decide (n < 0)) (Nat.toDigits_ne_nil (b := 10) (n := n.natAbs))
    (fun d hd => Nat.isDigit_of_mem_toDigits (by decide) (by decide) hd) .none
  have hsign : Binary64.withSign (decide (n < 0)) (Nat.toDigits 10 n.natAbs) = integerText n := by
    simp only [Binary64.withSign, integerText, decide_eq_true_eq]
  rwa [List.append_nil, hsign] at h

/-- A text in quotes is read back, unless it has a line feed. -/
theorem unquote_escape_append (cs rest : List Char) :
    unquote '\'' (escape cs ++ '\'' :: rest)
      = if cs.contains '\n' then none else some (cs, rest) := by
  induction cs with
  | nil => exact Literal.unquote_mark _ rest
  | cons c cs ih =>
    unfold escape
    split
    · next hc =>
      have hunescape : unescape c = [c] := by rcases hc with rfl | rfl <;> rfl
      have hfeed : ('\n' == c) = false := by rcases hc with rfl | rfl <;> rfl
      rw [List.cons_append, List.cons_append, Literal.unquote_escape (by decide), ih, hunescape,
        List.contains_cons, hfeed, Bool.false_or]
      split <;> rfl
    · next hc =>
      obtain ⟨hescape, hmark⟩ := not_or.1 hc
      rw [List.cons_append, List.contains_cons]
      by_cases hfeed : c = '\n'
      · rw [hfeed, Literal.unquote_lineFeed (by decide)]
        rfl
      · rw [Literal.unquote_plain hmark hfeed hescape, ih, beq_false_of_ne (Ne.symm hfeed),
          Bool.false_or]
        split <;> rfl

end Text

/-! ## Sequences as they print -/

/-- The texts of some items with commas and spaces between them. -/
def joinedText {α : Type} (f : α → List Char) : List α → List Char
  | [] => []
  | [a] => f a
  | a :: next :: rest => f a ++ ',' :: ' ' :: joinedText f (next :: rest)

theorem Value.itemsText_eq (items : List Value) :
    itemsText items = joinedText nestedText items := by
  fun_induction joinedText nestedText items with
  | case1 => rfl
  | case2 v => rfl
  | case3 v next rest ih => rw [itemsText, ih]

def Value.entryText (entry : String × Value) : List Char :=
  Text.quote entry.1.toList ++ ':' :: ' ' :: nestedText entry.2

theorem Value.entriesText_eq (entries : Entries Value) :
    entriesText entries = joinedText entryText entries := by
  fun_induction joinedText entryText entries with
  | case1 => rfl
  | case2 e => rfl
  | case3 e next rest ih =>
    rw [entriesText, ih, entryText]
    simp

theorem length_le_joinedText {α : Type} {f : α → List Char} {a : α} {as : List α} (h : a ∈ as) :
    (f a).length ≤ (joinedText f as).length := by
  fun_induction joinedText f as with
  | case1 => cases h
  | case2 b =>
    obtain rfl := List.mem_singleton.1 h
    exact Nat.le_refl _
  | case3 b next rest ih =>
    simp only [List.length_append, List.length_cons]
    rcases List.mem_cons.1 h with rfl | hmem
    · omega
    · have := ih hmem
      omega

namespace Literal

open Text (isBlank skipBlanks Blanks)

/-- Reading the printed form of an item gives the item back, or nothing if the
item fails. -/
def ReadsPrinted {α : Type} (read : Reader α) (f : α → List Char) (fails : α → Bool) (a : α) :
    Prop :=
  ∀ rest, Follows rest → outcome (read (f a ++ rest)) = if fails a then none else some (a, rest)

section Sequences

variable {α : Type} {read : Reader α} {f : α → List Char} {fails : α → Bool} {close : Char}

/-- A printed sequence is read unless one of its items fails. -/
theorem outcome_items_joinedText {as : List α} (hread : ∀ a ∈ as, ReadsPrinted read f fails a)
    (hstart : ∀ a ∈ as, StartsItem (f a)) (hclose : close ∈ [']', ')', '}'])
    {blanks : List Char} (hblanks : Blanks blanks) (rest : List Char) :
    outcome (items read close (blanks ++ (joinedText f as ++ close :: rest)))
      = if as.any fails then none else some ((as, as.isEmpty), rest) := by
  fun_induction joinedText f as generalizing blanks with
  | case1 => exact outcome_items_close read hclose hblanks rest
  | case2 a =>
    have hmem : a ∈ [a] := List.mem_cons_self
    rw [outcome_items_item read hclose hblanks (hstart a hmem),
      hread a hmem _ (follows_closing hclose rest), List.any_cons, List.any_nil, Bool.or_false]
    cases fails a with
    | true => rfl
    | false =>
      rw [if_neg Bool.false_ne_true, if_neg Bool.false_ne_true, Option.bind_some]
      exact afterItem_close read hclose Text.blanks_nil a rest
  | case3 a next others ih =>
    have hmem : a ∈ a :: next :: others := List.mem_cons_self
    have ih := ih (fun b hb => hread b (List.mem_cons_of_mem _ hb))
      (fun b hb => hstart b (List.mem_cons_of_mem _ hb)) Text.blanks_space
    rw [List.append_assoc, outcome_items_item read hclose hblanks (hstart a hmem),
      List.cons_append, hread a hmem _ (follows_cons (by decide) _), List.any_cons]
    cases fails a with
    | true => rfl
    | false =>
      rw [if_neg Bool.false_ne_true, Option.bind_some, Bool.false_or]
      have hcomma := afterItem_comma read close Text.blanks_nil a
        ([' '] ++ (joinedText f (next :: others) ++ close :: rest))
      rw [ih] at hcomma
      refine hcomma.trans ?_
      split <;> rfl

theorem outcome_items_printed {as : List α} (hread : ∀ a ∈ as, ReadsPrinted read f fails a)
    (hstart : ∀ a ∈ as, StartsItem (f a)) (hclose : close ∈ [']', ')', '}']) (rest : List Char) :
    outcome (items read close (joinedText f as ++ [close] ++ rest))
      = if as.any fails then none else some ((as, as.isEmpty), rest) := by
  rw [List.append_assoc, List.singleton_append]
  exact outcome_items_joinedText hread hstart hclose Text.blanks_nil rest

/-- A single item with a comma after it is read unless it fails. -/
theorem outcome_items_singleton {a : α} (hread : ReadsPrinted read f fails a)
    (hstart : StartsItem (f a)) (hclose : close ∈ [']', ')', '}']) (rest : List Char) :
    outcome (items read close (f a ++ ',' :: close :: rest))
      = if fails a then none else some (([a], true), rest) := by
  have hitem := outcome_items_item read hclose Text.blanks_nil hstart (',' :: close :: rest)
  rw [List.nil_append] at hitem
  rw [hitem, hread _ (follows_cons (by decide) _)]
  cases fails a with
  | true => rfl
  | false =>
    have hcomma := afterItem_comma read close Text.blanks_nil a ([] ++ close :: rest)
    rw [outcome_items_close read hclose Text.blanks_nil rest] at hcomma
    exact hcomma

end Sequences

/-! ## Values as they print -/

theorem outcome_value_quote (depth : Nat) (s : String) (rest : List Char) :
    outcome (value (depth + 1) (Text.quote s.toList ++ rest))
      = if s.toList.contains '\n' then none else some (.string s, rest) := by
  rw [Text.quote, List.cons_append, List.append_assoc, List.singleton_append,
    outcome_value_string (.inl rfl), outcome_string, Text.unquote_escape_append]
  split
  · rfl
  · rw [Option.map_some, String.ofList_toList]

theorem startsItem_nestedText {v : Value} (h : v.IsPlain) : StartsItem v.nestedText := by
  cases h with
  | bool b => cases b <;> exact ⟨_, _, rfl, by decide⟩
  | int n => exact startsItem_numeral (Text.numeralText_integerText n.toInt)
  | string s => exact ⟨_, _, rfl, by decide⟩
  | list _ => exact ⟨_, _, rfl, by decide⟩
  | tuple _ => exact ⟨_, _, rfl, by decide⟩
  | map _ _ => exact ⟨_, _, rfl, by decide⟩

theorem exists_depth {v : Value} {depth : Nat} (h : v.IsPlain)
    (hlength : v.nestedText.length ≤ depth) : ∃ outer, depth = outer + 1 := by
  obtain ⟨c, cs, htext, _⟩ := startsItem_nestedText h
  rw [htext] at hlength
  exact Nat.exists_eq_succ_of_ne_zero (Nat.ne_of_gt (Nat.lt_of_lt_of_le (Nat.succ_pos _) hlength))

theorem length_nestedText_le (e : String × Value) :
    e.2.nestedText.length ≤ (Value.entryText e).length := by
  simp only [Value.entryText, List.length_append, List.length_cons]
  omega

theorem readsPrinted_entry {depth : Nat} {e : String × Value} (h : e.2.IsPlain)
    (hlength : (Value.entryText e).length ≤ depth)
    (hv : ReadsPrinted (value depth) Value.nestedText Value.hasLineFeed e.2) :
    ReadsPrinted (entry (value depth)) Value.entryText Value.entryHasLineFeed e := by
  intro rest hrest
  obtain ⟨depth, rfl⟩ := exists_depth h (Nat.le_trans (length_nestedText_le e) hlength)
  have htext : Value.entryText e ++ rest
      = Text.quote e.1.toList ++ ':' :: ([' '] ++ (e.2.nestedText ++ rest)) := by
    simp [Value.entryText]
  rw [htext, outcome_entry, outcome_value_quote]
  unfold Value.entryHasLineFeed
  cases e.1.toList.contains '\n' with
  | true => rfl
  | false =>
    have hcolon : skipBlanks ([] ++ ':' :: ([' '] ++ (e.2.nestedText ++ rest)))
        = ':' :: ([' '] ++ (e.2.nestedText ++ rest)) :=
      Text.skipBlanks_append_cons Text.blanks_nil (by decide) _
    rw [List.nil_append] at hcolon
    rw [if_neg Bool.false_ne_true, Option.bind_some, Bool.false_or, afterKey, hcolon]
    simp only [if_true]
    rw [((startsItem_nestedText h).append rest).skipBlanks_append Text.blanks_space, hv rest hrest]
    split <;> rfl

theorem isInteger_integerText (n : Int64) :
    IsInteger ⟨decide (n.toInt < 0), Nat.toDigits 10 n.toInt.natAbs, none, none⟩ n := by
  refine ⟨rfl, rfl, ?_⟩
  simp only [Text.Numeral.coefficient, Option.getD_none, List.append_nil,
    Nat.ofDigitChars_ten_toDigits, decide_eq_true_eq]
  split <;> omega

section

variable {depth : Nat} {items : List Value} {entries : Entries Value}

theorem readsPrinted_int (n : Int64) :
    ReadsPrinted (value (depth + 1)) Value.nestedText Value.hasLineFeed (.int n) := by
  intro rest hrest
  have hread := outcome_value_numeral (Text.numeralText_integerText n.toInt) hrest depth
  rw [ofNumeral_of_isInteger (isInteger_integerText n)] at hread
  exact hread

theorem readsPrinted_list (hitems : ∀ v ∈ items, v.IsPlain)
    (hread : ∀ v ∈ items, ReadsPrinted (value depth) Value.nestedText Value.hasLineFeed v) :
    ReadsPrinted (value (depth + 1)) Value.nestedText Value.hasLineFeed (.list items) := by
  intro rest _
  have hstart : ∀ v ∈ items, StartsItem v.nestedText := by
    intro v hv
    exact startsItem_nestedText (hitems v hv)
  rw [Value.nestedText, Value.itemsText_eq, Value.hasLineFeed, Value.itemsHaveLineFeed_eq,
    List.cons_append, outcome_value_list, outcome_items_printed hread hstart (by decide) rest]
  split
  · rfl
  · rfl

theorem readsPrinted_tuple (hitems : ∀ v ∈ items, v.IsPlain)
    (hread : ∀ v ∈ items, ReadsPrinted (value depth) Value.nestedText Value.hasLineFeed v) :
    ReadsPrinted (value (depth + 1)) Value.nestedText Value.hasLineFeed (.tuple items) := by
  intro rest _
  have hstart : ∀ v ∈ items, StartsItem v.nestedText := by
    intro v hv
    exact startsItem_nestedText (hitems v hv)
  rw [Value.nestedText, Value.itemsText_eq, Value.hasLineFeed, Value.itemsHaveLineFeed_eq,
    List.cons_append, outcome_value_tuple]
  by_cases hone : items.length = 1
  · -- A single item prints with a comma, which keeps it apart from a grouped one.
    obtain ⟨v, rfl⟩ := List.length_eq_one_iff.1 hone
    have hsingle := outcome_items_singleton (hread v List.mem_cons_self)
      (hstart v List.mem_cons_self) (by decide : ')' ∈ [']', ')', '}']) rest
    rw [if_pos hone, joinedText, List.append_assoc]
    simp only [List.cons_append, List.nil_append]
    rw [hsingle, List.any_cons, List.any_nil, Bool.or_false]
    split
    · rfl
    · rfl
  · rw [if_neg hone, outcome_items_printed hread hstart (by decide) rest]
    split
    · rfl
    · rw [Option.map_some, ofParenthesized_tuple (.inl hone)]

theorem readsPrinted_map (hnames : Entries.Ascending entries)
    (hread : ∀ e ∈ entries,
      ReadsPrinted (entry (value depth)) Value.entryText Value.entryHasLineFeed e) :
    ReadsPrinted (value (depth + 1)) Value.nestedText Value.hasLineFeed (.map entries) := by
  intro rest _
  have hstart : ∀ e ∈ entries, StartsItem (Value.entryText e) := by
    intro e _
    exact ⟨_, _, rfl, by decide⟩
  rw [Value.nestedText, Value.entriesText_eq, Value.hasLineFeed, Value.entriesHaveLineFeed_eq,
    List.cons_append, outcome_value_map, outcome_items_printed hread hstart (by decide) rest]
  split
  · rfl
  · rw [Option.map_some, Value.ofEntries, Entries.ofList_of_ascending hnames]

end

/-- Plain data is read back from its text at any sufficient depth, unless it has
a line feed. -/
theorem readsPrinted_value {v : Value} {depth : Nat} (h : v.IsPlain)
    (hlength : v.nestedText.length ≤ depth) :
    ReadsPrinted (value depth) Value.nestedText Value.hasLineFeed v := by
  induction h generalizing depth with
  | bool b =>
    intro rest hrest
    cases b with
    | true => exact complete_value depth (.keyword .lowerTrue) hlength hrest
    | false => exact complete_value depth (.keyword .lowerFalse) hlength hrest
  | int n =>
    obtain ⟨outer, rfl⟩ := exists_depth (.int n) hlength
    exact readsPrinted_int n
  | string s =>
    obtain ⟨outer, rfl⟩ := exists_depth (.string s) hlength
    intro rest _
    exact outcome_value_quote outer s rest
  | list hitems ih =>
    obtain ⟨outer, rfl⟩ := exists_depth (.list hitems) hlength
    rw [Value.nestedText, Value.itemsText_eq, List.length_cons, List.length_append] at hlength
    apply readsPrinted_list hitems
    intro v hv
    have := length_le_joinedText (f := Value.nestedText) hv
    exact ih v hv (by omega)
  | tuple hitems ih =>
    obtain ⟨outer, rfl⟩ := exists_depth (.tuple hitems) hlength
    rw [Value.nestedText, Value.itemsText_eq, List.length_cons, List.length_append] at hlength
    apply readsPrinted_tuple hitems
    intro v hv
    have := length_le_joinedText (f := Value.nestedText) hv
    exact ih v hv (by omega)
  | map hnames hitems ih =>
    obtain ⟨outer, rfl⟩ := exists_depth (.map hnames hitems) hlength
    rw [Value.nestedText, Value.entriesText_eq, List.length_cons, List.length_append] at hlength
    apply readsPrinted_map hnames
    intro e he
    have hentry := length_le_joinedText (f := Value.entryText) he
    have := length_nestedText_le e
    exact readsPrinted_entry (hitems e he) (by omega) (ih e he (by omega))

/-! ## Whole texts -/

/-- The text of plain data other than a bare string is read back as that data,
unless a string or a key in it has a line feed; then it is no literal. -/
theorem read_text_eq {v : Value} (h : v.IsPlain) (hkind : v.kind ≠ .string) :
    read? v.text = if v.hasLineFeed then none else some v := by
  have htext : v.text.toList = v.nestedText := by
    cases h with
    | string s => exact absurd rfl hkind
    | bool _ => exact String.toList_ofList
    | int _ => exact String.toList_ofList
    | list _ => exact String.toList_ofList
    | tuple _ => exact String.toList_ofList
    | map _ _ => exact String.toList_ofList
  have hskip : skipBlanks v.text.toList = v.nestedText := by
    rw [htext]
    exact (startsItem_nestedText h).skipBlanks_append Text.blanks_nil
  have hread := readsPrinted_value h (Nat.le_succ _) [] (follows_blanks Text.blanks_nil)
  rw [List.append_nil] at hread
  rw [read?_eq, hskip, hread]
  split <;> rfl

theorem read_text_nested :
    let v : Value := .tuple [.map [("a\\", .list [.string "it's", .int (-3)]), ("b'", .tuple [])]]
    let w : Value := .list [v, .map [("\n", .bool true)]]
    (v.IsPlain ∧ v.kind ≠ .string ∧ read? v.text = some v)
      ∧ (w.IsPlain ∧ w.kind ≠ .string ∧ read? w.text = none) := by
  intro v w
  have hv : v.IsPlain := by
    refine .tuple (List.forall_mem_singleton.2 (.map ?_ ?_))
    · unfold Entries.Ascending
      decide
    · refine List.forall_mem_cons.2 ⟨.list ?_, List.forall_mem_singleton.2 (.tuple nofun)⟩
      exact List.forall_mem_cons.2 ⟨.string _, List.forall_mem_singleton.2 (.int _)⟩
  have hw : w.IsPlain := by
    refine .list (List.forall_mem_cons.2 ⟨hv, List.forall_mem_singleton.2 (.map ?_ ?_)⟩)
    · exact List.pairwise_singleton _ _
    · exact List.forall_mem_singleton.2 (.bool _)
  refine ⟨⟨hv, by decide, ?_⟩, hw, by decide, ?_⟩
  · exact (read_text_eq hv (by decide)).trans (if_neg (by decide))
  · exact (read_text_eq hw (by decide)).trans (if_pos (by decide))

end Literal

end Stencil
