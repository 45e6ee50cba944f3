-- SUMMARY: One equation for each reader of literals, about what it takes off a text and what it leaves.
import Stencil.Literal

/-!
# Equations of the Literal Readers

A reader returns its rest together with a proof that the rest is shorter. The
outcome of a reader leaves that proof out, and each reader has one equation for
its outcome. Later files know the readers by these equations only.
-/

namespace Stencil.Literal

open Text (skipBlanks)

variable {α β : Type}

/-- What was read and the rest, without the bound on the rest. -/
def outcome {cs : List Char} (read : Option (α × Shorter cs)) : Option (α × List Char) :=
  read.map fun r => (r.1, r.2.1)

theorem outcome_some {cs : List Char} (a : α) (rest : Shorter cs) :
    outcome (some (a, rest)) = some (a, rest.1) := rfl

theorem outcome_weaken {cs ds : List Char} (h : ds.length ≤ cs.length) (f : α → β)
    (read : Option (α × Shorter ds)) :
    outcome (weaken h f read) = (outcome read).map fun r => (f r.1, r.2) := by
  cases read <;> rfl

theorem outcome_of_eq_none {cs : List Char} {read : Option (α × Shorter cs)} (h : read = none) :
    outcome read = none := by
  rw [h]
  rfl

theorem outcome_of_eq_some {cs rest : List Char} {read : Option (α × Shorter cs)} {a : α}
    {hrest : rest.length < cs.length} (h : read = some (a, ⟨rest, hrest⟩)) :
    outcome read = some (a, rest) := by
  rw [h]
  rfl

/-! ## Numbers, strings and keywords -/

theorem outcome_number (cs : List Char) :
    outcome (number cs) = (Text.numeral cs).map fun r => (ofNumeral r.1, r.2) := by
  unfold number
  split
  · next n rest h => simp only [outcome_some, h, Option.map_some]
  · next h => rw [h]; rfl

theorem outcome_string (mark : Char) (cs : List Char) :
    outcome (string mark cs)
      = (Text.unquote mark cs).map fun r => (.string (String.ofList r.1), r.2) := by
  unfold string
  split
  · next text rest h => simp only [outcome_some, h, Option.map_some]
  · next h => rw [h]; rfl

theorem outcome_keyword (c : Char) (cs : List Char) :
    outcome (keyword c cs) = (ofKeyword? (String.ofList (c :: cs.takeWhile Text.isWordChar))).map
      fun v => (v, cs.dropWhile Text.isWordChar) := by
  unfold keyword
  cases ofKeyword? (String.ofList (c :: cs.takeWhile Text.isWordChar)) <;> rfl

/-! ## Sequences -/

/-- What follows an item in a sequence: the rest of the items, or the end. -/
def afterItem (read : Reader α) (close : Char) (item : α) (cs : List Char) :
    Option ((List α × Bool) × List Char) :=
  match skipBlanks cs with
  | [] => none
  | d :: more =>
    if d = ',' then
      (outcome (items read close more)).map fun r => ((item :: r.1.1, r.1.2), r.2)
    else if d = close then some (([item], false), more)
    else none

theorem outcome_items (read : Reader α) (close : Char) (cs : List Char) :
    outcome (items read close cs) = match skipBlanks cs with
      | [] => none
      | c :: rest =>
        if c = close then some (([], true), rest)
        else (outcome (read (c :: rest))).bind fun r => afterItem read close r.1 r.2 := by
  rw [items]
  split
  · next h => simp only [h]; rfl
  · next c rest h =>
    simp only [h]
    split
    · rfl
    · split
      · next hread => rw [outcome_of_eq_none hread]; rfl
      · next item rest' hitem hread =>
        rw [outcome_of_eq_some hread, Option.bind_some, afterItem]
        split
        · next h' => simp only [h']; rfl
        · next d more h' =>
          simp only [h']
          split
          · exact outcome_weaken _ _ _
          · split <;> rfl

/-- What follows the key of an entry: a colon and the item. -/
def afterKey (read : Reader Value) (key : Value) (cs : List Char) :
    Option ((String × Value) × List Char) :=
  match skipBlanks cs with
  | [] => none
  | c :: rest =>
    if c = ':' then (outcome (read (skipBlanks rest))).map fun r => ((key.text, r.1), r.2)
    else none

theorem outcome_entry (read : Reader Value) (cs : List Char) :
    outcome (entry read cs) = (outcome (read cs)).bind fun r => afterKey read r.1 r.2 := by
  unfold entry
  split
  · next hread => rw [outcome_of_eq_none hread]; rfl
  · next key rest' hkey hread =>
    rw [outcome_of_eq_some hread, Option.bind_some, afterKey]
    split
    · next h => simp only [h]; rfl
    · next c rest h =>
      simp only [h]
      split
      · exact outcome_weaken _ _ _
      · rfl

/-! ## Values -/

theorem outcome_value_cons (depth : Nat) (c : Char) (cs : List Char) :
    outcome (value (depth + 1) (c :: cs)) =
      if c = '\'' ∨ c = '"' then outcome (string c cs)
      else if c = '[' then
        (outcome (items (value depth) ']' cs)).map fun r => (.list r.1.1, r.2)
      else if c = '(' then
        (outcome (items (value depth) ')' cs)).map fun r => (ofParenthesized r.1, r.2)
      else if c = '{' then
        (outcome (items (entry (value depth)) '}' cs)).map fun r => (.ofEntries r.1.1, r.2)
      else if c.isDigit ∨ c = '+' ∨ c = '-' ∨ c = '.' then outcome (number (c :: cs))
      else if Text.isAlphabetic c then outcome (keyword c cs)
      else none := by
  rw [value]
  split
  · rw [outcome_weaken]
    exact Option.map_id_fun' ▸ rfl
  · split
    · exact outcome_weaken _ _ _
    · split
      · exact outcome_weaken _ _ _
      · split
        · exact outcome_weaken _ _ _
        · split
          · rfl
          · split <;> rfl

theorem outcome_value_string {mark : Char} (hmark : mark = '\'' ∨ mark = '"') (depth : Nat)
    (cs : List Char) : outcome (value (depth + 1) (mark :: cs)) = outcome (string mark cs) := by
  rw [outcome_value_cons]
  exact if_pos hmark

theorem outcome_value_list (depth : Nat) (cs : List Char) :
    outcome (value (depth + 1) ('[' :: cs))
      = (outcome (items (value depth) ']' cs)).map fun r => (.list r.1.1, r.2) := by
  rw [outcome_value_cons]
  rfl

theorem outcome_value_tuple (depth : Nat) (cs : List Char) :
    outcome (value (depth + 1) ('(' :: cs))
      = (outcome (items (value depth) ')' cs)).map fun r => (ofParenthesized r.1, r.2) := by
  rw [outcome_value_cons]
  rfl

theorem outcome_value_map (depth : Nat) (cs : List Char) :
    outcome (value (depth + 1) ('{' :: cs))
      = (outcome (items (entry (value depth)) '}' cs)).map fun r => (.ofEntries r.1.1, r.2) := by
  rw [outcome_value_cons]
  rfl

theorem outcome_value_number {c : Char} (hc : c.isDigit = true ∨ c = '+' ∨ c = '-' ∨ c = '.')
    (depth : Nat) (cs : List Char) :
    outcome (value (depth + 1) (c :: cs)) = outcome (number (c :: cs)) := by
  have hother : ¬(c = '\'' ∨ c = '"') ∧ c ≠ '[' ∧ c ≠ '(' ∧ c ≠ '{' := by
    refine ⟨?_, ?_, ?_, ?_⟩
    · rintro (rfl | rfl) <;> revert hc <;> decide
    all_goals
      rintro rfl
      revert hc
      decide
  obtain ⟨hquote, hlist, htuple, hmap⟩ := hother
  rw [outcome_value_cons, if_neg hquote, if_neg hlist, if_neg htuple, if_neg hmap, if_pos hc]

theorem outcome_value_keyword {c : Char} (hc : c ∈ ['T', 't', 'F', 'f', 'N', 'n']) (depth : Nat)
    (cs : List Char) : outcome (value (depth + 1) (c :: cs)) = outcome (keyword c cs) := by
  rw [outcome_value_cons]
  simp only [List.mem_cons, List.not_mem_nil, or_false] at hc
  rcases hc with rfl | rfl | rfl | rfl | rfl | rfl <;> rfl

theorem read?_eq (source : String) :
    read? source =
      (outcome (value ((skipBlanks source.toList).length + 1) (skipBlanks source.toList))).bind
        fun r => if skipBlanks r.2 = [] then some r.1 else none := by
  unfold read? outcome
  rw [Option.bind_map]
  rfl

end Stencil.Literal
