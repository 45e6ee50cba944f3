-- SUMMARY: Reading literal values.
import Stencil.Text.Blank
import Stencil.Text.Numeral
import Stencil.Text.Quoted
import Stencil.Value.Text

/-!
# Literals

A literal is a number, a quoted string, a keyword, or a list, tuple or map of
literals. A reader takes something non-empty off the front of a text, so a loop
over a reader ends. Literals nest at most as deep as the text is long.
-/

namespace Stencil.Literal

/-- The texts that are shorter than a given one. -/
abbrev Shorter (cs : List Char) := { rest : List Char // rest.length < cs.length }

/-- Reads something off the front of a text and leaves a shorter rest. -/
abbrev Reader (α : Type) := (cs : List Char) → Option (α × Shorter cs)

/-- A result read from a shorter text, with something done to it. -/
def weaken {α β : Type} {cs ds : List Char} (h : ds.length ≤ cs.length) (f : α → β) :
    Option (α × Shorter ds) → Option (β × Shorter cs) :=
  Option.map fun read => (f read.1, ⟨read.2.1, Nat.lt_of_lt_of_le read.2.2 h⟩)

theorem length_skipBlanks_le (cs : List Char) : (Text.skipBlanks cs).length ≤ cs.length :=
  (List.dropWhile_sublist _).length_le

/-! ## Numbers, strings and keywords -/

/-- The value of a numeral: an integer if it is written as one and is in range,
else the nearest float. -/
def ofNumeral (n : Text.Numeral) : Value :=
  match n.integer?.bind Text.int64? with
  | some i => .int i
  | none => .float (Binary64.ofDecimal n.negative n.coefficient n.power)

/-- Reads a number. -/
def number : Reader Value := fun cs =>
  match h : Text.numeral cs with
  | some (n, rest) => some (ofNumeral n, ⟨rest, Text.length_lt_of_numeral h⟩)
  | none => none

/-- Reads the rest of a string after its opening quote. -/
def string (mark : Char) : Reader Value := fun cs =>
  match h : Text.unquote mark cs with
  | some (text, rest) =>
    some (.string (String.ofList text), ⟨rest, Text.length_lt_of_unquote h⟩)
  | none => none

/-- The value of a keyword. -/
def ofKeyword? (word : String) : Option Value :=
  if word = "True" ∨ word = "true" then some (.bool true)
  else if word = "False" ∨ word = "false" then some (.bool false)
  else if word = "None" ∨ word = "null" then some .null
  else none

/-- Reads a keyword that starts with a given character. -/
def keyword (c : Char) (cs : List Char) : Option (Value × Shorter (c :: cs)) :=
  (ofKeyword? (String.ofList (c :: cs.takeWhile Text.isWordChar))).map fun v =>
    (v, ⟨cs.dropWhile Text.isWordChar,
      Nat.lt_succ_of_le (List.dropWhile_sublist Text.isWordChar).length_le⟩)

/-! ## Sequences -/

/-- Reads items with commas between them up to a closing character. A comma may
follow the last item. The flag tells whether one did, or no item came. -/
def items {α : Type} (read : Reader α) (close : Char) (cs : List Char) :
    Option ((List α × Bool) × Shorter cs) :=
  match h : Text.skipBlanks cs with
  | [] => none
  | c :: rest =>
    have hcs : rest.length < cs.length := by
      have := length_skipBlanks_le cs
      rw [h, List.length_cons] at this
      omega
    if c = close then some (([], true), ⟨rest, hcs⟩)
    else match read (c :: rest) with
      | none => none
      | some (item, ⟨afterItem, hitem⟩) =>
        match h' : Text.skipBlanks afterItem with
        | [] => none
        | d :: more =>
          have hmore : more.length < cs.length := by
            have := length_skipBlanks_le afterItem
            rw [h', List.length_cons] at this
            rw [List.length_cons] at hitem
            omega
          if d = ',' then
            weaken (Nat.le_of_lt hmore) (fun read => (item :: read.1, read.2))
              (items read close more)
          else if d = close then some (([item], false), ⟨more, hmore⟩)
          else none
termination_by cs.length

/-- Reads a key and an item with a colon between them. Any literal may be a
key; its text names the item. -/
def entry (read : Reader Value) : Reader (String × Value) := fun cs =>
  match read cs with
  | none => none
  | some (key, ⟨afterKey, hkey⟩) =>
    match h : Text.skipBlanks afterKey with
    | [] => none
    | c :: rest =>
      have hrest : (Text.skipBlanks rest).length ≤ cs.length := by
        have := length_skipBlanks_le afterKey
        have := length_skipBlanks_le rest
        rw [h, List.length_cons] at *
        omega
      if c = ':' then
        weaken hrest (fun value => (key.text, value)) (read (Text.skipBlanks rest))
      else none

/-- The value of items in parentheses. A single item without a comma is only
grouped. -/
def ofParenthesized : List Value × Bool → Value
  | ([v], false) => v
  | (vs, _) => .tuple vs

/-! ## Values -/

/-- Reads a literal that nests at most to a given depth. -/
def value : Nat → Reader Value
  | 0, _ => none
  | _ + 1, [] => none
  | depth + 1, c :: cs =>
    have shorter : cs.length ≤ (c :: cs).length := Nat.le_succ _
    if c = '\'' ∨ c = '"' then weaken shorter id (string c cs)
    else if c = '[' then weaken shorter (fun read => .list read.1) (items (value depth) ']' cs)
    else if c = '(' then weaken shorter ofParenthesized (items (value depth) ')' cs)
    else if c = '{' then
      weaken shorter (fun read => .ofEntries read.1) (items (entry (value depth)) '}' cs)
    else if c.isDigit ∨ c = '+' ∨ c = '-' ∨ c = '.' then number (c :: cs)
    else if Text.isAlphabetic c then keyword c cs
    else none

/-- The value that a whole text writes, with blanks around it. -/
def read? (source : String) : Option Value :=
  let cs := Text.skipBlanks source.toList
  (value (cs.length + 1) cs).bind fun read =>
    if Text.skipBlanks read.2.1 = [] then some read.1 else none

end Stencil.Literal
