-- SUMMARY: The text form of values.
import Stencil.Binary64.Shortest
import Stencil.Text.Quoted
import Stencil.Value

/-!
# Text of Values

A value prints as plain text. Inside a list, tuple or map, strings are quoted;
a tuple of one item ends in a comma.
-/

namespace Stencil.Value

mutual

/-- The text of a value inside another one. -/
def nestedText : Value → List Char
  | .null => []
  | .bool b => if b then ['t', 'r', 'u', 'e'] else ['f', 'a', 'l', 's', 'e']
  | .int n => Text.integerText n.toInt
  | .float x => x.text.toList
  | .string s => Text.quote s.toList
  | .list items => '[' :: (itemsText items ++ [']'])
  | .tuple items => '(' :: (itemsText items ++ (if items.length = 1 then [',', ')'] else [')']))
  | .map entries => '{' :: (entriesText entries ++ ['}'])
  | .object _ text _ => text.toList
  | .function .. => ['<', 'f', 'u', 'n', 'c', 't', 'i', 'o', 'n', '>']

/-- The texts of the items with commas between them. -/
def itemsText : List Value → List Char
  | [] => []
  | [v] => nestedText v
  | v :: next :: rest => nestedText v ++ ',' :: ' ' :: itemsText (next :: rest)

/-- The keys and the texts of the items with commas between them. -/
def entriesText : List (String × Value) → List Char
  | [] => []
  | [(key, v)] => Text.quote key.toList ++ ':' :: ' ' :: nestedText v
  | (key, v) :: next :: rest =>
    Text.quote key.toList
      ++ ':' :: ' ' :: (nestedText v ++ ',' :: ' ' :: entriesText (next :: rest))

end

/-- The text of a value. A string stands for itself. -/
def text : Value → String
  | .string s => s
  | v => String.ofList (nestedText v)

end Stencil.Value
