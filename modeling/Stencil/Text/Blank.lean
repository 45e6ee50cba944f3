-- SUMMARY: White space, trimming and splitting into words.
import Stencil.Text.Fields
import Stencil.Text.Ranges

/-!
# Blanks and Words

A blank is a character with the Unicode property `White_Space`. Trimming drops
blanks at the ends of a text; its words are the maximal runs of other
characters.
-/

namespace Stencil.Text

/-- The ranges of `White_Space`. -/
def blankRanges : Ranges :=
  [(0x9, 0xD), (0x20, 0x20), (0x85, 0x85), (0xA0, 0xA0), (0x1680, 0x1680), (0x2000, 0x200A),
  (0x2028, 0x2029), (0x202F, 0x202F), (0x205F, 0x205F), (0x3000, 0x3000)]

/-- Whether a character is white space. -/
def isBlank (c : Char) : Bool := blankRanges.has c.toNat

/-! ## Trimming -/

/-- The characters from the first non-blank one on. -/
def skipBlanks (cs : List Char) : List Char := cs.dropWhile isBlank

/-- The characters up to the last non-blank one. -/
def dropTrailingBlanks : List Char → List Char
  | [] => []
  | c :: cs =>
    match dropTrailingBlanks cs with
    | [] => if isBlank c then [] else [c]
    | kept => c :: kept

/-- The characters between the first and the last non-blank one. -/
def trimChars (cs : List Char) : List Char := dropTrailingBlanks (skipBlanks cs)

/-- A text without the blanks at its ends. -/
def trim (s : String) : String := String.ofList (trimChars s.toList)

/-! ## Words -/

/-- The non-empty fields between blanks. -/
def wordsOf (cs : List Char) : List (List Char) := (fields isBlank cs).filter (!·.isEmpty)

/-- The words of a text, in order. -/
def words (s : String) : List String := (wordsOf s.toList).map String.ofList

/-- The first word of a text, empty if it has none. -/
def firstWord (s : String) : String := (words s).headD ""

/-- Whether a text holds white space anywhere. -/
def hasBlank (s : String) : Bool := s.toList.any isBlank

/-- Takes up to `count` words off the front; what is left starts at a word or
is empty, and is otherwise untouched. -/
def splitWords : Nat → List Char → List (List Char) × List Char
  | 0, cs => ([], skipBlanks cs)
  | count + 1, cs =>
    match skipBlanks cs with
    | [] => ([], [])
    | c :: rest =>
      let word := (c :: rest).takeWhile (!isBlank ·)
      let split := splitWords count ((c :: rest).dropWhile (!isBlank ·))
      (word :: split.1, split.2)

end Stencil.Text
