-- SUMMARY: Characters of words and names.
import Stencil.Text.Alphabetic
import Stencil.Text.Numeric

/-!
# Identifiers

An identifier starts with an alphabetic character or an underscore and goes on
with alphabetic or numeric characters and underscores.
-/

namespace Stencil.Text

/-- Whether a character is alphabetic or numeric. -/
def isAlphanumeric (c : Char) : Bool := isAlphabetic c || isNumeric c

/-- Whether a character may continue an identifier. -/
def isWordChar (c : Char) : Bool := isAlphanumeric c || c == '_'

/-- Whether a character may start an identifier. -/
def isWordStart (c : Char) : Bool := isAlphabetic c || c == '_'

/-- Whether a text is an identifier. -/
def isIdentifier (s : String) : Bool :=
  match s.toList with
  | [] => false
  | c :: cs => isWordStart c && cs.all isWordChar

end Stencil.Text
