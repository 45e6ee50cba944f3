-- SUMMARY: What can go wrong with a template, and the messages for it.
import Stencil.Condition
import Stencil.Location
import Stencil.Remark

/-!
# Errors

An error is kept as its cause; `message` and `display` word it. Only malformed
templates have a place in the source: the location and the length in bytes of
the token at fault.
-/

namespace Stencil

/-- The tags that close a block. -/
inductive Closer where
  | endfor
  | endif
deriving DecidableEq, Repr

/-- The keyword of a closing tag. -/
def Closer.keyword : Closer → String
  | .endfor => "endfor"
  | .endif => "endif"

/-! ## Malformed templates -/

/-- Why a tag cannot stand where it does. -/
inductive SyntaxFault where
  | emptyPlaceholder
  | invalidPath (content : String)
  | emptyBlock
  | misplacedKeyword (keyword : String)
  | invalidKeyword (keyword : String)
  | malformedFor (raw : String)
  | malformedIf (raw : String)
  | invalidOperator (symbol : String)
  | elseContent (raw : String)
  | duplicateElse
  | elseOutsideIf
  | closerContent (raw : String)
  | unknownCloser (keyword : String)
  | unopened (closer : Closer)
  | mismatched (expected found : Closer)
  | unclosed (raw : String) (expected : Closer)
deriving DecidableEq, Repr

/-- A block tag with a given content. -/
def blockTag (content : String) : String := "\x7b% " ++ content ++ " %\x7d"

/-- A text between double quotes. -/
def doubleQuoted (s : String) : String := "\"" ++ s ++ "\""

/-- The message for a fault. -/
def SyntaxFault.message : SyntaxFault → String
  | .emptyPlaceholder => "empty variable tag"
  | .invalidPath content => "invalid variable path " ++ doubleQuoted content
  | .emptyBlock => "empty block tag"
  | .misplacedKeyword keyword => "misplaced keyword " ++ doubleQuoted keyword
  | .invalidKeyword keyword => "invalid keyword " ++ doubleQuoted keyword
  | .malformedFor raw =>
    "malformed for tag " ++ doubleQuoted raw ++ "; expected "
      ++ blockTag "for <name> in <iterable>"
  | .malformedIf raw =>
    "malformed if tag " ++ doubleQuoted raw ++ "; expected " ++ blockTag "if <expr>" ++ ", "
      ++ blockTag "if <left> <op> <right>" ++ " or " ++ blockTag "if <left> is [not] <right>"
  | .invalidOperator symbol => "invalid comparison operator " ++ doubleQuoted symbol
  | .elseContent raw => "unexpected content in else tag " ++ doubleQuoted raw
  | .duplicateElse => "duplicate " ++ blockTag "else" ++ " in if block"
  | .elseOutsideIf => blockTag "else" ++ " outside of an if block"
  | .closerContent raw => "unexpected content in closing tag " ++ doubleQuoted raw
  | .unknownCloser keyword => "unknown closing tag " ++ doubleQuoted keyword
  | .unopened closer => "unbalanced blocks: " ++ blockTag closer.keyword ++ " has no opening tag"
  | .mismatched expected found =>
    "unbalanced blocks: expected " ++ blockTag expected.keyword ++ ", found "
      ++ blockTag found.keyword
  | .unclosed raw expected =>
    "unbalanced blocks: " ++ doubleQuoted raw ++ " is never closed; expected "
      ++ blockTag expected.keyword

/-! ## Values of the wrong kind -/

/-- Why a value does not fit what is done with it. -/
inductive TypeFault where
  | unorderable (op : CompareOp) (kinds : Value.Unorderable)
  | notIterable (kind : Kind)
  | notAnObject (kind : Kind)
deriving DecidableEq, Repr

/-- The message for a fault. -/
def TypeFault.message : TypeFault → String
  | .unorderable op kinds => "'" ++ op.symbol ++ "' " ++ kinds.message
  | .notIterable kind => "cannot iterate over " ++ kind.name
  | .notAnObject kind => "context must be a JSON object, got " ++ kind.name

/-! ## Data that cannot be converted -/

/-- Why data cannot be turned into a context. -/
inductive SerializationFault where
  | keyNotString
  | floatKeyNotFinite
  | custom (remark : Remark)
deriving DecidableEq, Repr

/-- The message for a fault. -/
def SerializationFault.message : SerializationFault → String
  | .keyNotString => "key must be a string"
  | .floatKeyNotFinite => "float key must be finite"
  | .custom remark => remark.message

/-! ## All errors -/

/-- What can go wrong with a template. -/
inductive TemplateError where
  /-- A token does not fit the syntax of templates. -/
  | malformed (fault : SyntaxFault) (location : Location) (length : Nat)
  /-- A path leads to no value. -/
  | unresolved (path : Path)
  /-- A value has the wrong kind. -/
  | mistyped (fault : TypeFault)
  /-- Data cannot be turned into a context. -/
  | unserializable (fault : SerializationFault)
deriving DecidableEq, Repr

/-- Applies a comparison operator, with its failure as an error. -/
def CompareOp.test (op : CompareOp) (left right : Value) : Except TemplateError Bool :=
  (op.apply left right).mapError fun kinds => .mistyped (.unorderable op kinds)

/-- The line that describes a malformed template. -/
def displayMalformed (location : Location) (message : String) : String :=
  "Syntax error at line " ++ toString location.line ++ ", column "
    ++ toString location.displayColumn ++ ": " ++ message

/-- The line that describes an error. -/
def TemplateError.display : TemplateError → String
  | .malformed fault location _ => displayMalformed location fault.message
  | .unresolved path => "Cannot resolve " ++ doubleQuoted path.text
  | .mistyped fault => "Type error: " ++ fault.message
  | .unserializable fault => "Serialization error: " ++ fault.message

end Stencil
