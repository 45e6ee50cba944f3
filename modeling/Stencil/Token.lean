-- SUMMARY: Tokens of a template source, with their kind, trimmed content and location.
import Stencil.Location
import Stencil.Piece
import Stencil.Text.Blank

/-!
# Tokens

A token is a piece of a source together with where it starts. Tags carry their
content without delimiters and surrounding blanks; a block tag whose first word
starts with `end` closes a block. Whether a tag means anything is not decided
here.
-/

namespace Stencil

/-- The lexical category of a token. -/
inductive TokenKind where
  /-- Literal text. -/
  | text
  /-- A path to print. -/
  | placeholder
  /-- A block tag that does not close a block. -/
  | block
  /-- A comment. -/
  | comment
  /-- A block tag that closes a block. -/
  | blockEnd
deriving DecidableEq, Repr

/-- A token of a template source. -/
structure Token where
  kind : TokenKind
  /-- The token as written, delimiters included. -/
  raw : String
  /-- The trimmed content of a tag, or the text itself. -/
  content : String
  /-- Where the token starts. -/
  location : Location
deriving DecidableEq, Repr

namespace Token

/-- The words of the content. -/
def words (t : Token) : List String := Text.words t.content

/-- The first word of the content, empty if there is none. -/
def keyword (t : Token) : String := Text.firstWord t.content

/-- What the first word of a closing tag starts with. -/
def endMark : List Char := ['e', 'n', 'd']

/-- The kind of a tag with a given delimiter and trimmed content. -/
def kindOfTag : Delimiter → List Char → TokenKind
  | .placeholder, _ => .placeholder
  | .comment, _ => .comment
  | .block, content =>
    if endMark.isPrefixOf ((Text.wordsOf content).headD []) then .blockEnd else .block

/-- The token of a piece that starts at a location. -/
def ofPiece (location : Location) : Piece → Token
  | .text chars => ⟨.text, String.ofList chars, String.ofList chars, location⟩
  | .tag d inner =>
    let content := Text.trimChars inner
    ⟨kindOfTag d content, String.ofList (Piece.tag d inner).raw, String.ofList content, location⟩

/-- The tokens of consecutive pieces, the first of which starts at a location. -/
def ofPieces : Location → List Piece → List Token
  | _, [] => []
  | location, piece :: rest =>
    ofPiece location piece :: ofPieces (location.advance piece.raw) rest

end Token

/-- The tokens of a template source, in order. -/
def tokenize (source : String) : List Token := Token.ofPieces .origin (pieces source.toList)

end Stencil
