-- SUMMARY: Reports that show the source line of a malformed tag.
import Stencil.Template

/-!
# Reports

A report on a malformed template quotes the line with the token at fault,
underlines the token, and hangs the message on the middle of the line under it.
Spans are counted in characters from the start of the source. Past the last
character there is nothing to underline, and an empty row stands for the line.
Other errors have no place in the source and are reported by their display line
alone.
-/

namespace Stencil

/-! ## Lines -/

/-- How many characters start before a byte offset. -/
def charsBefore (offset : Nat) : List Char → Nat
  | [] => 0
  | c :: cs => if offset = 0 then 0 else charsBefore (offset - c.utf8Size) cs + 1

/-- A line of a source, as seen from a position on it. -/
structure QuotedLine where
  /-- The number of the line, counted from one. -/
  number : Nat
  /-- How many characters of the line stand before the position. -/
  column : Nat
  /-- The characters of the line. -/
  chars : List Char
deriving DecidableEq, Repr

/-- The line that holds a position, among lines numbered from `number`. -/
def QuotedLine.find (number position : Nat) : List (List Char) → QuotedLine
  | [] => ⟨number, position, []⟩
  | [line] => ⟨number, position, line⟩
  | line :: next :: rest =>
    if position ≤ line.length ∨ (next = [] ∧ rest = []) then ⟨number, position, line⟩
    else find (number + 1) (position - (line.length + 1)) (next :: rest)

/-! ## Columns -/

/-- How many columns a character takes at a given place of its line. -/
def columnsAt (place : Nat) (c : Char) : Nat := if c = '\t' then 4 - place % 4 else 1

/-- How many columns a place of a line takes, one past its end. -/
def columnsOf (chars : List Char) (place : Nat) : Nat :=
  match chars[place]? with
  | some c => columnsAt place c
  | none => 1

/-- A line with its blanks shown as spaces, from a given place on. -/
def showBlanks (place : Nat) : List Char → List Char
  | [] => []
  | c :: cs =>
    (if Text.isBlank c then List.replicate (columnsAt place c) ' ' else [c])
      ++ showBlanks (place + 1) cs

/-! ## The underline -/

/-- The part of a line to underline, in places of the line. -/
structure Underline where
  first : Nat
  /-- The place after the last one. -/
  stop : Nat
  /-- Where the message hangs. -/
  middle : Nat
deriving DecidableEq, Repr

namespace Underline

/-- What the row right below the line shows at a place. -/
def barAt (u : Underline) (place columns : Nat) : List Char :=
  if place = u.middle then '┬' :: List.replicate (columns - 1) '─'
  else if u.first ≤ place ∧ place < u.stop then List.replicate columns '─'
  else List.replicate columns ' '

/-- What the row of the message shows at a place. -/
def hookAt (u : Underline) (place columns : Nat) : List Char :=
  if place < u.middle then List.replicate columns ' '
  else if place = u.middle then '╰' :: List.replicate (columns - 1) '─'
  else List.replicate columns '─'

/-- A row up to two places past the underlined part. -/
def row (u : Underline) (line : List Char) (show? : Nat → Nat → List Char) : List Char :=
  (List.range (u.stop + 2)).flatMap fun place => show? place (columnsOf line place)

end Underline

/-! ## Diagnostics -/

/-- A message about a token of a source. -/
structure Diagnostic where
  message : String
  location : Location
  /-- The length of the token in bytes. -/
  length : Nat
deriving DecidableEq, Repr

namespace Diagnostic

/-- The line that describes a diagnostic. -/
def display (d : Diagnostic) : String := displayMalformed d.location d.message

/-- Where the token starts, in characters of the source. -/
def firstChar (d : Diagnostic) (source : List Char) : Nat := charsBefore d.location.offset source

/-- Where the token ends, in characters of the source. It has at least one. -/
def endChar (d : Diagnostic) (source : List Char) : Nat :=
  max (charsBefore (d.location.offset + d.length) source) (d.firstChar source + 1)

/-- The line of the source that holds the start of the token. -/
def line (d : Diagnostic) (source : List Char) : QuotedLine :=
  QuotedLine.find 1 (d.firstChar source) (Text.fields (· == '\n') source)

/-- The part of that line to underline. -/
def underline (d : Diagnostic) (source : List Char) : Underline :=
  let first := d.firstChar source
  let stop := d.endChar source
  let lineStart := first - (d.line source).column
  ⟨first - lineStart, stop - lineStart, (first + stop) / 2 - lineStart⟩

/-- A row of a report after its margin. -/
def quotedRow (margin : String) (shown : List Char) : String := margin ++ "│ " ++ String.ofList shown

/-- The rows with the line of the token, the underline and the message. -/
def quotedLine (d : Diagnostic) (source : List Char) (margin : String) : List String :=
  let line := d.line source
  let underline := d.underline source
  let shown := Text.dropTrailingBlanks line.chars
  [ quotedRow (" " ++ toString line.number ++ " ") (showBlanks 0 shown),
    quotedRow margin (underline.row shown underline.barAt),
    quotedRow margin (underline.row shown underline.hookAt) ++ " " ++ d.message ]

/-- The lines of a report below its heading. -/
def quotation (d : Diagnostic) (source : List Char) (filename : String) : List String :=
  let line := d.line source
  let number := toString line.number
  let margin := String.ofList (List.replicate (number.length + 2) ' ')
  let rows :=
    if d.firstChar source < source.length then d.quotedLine source margin
    else [quotedRow margin []]
  [ margin ++ "╭─[" ++ filename ++ ":" ++ number ++ ":" ++ toString (line.column + 1) ++ "]",
    margin ++ "│" ]
  ++ rows
  ++ [String.ofList (List.replicate (number.length + 2) '─') ++ "╯"]

/-- The report on a diagnostic. A source without characters has no line to
quote. -/
def report (d : Diagnostic) (source filename : String) : String :=
  let quotation := if source.isEmpty then [] else d.quotation source.toList filename
  String.join (("Error: Invalid template syntax" :: quotation).map (· ++ "\n"))

end Diagnostic

/-- The report on an error in a source. -/
def TemplateError.report (e : TemplateError) (source filename : String) : String :=
  match e with
  | .malformed fault location length =>
    Diagnostic.report ⟨fault.message, location, length⟩ source filename
  | e => e.display

/-- The report on an error in a template. -/
def Template.report (t : Template) (e : TemplateError) : String := e.report t.source t.filename

end Stencil
