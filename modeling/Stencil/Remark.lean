-- SUMMARY: Remarks on data, with the position they point at.
import Stencil.Text.Fields
import Stencil.Text.Integer

/-!
# Remarks

A remark is what host data says about itself when it cannot be converted. A
remark that ends in a line and a column points at that position, and is written
with plain numbers however many zeros they had. Lines count from one, so a
position on line zero is no position and is not written.
-/

namespace Stencil

/-- A position in data. -/
structure Remark.Position where
  line : Nat
  column : Nat
deriving DecidableEq, Repr

/-- A text about data, with the position it points at. -/
structure Remark where
  text : String
  position : Option Remark.Position
deriving DecidableEq, Repr

namespace Remark

/-- What stands between the text and the line. -/
def lineMark : String := " at line "

/-- What stands between the line and the column. -/
def columnMark : String := " column "

/-! ## Reading -/

/-- The position that a line, the column mark and a column write. Both numbers
fit 64 bits. -/
def readPosition? (cs : List Char) : Option Position :=
  (columnMark.toList.isPrefixOf? (cs.dropWhile Char.isDigit)).bind fun column =>
    (Text.readWord64? (cs.takeWhile Char.isDigit)).bind fun l =>
      (Text.readWord64? column).map fun c => ⟨l, c⟩

/-- The text before the last line mark, and the position after it. -/
def readEnding? (cs : List Char) : Option (List Char × Position) :=
  (Text.splitLast lineMark.toList cs).bind fun split =>
    (readPosition? split.2).map fun position => (split.1, position)

/-- The remark that a text makes. -/
def ofString (s : String) : Remark :=
  match readEnding? s.toList with
  | some (text, position) =>
    ⟨String.ofList text, if position.line = 0 then none else some position⟩
  | none => ⟨s, none⟩

/-! ## Writing -/

/-- The remark as a message. -/
def message (r : Remark) : String :=
  match r.position with
  | none => r.text
  | some p => r.text ++ lineMark ++ toString p.line ++ columnMark ++ toString p.column

end Remark

end Stencil
