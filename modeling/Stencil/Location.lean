-- SUMMARY: Positions in a source text.

/-!
# Locations

A location counts the bytes before a character, the line feeds before it, and
the characters after the last of those line feeds. All counts start at zero.
Walking over a text moves the location to the end of that text.
-/

namespace Stencil

/-- A position in a source text. -/
structure Location where
  /-- UTF-8 bytes before the position. -/
  offset : Nat
  /-- Line feeds before the position. -/
  row : Nat
  /-- Characters between the last line feed and the position. -/
  column : Nat
deriving DecidableEq, Repr

namespace Location

/-- The start of a source. -/
def origin : Location := ⟨0, 0, 0⟩

/-- The position right after a character. Only a line feed starts a new row. -/
def step (l : Location) (c : Char) : Location :=
  if c = '\n' then ⟨l.offset + c.utf8Size, l.row + 1, 0⟩
  else ⟨l.offset + c.utf8Size, l.row, l.column + 1⟩

/-- The position right after a text. -/
def advance (l : Location) (cs : List Char) : Location := cs.foldl step l

@[simp] theorem advance_nil (l : Location) : l.advance [] = l := rfl

@[simp] theorem advance_append (l : Location) (cs ds : List Char) :
    l.advance (cs ++ ds) = (l.advance cs).advance ds := by
  simp [advance]

/-- The line number for messages, counted from one. -/
def line (l : Location) : Nat := l.row + 1

/-- The column number for messages, counted from one. -/
def displayColumn (l : Location) : Nat := l.column + 1

end Location

end Stencil
