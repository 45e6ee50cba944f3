-- SUMMARY: Reading literals with a cursor that moves through a source in bytes.
import Stencil.Literal

/-!
# Scans

A scan reads a source at a cursor, a place counted in bytes, and moves the cursor
on. It fails if it does not find what it reads. It overruns if it looks or moves
to where no character starts and the source does not end, if a loop takes more
passes than allowed, or if literals nest deeper than allowed. Nothing recovers
from an overrun.
-/

namespace Stencil.Literal

/-- What a scan must not do. -/
inductive Overrun where
  /-- To look or move to a place inside a character or after the source. -/
  | place
  /-- To take more passes through a loop than allowed. -/
  | passes
  /-- To nest literals deeper than allowed. -/
  | depth
deriving DecidableEq, Repr

/-- Reads something at a cursor. -/
abbrev Scan := ReaderT String (StateT String.Pos.Raw (OptionT (Except Overrun)))

/-- The characters of a source from a place on, none if no character starts there. -/
def charsFrom (s : String) (p : String.Pos.Raw) : List Char :=
  if h : p.IsValid s then (s.sliceFrom (s.pos p h)).copy.toList else []

/-- What one pass through a loop leads to. -/
inductive Pass (σ β : Type) where
  | again (state : σ)
  | done (result : β)

namespace Scan

variable {α β σ : Type}

/-- What a scan of a source reads from a place on, and the place where it ends. -/
def runAt (scan : Scan α) (s : String) (p : String.Pos.Raw) :
    Except Overrun (Option (α × String.Pos.Raw)) :=
  ((scan.run s).run p).run

/-! ## The cursor -/

/-- The characters from the cursor on. -/
def ahead : Scan (List Char) := do
  let source ← read
  let place ← get
  if place.IsValid source then return charsFrom source place else throwThe Overrun .place

/-- Moves the cursor by some bytes. -/
def advance (bytes : Nat) : Scan Unit := do
  let source ← read
  let place : String.Pos.Raw := ⟨(← get).byteIdx + bytes⟩
  if place.IsValid source then set place else throwThe Overrun .place

/-- The character at the cursor, if the source does not end there. -/
def peek : Scan (Option Char) := do return (← ahead).head?

/-- Takes the character at the cursor. -/
def take : Scan Char := do
  match ← peek with
  | none => failure
  | some c => do
    advance c.utf8Size
    return c

/-- Takes the character at the cursor if it is a given one. -/
def accept (c : Char) : Scan Bool := do
  if (← peek) = some c then do
    advance c.utf8Size
    return true
  else return false

/-- Whether the source ends at the cursor. -/
def atEnd : Scan Bool := do return (← read).rawEndPos ≤ (← get)

/-! ## Loops -/

/-- Repeats a pass until it is done. -/
def loop (pass : σ → Scan (Pass σ β)) : Nat → σ → Scan β
  | 0, _ => throwThe Overrun .passes
  | passes + 1, state => do
    match ← pass state with
    | .again next => loop pass passes next
    | .done result => return result

def blanksPass (_ : Unit) : Scan (Pass Unit Unit) := do
  match ← peek with
  | none => return .done ()
  | some c =>
    if Text.isBlank c then do
      let _ ← take
      return .again ()
    else return .done ()

/-- Takes blanks. -/
def blanks (passes : Nat) : Scan Unit := loop blanksPass passes ()

/-! ## Numbers, strings and keywords -/

/-- Takes a digit, or an underscore between two digits. -/
def digitsPass (digits : List Char) : Scan (Pass (List Char) (List Char)) := do
  match ← peek with
  | none => return .done digits
  | some c =>
    if c.isDigit then do
      let _ ← take
      return .again (digits ++ [c])
    else if c = '_' ∧ digits ≠ [] then do
      let _ ← take
      if (← peek).any Char.isDigit then return .again digits else failure
    else return .done digits

/-- Reads a group of digits, possibly empty. -/
def digits (passes : Nat) : Scan (List Char) := loop digitsPass passes []

/-- Reads an optional sign and tells whether it is a minus. -/
def sign : Scan Bool := do
  match ← peek with
  | none => return false
  | some c =>
    if c = '-' ∨ c = '+' then do
      let _ ← take
      return c = '-'
    else return false

/-- Reads an optional point and the digits after it. -/
def fraction (passes : Nat) : Scan (Option (List Char)) := do
  if ← accept '.' then return some (← digits passes) else return none

/-- Reads an optional exponent, which has at least one digit. -/
def exponent (passes : Nat) : Scan (Option Int) := do
  match ← peek with
  | none => return none
  | some c =>
    if c = 'e' ∨ c = 'E' then do
      let _ ← take
      let negative ← sign
      let ds ← digits passes
      if ds = [] then failure
      else
        let magnitude : Int := Nat.ofDigitChars 10 ds 0
        return some (if negative then -magnitude else magnitude)
    else return none

/-- Reads a number. -/
def number (passes : Nat) : Scan Value := do
  let negative ← sign
  let whole ← digits passes
  let fraction ← fraction passes
  if whole = [] ∧ fraction.getD [] = [] then failure
  else do
    let exponent ← exponent passes
    if (← peek).any Text.isWordChar then failure
    else return ofNumeral ⟨negative, whole, fraction, exponent⟩

/-- Takes a character of quoted text, or two if the first is a backslash. -/
def stringPass (mark : Char) (text : List Char) : Scan (Pass (List Char) (List Char)) := do
  let c ← take
  if c = mark then return .done text
  else if c = '\n' then failure
  else if c = '\\' then return .again (text ++ Text.unescape (← take))
  else return .again (text ++ [c])

/-- Reads a quoted string, which starts with either kind of quote. -/
def string (passes : Nat) : Scan Value := do
  let mark ← take
  return .string (String.ofList (← loop (stringPass mark) passes []))

/-- Reads a keyword, a word up to a character that no word has. -/
def keyword : Scan Value := do
  let word := (← ahead).takeWhile Text.isWordChar
  match ofKeyword? (String.ofList word) with
  | none => failure
  | some v => do
    advance (String.ofList word).utf8ByteSize
    return v

/-! ## Sequences -/

/-- Takes the closing character, or one more item and the comma after it. The
state is what the items add up to, and whether a comma followed the last one. An
item may come only if `goesOn`. -/
def listedPass (passes : Nat) (item : Scan α) (close : Char) (goesOn : σ × Bool → Bool)
    (add : σ → α → σ) (state : σ × Bool) : Scan (Pass (σ × Bool) (σ × Bool)) := do
  blanks passes
  if ← accept close then return .done state
  else if goesOn state then do
    let a ← item
    blanks passes
    return .again (add state.1 a, ← accept ',')
  else failure

/-- A pass through the items of a list or tuple. -/
def itemsPass (passes : Nat) (item : Scan Value) (close : Char) :
    List Value × Bool → Scan (Pass (List Value × Bool) (List Value × Bool)) :=
  listedPass passes item close (fun state => state.1.isEmpty || state.2) fun vs v => vs ++ [v]

/-- Reads the items of a list or tuple, and whether the last one has a comma. -/
def items (passes : Nat) (item : Scan Value) (close : Char) : Scan (List Value × Bool) :=
  loop (itemsPass passes item close) passes ([], false)

/-- Reads a key and an item with a colon between them. -/
def entry (passes : Nat) (item : Scan Value) : Scan (String × Value) := do
  let key ← item
  blanks passes
  if ← accept ':' then do
    blanks passes
    return (key.text, ← item)
  else failure

/-- A pass through the entries of a map. -/
def entriesPass (passes : Nat) (item : Scan Value) :
    Entries Value × Bool → Scan (Pass (Entries Value × Bool) (Entries Value × Bool)) :=
  listedPass passes (entry passes item) '}' (·.2) fun entries e => Entries.insert e.1 e.2 entries

/-- Reads the entries of a map. -/
def entries (passes : Nat) (item : Scan Value) : Scan (Entries Value) := do
  return (← loop (entriesPass passes item) passes ([], true)).1

/-! ## Values -/

/-- Reads a literal that nests at most to a given depth. -/
def value (passes : Nat) : Nat → Scan Value
  | 0 => throwThe Overrun .depth
  | depth + 1 => do
    match ← peek with
    | none => failure
    | some c =>
      if c = '\'' ∨ c = '"' then string passes
      else if c = '[' then do
        let _ ← take
        return .list (← items passes (value passes depth) ']').1
      else if c = '(' then do
        let _ ← take
        return ofParenthesized (← items passes (value passes depth) ')')
      else if c = '{' then do
        let _ ← take
        return .map (← entries passes (value passes depth))
      else if c.isDigit ∨ c = '+' ∨ c = '-' ∨ c = '.' then number passes
      else if Text.isAlphabetic c then keyword
      else failure

/-- Reads a whole source as a literal with blanks around it. -/
def whole (passes depth : Nat) : Scan Value := do
  blanks passes
  let v ← value passes depth
  blanks passes
  if ← atEnd then return v else failure

end Scan

end Stencil.Literal
