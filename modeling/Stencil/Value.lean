-- SUMMARY: The values that templates print, test and iterate over.
import Stencil.Binary64
import Stencil.Dictionary
import Stencil.Text.Integer

/-!
# Values

A value is plain data or one of two kinds that the host shares with the
template: objects with named attributes and functions without arguments. Each
object and function has a handle; copies share the handle, and two of them are
the same exactly when their handles are. Attributes and results are data as well:
the host gives the same answer each time, and a value holds the finite part of
its answers that a run can reach. This file has the kinds of values, their truth,
and access to their parts.
-/

namespace Stencil

/-- A value of a template. -/
inductive Value where
  | null
  | bool (b : Bool)
  | int (n : Int64)
  | float (x : Binary64)
  | string (s : String)
  | list (items : List Value)
  | tuple (items : List Value)
  /-- Names with values, in ascending order of the names. -/
  | map (entries : List (String × Value))
  /-- A host object with its text form and its attributes, which do not change. -/
  | object (handle : Nat) (text : String) (attributes : List (String × Value))
  /-- A host function with the value that every call returns. -/
  | function (handle : Nat) (result : Value)

/-- The kind of a value. -/
inductive Kind where
  | null | bool | int | float | string | list | tuple | map | object | function
deriving DecidableEq, Repr

/-- The name of a kind in messages. -/
def Kind.name : Kind → String
  | .null => "null"
  | .bool => "bool"
  | .int => "int"
  | .float => "float"
  | .string => "string"
  | .list => "list"
  | .tuple => "tuple"
  | .map => "map"
  | .object => "object"
  | .function => "function"

/-- One step from a value into a part of it: a key of a map, or a place in a list
or tuple counted from the front. -/
inductive Step where
  | key (name : String)
  | position (place : Nat)
deriving DecidableEq, Repr

namespace Value

instance : Inhabited Value := ⟨.null⟩

/-- The kind of a value. -/
def kind : Value → Kind
  | .null => .null
  | .bool _ => .bool
  | .int _ => .int
  | .float _ => .float
  | .string _ => .string
  | .list _ => .list
  | .tuple _ => .tuple
  | .map _ => .map
  | .object .. => .object
  | .function .. => .function

/-- Null, false, zero and whatever is empty are false; all else is true. -/
def isTruthy : Value → Bool
  | .null => false
  | .bool b => b
  | .int n => n != 0
  | .float x => !x.isZero
  | .string s => !s.isEmpty
  | .list items => !items.isEmpty
  | .tuple items => !items.isEmpty
  | .map entries => !entries.isEmpty
  | .object .. => true
  | .function .. => true

/-! ## Building -/

/-- The map with some entries. Of several with one name the last stays. -/
def ofEntries (entries : Entries Value) : Value := .map (Entries.ofList entries)

/-- The string of one character. -/
def ofChar (c : Char) : Value := .string (String.singleton c)

/-- A whole number as an integer, or as the nearest float if it is out of range. -/
def ofInt (n : Int) : Value :=
  match Text.int64? n with
  | some i => .int i
  | none => .float (Binary64.ofInt n)

/-! ## Parts -/

/-- The attribute of an object with a given name, the first if there are
several. -/
def attribute? (v : Value) (name : String) : Option Value :=
  match v with
  | .object _ _ attributes => Entries.find? name attributes
  | _ => none

/-- The position among `size` items that an index writes. A negative index
counts from the end. -/
def position? (size : Nat) (index : String) : Option Nat :=
  (Text.readInt64? index.toList).bind fun i =>
    let place := if i.toInt < 0 then size + i.toInt else i.toInt
    if 0 ≤ place ∧ place < size then some place.toNat else none

/-- The item of a sequence with a given index, and the step that leads to it. -/
def locateItem? (items : List Value) (index : String) : Option (Step × Value) :=
  (position? items.length index).bind fun i => items[i]?.map fun item => (.position i, item)

/-- The item of a map with a given key, or of a list or tuple with a given
index, and the step that leads to it. -/
def locate? (v : Value) (key : String) : Option (Step × Value) :=
  match v with
  | .map entries => (Entries.find? key entries).map fun item => (.key key, item)
  | .list items => locateItem? items key
  | .tuple items => locateItem? items key
  | _ => none

/-- The item of a map with a given key, or of a list or tuple with a given
index. -/
def item? (v : Value) (key : String) : Option Value := (v.locate? key).map (·.2)

/-- The character of a string at a given index. -/
def character? (v : Value) (index : String) : Option Value :=
  match v with
  | .string s => ((position? s.toList.length index).bind fun i => s.toList[i]?).map ofChar
  | _ => none

/-- What a loop over a value visits: the items of a list or tuple, the
characters of a string, the keys of a map. -/
def items? : Value → Option (List Value)
  | .list items => some items
  | .tuple items => some items
  | .string s => some (s.toList.map ofChar)
  | .map entries => some (entries.map fun entry => .string entry.1)
  | _ => none

end Value

end Stencil
