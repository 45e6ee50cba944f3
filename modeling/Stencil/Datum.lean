-- SUMMARY: Structured data of a host program and the JSON data it serializes to.
import Stencil.Binary64.Shortest
import Stencil.Json

/-!
# Serializable Data

Host data serializes to JSON data. Keys of maps have to be strings or plain
data with a text of its own; optional data is no key, whether it is there or
not. Serialization goes from front to back and stops at the first fault.
-/

namespace Stencil

/-- Structured data of a host program. -/
inductive Datum where
  | unit
  | absent
  | present (content : Datum)
  | bool (b : Bool)
  | whole (n : Int)
  | float (x : Binary64)
  | char (c : Char)
  | string (s : String)
  | sequence (items : List Datum)
  | map (entries : List (Datum × Datum))
  /-- Data that cannot be serialized, for a reason of its own. -/
  | failure (message : String)

namespace Datum

/-- The text that data has as the key of a map. -/
def toKey : Datum → Except SerializationFault String
  | .string s => .ok s
  | .char c => .ok (String.singleton c)
  | .bool b => .ok (if b then "true" else "false")
  | .whole n => .ok (String.ofList (Text.integerText n))
  | .float x =>
    match x.compactText? with
    | some text => .ok text
    | none => .error .floatKeyNotFinite
  | .failure message => .error (.custom (.ofString message))
  | .unit => .error .keyNotString
  | .absent => .error .keyNotString
  | .present _ => .error .keyNotString
  | .sequence _ => .error .keyNotString
  | .map _ => .error .keyNotString

/-- A float as JSON data, which has only finite numbers. -/
def jsonOfFloat : Binary64 → Json
  | .finite negative rank => .float (.finite negative rank)
  | _ => .null

mutual

/-- The JSON data that data serializes to. -/
def toJson : Datum → Except SerializationFault Json
  | .unit => .ok .null
  | .absent => .ok .null
  | .present content => toJson content
  | .bool b => .ok (.bool b)
  | .whole n => .ok (.whole n)
  | .float x => .ok (jsonOfFloat x)
  | .char c => .ok (.string (String.singleton c))
  | .string s => .ok (.string s)
  | .sequence items => (itemsToJson items).map .array
  | .map entries => (entriesToJson entries).map .object
  | .failure message => .error (.custom (.ofString message))

/-- The JSON data of some items, in order. -/
def itemsToJson : List Datum → Except SerializationFault (List Json)
  | [] => .ok []
  | item :: items =>
    (toJson item).bind fun first => (itemsToJson items).map fun rest => first :: rest

/-- The members of some entries, in order, each key before its item. -/
def entriesToJson : List (Datum × Datum) → Except SerializationFault (List (String × Json))
  | [] => .ok []
  | (key, item) :: entries =>
    (toKey key).bind fun name => (toJson item).bind fun first =>
      (entriesToJson entries).map fun rest => (name, first) :: rest

end

end Datum

/-- The context that data describes once it is serialized. -/
def Context.ofDatum (d : Datum) : Except TemplateError Context :=
  (d.toJson.mapError .unserializable).bind Context.ofJson

end Stencil
