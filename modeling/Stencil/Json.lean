-- SUMMARY: JSON data and the contexts it describes.
import Stencil.Context
import Stencil.Error

/-!
# JSON Data

JSON numbers are whole numbers or floats. Whole numbers that fit 64 bits become
integers and all others the nearest floats. The members of a JSON object become
the names of a context.
-/

namespace Stencil

/-- JSON data. -/
inductive Json where
  | null
  | bool (b : Bool)
  | whole (n : Int)
  | float (x : Binary64)
  | string (s : String)
  | array (items : List Json)
  /-- Of several members with one name the last counts. -/
  | object (members : List (String × Json))

namespace Json

mutual

/-- The value that JSON data describes. -/
def toValue : Json → Value
  | .null => .null
  | .bool b => .bool b
  | .whole n => .ofInt n
  | .float x => .float x
  | .string s => .string s
  | .array items => .list (itemsToValues items)
  | .object members => .ofEntries (membersToEntries members)

/-- The values that some JSON data describe. -/
def itemsToValues : List Json → List Value
  | [] => []
  | item :: items => toValue item :: itemsToValues items

/-- The entries that some members describe. -/
def membersToEntries : List (String × Json) → List (String × Value)
  | [] => []
  | (name, item) :: members => (name, toValue item) :: membersToEntries members

end

end Json

/-- The context that a JSON object describes. -/
def Context.ofJson : Json → Except TemplateError Context
  | .object members => .ok (Dictionary.ofList (Json.membersToEntries members))
  | json => .error (.mistyped (.notAnObject json.toValue.kind))

end Stencil
