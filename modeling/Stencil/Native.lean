-- SUMMARY: Values of the types of a host program.
import Stencil.Value

/-!
# Native Values

Numbers, texts, sequences, optional data and maps of a host program have a value
each. Sequences become lists, missing data becomes null, and maps are put in the
order of their keys.
-/

namespace Stencil

/-- Types whose elements have a value. -/
class ToValue (α : Type) where
  /-- The value of an element. -/
  toValue : α → Value

export ToValue (toValue)

instance : ToValue Value := ⟨id⟩

instance : ToValue Bool := ⟨.bool⟩

instance : ToValue Int64 := ⟨.int⟩

instance : ToValue Int32 := ⟨fun n => .int n.toInt64⟩

instance : ToValue UInt32 := ⟨fun n => .ofInt n.toNat⟩

instance : ToValue UInt64 := ⟨fun n => .ofInt n.toNat⟩

instance : ToValue Binary64 := ⟨.float⟩

instance : ToValue String := ⟨.string⟩

variable {α : Type} [ToValue α]

instance : ToValue (List α) := ⟨fun items => .list (items.map toValue)⟩

instance : ToValue (Option α) := ⟨fun content => (content.map toValue).getD .null⟩

/-- Entries in any order; of several with one name the last counts. -/
instance : ToValue (Entries α) :=
  ⟨fun entries => .ofEntries (entries.map fun entry => (entry.1, toValue entry.2))⟩

end Stencil
