-- SUMMARY: Dotted paths to values.
import Stencil.Text.Fields

/-!
# Paths

A path names a value by a root name and the steps to take from it. Its text
joins all its segments with dots, and every text is the text of one path.
-/

namespace Stencil

/-- A root name and the segments after it. -/
structure Path where
  root : String
  rest : List String
deriving DecidableEq, Repr

namespace Path

/-- All segments, the root first. -/
def segments (p : Path) : List String := p.root :: p.rest

/-- The segments joined with dots. -/
def text (p : Path) : String :=
  String.ofList (Text.joinFields '.' (p.segments.map String.toList))

/-- The path with some segments; without any, the path of the empty text. -/
def ofSegments : List String → Path
  | [] => ⟨"", []⟩
  | root :: rest => ⟨root, rest⟩

/-- The path that a text writes. -/
def ofString (s : String) : Path :=
  ofSegments ((Text.fields (· == '.') s.toList).map String.ofList)

/-! ## Reading and writing -/

theorem segments_ofSegments {segments : List String} (h : segments ≠ []) :
    (ofSegments segments).segments = segments := by
  cases segments with
  | nil => exact absurd rfl h
  | cons root rest => rfl

theorem segments_ofString (s : String) :
    (ofString s).segments = (Text.fields (· == '.') s.toList).map String.ofList :=
  segments_ofSegments (by simp [Text.fields_ne_nil])

/-- Every text is the text of the path it writes. -/
@[simp] theorem text_ofString (s : String) : (ofString s).text = s := by
  simp [text, segments_ofString, Text.joinFields_fields, Function.comp_def]

/-- A path without dots in its segments is the one its text writes. -/
theorem ofString_text {p : Path} (h : ∀ segment ∈ p.segments, '.' ∉ segment.toList) :
    ofString p.text = p := by
  have hfields : Text.fields (· == '.') (Text.joinFields '.' (p.segments.map String.toList))
      = p.segments.map String.toList :=
    Text.fields_joinFields (by simp [segments]) (by simpa using h)
  simp only [ofString, text, String.toList_ofList, hfields]
  simp [Function.comp_def, segments, ofSegments]

end Path

end Stencil
