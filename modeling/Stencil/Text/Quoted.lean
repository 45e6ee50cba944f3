-- SUMMARY: Quoted text with backslash escapes.

/-!
# Quoted Text

Text is written between single quotes, with a backslash before each backslash
and each single quote. It is read between either kind of quote; a backslash
also stands for line feed, tab, carriage return and null before `n`, `t`, `r`
and `0`, and for itself before any other character. A line feed cannot stand in
quoted text.
-/

namespace Stencil.Text

/-- The written form of the characters between single quotes. -/
def escape : List Char → List Char
  | [] => []
  | c :: cs => if c = '\\' ∨ c = '\'' then '\\' :: c :: escape cs else c :: escape cs

/-- A text between single quotes. -/
def quote (cs : List Char) : List Char := '\'' :: (escape cs ++ ['\''])

/-- What a backslash and the character after it stand for. -/
def unescape (c : Char) : List Char :=
  if c = 'n' then ['\n']
  else if c = 't' then ['\t']
  else if c = 'r' then ['\r']
  else if c = '0' then ['\x00']
  else if c = '\\' ∨ c = '\'' ∨ c = '"' then [c]
  else ['\\', c]

/-- Reads quoted text after its opening quote, up to the closing one. -/
def unquote (mark : Char) : List Char → Option (List Char × List Char)
  | [] => none
  | c :: cs =>
    if c = mark then some ([], cs)
    else if c = '\n' then none
    else if c = '\\' then
      match cs with
      | [] => none
      | d :: rest => (unquote mark rest).map fun read => (unescape d ++ read.1, read.2)
    else (unquote mark cs).map fun read => (c :: read.1, read.2)

theorem length_lt_of_unquote {mark : Char} {cs text rest : List Char}
    (h : unquote mark cs = some (text, rest)) : rest.length < cs.length := by
  fun_induction unquote mark cs generalizing text rest with
  | case1 => cases h
  | case2 => cases h; simp
  | case3 => cases h
  | case4 => cases h
  | case5 d rest' _ _ ih =>
    obtain ⟨⟨text', rest''⟩, hread, heq⟩ := Option.map_eq_some_iff.1 h
    cases heq
    have := ih hread
    simp only [List.length_cons]
    omega
  | case6 c cs _ _ _ ih =>
    obtain ⟨⟨text', rest''⟩, hread, heq⟩ := Option.map_eq_some_iff.1 h
    cases heq
    have := ih hread
    simp only [List.length_cons]
    omega

end Stencil.Text
