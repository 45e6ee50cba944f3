-- SUMMARY: Decimal numerals with digit groups, a fraction and an exponent.
import Stencil.Text.Identifier

/-!
# Numerals

A numeral is an optional sign, digits, an optional point with more digits, and
an optional exponent. There is a digit before or after the point. Single
underscores may stand between two digits. No letter, digit or underscore
follows directly.
-/

namespace Stencil.Text

/-- A numeral as written, without its underscores. -/
structure Numeral where
  negative : Bool
  /-- The digits before the point. -/
  whole : List Char
  /-- The digits after the point, if there is a point. -/
  fraction : Option (List Char)
  /-- The exponent, if there is one. -/
  exponent : Option Int
deriving DecidableEq, Repr

namespace Numeral

/-- The digits as one whole number, the point left out. -/
def coefficient (n : Numeral) : Nat :=
  Nat.ofDigitChars 10 (n.whole ++ n.fraction.getD []) 0

/-- The power of ten that scales the coefficient. -/
def power (n : Numeral) : Int := n.exponent.getD 0 - ((n.fraction.getD []).length : Int)

/-- The whole number, if there is neither a point nor an exponent. -/
def integer? (n : Numeral) : Option Int :=
  match n.fraction, n.exponent with
  | none, none => some (if n.negative then -(n.coefficient : Int) else n.coefficient)
  | _, _ => none

end Numeral

/-! ## Reading -/

/-- Reads more digits after a digit. An underscore needs a digit after it. -/
def moreDigits : List Char → Option (List Char × List Char)
  | [] => some ([], [])
  | c :: cs =>
    if c.isDigit then (moreDigits cs).map fun read => (c :: read.1, read.2)
    else if c = '_' then
      match cs with
      | [] => none
      | d :: rest =>
        if d.isDigit then (moreDigits rest).map fun read => (d :: read.1, read.2) else none
    else some ([], c :: cs)

/-- Reads a group of digits, possibly empty. -/
def digits : List Char → Option (List Char × List Char)
  | [] => some ([], [])
  | c :: cs =>
    if c.isDigit then (moreDigits cs).map fun read => (c :: read.1, read.2)
    else some ([], c :: cs)

/-- Reads an optional sign and tells whether it is a minus. -/
def sign : List Char → Bool × List Char
  | [] => (false, [])
  | c :: cs => if c = '-' then (true, cs) else if c = '+' then (false, cs) else (false, c :: cs)

/-- Reads an optional point and the digits after it. -/
def fraction : List Char → Option (Option (List Char) × List Char)
  | [] => some (none, [])
  | c :: cs =>
    if c = '.' then (digits cs).map fun read => (some read.1, read.2) else some (none, c :: cs)

/-- Reads an optional exponent, which has at least one digit. -/
def exponent : List Char → Option (Option Int × List Char)
  | [] => some (none, [])
  | c :: cs =>
    if c = 'e' ∨ c = 'E' then
      let signed := sign cs
      (digits signed.2).bind fun read =>
        if read.1 = [] then none
        else
          let magnitude : Int := Nat.ofDigitChars 10 read.1 0
          some (some (if signed.1 then -magnitude else magnitude), read.2)
    else some (none, c :: cs)

/-- Whether a text goes on with a letter, digit or underscore. -/
def continuesWord : List Char → Bool
  | [] => false
  | c :: _ => isWordChar c

/-- Reads a numeral. -/
def numeral (cs : List Char) : Option (Numeral × List Char) :=
  let signed := sign cs
  (digits signed.2).bind fun whole =>
    (fraction whole.2).bind fun fraction =>
      if whole.1 = [] ∧ fraction.1.getD [] = [] then none
      else (exponent fraction.2).bind fun exponent =>
        if continuesWord exponent.2 then none
        else some (⟨signed.1, whole.1, fraction.1, exponent.1⟩, exponent.2)

/-! ## What is read is taken off the text -/

theorem length_le_of_moreDigits {cs ds rest : List Char} (h : moreDigits cs = some (ds, rest)) :
    ds.length + rest.length ≤ cs.length := by
  fun_induction moreDigits cs generalizing ds rest with
  | case1 => cases h; simp
  | case2 c cs _ ih =>
    obtain ⟨⟨ds', rest'⟩, hread, heq⟩ := Option.map_eq_some_iff.1 h
    cases heq
    have := ih hread
    simp only [List.length_cons]
    omega
  | case3 => cases h
  | case4 d rest' _ _ ih =>
    obtain ⟨⟨ds', rest''⟩, hread, heq⟩ := Option.map_eq_some_iff.1 h
    cases heq
    have := ih hread
    simp only [List.length_cons]
    omega
  | case5 => cases h
  | case6 => cases h; simp

theorem length_le_of_digits {cs ds rest : List Char} (h : digits cs = some (ds, rest)) :
    ds.length + rest.length ≤ cs.length := by
  unfold digits at h
  split at h
  · cases h; simp
  · split at h
    · obtain ⟨⟨ds', rest'⟩, hread, heq⟩ := Option.map_eq_some_iff.1 h
      cases heq
      have := length_le_of_moreDigits hread
      simp only [List.length_cons]
      omega
    · cases h; simp

theorem length_sign_le (cs : List Char) : (sign cs).2.length ≤ cs.length := by
  unfold sign
  split
  · simp
  · split
    · simp
    · split <;> simp

theorem length_le_of_fraction {cs rest : List Char} {f : Option (List Char)}
    (h : fraction cs = some (f, rest)) : (f.getD []).length + rest.length ≤ cs.length := by
  unfold fraction at h
  split at h
  · cases h; simp
  · split at h
    · obtain ⟨⟨ds, rest'⟩, hread, heq⟩ := Option.map_eq_some_iff.1 h
      cases heq
      have := length_le_of_digits hread
      simp only [Option.getD_some, List.length_cons]
      omega
    · cases h; simp

theorem length_le_of_exponent {cs rest : List Char} {e : Option Int}
    (h : exponent cs = some (e, rest)) : rest.length ≤ cs.length := by
  unfold exponent at h
  split at h
  · cases h; simp
  · split at h
    · next c cs _ =>
      obtain ⟨⟨ds, rest'⟩, hread, heq⟩ := Option.bind_eq_some_iff.1 h
      split at heq
      · cases heq
      · cases heq
        have := length_le_of_digits hread
        have := length_sign_le cs
        simp only [List.length_cons]
        omega
    · cases h; simp

theorem length_lt_of_numeral {cs rest : List Char} {n : Numeral}
    (h : numeral cs = some (n, rest)) : rest.length < cs.length := by
  unfold numeral at h
  obtain ⟨⟨w, rest₁⟩, hw, h⟩ := Option.bind_eq_some_iff.1 h
  obtain ⟨⟨f, rest₂⟩, hf, h⟩ := Option.bind_eq_some_iff.1 h
  have hs := length_sign_le cs
  have hw := length_le_of_digits hw
  have hf := length_le_of_fraction hf
  split at h
  · cases h
  · next hdigit =>
    obtain ⟨⟨e, rest₃⟩, he, h⟩ := Option.bind_eq_some_iff.1 h
    have he := length_le_of_exponent he
    split at h
    · cases h
    · cases h
      have hdigit : 0 < w.length + (f.getD []).length := by
        simp only [← List.length_eq_zero_iff] at hdigit
        omega
      dsimp only at hw hf he ⊢
      omega

end Stencil.Text
