-- SUMMARY: The grammar of numerals, and that reading a numeral takes exactly a text of that grammar off the front.
import Stencil.Text.Numeral

/-!
# The Grammar of Numerals

The text of a numeral is a sign, a group of digits, a fraction and an exponent,
of which all but one digit may be missing. Each part is described by a relation
between its text and what it stands for. Reading is sound for any rest; it takes
the whole numeral if the rest starts with nothing that could go on with it.
-/

namespace Stencil.Text

/-! ## The parts of a numeral -/

/-- One or more digits, with single underscores between two of them; the second
list has the digits alone. -/
inductive DigitGroup : List Char → List Char → Prop where
  | one {d : Char} (hd : d.isDigit = true) : DigitGroup [d] [d]
  | next {d : Char} {cs ds : List Char} (hd : d.isDigit = true) (h : DigitGroup cs ds) :
      DigitGroup (d :: cs) (d :: ds)
  | grouped {d : Char} {cs ds : List Char} (hd : d.isDigit = true) (h : DigitGroup cs ds) :
      DigitGroup (d :: '_' :: cs) (d :: ds)

/-- A group of digits, or nothing. -/
inductive OptionalDigits : List Char → List Char → Prop where
  | none : OptionalDigits [] []
  | some {cs ds : List Char} (h : DigitGroup cs ds) : OptionalDigits cs ds

inductive SignText : List Char → Bool → Prop where
  | none : SignText [] false
  | plus : SignText ['+'] false
  | minus : SignText ['-'] true

inductive FractionText : List Char → Option (List Char) → Prop where
  | none : FractionText [] none
  | some {cs ds : List Char} (h : OptionalDigits cs ds) : FractionText ('.' :: cs) (some ds)

inductive ExponentText : List Char → Option Int → Prop where
  | none : ExponentText [] none
  | some {e : Char} {s cs ds : List Char} {negative : Bool} (he : e = 'e' ∨ e = 'E')
      (hs : SignText s negative) (h : DigitGroup cs ds) :
      ExponentText (e :: (s ++ cs))
        (some (if negative then -(Nat.ofDigitChars 10 ds 0 : Int) else Nat.ofDigitChars 10 ds 0))

/-- The text of a numeral. There is a digit before or after the point. -/
inductive NumeralText : List Char → Numeral → Prop where
  | mk {s w f e whole : List Char} {negative : Bool} {fraction : Option (List Char)}
      {exponent : Option Int} (hs : SignText s negative) (hw : OptionalDigits w whole)
      (hf : FractionText f fraction) (hdigit : whole ≠ [] ∨ fraction.getD [] ≠ [])
      (he : ExponentText e exponent) :
      NumeralText (s ++ w ++ f ++ e) ⟨negative, whole, fraction, exponent⟩

/-! ## What is read is in the grammar -/

theorem exists_of_moreDigits {d : Char} {cs ds rest : List Char} (hd : d.isDigit = true)
    (h : moreDigits cs = some (ds, rest)) :
    ∃ text, cs = text ++ rest ∧ DigitGroup (d :: text) (d :: ds) := by
  fun_induction moreDigits cs generalizing d ds rest with
  | case1 =>
    cases h
    exact ⟨[], rfl, .one hd⟩
  | case2 c cs hc ih =>
    obtain ⟨⟨ds', rest'⟩, hread, heq⟩ := Option.map_eq_some_iff.1 h
    cases heq
    obtain ⟨text, rfl, htext⟩ := ih hc hread
    exact ⟨c :: text, rfl, .next hd htext⟩
  | case3 => cases h
  | case4 c cs hc _ ih =>
    obtain ⟨⟨ds', rest'⟩, hread, heq⟩ := Option.map_eq_some_iff.1 h
    cases heq
    obtain ⟨text, rfl, htext⟩ := ih hc hread
    exact ⟨'_' :: c :: text, rfl, .grouped hd htext⟩
  | case5 => cases h
  | case6 c cs _ _ =>
    cases h
    exact ⟨[], rfl, .one hd⟩

theorem exists_of_digits {cs ds rest : List Char} (h : digits cs = some (ds, rest)) :
    ∃ text, cs = text ++ rest ∧ OptionalDigits text ds := by
  unfold digits at h
  split at h
  · cases h
    exact ⟨[], rfl, .none⟩
  · next c cs =>
    split at h
    · next hc =>
      obtain ⟨⟨ds', rest'⟩, hread, heq⟩ := Option.map_eq_some_iff.1 h
      cases heq
      obtain ⟨text, rfl, htext⟩ := exists_of_moreDigits hc hread
      exact ⟨c :: text, rfl, .some htext⟩
    · cases h
      exact ⟨[], rfl, .none⟩

theorem exists_of_sign {cs rest : List Char} {negative : Bool} (h : sign cs = (negative, rest)) :
    ∃ text, cs = text ++ rest ∧ SignText text negative := by
  unfold sign at h
  split at h
  · cases h
    exact ⟨[], rfl, .none⟩
  · split at h
    · next hc =>
      cases h
      exact ⟨['-'], by rw [hc]; rfl, .minus⟩
    · split at h
      · next hc =>
        cases h
        exact ⟨['+'], by rw [hc]; rfl, .plus⟩
      · cases h
        exact ⟨[], rfl, .none⟩

theorem exists_of_fraction {cs rest : List Char} {f : Option (List Char)}
    (h : fraction cs = some (f, rest)) : ∃ text, cs = text ++ rest ∧ FractionText text f := by
  unfold fraction at h
  split at h
  · cases h
    exact ⟨[], rfl, .none⟩
  · split at h
    · next hc =>
      obtain ⟨⟨ds, rest'⟩, hread, heq⟩ := Option.map_eq_some_iff.1 h
      cases heq
      obtain ⟨text, rfl, htext⟩ := exists_of_digits hread
      exact ⟨'.' :: text, by rw [hc]; rfl, .some htext⟩
    · cases h
      exact ⟨[], rfl, .none⟩

theorem exists_of_exponent {cs rest : List Char} {e : Option Int}
    (h : exponent cs = some (e, rest)) : ∃ text, cs = text ++ rest ∧ ExponentText text e := by
  unfold exponent at h
  split at h
  · cases h
    exact ⟨[], rfl, .none⟩
  · next c cs =>
    split at h
    · next hc =>
      obtain ⟨⟨ds, rest'⟩, hread, heq⟩ := Option.bind_eq_some_iff.1 h
      rcases hsign : sign cs with ⟨negative, afterSign⟩
      rw [hsign] at hread heq
      obtain ⟨s, rfl, hs⟩ := exists_of_sign hsign
      obtain ⟨text, rfl, htext⟩ := exists_of_digits hread
      split at heq
      · cases heq
      · next hne =>
        cases heq
        cases htext with
        | none => exact absurd rfl hne
        | some hgroup => exact ⟨c :: (s ++ text), by simp, .some hc hs hgroup⟩
    · cases h
      exact ⟨[], rfl, .none⟩

theorem exists_of_numeral {cs rest : List Char} {n : Numeral} (h : numeral cs = some (n, rest)) :
    ∃ text, cs = text ++ rest ∧ NumeralText text n := by
  unfold numeral at h
  obtain ⟨⟨whole, rest₁⟩, hw, h⟩ := Option.bind_eq_some_iff.1 h
  obtain ⟨⟨f, rest₂⟩, hf, h⟩ := Option.bind_eq_some_iff.1 h
  rcases hsign : sign cs with ⟨negative, afterSign⟩
  rw [hsign] at hw h
  split at h
  · cases h
  · next hdigit =>
    obtain ⟨⟨e, rest₃⟩, he, h⟩ := Option.bind_eq_some_iff.1 h
    split at h
    · cases h
    · cases h
      obtain ⟨s, rfl, hs⟩ := exists_of_sign hsign
      obtain ⟨w, hcs, hwhole⟩ := exists_of_digits hw
      obtain ⟨ftext, rfl, hfraction⟩ := exists_of_fraction hf
      obtain ⟨etext, rfl, hexponent⟩ := exists_of_exponent he
      simp only at hcs
      subst hcs
      refine ⟨s ++ w ++ ftext ++ etext, by simp, .mk hs hwhole hfraction ?_ hexponent⟩
      exact Decidable.not_and_iff_not_or_not.1 hdigit

/-! ## What is in the grammar is read -/

/-- The text starts with nothing that could go on with a group of digits. -/
def EndsDigits (rest : List Char) : Prop := ∀ c ∈ rest.head?, c.isDigit = false ∧ c ≠ '_'

/-- The text starts with nothing that could go on with a numeral. -/
def EndsNumeral (rest : List Char) : Prop := ∀ c ∈ rest.head?, isWordChar c = false ∧ c ≠ '.'

theorem isWordChar_of_isDigit {c : Char} (hc : c.isDigit = true) : isWordChar c = true := by
  simp only [Char.isDigit, Bool.and_eq_true, decide_eq_true_eq] at hc
  have hlow : ¬c.toNat < 0x30 := Nat.not_lt.2 hc.1
  have hhigh : c.toNat ≤ 0x39 := hc.2
  have hfirst (others : Ranges) : Ranges.has ((0x30, 0x39) :: others) c.toNat = true := by
    rw [Ranges.has, if_neg hlow, decide_eq_true hhigh, Bool.true_or]
  have hnumeric : isNumeric c = true := hfirst _
  rw [isWordChar, isAlphanumeric, hnumeric, Bool.or_true, Bool.true_or]

theorem EndsNumeral.endsDigits {rest : List Char} (h : EndsNumeral rest) : EndsDigits rest := by
  intro c hc
  have hword := (h c hc).1
  constructor
  · cases hdigit : c.isDigit with
    | false => rfl
    | true => rw [isWordChar_of_isDigit hdigit] at hword; cases hword
  · rintro rfl
    cases hword

theorem DigitGroup.exists_cons {text ds : List Char} (h : DigitGroup text ds) :
    ∃ d cs, text = d :: cs ∧ d.isDigit = true := by
  cases h with
  | one hd => exact ⟨_, _, rfl, hd⟩
  | next hd _ => exact ⟨_, _, rfl, hd⟩
  | grouped hd _ => exact ⟨_, _, rfl, hd⟩

theorem DigitGroup.ne_nil {text ds : List Char} (h : DigitGroup text ds) : ds ≠ [] := by
  cases h <;> exact List.cons_ne_nil _ _

theorem moreDigits_digit {d : Char} (hd : d.isDigit = true) (cs : List Char) :
    moreDigits (d :: cs) = (moreDigits cs).map fun read => (d :: read.1, read.2) := by
  rw [moreDigits.eq_def]
  exact if_pos hd

theorem moreDigits_underscore {d : Char} (hd : d.isDigit = true) (cs : List Char) :
    moreDigits ('_' :: d :: cs) = moreDigits (d :: cs) := by
  rw [moreDigits_digit hd, moreDigits.eq_def]
  exact if_pos hd

theorem moreDigits_of_endsDigits {rest : List Char} (hrest : EndsDigits rest) :
    moreDigits rest = some ([], rest) := by
  cases rest with
  | nil => rfl
  | cons c rest =>
    obtain ⟨hdigit, hunderscore⟩ := hrest c rfl
    rw [moreDigits.eq_def]
    simp only [hdigit, hunderscore, Bool.false_eq_true, if_false]

theorem moreDigits_append {text ds rest : List Char} (h : DigitGroup text ds)
    (hrest : EndsDigits rest) : moreDigits (text ++ rest) = some (ds, rest) := by
  induction h with
  | one hd =>
    rw [List.cons_append, List.nil_append, moreDigits_digit hd, moreDigits_of_endsDigits hrest]
    rfl
  | next hd _ ih =>
    rw [List.cons_append, moreDigits_digit hd, ih]
    rfl
  | grouped hd h ih =>
    obtain ⟨c, cs, rfl, hc⟩ := h.exists_cons
    simp only [List.cons_append] at ih ⊢
    rw [moreDigits_digit hd, moreDigits_underscore hc, ih]
    rfl

theorem digits_append {text ds rest : List Char} (h : OptionalDigits text ds)
    (hrest : EndsDigits rest) : digits (text ++ rest) = some (ds, rest) := by
  cases h with
  | none =>
    cases rest with
    | nil => rfl
    | cons c rest => exact if_neg (by simp [(hrest c rfl).1])
  | some h =>
    have hread := moreDigits_append h hrest
    obtain ⟨c, cs, rfl, hc⟩ := h.exists_cons
    rw [List.cons_append, moreDigits_digit hc] at hread
    rw [List.cons_append, digits, if_pos hc, hread]

theorem sign_append {text rest : List Char} {negative : Bool} (h : SignText text negative)
    (hrest : ∀ c ∈ rest.head?, c ≠ '-' ∧ c ≠ '+') : sign (text ++ rest) = (negative, rest) := by
  cases h with
  | none =>
    cases rest with
    | nil => rfl
    | cons c rest =>
      obtain ⟨hminus, hplus⟩ := hrest c rfl
      rw [List.nil_append, sign, if_neg hminus, if_neg hplus]
  | plus => rfl
  | minus => rfl

theorem FractionText.head {text rest : List Char} {f : Option (List Char)} {c : Char}
    (h : FractionText text f) (hc : c ∈ (text ++ rest).head?) : c = '.' ∨ c ∈ rest.head? := by
  cases h with
  | none => exact .inr hc
  | some _ => exact .inl (Option.some.inj hc).symm

theorem fraction_append {text rest : List Char} {f : Option (List Char)} (h : FractionText text f)
    (hrest : EndsDigits rest) (hpoint : ∀ c ∈ rest.head?, c ≠ '.') :
    fraction (text ++ rest) = some (f, rest) := by
  cases h with
  | none =>
    cases rest with
    | nil => rfl
    | cons c rest => exact if_neg (hpoint c rfl)
  | some h => rw [List.cons_append, fraction, if_pos rfl, digits_append h hrest]; rfl

theorem ExponentText.head {text rest : List Char} {e : Option Int} {c : Char}
    (h : ExponentText text e) (hc : c ∈ (text ++ rest).head?) :
    c = 'e' ∨ c = 'E' ∨ c ∈ rest.head? := by
  cases h with
  | none => exact .inr (.inr hc)
  | some he _ _ =>
    obtain rfl := Option.some.inj hc
    exact he.imp id .inl

theorem DigitGroup.head_ne_sign {text ds rest : List Char} (h : DigitGroup text ds) :
    ∀ c ∈ (text ++ rest).head?, c ≠ '-' ∧ c ≠ '+' := by
  obtain ⟨d, cs, rfl, hd⟩ := h.exists_cons
  intro c hc
  obtain rfl := Option.some.inj hc
  constructor <;> rintro rfl <;> cases hd

theorem exponent_append {text rest : List Char} {e : Option Int} (h : ExponentText text e)
    (hrest : EndsNumeral rest) : exponent (text ++ rest) = some (e, rest) := by
  cases h with
  | none =>
    cases rest with
    | nil => rfl
    | cons c rest =>
      have hword := (hrest c rfl).1
      refine if_neg ?_
      rintro (rfl | rfl) <;> cases hword
  | some he hs h =>
    rw [List.cons_append, List.append_assoc, exponent, if_pos he, sign_append hs h.head_ne_sign]
    simp only [digits_append (.some h) hrest.endsDigits, Option.bind_some, if_neg h.ne_nil]

/-- A numeral starts with a digit, a sign or a point. -/
theorem NumeralText.exists_cons {text : List Char} {n : Numeral} (h : NumeralText text n) :
    ∃ c cs, text = c :: cs ∧ (c.isDigit = true ∨ c = '+' ∨ c = '-' ∨ c = '.') := by
  obtain @⟨s, w, f, e, whole, negative, fraction', exponent', hs, hw, hf, hdigit, he⟩ := h
  cases hs with
  | plus => exact ⟨_, _, rfl, .inr (.inl rfl)⟩
  | minus => exact ⟨_, _, rfl, .inr (.inr (.inl rfl))⟩
  | none =>
    cases hw with
    | some h =>
      obtain ⟨c, cs, rfl, hc⟩ := h.exists_cons
      exact ⟨_, _, rfl, .inl hc⟩
    | none =>
      cases hf with
      | some _ => exact ⟨_, _, rfl, .inr (.inr (.inr rfl))⟩
      | none => simp at hdigit

/-- A numeral is read to its end. -/
theorem numeral_append {text rest : List Char} {n : Numeral} (h : NumeralText text n)
    (hrest : EndsNumeral rest) : numeral (text ++ rest) = some (n, rest) := by
  obtain @⟨s, w, f, e, whole, negative, fraction', exponent', hs, hw, hf, hdigit, he⟩ := h
  have hexponent : ∀ c ∈ (e ++ rest).head?, c = 'e' ∨ c = 'E' ∨ c ∈ rest.head? :=
    fun c hc => he.head hc
  have hpoint : ∀ c ∈ (e ++ rest).head?, c ≠ '.' := by
    intro c hc
    rcases hexponent c hc with rfl | rfl | hc
    · decide
    · decide
    · exact (hrest c hc).2
  have hafterFraction : EndsDigits (e ++ rest) := by
    intro c hc
    rcases hexponent c hc with rfl | rfl | hc
    · decide
    · decide
    · exact hrest.endsDigits c hc
  have hafterWhole : EndsDigits (f ++ (e ++ rest)) := by
    intro c hc
    rcases hf.head hc with rfl | hc
    · decide
    · exact hafterFraction c hc
  have hafterSign : ∀ c ∈ (w ++ (f ++ (e ++ rest))).head?, c ≠ '-' ∧ c ≠ '+' := by
    cases hw with
    | some h => exact h.head_ne_sign
    | none =>
      cases hf with
      | none => simp at hdigit
      | some _ =>
        intro c hc
        obtain rfl := Option.some.inj hc
        decide
  have hword : continuesWord rest = false := by
    cases rest with
    | nil => rfl
    | cons c rest => exact (hrest c rfl).1
  simp only [List.append_assoc, numeral, sign_append hs hafterSign, digits_append hw hafterWhole,
    fraction_append hf hafterFraction hpoint, exponent_append he hrest, Option.bind_some]
  rw [if_neg (Decidable.not_and_iff_not_or_not.2 hdigit), if_neg (by simp [hword])]

end Stencil.Text
