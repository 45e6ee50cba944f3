-- SUMMARY: Splitting a text at separators and joining the fields again.

/-!
# Fields

A text with `n` separators has `n + 1` fields, some of them possibly empty.
Joining the fields with the separator gives the text back. A text that holds a
mark is split in two at the last one.
-/

namespace Stencil.Text

/-- Puts a character in front of the first field. -/
def extendFirst (c : Char) : List (List Char) → List (List Char)
  | [] => [[c]]
  | field :: fields => (c :: field) :: fields

/-- The fields between the separators, in order. -/
def fields (isSeparator : Char → Bool) : List Char → List (List Char)
  | [] => [[]]
  | c :: cs =>
    if isSeparator c then [] :: fields isSeparator cs
    else extendFirst c (fields isSeparator cs)

/-- The fields with one separator between each two. -/
def joinFields (separator : Char) : List (List Char) → List Char
  | [] => []
  | [field] => field
  | field :: next :: rest => field ++ separator :: joinFields separator (next :: rest)

/-! ## Basic laws -/

theorem fields_ne_nil (isSeparator : Char → Bool) (cs : List Char) :
    fields isSeparator cs ≠ [] := by
  cases cs with
  | nil => simp [fields]
  | cons c cs =>
    simp only [fields]
    split
    · simp
    · cases fields isSeparator cs <;> simp [extendFirst]

/-- Splitting at a character and joining with it changes nothing. -/
theorem joinFields_fields (separator : Char) (cs : List Char) :
    joinFields separator (fields (· == separator) cs) = cs := by
  induction cs with
  | nil => rfl
  | cons c cs ih =>
    have hne := fields_ne_nil (· == separator) cs
    simp only [fields]
    cases hf : fields (· == separator) cs with
    | nil => exact absurd hf hne
    | cons field rest =>
      rw [hf] at ih
      split
      · next h => simp_all [joinFields]
      · cases rest <;> simp_all [extendFirst, joinFields]

theorem fields_of_forall_not {isSeparator : Char → Bool} {field : List Char}
    (h : ∀ c ∈ field, isSeparator c = false) : fields isSeparator field = [field] := by
  induction field with
  | nil => rfl
  | cons c cs ih =>
    simp [fields, h c List.mem_cons_self, ih fun d hd => h d (List.mem_cons_of_mem _ hd),
      extendFirst]

/-- The first field ends at the first separator. -/
theorem exists_fields_eq_cons (separator : Char) (cs : List Char) :
    ∃ others, fields (· == separator) cs = cs.takeWhile (· ≠ separator) :: others := by
  induction cs with
  | nil => exact ⟨[], rfl⟩
  | cons c cs ih =>
    obtain ⟨others, hothers⟩ := ih
    by_cases hc : c = separator
    · exact ⟨fields (· == separator) cs, by simp [fields, hc]⟩
    · exact ⟨others, by simp [fields, hc, hothers, extendFirst]⟩

/-- A separator ends the first field. -/
theorem fields_append_cons {isSeparator : Char → Bool} {field rest : List Char} {c : Char}
    (h : ∀ d ∈ field, isSeparator d = false) (hc : isSeparator c = true) :
    fields isSeparator (field ++ c :: rest) = field :: fields isSeparator rest := by
  induction field with
  | nil => simp [fields, hc]
  | cons d ds ih =>
    simp [fields, h d List.mem_cons_self, ih fun e he => h e (List.mem_cons_of_mem _ he),
      extendFirst]

/-- Joining fields and splitting them again changes nothing, as long as there
is a field and no field holds the separator. -/
theorem fields_joinFields {separator : Char} {fs : List (List Char)} (hne : fs ≠ [])
    (h : ∀ field ∈ fs, separator ∉ field) :
    fields (· == separator) (joinFields separator fs) = fs := by
  induction fs with
  | nil => exact absurd rfl hne
  | cons field fs ih =>
    have hfield : ∀ d ∈ field, (d == separator) = false := by
      intro d hd
      have hsep := h field List.mem_cons_self
      simp only [beq_eq_false_iff_ne, ne_eq]
      rintro rfl
      exact hsep hd
    cases fs with
    | nil => exact fields_of_forall_not hfield
    | cons next rest =>
      rw [joinFields, fields_append_cons hfield (by simp),
        ih (by simp) fun f hf => h f (List.mem_cons_of_mem _ hf)]

/-! ## The last occurrence of a mark -/

/-- The parts before and after the last occurrence of a mark, which is not
empty. -/
def splitLast (mark : List Char) : List Char → Option (List Char × List Char)
  | [] => none
  | c :: cs =>
    match splitLast mark cs with
    | some (before, after) => some (c :: before, after)
    | none => (mark.isPrefixOf? (c :: cs)).map fun after => ([], after)

theorem eq_append_of_isPrefixOf? {mark cs rest : List Char} (h : mark.isPrefixOf? cs = some rest) :
    cs = mark ++ rest := by
  induction mark generalizing cs with
  | nil =>
    cases h
    rfl
  | cons m ms ih =>
    cases cs with
    | nil => cases h
    | cons c cs =>
      have hstep : (if m == c then ms.isPrefixOf? cs else none) = some rest := h
      split at hstep
      · next hm => rw [ih hstep, eq_of_beq hm, List.cons_append]
      · cases hstep

/-- What `splitLast` splits is the part before, the mark and the part after. -/
theorem eq_append_of_splitLast {mark cs before after : List Char}
    (h : splitLast mark cs = some (before, after)) : cs = before ++ mark ++ after := by
  fun_induction splitLast mark cs generalizing before after with
  | case1 => cases h
  | case2 c cs before' after' hsplit ih =>
    cases h
    rw [ih hsplit]
    rfl
  | case3 c cs _ _ =>
    obtain ⟨rest, hprefix, heq⟩ := Option.map_eq_some_iff.1 h
    cases heq
    exact eq_append_of_isPrefixOf? hprefix

end Stencil.Text
