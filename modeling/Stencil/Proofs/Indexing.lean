-- SUMMARY: Indexing, visiting and truth agree: an index counts into the items that a loop visits, and a value is true if there are any.
import Stencil.Proofs.Identity
import Stencil.Proofs.SortedMaps

/-!
# Indexing and Visiting

A loop over a list, tuple or string visits its items in order, and an index after a dot leads
to one of them: to the item of that number, or, if it is negative, to the item of that number
from the end. `IsIndex` says what such an index is as a text. For a map, the keys take the
place of the numbers.
-/

namespace Stencil

/-! ## Indices as texts -/

namespace Text

/-- An optional sign and one or more digits, and the number that they write. -/
inductive IntegerText : List Char → Int → Prop where
  | mk {sign digits : List Char} {negative : Bool} (hsign : SignText sign negative)
      (hne : digits ≠ []) (hdigits : ∀ c ∈ digits, c.isDigit = true) :
      IntegerText (sign ++ digits)
        (if negative then -(Nat.ofDigitChars 10 digits 0 : Int) else Nat.ofDigitChars 10 digits 0)

theorem readNatural?_eq_some_iff {cs : List Char} {n : Nat} :
    readNatural? cs = some n
      ↔ (cs ≠ [] ∧ ∀ c ∈ cs, c.isDigit = true) ∧ n = Nat.ofDigitChars 10 cs 0 := by
  have hdigits : cs.all Char.isDigit = true ↔ ∀ c ∈ cs, c.isDigit = true := List.all_eq_true
  unfold readNatural?
  split
  · next h =>
    rw [Option.some.injEq, eq_comm]
    exact (and_iff_right ⟨h.1, hdigits.1 h.2⟩).symm
  · next h => exact iff_of_false nofun fun h' => h ⟨h'.1.1, hdigits.2 h'.1.2⟩

theorem readInteger?_minus (cs : List Char) :
    readInteger? ('-' :: cs) = (readNatural? cs).map fun n : Nat => -(n : Int) := by
  rw [readInteger?]
  cases readNatural? cs <;> rfl

theorem readInteger?_plus (cs : List Char) :
    readInteger? ('+' :: cs) = (readNatural? cs).map fun n : Nat => (n : Int) := by
  rw [readInteger?]
  cases readNatural? cs <;> rfl

theorem readInteger?_unsigned {cs : List Char} (hminus : cs.head? ≠ some '-')
    (hplus : cs.head? ≠ some '+') :
    readInteger? cs = (readNatural? cs).map fun n : Nat => (n : Int) := by
  rw [readInteger?]
  · cases readNatural? cs <;> rfl
  · rintro rest rfl
    exact hminus rfl
  · rintro rest rfl
    exact hplus rfl

theorem IntegerText.readInteger?_eq {cs : List Char} {i : Int} (h : IntegerText cs i) :
    readInteger? cs = some i := by
  cases h with
  | @mk sign digits negative hsign hne hdigits =>
    have hread : readNatural? digits = some (Nat.ofDigitChars 10 digits 0) :=
      readNatural?_eq_some_iff.2 ⟨⟨hne, hdigits⟩, rfl⟩
    cases hsign with
    | plus =>
      rw [List.singleton_append, readInteger?_plus, hread]
      rfl
    | minus =>
      rw [List.singleton_append, readInteger?_minus, hread]
      rfl
    | none =>
      have hhead {c : Char} (hc : c.isDigit = false) : digits.head? ≠ some c := by
        intro heq
        rw [hdigits c (List.mem_of_mem_head? heq)] at hc
        cases hc
      rw [List.nil_append, readInteger?_unsigned (hhead (by decide)) (hhead (by decide)), hread]
      rfl

theorem integerText_of_readInteger? {cs : List Char} {i : Int} (h : readInteger? cs = some i) :
    IntegerText cs i := by
  have hnatural {sign digits : List Char} {negative : Bool} {n : Nat}
      (hsign : SignText sign negative) (hread : readNatural? digits = some n) :
      IntegerText (sign ++ digits) (if negative then -(n : Int) else n) := by
    obtain ⟨⟨hne, hdigits⟩, rfl⟩ := readNatural?_eq_some_iff.1 hread
    exact .mk hsign hne hdigits
  by_cases hminus : cs.head? = some '-'
  · obtain ⟨digits, rfl⟩ := List.head?_eq_some_iff.1 hminus
    rw [readInteger?_minus] at h
    obtain ⟨n, hread, rfl⟩ := Option.map_eq_some_iff.1 h
    exact hnatural .minus hread
  by_cases hplus : cs.head? = some '+'
  · obtain ⟨digits, rfl⟩ := List.head?_eq_some_iff.1 hplus
    rw [readInteger?_plus] at h
    obtain ⟨n, hread, rfl⟩ := Option.map_eq_some_iff.1 h
    exact hnatural .plus hread
  · rw [readInteger?_unsigned hminus hplus] at h
    obtain ⟨n, hread, rfl⟩ := Option.map_eq_some_iff.1 h
    exact hnatural .none hread

theorem readInt64?_eq_some_iff {cs : List Char} {i : Int64} :
    readInt64? cs = some i ↔ IntegerText cs i.toInt := by
  unfold readInt64?
  rw [Option.bind_eq_some_iff]
  constructor
  · rintro ⟨n, hread, hfits⟩
    rw [Literal.int64?_eq_some_iff.1 hfits]
    exact integerText_of_readInteger? hread
  · intro h
    exact ⟨i.toInt, h.readInteger?_eq, Literal.int64?_eq_some_iff.2 rfl⟩

/-- The text writes the number of one of `size` items, from the front or, with a minus sign,
from the end; and this is the item at `place`. -/
def IsIndex (size : Nat) (text : List Char) (place : Nat) : Prop :=
  ∃ i : Int, IntegerText text i ∧ (-2 ^ 63 ≤ i ∧ i < 2 ^ 63) ∧ (-size ≤ i ∧ i < size)
    ∧ (place : Int) = if i < 0 then size + i else i

theorem IsIndex.lt {size place : Nat} {text : List Char} (h : IsIndex size text place) :
    place < size := by
  obtain ⟨i, -, -, ⟨hlow, hhigh⟩, hplace⟩ := h
  split at hplace
  · omega
  · omega

end Text

namespace Value

theorem position?_eq_some_iff_isIndex {size place : Nat} {index : String} :
    position? size index = some place ↔ Text.IsIndex size index.toList place := by
  rw [position?_eq_some_iff]
  constructor
  · rintro ⟨i, hread, hplace, hlt⟩
    have hlow := i.le_toInt
    have hhigh := i.toInt_lt
    refine ⟨i.toInt, Text.readInt64?_eq_some_iff.1 hread, ⟨hlow, hhigh⟩, ?_, ?_⟩
    · omega
    · split
      · omega
      · omega
  · rintro ⟨i, htext, ⟨hlow, hhigh⟩, ⟨hlow', hhigh'⟩, hplace⟩
    have hi : (Int64.ofInt i).toInt = i := Int64.toInt_ofInt_of_le hlow hhigh
    refine ⟨Int64.ofInt i, ?_, ?_, ?_⟩
    · rw [Text.readInt64?_eq_some_iff, hi]
      exact htext
    · rw [hi]
      split at hplace
      · omega
      · omega
    · split at hplace
      · omega
      · omega

/-- Counting from the end stays within 64 bits. -/
theorem toInt_add_of_neg {size i : Int64} (hsize : 0 ≤ size.toInt) (hi : i.toInt < 0) :
    (size + i).toInt = size.toInt + i.toInt := by
  have hlow := i.le_toInt
  have hhigh := size.toInt_lt
  rw [Int64.toInt_add]
  apply Int.bmod_eq_of_le
  · omega
  · omega

/-- The position that a negative index counts to is the sum in 64 bits, unless this is
negative. -/
theorem position?_of_neg {size i : Int64} {index : String} (hsize : 0 ≤ size.toInt)
    (hread : Text.readInt64? index.toList = some i) (hi : i.toInt < 0) :
    position? size.toInt.toNat index
      = if 0 ≤ (size + i).toInt then some (size + i).toInt.toNat else none := by
  have hnat : (size.toInt.toNat : Int) = size.toInt := Int.toNat_of_nonneg hsize
  have hlt : size.toInt + i.toInt < size.toInt := by omega
  simp only [position?, hread, Option.bind_some, if_pos hi, hnat, toInt_add_of_neg hsize hi,
    and_iff_left hlt]

/-! ## Items and what they lead to -/

/-- What a function returns; any other value stays as it is. -/
def returned : Value → Value
  | .function _ result => result
  | v => v

/-- Lists, tuples and strings. -/
def IsSequence (v : Value) : Prop := v.kind = .list ∨ v.kind = .tuple ∨ v.kind = .string

theorem isTruthy_iff_of_items? {v : Value} {items : List Value} (h : v.items? = some items) :
    v.isTruthy = true ↔ items ≠ [] := by
  cases v with
  | list vs | tuple vs =>
    cases h
    simp [isTruthy]
  | string s =>
    cases h
    simp [isTruthy]
  | map entries =>
    cases h
    simp [isTruthy]
  | _ => cases h

end Value

namespace Resolved

theorem value_call_eq (r : Resolved) : r.call.value = r.value.returned := by
  unfold call
  cases hvalue : r.value with
  | function => rfl
  | _ => simp [hvalue, Value.returned]

/-- An index leads to an item that a loop visits. -/
theorem value_part?_index {r : Resolved} {items : List Value} (hkind : r.value.IsSequence)
    (hitems : r.value.items? = some items) (index : String) :
    (r.part? index).map (·.value)
      = (Value.position? items.length index).bind fun place => items[place]? := by
  obtain ⟨v, slot⟩ := r
  cases v with
  | list vs | tuple vs =>
    cases hitems
    simp only [part?, Value.attribute?, Value.locate?, Value.locateItem?, Value.character?]
    cases Value.position? items.length index with
    | none => rfl
    | some place =>
      cases hplace : items[place]? with
      | none => simp [hplace]
      | some item => simp [hplace]
  | string s =>
    cases hitems
    simp only [part?, Value.attribute?, Value.locate?, Value.character?, List.length_map]
    cases Value.position? s.toList.length index with
    | none => rfl
    | some place =>
      cases hplace : s.toList[place]? with
      | none => simp [hplace]
      | some c => simp [hplace, copy]
  | _ => rcases hkind with h | h | h <;> cases h

end Resolved

namespace Path

theorem ofString_two {x k : String} (hx : '.' ∉ x.toList) (hk : '.' ∉ k.toList) :
    ofString (x ++ "." ++ k) = ⟨x, [k]⟩ := by
  have hpath := ofString_intercalate (List.forall_mem_cons.2 ⟨hx, List.forall_mem_singleton.2 hk⟩)
  rwa [String.intercalate_cons_cons, String.intercalate_singleton] at hpath

variable {σ : Type} [Scope σ] {s : σ}

theorem value_resolve_index {x k : String} {v : Value} {items : List Value}
    (hlookup : Scope.lookup s x = some v) (hkind : v.IsSequence) (hitems : v.items? = some items) :
    ((Path.mk x [k]).resolve s).toOption.map (·.value)
      = ((Value.position? items.length k).bind fun place => items[place]?).map Value.returned := by
  have hpart := Resolved.value_part?_index (r := .ofRoot x v) hkind hitems k
  rw [toOption_resolve, hlookup, Option.bind_some, Resolved.follow?_cons, ← hpart]
  unfold Resolved.step?
  cases (Resolved.ofRoot x v).part? k with
  | none => rfl
  | some r => exact congrArg some r.value_call_eq

theorem exists_resolve_index_iff {x k : String} {v : Value} {items : List Value}
    (hlookup : Scope.lookup s x = some v) (hkind : v.IsSequence) (hitems : v.items? = some items) :
    (∃ r, (Path.mk x [k]).resolve s = .ok r)
      ↔ ∃ place, Text.IsIndex items.length k.toList place := by
  have hvalue := value_resolve_index (k := k) hlookup hkind hitems
  constructor
  · rintro ⟨r, hr⟩
    rw [hr] at hvalue
    obtain ⟨item, hitem, -⟩ := Option.map_eq_some_iff.1 hvalue.symm
    obtain ⟨place, hplace, -⟩ := Option.bind_eq_some_iff.1 hitem
    exact ⟨place, Value.position?_eq_some_iff_isIndex.1 hplace⟩
  · rintro ⟨place, hindex⟩
    have hlt := hindex.lt
    have hplace : items[place]? = some items[place] := List.getElem?_eq_getElem hlt
    rw [Value.position?_eq_some_iff_isIndex.2 hindex, Option.bind_some, hplace] at hvalue
    cases hresolve : (Path.mk x [k]).resolve s with
    | ok r => exact ⟨r, rfl⟩
    | error e =>
      rw [hresolve] at hvalue
      cases hvalue

theorem value_of_resolve_index {x k : String} {v : Value} {items : List Value} {r : Resolved}
    {place : Nat} (hlookup : Scope.lookup s x = some v) (hkind : v.IsSequence)
    (hitems : v.items? = some items) (hresolve : (Path.mk x [k]).resolve s = .ok r)
    (hindex : Text.IsIndex items.length k.toList place) :
    ∃ item, items[place]? = some item ∧ r.value = item.returned := by
  have hvalue := value_resolve_index (k := k) hlookup hkind hitems
  rw [hresolve, Value.position?_eq_some_iff_isIndex.2 hindex, Option.bind_some] at hvalue
  obtain ⟨item, hitem, hreturned⟩ := Option.map_eq_some_iff.1 hvalue.symm
  exact ⟨item, hitem, hreturned.symm⟩

end Path

/-- An index leads to an item of a list, tuple or string that a loop visits, and to what it
returns if it is a function; counting from the end stays within 64 bits. In a map, however it
was built, the keys ascend, a loop visits the keys, and they are what has an item; the last
item of each key is all that the map depends on. A value that a loop can visit is true if
there is something to visit. -/
theorem Value.indexing_agrees {σ : Type} [Scope σ] (s : σ) (v w : Value) :
    (∀ x k items, '.' ∉ x.toList → '.' ∉ k.toList → Scope.lookup s x = some v → v.IsSequence →
        v.items? = some items →
        let found := (Path.ofString (x ++ "." ++ k)).resolve s
        ((∃ r, found = .ok r) ↔ ∃ place, Text.IsIndex items.length k.toList place)
          ∧ ∀ r place, found = .ok r → Text.IsIndex items.length k.toList place →
              ∃ item, items[place]? = some item ∧ r.value = item.returned)
      ∧ (∀ (k : String) (size i : Int64), 0 ≤ size.toInt → Text.readInt64? k.toList = some i →
          i.toInt < 0 → (size + i).toInt = size.toInt + i.toInt
            ∧ Value.position? size.toInt.toNat k
              = if 0 ≤ (size + i).toInt then some (size + i).toInt.toNat else none)
      ∧ ((∃ source, Literal.read? source = some v) ∨ (∃ json : Json, json.toValue = v)
          ∨ (∃ (α : Type) (_ : ToValue α) (entries : Entries α),
              (∀ entry ∈ entries, (toValue entry.2).IsSorted) ∧ toValue entries = v) →
          v.IsSorted)
      ∧ (v.IsSorted ∨ (∃ entries, v.BuiltFrom entries) → v.VisitsKeys)
      ∧ (∀ entries others, v.BuiltFrom entries → w.BuiltFrom others →
          Entries.Agree entries others →
          v = w ∧ v.text = w.text ∧ (v.equal w = true ↔ ¬v.ContainsNaN))
      ∧ ∀ items, v.items? = some items → (v.isTruthy = true ↔ items ≠ []) := by
  refine ⟨?_, ?_, ?_, ?_, ?_, ?_⟩
  · intro x k items hx hk hlookup hkind hitems
    rw [Path.ofString_two hx hk]
    refine ⟨Path.exists_resolve_index_iff hlookup hkind hitems, ?_⟩
    intro r place hresolve hindex
    exact Path.value_of_resolve_index hlookup hkind hitems hresolve hindex
  · intro k size i hsize hread hi
    exact ⟨Value.toInt_add_of_neg hsize hi, Value.position?_of_neg hsize hread hi⟩
  · rintro (⟨source, hread⟩ | ⟨json, rfl⟩ | ⟨α, _, entries, hentries, rfl⟩)
    · exact Literal.isSorted_of_read? hread
    · exact json.isSorted_toValue
    · exact isSorted_toValue_entries hentries
  · rintro (hsorted | ⟨entries, hbuilt⟩)
    · exact hsorted.visitsKeys
    · exact hbuilt.visitsKeys
  · intro entries others hv hw hagree
    obtain rfl := hv.eq_of_agree hw hagree
    exact ⟨rfl, rfl, Value.equal_self_iff⟩
  · intro items hitems
    exact Value.isTruthy_iff_of_items? hitems

/-- Entries of a host map with one name twice. -/
def Value.repeatedEntries : Entries Int64 := [("b", 1), ("a", 2), ("b", 3)]

theorem Value.indexing_agrees_from_end :
    let items : List Value := [.int 1, .function 0 (.string "é")]
    let c : Context := .ofList [("x", .list items)]
    let v : Value := toValue repeatedEntries
    let w : Value := (Json.object [("a", .whole 2), ("b", .whole 3)]).toValue
    Text.IsIndex items.length "-01".toList 1
      ∧ (∃ r, (Path.ofString ("x" ++ "." ++ "-01")).resolve c = .ok r ∧ r.value = .string "é")
      ∧ (¬∃ place, Text.IsIndex items.length "2".toList place)
      ∧ (¬∃ r, (Path.ofString ("x" ++ "." ++ "2")).resolve c = .ok r)
      ∧ v.VisitsKeys ∧ v.items? = some [.string "a", .string "b"]
      ∧ v = w ∧ v.equal w = true
      ∧ ((Value.list items).isTruthy = true ↔ items ≠ []) := by
  intro items c v w
  have hindex : Text.IsIndex items.length "-01".toList 1 :=
    Value.position?_eq_some_iff_isIndex.1 (by decide +kernel)
  have houtside : ¬∃ place, Text.IsIndex items.length "2".toList place := by
    rintro ⟨place, hplace⟩
    have hnone : Value.position? items.length "2" = none := by decide +kernel
    rw [Value.position?_eq_some_iff_isIndex.2 hplace] at hnone
    cases hnone
  have hbuilt : v.BuiltFrom [("b", .int 1), ("a", .int 2), ("b", .int 3)] :=
    .native repeatedEntries
  have hbuilt' : w.BuiltFrom [("a", .int 2), ("b", .int 3)] :=
    .json [("a", .whole 2), ("b", .whole 3)]
  have hagree : Entries.Agree [("b", Value.int 1), ("a", .int 2), ("b", .int 3)]
      [("a", .int 2), ("b", .int 3)] := by
    intro name
    simp only [List.reverse_cons, List.reverse_nil, List.nil_append, List.cons_append,
      Entries.find?]
    split
    · rfl
    · rfl
  obtain ⟨hitems, -, -, -, -, htruth⟩ := Value.indexing_agrees c (.list items) .null
  obtain ⟨-, -, -, hkeys, horder, -⟩ := Value.indexing_agrees c v w
  have hx : '.' ∉ "x".toList := by decide
  have hfound := hitems "x" "-01" items hx (by decide) rfl (.inl rfl) rfl
  have hmissing := hitems "x" "2" items hx (by decide) rfl (.inl rfl) rfl
  obtain ⟨r, hr⟩ := hfound.1.2 ⟨1, hindex⟩
  obtain ⟨item, hitem, hvalue⟩ := hfound.2 r 1 hr hindex
  obtain rfl := Option.some.inj hitem
  obtain ⟨hsame, -, hequal⟩ := horder _ _ hbuilt hbuilt' hagree
  have hnan : ¬v.ContainsNaN := Value.equal_self_iff.1 (by decide +kernel)
  exact ⟨hindex, ⟨r, hr, hvalue⟩, houtside, fun h => houtside (hmissing.1.1 h),
    hkeys (.inr ⟨_, hbuilt⟩), by rfl, hsame, hequal.2 hnan, htruth items rfl⟩

end Stencil
