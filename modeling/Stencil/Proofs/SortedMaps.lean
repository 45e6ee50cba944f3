-- SUMMARY: Maps in values: their keys ascend however they are built, and what they hold depends on the last item of each key alone.
import Stencil.Json
import Stencil.Native
import Stencil.Proofs.Equality
import Stencil.Proofs.LoopBindings
import Stencil.Proofs.Operands

/-!
# Sorted Maps

The type of values does not force the keys of a map to ascend. `IsSorted` says that they do,
in a value and in all values inside it, and this holds of whatever a literal, JSON data or a
native map of sorted values gives. So a map is determined by what is found in it, and of
several items under one key only the last one can be found.
-/

namespace Stencil

/-! ## Entries in order -/

namespace Entries

variable {α : Type}

theorem mem_of_mem_ofList {entries : Entries α} {entry : String × α} (h : entry ∈ ofList entries) :
    entry ∈ entries := by
  suffices hfold : ∀ sorted : Entries α,
      entry ∈ entries.foldl (fun sorted entry => insert entry.1 entry.2 sorted) sorted →
        entry ∈ sorted ∨ entry ∈ entries from (hfold [] h).resolve_left List.not_mem_nil
  clear h
  induction entries with
  | nil => exact fun sorted h => .inl h
  | cons first rest ih =>
    intro sorted h
    rcases ih _ h with hinsert | hrest
    · rcases mem_insert hinsert with heq | hsorted
      · exact .inr (heq ▸ List.mem_cons_self)
      · exact .inl hsorted
    · exact .inr (List.mem_cons_of_mem _ hrest)

theorem entries_insertAll (d : Dictionary α) (entries : Entries α) :
    (d.insertAll entries).entries
      = entries.foldl (fun sorted entry => insert entry.1 entry.2 sorted) d.entries :=
  (List.foldl_hom Dictionary.entries fun _ _ => rfl).symm

/-- Of several entries with one name the last one is found. -/
theorem find?_ofList (entries : Entries α) (name : String) :
    find? name (ofList entries) = find? name entries.reverse := by
  have hentries : (Dictionary.empty.insertAll entries).entries = ofList entries :=
    entries_insertAll .empty entries
  have hget := Dictionary.get?_insertAll_eq .empty entries name
  unfold Dictionary.get? at hget
  rw [hentries] at hget
  rw [hget]
  exact Option.or_none

theorem isSome_find?_iff {entries : Entries α} {name : String} :
    (find? name entries).isSome ↔ name ∈ entries.names := by
  rw [Option.isSome_iff_exists]
  constructor
  · rintro ⟨value, hfind⟩
    exact List.mem_map_of_mem (mem_of_find?_eq_some hfind)
  · exact exists_find?_of_mem_names

/-- Both lists of entries have the same last item under each name, and the same names. -/
def Agree (entries others : Entries α) : Prop :=
  ∀ name, find? name entries.reverse = find? name others.reverse

theorem Agree.ofList_eq {entries others : Entries α} (h : Agree entries others) :
    ofList entries = ofList others := by
  apply eq_of_find?_eq (ascending_ofList entries) (ascending_ofList others)
  intro name
  rw [find?_ofList, find?_ofList, h name]

end Entries

namespace Value

/-! ## Sorted values -/

/-- In the value and in all values inside it, the keys of maps ascend. -/
inductive IsSorted : Value → Prop where
  | mk {v : Value} (hkeys : ∀ entries, v = .map entries → Entries.Ascending entries)
      (hinner : ∀ x ∈ v.inner, IsSorted x) : IsSorted v

theorem isSorted_of_inner_eq_nil {v : Value} (hinner : v.inner = []) (hmap : v.kind ≠ .map) :
    v.IsSorted := by
  refine .mk ?_ ?_
  · rintro entries rfl
    exact absurd rfl hmap
  · rw [hinner]
    exact List.forall_mem_nil _

theorem isSorted_list {items : List Value} (h : ∀ item ∈ items, item.IsSorted) :
    (Value.list items).IsSorted :=
  .mk nofun h

theorem isSorted_tuple {items : List Value} (h : ∀ item ∈ items, item.IsSorted) :
    (Value.tuple items).IsSorted :=
  .mk nofun h

theorem isSorted_ofEntries {entries : Entries Value} (h : ∀ entry ∈ entries, entry.2.IsSorted) :
    (ofEntries entries).IsSorted := by
  refine .mk ?_ ?_
  · rintro sorted heq
    cases heq
    exact Entries.ascending_ofList entries
  · intro x hx
    obtain ⟨entry, hentry, rfl⟩ := List.mem_map.1 hx
    exact h entry (Entries.mem_of_mem_ofList hentry)

theorem isSorted_ofInt (n : Int) : (ofInt n).IsSorted := by
  unfold ofInt
  split
  · exact isSorted_of_inner_eq_nil rfl nofun
  · exact isSorted_of_inner_eq_nil rfl nofun

end Value

/-! ## What literals, JSON data and native maps give -/

namespace Literal

variable {α : Type} {D : List Char → α → Prop}

/-- An item is written by a part of the text. -/
theorem Items.exists_of_mem {text : List Char} {as : List α} {comma : Bool} {a : α}
    (h : Items D text as comma) (ha : a ∈ as) : ∃ part, D part a ∧ part.length ≤ text.length := by
  induction h with
  | none => cases ha
  | @last before part after b _ hb _ =>
    obtain rfl := List.mem_singleton.1 ha
    refine ⟨part, hb, ?_⟩
    simp only [List.length_append]
    omega
  | @more before part after tail b as comma _ hb _ _ ih =>
    rcases List.mem_cons.1 ha with rfl | hmem
    · refine ⟨part, hb, ?_⟩
      simp only [List.length_append]
      omega
    · obtain ⟨part', hpart, hlength⟩ := ih hmem
      refine ⟨part', hpart, ?_⟩
      simp only [List.length_append, List.length_cons]
      omega

theorem Entry.exists_value {D : List Char → Value → Prop} {text : List Char} {e : String × Value}
    (h : Entry D text e) : ∃ part, D part e.2 ∧ part.length ≤ text.length := by
  cases h with
  | @mk keyText before after part key v _ _ _ hv =>
    refine ⟨part, hv, ?_⟩
    simp only [List.length_append]
    omega

theorem Keyword.isSorted {word : List Char} {v : Value} (h : Keyword word v) : v.IsSorted := by
  cases h <;> exact Value.isSorted_of_inner_eq_nil rfl nofun

/-- The items of a literal are written by shorter texts. -/
theorem Denotes.isSorted {text : List Char} {v : Value} (h : Denotes text v) : v.IsSorted := by
  induction hlength : text.length using Nat.strong_induction_on generalizing text v with
  | h length ih =>
    subst hlength
    have hinside {opening closing : Char} {inside part : List Char} {x : Value}
        (htext : text = opening :: (inside ++ [closing])) (hle : part.length ≤ inside.length)
        (hx : Denotes part x) : x.IsSorted := by
      refine ih part.length ?_ hx rfl
      rw [htext, List.length_cons, List.length_append]
      omega
    have hitems {opening closing : Char} {inside : List Char} {vs : List Value} {comma : Bool}
        (htext : text = opening :: (inside ++ [closing])) (h : Items Denotes inside vs comma) :
        ∀ x ∈ vs, x.IsSorted := by
      intro x hx
      obtain ⟨part, hpart, hle⟩ := h.exists_of_mem hx
      exact hinside htext hle hpart
    cases h with
    | integer => exact Value.isSorted_of_inner_eq_nil rfl nofun
    | float => exact Value.isSorted_of_inner_eq_nil rfl nofun
    | string => exact Value.isSorted_of_inner_eq_nil rfl nofun
    | keyword h => exact h.isSorted
    | list h => exact Value.isSorted_list (hitems rfl h)
    | tuple h => exact Value.isSorted_tuple (hitems rfl h)
    | grouped h => exact hitems rfl h v List.mem_cons_self
    | map h =>
      apply Value.isSorted_ofEntries
      intro entry hentry
      obtain ⟨part, hpart, hle⟩ := h.exists_of_mem hentry
      obtain ⟨part', hvalue, hle'⟩ := hpart.exists_value
      exact hinside rfl (Nat.le_trans hle' hle) hvalue

theorem isSorted_of_read? {source : String} {v : Value} (h : read? source = some v) :
    v.IsSorted :=
  (read?_eq_some_iff.1 h).isSorted

end Literal

namespace Json

mutual

theorem isSorted_toValue : (json : Json) → json.toValue.IsSorted
  | .null => by
    rw [toValue]
    exact Value.isSorted_of_inner_eq_nil rfl nofun
  | .bool b => by
    rw [toValue]
    exact Value.isSorted_of_inner_eq_nil rfl nofun
  | .whole n => by
    rw [toValue]
    exact Value.isSorted_ofInt n
  | .float x => by
    rw [toValue]
    exact Value.isSorted_of_inner_eq_nil rfl nofun
  | .string s => by
    rw [toValue]
    exact Value.isSorted_of_inner_eq_nil rfl nofun
  | .array items => by
    rw [toValue]
    exact Value.isSorted_list (isSorted_itemsToValues items)
  | .object members => by
    rw [toValue]
    exact Value.isSorted_ofEntries (isSorted_membersToEntries members)

theorem isSorted_itemsToValues : (items : List Json) → ∀ v ∈ itemsToValues items, v.IsSorted
  | [] => by
    rw [itemsToValues]
    exact List.forall_mem_nil _
  | item :: items => by
    rw [itemsToValues]
    exact List.forall_mem_cons.2 ⟨isSorted_toValue item, isSorted_itemsToValues items⟩

theorem isSorted_membersToEntries : (members : List (String × Json)) →
    ∀ entry ∈ membersToEntries members, entry.2.IsSorted
  | [] => by
    rw [membersToEntries]
    exact List.forall_mem_nil _
  | (name, item) :: members => by
    rw [membersToEntries]
    exact List.forall_mem_cons.2 ⟨isSorted_toValue item, isSorted_membersToEntries members⟩

end

end Json

theorem isSorted_toValue_entries {α : Type} [ToValue α] {entries : Entries α}
    (h : ∀ entry ∈ entries, (toValue entry.2).IsSorted) : (toValue entries).IsSorted := by
  apply Value.isSorted_ofEntries
  intro entry hentry
  obtain ⟨native, hnative, rfl⟩ := List.mem_map.1 hentry
  exact h native hnative

/-! ## Maps and the entries that they are built from -/

namespace Value

/-- The value is the map that some way of building values makes of the entries, in the
order in which they come. -/
inductive BuiltFrom : Value → Entries Value → Prop where
  | literal {source : String} {inside : List Char} {entries : Entries Value} {comma : Bool}
      {v : Value} (hsource : Text.trimChars source.toList = '{' :: (inside ++ ['}']))
      (hinside : Literal.Items (Literal.Entry Literal.Denotes) inside entries comma)
      (hread : Literal.read? source = some v) : BuiltFrom v entries
  | json (members : List (String × Json)) :
      BuiltFrom (Json.object members).toValue (Json.membersToEntries members)
  | native {α : Type} [ToValue α] (entries : Entries α) :
      BuiltFrom (toValue entries) (entries.map fun entry => (entry.1, toValue entry.2))

theorem BuiltFrom.eq_ofEntries {entries : Entries Value} {v : Value} (h : v.BuiltFrom entries) :
    v = ofEntries entries := by
  cases h with
  | literal hsource hinside hread =>
    have hmap := Literal.read?_eq_some_iff.2 (hsource ▸ Literal.Denotes.map hinside)
    exact Option.some.inj (hread.symm.trans hmap)
  | json members => rw [Json.toValue]
  | native entries => rfl

/-- What a map holds does not depend on the way in which it was built, nor on the order. -/
theorem BuiltFrom.eq_of_agree {entries others : Entries Value} {v w : Value}
    (h : v.BuiltFrom entries) (h' : w.BuiltFrom others) (hagree : Entries.Agree entries others) :
    v = w := by
  rw [h.eq_ofEntries, h'.eq_ofEntries, ofEntries, ofEntries, hagree.ofList_eq]

/-! ## The items of a sorted map -/

/-- If the value is a map, its keys ascend, a loop visits them in this order, and they are
what has an item. -/
def VisitsKeys (v : Value) : Prop :=
  ∀ entries, v = .map entries →
    v.items? = some ((Entries.names entries).map .string)
      ∧ (Entries.names entries).Pairwise (· < ·)
      ∧ ∀ key, (v.item? key).isSome ↔ key ∈ Entries.names entries

theorem item?_map (entries : List (String × Value)) (key : String) :
    (Value.map entries).item? key = Entries.find? key entries := by
  simp [item?, locate?, Option.map_map, Function.comp_def]

theorem visitsKeys_of_ascending {entries : List (String × Value)} (h : Entries.Ascending entries) :
    (Value.map entries).VisitsKeys := by
  rintro _ ⟨rfl⟩
  refine ⟨?_, List.pairwise_map.2 h, fun key => ?_⟩
  · simp [items?, Entries.names, Function.comp_def]
  · rw [item?_map, Entries.isSome_find?_iff]

theorem IsSorted.visitsKeys {v : Value} (h : v.IsSorted) : v.VisitsKeys := by
  cases h with
  | mk hkeys _ =>
    rintro entries rfl
    exact visitsKeys_of_ascending (hkeys entries rfl) entries rfl

theorem BuiltFrom.visitsKeys {v : Value} {entries : Entries Value} (h : v.BuiltFrom entries) :
    v.VisitsKeys := by
  rw [h.eq_ofEntries]
  exact visitsKeys_of_ascending (Entries.ascending_ofList entries)

end Value

end Stencil
