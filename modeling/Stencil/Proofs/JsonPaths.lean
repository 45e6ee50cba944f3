-- SUMMARY: Following a path through JSON data and converting what it leads to is the same as following it through the converted data.
import Stencil.Proofs.Indexing
import Stencil.Proofs.Rounding

/-!
# Paths through JSON Data

A path leads through JSON data without any conversion: a segment takes a member of an object,
an item of an array or a character of a string. Converting the data takes every such part to
the part of the converted value under the same segment, and gives no value a part of another
kind. So a path resolves in the context of a JSON object exactly if it leads somewhere in the
object, and it resolves to what is converted there.
-/

namespace Stencil

theorem Entries.find?_map {α β : Type} (f : α → β) (name : String) (entries : Entries α) :
    find? name (entries.map fun entry => (entry.1, f entry.2)) = (find? name entries).map f := by
  induction entries with
  | nil => rfl
  | cons entry entries ih =>
    rw [List.map_cons, find?, find?, ih]
    split
    · rfl
    · rfl

namespace Resolved

theorem value_part?_map {r : Resolved} {entries : Entries Value} (h : r.value = .map entries)
    (key : String) : (r.part? key).map (·.value) = Entries.find? key entries := by
  simp only [part?, h, Value.attribute?, Value.locate?, Value.character?]
  cases Entries.find? key entries with
  | none => rfl
  | some item => rfl

/-- Where a loop has nothing to visit and there are no attributes, no segment leads on. -/
theorem part?_eq_none {r : Resolved} (hitems : r.value.items? = none)
    (hobject : r.value.kind ≠ .object) (segment : String) : r.part? segment = none := by
  obtain ⟨v, slot⟩ := r
  cases v with
  | object => exact absurd rfl hobject
  | list | tuple | string | map => cases hitems
  | _ => rfl

end Resolved

namespace Json

/-! ## Following a path -/

/-- What a segment leads to. Of several members with one name the last counts. There is no
way on from null, booleans and numbers. -/
inductive LeadsTo : Json → String → Json → Prop where
  | member {members : List (String × Json)} {name : String} {item : Json}
      (h : Entries.find? name members.reverse = some item) : LeadsTo (.object members) name item
  | item {items : List Json} {index : String} {place : Nat} {item : Json}
      (hindex : Text.IsIndex items.length index.toList place) (h : items[place]? = some item) :
      LeadsTo (.array items) index item
  | character {s index : String} {place : Nat} {c : Char}
      (hindex : Text.IsIndex s.toList.length index.toList place)
      (h : s.toList[place]? = some c) : LeadsTo (.string s) index (.string (String.singleton c))

/-- What segments lead to, one after another. -/
inductive Reaches : Json → List String → Json → Prop where
  | here (json : Json) : Reaches json [] json
  | step {json next last : Json} {segment : String} {segments : List String}
      (h : LeadsTo json segment next) (hrest : Reaches next segments last) :
      Reaches json (segment :: segments) last

/-! ## Converting -/

theorem itemsToValues_eq_map (items : List Json) : itemsToValues items = items.map toValue := by
  induction items with
  | nil => rfl
  | cons item items ih => rw [itemsToValues, ih, List.map_cons]

theorem membersToEntries_eq_map (members : List (String × Json)) :
    membersToEntries members = members.map fun member => (member.1, member.2.toValue) := by
  induction members with
  | nil => rfl
  | cons member members ih => rw [membersToEntries, ih, List.map_cons]

theorem find?_membersToEntries (members : List (String × Json)) (name : String) :
    Entries.find? name (Entries.ofList (membersToEntries members))
      = (Entries.find? name members.reverse).map toValue := by
  rw [Entries.find?_ofList, membersToEntries_eq_map, ← List.map_reverse, Entries.find?_map]

/-- Nothing is converted to a function. -/
theorem returned_toValue (json : Json) : json.toValue.returned = json.toValue := by
  cases json with
  | whole n =>
    rw [toValue, Value.ofInt]
    split
    · rfl
    · rfl
  | _ => rfl

theorem items?_ofInt (n : Int) : (Value.ofInt n).items? = none := by
  unfold Value.ofInt
  split
  · rfl
  · rfl

theorem kind_ofInt_ne (n : Int) : (Value.ofInt n).kind ≠ .object := by
  unfold Value.ofInt
  split
  · nofun
  · nofun

theorem value_part?_sequence {r : Resolved} {items : List Value} (hkind : r.value.IsSequence)
    (hitems : r.value.items? = some items) {index : String} {v : Value} :
    (r.part? index).map (·.value) = some v
      ↔ ∃ place, Text.IsIndex items.length index.toList place ∧ items[place]? = some v := by
  rw [Resolved.value_part?_index hkind hitems, Option.bind_eq_some_iff]
  simp only [Value.position?_eq_some_iff_isIndex]

/-- The parts of a converted value are the converted parts. -/
theorem value_part?_toValue {r : Resolved} {json : Json} (hr : r.value = json.toValue)
    {segment : String} {v : Value} :
    (r.part? segment).map (·.value) = some v
      ↔ ∃ next, json.LeadsTo segment next ∧ next.toValue = v := by
  cases json with
  | object members =>
    rw [Resolved.value_part?_map hr, find?_membersToEntries, Option.map_eq_some_iff]
    constructor
    · rintro ⟨item, hfind, rfl⟩
      exact ⟨item, .member hfind, rfl⟩
    · rintro ⟨item, hnext, rfl⟩
      cases hnext with
      | member hfind => exact ⟨item, hfind, rfl⟩
  | array items =>
    rw [value_part?_sequence (hr ▸ .inl rfl) (congrArg Value.items? hr), itemsToValues_eq_map,
      List.length_map]
    constructor
    · rintro ⟨place, hindex, hitem⟩
      rw [List.getElem?_map] at hitem
      obtain ⟨item, hplace, rfl⟩ := Option.map_eq_some_iff.1 hitem
      exact ⟨item, .item hindex hplace, rfl⟩
    · rintro ⟨item, hnext, rfl⟩
      cases hnext with
      | item hindex hplace =>
        exact ⟨_, hindex, by rw [List.getElem?_map, hplace, Option.map_some]⟩
  | string s =>
    rw [value_part?_sequence (hr ▸ .inr (.inr rfl)) (congrArg Value.items? hr), List.length_map]
    constructor
    · rintro ⟨place, hindex, hitem⟩
      rw [List.getElem?_map] at hitem
      obtain ⟨c, hplace, rfl⟩ := Option.map_eq_some_iff.1 hitem
      exact ⟨_, .character hindex hplace, rfl⟩
    · rintro ⟨next, hnext, rfl⟩
      cases hnext with
      | character hindex hplace =>
        refine ⟨_, hindex, ?_⟩
        rw [List.getElem?_map, hplace]
        rfl
  | whole n =>
    rw [Resolved.part?_eq_none (hr ▸ items?_ofInt n) (hr ▸ kind_ofInt_ne n)]
    exact iff_of_false nofun fun ⟨_, hnext, _⟩ => nomatch hnext
  | null | bool | float =>
    rw [Resolved.part?_eq_none (hr ▸ rfl) (hr ▸ nofun)]
    exact iff_of_false nofun fun ⟨_, hnext, _⟩ => nomatch hnext

theorem value_step?_toValue {r : Resolved} {json : Json} (hr : r.value = json.toValue)
    {segment : String} {v : Value} :
    (r.step? segment).map (·.value) = some v
      ↔ ∃ next, json.LeadsTo segment next ∧ next.toValue = v := by
  have hreturned : (r.step? segment).map (·.value)
      = ((r.part? segment).map (·.value)).map Value.returned := by
    unfold Resolved.step?
    cases r.part? segment with
    | none => rfl
    | some part => exact congrArg some part.value_call_eq
  rw [hreturned, Option.map_eq_some_iff]
  constructor
  · rintro ⟨w, hpart, rfl⟩
    obtain ⟨next, hnext, rfl⟩ := (value_part?_toValue hr).1 hpart
    exact ⟨next, hnext, (returned_toValue next).symm⟩
  · rintro ⟨next, hnext, rfl⟩
    exact ⟨next.toValue, (value_part?_toValue hr).2 ⟨next, hnext, rfl⟩, returned_toValue next⟩

/-- Segments lead from a converted value to what is converted at the end of their way. -/
theorem value_follow?_toValue {r : Resolved} {json : Json} (hr : r.value = json.toValue)
    {segments : List String} {v : Value} :
    (r.follow? segments).map (·.value) = some v
      ↔ ∃ last, json.Reaches segments last ∧ last.toValue = v := by
  induction segments generalizing r json with
  | nil =>
    constructor
    · intro h
      exact ⟨json, .here json, hr.symm.trans (Option.some.inj h)⟩
    · rintro ⟨last, hlast, rfl⟩
      cases hlast with
      | here => exact congrArg some hr
  | cons segment segments ih =>
    rw [Resolved.follow?_cons]
    constructor
    · intro h
      obtain ⟨r', hfollow, hv⟩ := Option.map_eq_some_iff.1 h
      obtain ⟨part, hstep, hrest⟩ := Option.bind_eq_some_iff.1 hfollow
      obtain ⟨next, hnext, hpart⟩ :=
        (value_step?_toValue hr).1 (congrArg (Option.map (·.value)) hstep)
      obtain ⟨last, hlast, hvalue⟩ :=
        (ih hpart.symm).1 ((congrArg (Option.map (·.value)) hrest).trans (congrArg some hv))
      exact ⟨last, .step hnext hlast, hvalue⟩
    · rintro ⟨last, hlast, rfl⟩
      cases hlast with
      | step hnext hrest =>
        obtain ⟨part, hstep, hpart⟩ :=
          Option.map_eq_some_iff.1 ((value_step?_toValue hr).2 ⟨_, hnext, rfl⟩)
        rw [hstep, Option.bind_some]
        exact (ih hpart).2 ⟨last, hrest, rfl⟩

/-! ## Numbers -/

theorem toValue_whole_of_fits {n : Int} {i : Int64} (h : i.toInt = n) :
    (Json.whole n).toValue = .int i := by
  rw [toValue, Value.ofInt, Literal.int64?_eq_some_iff.2 h]

theorem toValue_whole_of_not_fits {n : Int} (h : ∀ i : Int64, i.toInt ≠ n) :
    (Json.whole n).toValue = .float (.ofInt n) := by
  have hnone : Text.int64? n = none :=
    Option.eq_none_iff_forall_ne_some.2 fun i hi => h i (Literal.int64?_eq_some_iff.1 hi)
  rw [toValue, Value.ofInt, hnone]

/-! ## Contexts -/

/-- What is found is what is converted where the segments lead, and something is found exactly
if they lead somewhere. -/
def FindsConverted (json : Json) (segments : List String) (found : Except TemplateError Value) :
    Prop :=
  ((∃ v, found = .ok v) ↔ ∃ last, json.Reaches segments last)
    ∧ ∀ v last, found = .ok v → json.Reaches segments last → v = last.toValue

theorem findsConverted_of_iff {json : Json} {segments : List String}
    {found : Except TemplateError Value}
    (h : ∀ v, found = .ok v ↔ ∃ last, json.Reaches segments last ∧ last.toValue = v) :
    json.FindsConverted segments found := by
  refine ⟨⟨?_, ?_⟩, ?_⟩
  · rintro ⟨v, hv⟩
    obtain ⟨last, hlast, -⟩ := (h v).1 hv
    exact ⟨last, hlast⟩
  · rintro ⟨last, hlast⟩
    exact ⟨last.toValue, (h _).2 ⟨last, hlast, rfl⟩⟩
  · intro v last hv hlast
    exact Except.ok.inj (hv.symm.trans ((h _).2 ⟨last, hlast, rfl⟩))

theorem ok_map_iff {α β : Type} {f : α → β} {x : Except TemplateError α} {b : β} :
    x.map f = .ok b ↔ x.toOption.map f = some b := by
  cases x with
  | error e => exact iff_of_false nofun nofun
  | ok a => simp only [Except.map, Except.toOption, Option.map_some, Except.ok.injEq, Option.some.injEq]

/-- A path resolves in the context of an object as it leads through the object. -/
theorem resolve_eq_ok_iff (members : List (String × Json)) (p : Path) (v : Value) :
    (p.resolve (Dictionary.ofList (membersToEntries members))).map (·.value) = .ok v
      ↔ ∃ last, (Json.object members).Reaches p.segments last ∧ last.toValue = v := by
  have hlookup : Scope.lookup (Dictionary.ofList (membersToEntries members)) p.root
      = (Entries.find? p.root members.reverse).map toValue := find?_membersToEntries members p.root
  rw [ok_map_iff, Path.toOption_resolve, hlookup]
  cases hfind : Entries.find? p.root members.reverse with
  | none =>
    refine iff_of_false nofun ?_
    rintro ⟨last, hlast, -⟩
    cases hlast with
    | step hnext _ =>
      cases hnext with
      | member h => cases hfind.symm.trans h
  | some item =>
    rw [Option.map_some, Option.bind_some, value_follow?_toValue rfl]
    constructor
    · rintro ⟨last, hlast, rfl⟩
      exact ⟨last, .step (.member hfind) hlast, rfl⟩
    · rintro ⟨last, hlast, rfl⟩
      cases hlast with
      | step hnext hrest =>
        cases hnext with
        | member h =>
          obtain rfl := Option.some.inj (hfind.symm.trans h)
          exact ⟨last, hrest, rfl⟩

theorem findsConverted_resolve (members : List (String × Json)) (p : Path) :
    (Json.object members).FindsConverted p.segments
      ((p.resolve (Dictionary.ofList (membersToEntries members))).map (·.value)) :=
  findsConverted_of_iff (resolve_eq_ok_iff members p)

theorem ofJson_eq_error {json : Json} (h : ∀ members, json ≠ .object members) :
    Context.ofJson json = .error (.mistyped (.notAnObject json.toValue.kind)) := by
  cases json with
  | object members => exact absurd rfl (h members)
  | _ => rfl

end Json

/-- The context of a JSON object has what is converted where a path leads in the object, and
nothing where the path leads nowhere. Whole numbers of 64 bits are converted to integers, all
others to the float that is nearest, and JSON data that is no object has no context. -/
theorem Context.ofJson_commutes (json : Json) :
    (∀ members, json = .object members → ∃ c, Context.ofJson json = .ok c
        ∧ (∀ p : Path, json.FindsConverted p.segments ((p.resolve c).map (·.value)))
        ∧ ∀ segments : List String, segments ≠ [] → (∀ segment ∈ segments, '.' ∉ segment.toList) →
          json.FindsConverted segments (c.resolve (".".intercalate segments)))
      ∧ ((∀ members, json ≠ .object members) →
        Context.ofJson json = .error (.mistyped (.notAnObject json.toValue.kind)))
      ∧ (∀ (n : Int) (i : Int64), i.toInt = n → (Json.whole n).toValue = .int i)
      ∧ (∀ n : Int, (∀ i : Int64, i.toInt ≠ n) →
        ∃ x, (Json.whole n).toValue = .float x ∧ x.IsNearest n)
      ∧ ∀ x, (Json.float x).toValue = .float x := by
  refine ⟨?_, Json.ofJson_eq_error, ?_, ?_, fun x => rfl⟩
  · rintro members rfl
    refine ⟨_, rfl, Json.findsConverted_resolve members, ?_⟩
    intro segments hne hdots
    obtain ⟨root, rest, rfl⟩ := List.exists_cons_of_ne_nil hne
    have hpath := Json.findsConverted_resolve members (Path.ofString (".".intercalate (root :: rest)))
    have hsegments : (Path.ofString (".".intercalate (root :: rest))).segments = root :: rest := by
      rw [Path.ofString_intercalate hdots]
      rfl
    rwa [hsegments] at hpath
  · intro n i hi
    exact Json.toValue_whole_of_fits hi
  · intro n hn
    exact ⟨_, Json.toValue_whole_of_not_fits hn, Binary64.isNearest_ofInt n⟩

/-- An object with two members of one name, of which the second has a string inside an object
inside an array. -/
def Json.nested : Json :=
  .object [("a", .null), ("a", .array [.object [("-1", .string "hé")], .whole (2 ^ 64)])]

theorem Context.ofJson_commutes_nested :
    (∃ members, Json.nested = .object members) ∧ ["a", "0", "-1", "-1"] ≠ []
      ∧ (∀ segment ∈ ["a", "0", "-1", "-1"], '.' ∉ segment.toList)
      ∧ Json.nested.Reaches ["a", "0", "-1", "-1"] (.string "é")
      ∧ (∃ c, Context.ofJson Json.nested = .ok c
        ∧ c.resolve (".".intercalate ["a", "0", "-1", "-1"]) = .ok (.string "é"))
      ∧ (∀ members, Json.whole 3 ≠ .object members)
      ∧ Context.ofJson (.whole 3) = .error (.mistyped (.notAnObject .int))
      ∧ Int64.maxValue.toInt = 2 ^ 63 - 1 ∧ (Json.whole (2 ^ 63 - 1)).toValue = .int Int64.maxValue
      ∧ (∀ i : Int64, i.toInt ≠ 2 ^ 64)
      ∧ ∃ x, (Json.whole (2 ^ 64)).toValue = .float x ∧ x.IsNearest (2 ^ 64 : Int) := by
  have hne : ["a", "0", "-1", "-1"] ≠ [] := List.cons_ne_nil _ _
  have hdots : ∀ segment ∈ ["a", "0", "-1", "-1"], '.' ∉ segment.toList := by decide
  have hfirst : Text.IsIndex 2 "0".toList 0 :=
    Value.position?_eq_some_iff_isIndex.1 (by decide +kernel)
  have hlast : Text.IsIndex "hé".toList.length "-1".toList 1 :=
    Value.position?_eq_some_iff_isIndex.1 (by decide +kernel)
  have hreaches : Json.nested.Reaches ["a", "0", "-1", "-1"] (.string "é") :=
    .step (.member rfl) (.step (.item hfirst rfl) (.step (.member rfl)
      (.step (.character hlast rfl) (.here _))))
  have hobject : ∀ members, Json.whole 3 ≠ .object members := nofun
  have hmax : Int64.maxValue.toInt = 2 ^ 63 - 1 := by decide
  have hlarge : ∀ i : Int64, i.toInt ≠ 2 ^ 64 := by
    intro i hi
    have := i.toInt_lt
    omega
  obtain ⟨hcontext, -⟩ := ofJson_commutes Json.nested
  obtain ⟨-, herror, hfits, hnearest, -⟩ := ofJson_commutes (.whole 3)
  obtain ⟨c, hc, -, hpaths⟩ := hcontext _ rfl
  obtain ⟨hfound, hvalue⟩ := hpaths _ hne hdots
  obtain ⟨v, hv⟩ := hfound.2 ⟨_, hreaches⟩
  have hresolve : c.resolve (".".intercalate ["a", "0", "-1", "-1"]) = .ok (.string "é") := by
    rw [hv, hvalue v _ hv hreaches]
    rfl
  exact ⟨⟨_, rfl⟩, hne, hdots, hreaches, ⟨c, hc, hresolve⟩, hobject, herror hobject, hmax,
    hfits _ _ hmax, hlarge, hnearest _ hlarge⟩

end Stencil
