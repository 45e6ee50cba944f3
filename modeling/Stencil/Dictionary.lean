-- SUMMARY: Finite maps from names to anything, as entries in ascending order of their names.

/-!
# Dictionaries

A dictionary is a list of entries whose names strictly ascend, so two
dictionaries with the same entries are equal. Names are ordered by code points.
The functions on bare entries are shared with the maps inside values.
-/

namespace Stencil

/-- Names with what belongs to them. -/
abbrev Entries (α : Type) := List (String × α)

namespace Entries

variable {α β : Type}

/-- What belongs to the first entry with a name. -/
def find? (name : String) : Entries α → Option α
  | [] => none
  | (key, value) :: rest => if key = name then some value else find? name rest

/-- Puts an entry in its place, over an older one of that name. -/
def insert (name : String) (value : α) : Entries α → Entries α
  | [] => [(name, value)]
  | (key, old) :: rest =>
    if name < key then (name, value) :: (key, old) :: rest
    else if name = key then (name, value) :: rest
    else (key, old) :: insert name value rest

/-- The entries with other names. -/
def erase (name : String) (entries : Entries α) : Entries α :=
  entries.filter (·.1 ≠ name)

/-- The entries in order of their names. Of several with one name the last
stays. -/
def ofList (entries : Entries α) : Entries α :=
  entries.foldl (fun sorted entry => insert entry.1 entry.2 sorted) []

/-- The names, in order. -/
def names (entries : Entries α) : List String := entries.map (·.1)

/-- The names strictly ascend. -/
def Ascending (entries : Entries α) : Prop := entries.Pairwise (·.1 < ·.1)

/-! ## Order is kept -/

theorem mem_insert {entry : String × α} {name : String} {value : α} {entries : Entries α}
    (h : entry ∈ insert name value entries) : entry = (name, value) ∨ entry ∈ entries := by
  fun_induction insert name value entries with
  | case1 => simp_all
  | case2 => simp_all
  | case3 => simp_all; grind
  | case4 key old rest _ _ ih =>
    rcases List.mem_cons.1 h with h | h
    · exact .inr (h ▸ List.mem_cons_self)
    · exact (ih h).imp id (List.mem_cons_of_mem _)

theorem ascending_insert {name : String} {value : α} {entries : Entries α}
    (h : Ascending entries) : Ascending (insert name value entries) := by
  fun_induction insert name value entries with
  | case1 => simp [Ascending]
  | case2 key old rest hlt =>
    refine List.pairwise_cons.2 ⟨fun entry hmem => ?_, h⟩
    rcases List.mem_cons.1 hmem with rfl | hrest
    · exact hlt
    · exact String.lt_trans hlt ((List.pairwise_cons.1 h).1 entry hrest)
  | case3 old rest hlt =>
    exact List.pairwise_cons.2 (List.pairwise_cons.1 h)
  | case4 key old rest hlt hne ih =>
    have hlt' : key < name := by
      rcases Std.lt_trichotomy key name with h | h | h
      · exact h
      · exact absurd h.symm hne
      · exact absurd h hlt
    refine List.pairwise_cons.2 ⟨fun entry hmem => ?_, ih (List.pairwise_cons.1 h).2⟩
    rcases mem_insert hmem with rfl | hrest
    · exact hlt'
    · exact (List.pairwise_cons.1 h).1 entry hrest

theorem ascending_erase {name : String} {entries : Entries α} (h : Ascending entries) :
    Ascending (erase name entries) :=
  h.filter _

theorem ascending_ofList (entries : Entries α) : Ascending (ofList entries) := by
  suffices h : ∀ sorted : Entries α, Ascending sorted →
      Ascending (entries.foldl (fun sorted entry => insert entry.1 entry.2 sorted) sorted) from
    h [] List.Pairwise.nil
  induction entries with
  | nil => exact fun sorted h => h
  | cons entry rest ih => exact fun sorted h => ih _ (ascending_insert h)

/-! ## Looking up -/

theorem find?_eq_none_of_lt {name : String} {entries : Entries α}
    (h : ∀ entry ∈ entries, name < entry.1) : find? name entries = none := by
  induction entries with
  | nil => rfl
  | cons entry rest ih =>
    have hne : entry.1 ≠ name := by
      rintro rfl
      exact String.lt_irrefl _ (h entry List.mem_cons_self)
    simp [find?, hne, ih fun e he => h e (List.mem_cons_of_mem _ he)]

/-- An inserted entry is found, and no other entry changes. -/
theorem find?_insert (entries : Entries α) (name other : String) (value : α) :
    find? other (insert name value entries)
      = if other = name then some value else find? other entries := by
  fun_induction insert name value entries with
  | case1 => simp [find?, eq_comm]
  | case2 key old rest hlt => simp [find?, eq_comm]
  | case3 old rest => simp only [find?]; grind
  | case4 key old rest hlt hne ih => simp only [find?, ih]; grind

theorem find?_erase (entries : Entries α) (name other : String) :
    find? other (erase name entries) = if other = name then none else find? other entries := by
  induction entries with
  | nil => simp [erase, find?]
  | cons entry rest ih =>
    simp only [erase] at ih
    simp only [erase, List.filter_cons, find?]
    grind [find?]

/-- Ascending entries are determined by what is found in them. -/
theorem eq_of_find?_eq {entries others : Entries α} (h : Ascending entries)
    (h' : Ascending others) (hfind : ∀ name, find? name entries = find? name others) :
    entries = others := by
  induction entries generalizing others with
  | nil =>
    cases others with
    | nil => rfl
    | cons other others => simpa [find?] using hfind other.1
  | cons entry entries ih =>
    cases others with
    | nil => simpa [find?] using hfind entry.1
    | cons other others =>
      obtain ⟨hlt, hrest⟩ := List.pairwise_cons.1 h
      obtain ⟨hlt', hrest'⟩ := List.pairwise_cons.1 h'
      have hname : entry.1 = other.1 := by
        rcases Std.lt_trichotomy entry.1 other.1 with hord | hord | hord
        · have hnone : find? entry.1 others = none :=
            find?_eq_none_of_lt fun e he => String.lt_trans hord (hlt' e he)
          have := hfind entry.1
          simp only [find?, if_pos, hnone] at this
          grind
        · exact hord
        · have hnone : find? other.1 entries = none :=
            find?_eq_none_of_lt fun e he => String.lt_trans hord (hlt e he)
          have := hfind other.1
          simp only [find?, if_pos, hnone] at this
          grind
      have hvalue : entry.2 = other.2 := by
        have := hfind entry.1
        simpa [find?, hname] using this
      have htail : entries = others := by
        refine ih hrest hrest' fun name => ?_
        by_cases hn : name = entry.1
        · subst hn
          rw [find?_eq_none_of_lt hlt, find?_eq_none_of_lt (hname ▸ hlt')]
        · have := hfind name
          simpa [find?, Ne.symm hn, hname ▸ Ne.symm hn] using this
      rw [htail, Prod.ext hname hvalue]

end Entries

/-- Entries in ascending order of their names. -/
structure Dictionary (α : Type) where
  entries : Entries α
  ascending : entries.Ascending

namespace Dictionary

variable {α : Type}

@[ext] theorem ext {d e : Dictionary α} (h : d.entries = e.entries) : d = e := by
  cases d; cases e; cases h; rfl

/-- The dictionary without entries. -/
def empty : Dictionary α := ⟨[], List.Pairwise.nil⟩

/-- What belongs to a name. -/
def get? (d : Dictionary α) (name : String) : Option α := d.entries.find? name

/-- Whether a name has an entry. -/
def contains (d : Dictionary α) (name : String) : Bool := (d.get? name).isSome

/-- Sets the entry of a name. -/
def insert (d : Dictionary α) (name : String) (value : α) : Dictionary α :=
  ⟨d.entries.insert name value, Entries.ascending_insert d.ascending⟩

/-- Removes the entry of a name. -/
def erase (d : Dictionary α) (name : String) : Dictionary α :=
  ⟨d.entries.erase name, Entries.ascending_erase d.ascending⟩

/-- Sets several entries in turn. -/
def insertAll (d : Dictionary α) (entries : Entries α) : Dictionary α :=
  entries.foldl (fun d entry => d.insert entry.1 entry.2) d

/-- The dictionary of some entries. Of several with one name the last stays. -/
def ofList (entries : Entries α) : Dictionary α :=
  ⟨Entries.ofList entries, Entries.ascending_ofList entries⟩

/-- How many entries there are. -/
def size (d : Dictionary α) : Nat := d.entries.length

/-- Whether there are no entries. -/
def isEmpty (d : Dictionary α) : Bool := d.entries.isEmpty

/-! ## Laws -/

theorem get?_insert (d : Dictionary α) (name other : String) (value : α) :
    (d.insert name value).get? other = if other = name then some value else d.get? other :=
  Entries.find?_insert ..

theorem get?_erase (d : Dictionary α) (name other : String) :
    (d.erase name).get? other = if other = name then none else d.get? other :=
  Entries.find?_erase ..

/-- Dictionaries in which every name has the same value are the same. -/
theorem eq_of_get?_eq {d e : Dictionary α} (h : ∀ name, d.get? name = e.get? name) : d = e :=
  ext (Entries.eq_of_find?_eq d.ascending e.ascending h)

end Dictionary

end Stencil
