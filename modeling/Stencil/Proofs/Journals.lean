-- SUMMARY: What a rendering writes, and that a tree renders alike in contexts that agree on the names it mentions.
import Stencil.Proofs.Layers

/-!
# Journals

A journal is a context with a record of all that has been bound in it, oldest
first, and it shows the values that this record leaves. It is a scope like any
other, so a tree renders in a journal as in the context, and the record afterwards
is what the rendering has written.

Two journals with the same record may stand over different contexts. If these agree
on a name, so do the journals, whatever has been written; so a tree writes the same
in both as long as they agree on the names that it mentions.
-/

namespace Stencil

/-! ## Setting entries in turn -/

namespace Entries

variable {α : Type}

theorem find?_append (name : String) (entries others : Entries α) :
    find? name (entries ++ others) = (find? name entries).or (find? name others) := by
  induction entries with
  | nil => rfl
  | cons entry entries ih =>
    simp only [List.cons_append, find?]
    split
    · rfl
    · exact ih

theorem exists_find?_of_mem_names {name : String} {entries : Entries α}
    (h : name ∈ entries.names) : ∃ value, find? name entries = some value := by
  induction entries with
  | nil => cases h
  | cons entry entries ih =>
    simp only [find?]
    split
    · exact ⟨_, rfl⟩
    · next hne =>
      rcases List.mem_cons.1 h with heq | hmem
      · exact absurd heq.symm hne
      · exact ih hmem

end Entries

namespace Dictionary

variable {α : Type}

theorem insertAll_concat (d : Dictionary α) (entries : Entries α) (name : String) (value : α) :
    d.insertAll (entries ++ [(name, value)]) = (d.insertAll entries).insert name value := by
  unfold insertAll
  rw [List.foldl_append]
  rfl

/-- Of several entries with one name the last counts, whatever was there before. -/
theorem get?_insertAll_eq (d : Dictionary α) (entries : Entries α) (name : String) :
    (d.insertAll entries).get? name = (Entries.find? name entries.reverse).or (d.get? name) := by
  induction entries generalizing d with
  | nil => rfl
  | cons entry entries ih =>
    have hstep : d.insertAll (entry :: entries) = (d.insert entry.1 entry.2).insertAll entries :=
      rfl
    rw [hstep, ih, List.reverse_cons, Entries.find?_append, get?_insert, Option.or_assoc]
    congr 1
    simp only [Entries.find?, eq_comm (a := name)]
    split
    · rfl
    · rfl

/-- Names that were set have the same value afterwards, whatever was there before. -/
theorem get?_insertAll_of_mem {entries : Entries α} {name : String}
    (h : name ∈ entries.names) (d e : Dictionary α) :
    (d.insertAll entries).get? name = (e.insertAll entries).get? name := by
  have hmem : name ∈ Entries.names entries.reverse := by
    unfold Entries.names at h ⊢
    rwa [List.map_reverse, List.mem_reverse]
  obtain ⟨value, hfind⟩ := Entries.exists_find?_of_mem_names hmem
  rw [get?_insertAll_eq, get?_insertAll_eq, hfind]
  rfl

end Dictionary

/-! ## Journals -/

/-- A context, and what has been bound in it since, oldest first. -/
structure Journal where
  base : Context
  writes : Entries Value

namespace Journal

/-- A journal in which nothing is written yet. -/
def ofContext (c : Context) : Journal := ⟨c, []⟩

/-- The context with all writes carried out. -/
def replay (j : Journal) : Context := j.base.insertAll j.writes

end Journal

instance : Scope Journal where
  lookup j name := j.replay.get? name
  bind j name v := ⟨j.base, j.writes ++ [(name, v)]⟩

/-- What rendering a tree in a context binds, in order. -/
def Node.writes (node : Node) (c : Context) : Entries Value :=
  (node.render (Journal.ofContext c)).scope.writes

namespace Journal

/-- The context on the right is what the writes have made of `base`. -/
def Records (base : Context) (j : Journal) (c : Context) : Prop := j.base = base ∧ j.replay = c

theorem replay_bind (j : Journal) (name : String) (v : Value) :
    (Scope.bind j name v).replay = j.replay.insert name v :=
  Dictionary.insertAll_concat j.base j.writes name v

theorem bisimulation_records (base : Context) :
    Bisimulation (fun _ => True) (Records base) where
  lookup := by
    rintro j c ⟨-, rfl⟩ name -
    rfl
  bind := by
    rintro j c ⟨hbase, rfl⟩ name v
    exact ⟨hbase, replay_bind j name v⟩

/-- The same has been written in both, over contexts that agree on the names with
`P`. -/
def Alike (P : String → Prop) (j k : Journal) : Prop :=
  j.writes = k.writes ∧ ∀ name, P name → j.base.get? name = k.base.get? name

theorem bisimulation_alike (P : String → Prop) : Bisimulation P (Alike P) where
  lookup := by
    rintro j k ⟨hwrites, hagree⟩ name hname
    show j.replay.get? name = k.replay.get? name
    unfold replay
    rw [Dictionary.get?_insertAll_eq, Dictionary.get?_insertAll_eq, hwrites, hagree name hname]
  bind := by
    rintro j k ⟨hwrites, hagree⟩ name v
    refine ⟨?_, hagree⟩
    show j.writes ++ _ = k.writes ++ _
    rw [hwrites]

end Journal

/-! ## Rendering in a journal -/

/-- Outcomes can be compared, so that a rendering on fixed inputs can be decided. -/
instance decidableEqExcept {ε α : Type} [DecidableEq ε] [DecidableEq α] :
    DecidableEq (Except ε α)
  | .error e, .error f => decidable_of_iff (e = f) (by rw [Except.error.injEq])
  | .ok a, .ok b => decidable_of_iff (a = b) (by rw [Except.ok.injEq])
  | .error _, .ok _ => isFalse nofun
  | .ok _, .error _ => isFalse nofun

namespace Node

open Journal

/-- A rendering shows in a journal what it shows in the context, and leaves the
context as its writes make it. -/
theorem render_eq_replay (node : Node) (c : Context) :
    node.render c = ⟨(node.render (ofContext c)).output, c.insertAll (node.writes c)⟩ := by
  have hstart : Records c (ofContext c) c := ⟨rfl, rfl⟩
  obtain ⟨houtput, hbase, hreplay⟩ :=
    (bisimulation_records c).simulates_render node (fun _ _ => trivial) _ _ hstart
  have hscope : (node.render c).scope = c.insertAll (node.writes c) := by
    rw [← hreplay, replay, hbase]
    rfl
  rw [houtput, ← hscope]

/-- In two contexts that agree on the names that a tree mentions, it renders to the
same output or error and writes the same values to the same names. What the contexts
hold besides has no part in this and stays as it is. -/
theorem render_of_agree_on_roots {node : Node} {c d : Context}
    (h : ∀ name ∈ node.roots, c.get? name = d.get? name) :
    let first := node.render c
    let second := node.render d
    first.output = second.output
      ∧ node.writes c = node.writes d
      ∧ first.scope = c.insertAll (node.writes c)
      ∧ second.scope = d.insertAll (node.writes d)
      ∧ ∀ name ∈ (node.writes c).names, first.scope.get? name = second.scope.get? name := by
  intro first second
  have hfirst := render_eq_replay node c
  have hsecond := render_eq_replay node d
  have hstart : Alike (· ∈ node.roots) (ofContext c) (ofContext d) := ⟨rfl, h⟩
  obtain ⟨houtput, hwrites, -⟩ :=
    (bisimulation_alike _).simulates_render node (fun _ hname => hname) _ _ hstart
  have hscope : first.scope = c.insertAll (node.writes c) := congrArg Outcome.scope hfirst
  have hscope' : second.scope = d.insertAll (node.writes c) := by
    rw [show node.writes c = node.writes d from hwrites]
    exact congrArg Outcome.scope hsecond
  refine ⟨?_, hwrites, hscope, ?_, ?_⟩
  · calc first.output
      _ = (node.render (ofContext c)).output := congrArg Outcome.output hfirst
      _ = (node.render (ofContext d)).output := houtput
      _ = second.output := (congrArg Outcome.output hsecond).symm
  · exact congrArg Outcome.scope hsecond
  · intro name hname
    rw [hscope, hscope']
    exact Dictionary.get?_insertAll_of_mem hname c d

/-- A loop that tests a name without a value, and a name that the loop leaves. -/
def flagged : Node :=
  .root [.forLoop "x" (.name ⟨"xs", []⟩)
      [.conditional (.truthy (.name ⟨"y", []⟩)) [.text "!" .origin] .origin,
        .placeholder ⟨"x", []⟩ .origin] .origin,
    .placeholder ⟨"index", []⟩ .origin, .placeholder ⟨"x", ["z"]⟩ .origin]

theorem render_of_agree_on_roots_flagged :
    let c : Context := .ofList [("xs", .list [.bool true, .bool false]), ("z", .null)]
    let d : Context := .ofList [("other", .bool true), ("xs", .list [.bool true, .bool false])]
    (∀ name ∈ flagged.roots, c.get? name = d.get? name)
      ∧ c.get? "z" ≠ d.get? "z"
      ∧ (flagged.render d).output = .error (.unresolved ⟨"x", ["z"]⟩)
      ∧ (flagged.render d).scope = d.insertAll
          [("index", .int 0), ("x", .bool true), ("index", .int 1), ("x", .bool false)] := by
  intro c d
  have hagree : ∀ name ∈ flagged.roots, c.get? name = d.get? name := by decide +kernel
  obtain ⟨houtput, hwrites, -, hscope, -⟩ := render_of_agree_on_roots hagree
  have hfails : (flagged.render c).output = .error (.unresolved ⟨"x", ["z"]⟩) := by decide +kernel
  have hbinds : flagged.writes c
      = [("index", .int 0), ("x", .bool true), ("index", .int 1), ("x", .bool false)] := by
    decide +kernel
  refine ⟨hagree, by decide +kernel, houtput.symm.trans hfails, ?_⟩
  rw [hscope, ← hwrites, hbinds]

end Node

end Stencil
