-- SUMMARY: Which operands are one and the same: those in one slot, and those whose values are the same by themselves.
import Stencil.Proofs.Equality
import Stencil.Proofs.PathComposition
import Stencil.Render

/-!
# Laws of Identity

A path that leads through items alone, none of them a function on the way, ends in a slot:
its root name with the keys and positions of its steps. How an index is written does not
matter, only the position that it counts to. Everything else is a copy. Two operands are
identical if they are in one slot, or if their values are the same by themselves, as null,
booleans, objects and functions are. So identity implies equality, but for values that do
not equal themselves.
-/

namespace Stencil

/-! ## Ways through items -/

namespace Value

/-- Whether copies of a value are the same as the value. -/
def isShared : Value → Bool
  | .null | .bool _ | .object .. | .function .. => true
  | _ => false

/-- A function, which is called if a segment leads to it. -/
def IsFunction (v : Value) : Prop := v.kind = .function

/-- A segment leads to an item: to that of a key of a map, or to that at a position of a
list or tuple, which an index counts to from the front or from the end. -/
inductive LeadsTo : Value → String → Step → Value → Prop where
  | key {entries : List (String × Value)} {key : String} {item : Value} :
    Entries.find? key entries = some item → LeadsTo (.map entries) key (.key key) item
  | position {v : Value} {items : List Value} {index : String} {i : Int64} {place : Nat}
      {item : Value} :
    v = .list items ∨ v = .tuple items → Text.readInt64? index.toList = some i →
    i.toInt = place ∨ i.toInt + items.length = place → items[place]? = some item →
    LeadsTo v index (.position place) item

/-- Segments lead through items alone, and none of these is a function. -/
inductive Reaches : Value → List String → List Step → Value → Prop where
  | here {v : Value} : Reaches v [] [] v
  | there {v item w : Value} {segment : String} {segments : List String} {step : Step}
      {steps : List Step} :
    LeadsTo v segment step item → ¬item.IsFunction → Reaches item segments steps w →
    Reaches v (segment :: segments) (step :: steps) w

theorem position?_eq_some_iff {size : Nat} {index : String} {place : Nat} :
    position? size index = some place ↔ ∃ i : Int64, Text.readInt64? index.toList = some i
      ∧ (i.toInt = place ∨ i.toInt + size = place) ∧ place < size := by
  simp only [position?, Option.bind_eq_some_iff]
  refine exists_congr fun i => and_congr_right fun _ => ?_
  split
  · split
    · rw [Option.some.injEq]
      omega
    · simp only [reduceCtorEq, false_iff]
      omega
  · split
    · rw [Option.some.injEq]
      omega
    · simp only [reduceCtorEq, false_iff]
      omega

theorem locateItem?_eq_some_iff {items : List Value} {index : String} {step : Step} {item : Value} :
    locateItem? items index = some (step, item) ↔ ∃ place,
      position? items.length index = some place ∧ items[place]? = some item
        ∧ step = .position place := by
  simp only [locateItem?, Option.bind_eq_some_iff, Option.map_eq_some_iff, Prod.mk.injEq]
  constructor
  · rintro ⟨place, hplace, found, hfound, rfl, rfl⟩
    exact ⟨place, hplace, hfound, rfl⟩
  · rintro ⟨place, hplace, hitem, rfl⟩
    exact ⟨place, hplace, item, hitem, rfl, rfl⟩

theorem leadsTo_of_locateItem? {v : Value} {items : List Value} {index : String} {step : Step}
    {item : Value} (hv : v = .list items ∨ v = .tuple items)
    (h : locateItem? items index = some (step, item)) : LeadsTo v index step item := by
  obtain ⟨place, hplace, hitem, rfl⟩ := locateItem?_eq_some_iff.1 h
  obtain ⟨i, hi, hcounts, -⟩ := position?_eq_some_iff.1 hplace
  exact .position hv hi hcounts hitem

theorem locate?_eq_some_iff {v item : Value} {segment : String} {step : Step} :
    v.locate? segment = some (step, item) ↔ LeadsTo v segment step item := by
  constructor
  · intro h
    cases v with
    | map entries =>
      obtain ⟨found, hfound, heq⟩ := Option.map_eq_some_iff.1 h
      obtain ⟨rfl, rfl⟩ := Prod.mk.inj heq
      exact .key hfound
    | list items => exact leadsTo_of_locateItem? (.inl rfl) h
    | tuple items => exact leadsTo_of_locateItem? (.inr rfl) h
    | _ => cases h
  · intro h
    cases h with
    | key hfind => exact Option.map_eq_some_iff.2 ⟨_, hfind, rfl⟩
    | @position _ items _ i place _ hv hi hcounts hitem =>
      obtain ⟨hlt, -⟩ := List.getElem?_eq_some_iff.1 hitem
      have hplace := position?_eq_some_iff.2 ⟨i, hi, hcounts, hlt⟩
      have hlocate := locateItem?_eq_some_iff.2 ⟨place, hplace, hitem, rfl⟩
      rcases hv with rfl | rfl
      · exact hlocate
      · exact hlocate

theorem LeadsTo.attribute?_eq_none {v item : Value} {segment : String} {step : Step}
    (h : LeadsTo v segment step item) (name : String) : v.attribute? name = none := by
  cases h with
  | key => rfl
  | position hv => rcases hv with rfl | rfl <;> rfl

/-- A step leads to one item only, however the segment is written. -/
theorem LeadsTo.functional {v item other : Value} {segment segment' : String} {step : Step}
    (h : LeadsTo v segment step item) (h' : LeadsTo v segment' step other) : item = other := by
  cases h with
  | key hfind =>
    cases h' with
    | key hfind' => exact Option.some.inj (hfind.symm.trans hfind')
  | @position _ items _ _ _ _ hv _ _ hitem =>
    cases h' with
    | @position _ items' _ _ _ _ hv' _ _ hitem' =>
      have hitems : items = items' := by
        rcases hv with rfl | rfl
        · simpa using hv'
        · simpa using hv'
      rw [hitems] at hitem
      exact Option.some.inj (hitem.symm.trans hitem')

theorem Reaches.functional {v w other : Value} {segments segments' : List String}
    {steps : List Step} (h : Reaches v segments steps w) (h' : Reaches v segments' steps other) :
    w = other := by
  induction h generalizing segments' with
  | here =>
    cases h' with
    | here => rfl
  | there hstep _ _ ih =>
    cases h' with
    | there hstep' _ hrest' =>
      obtain rfl := hstep.functional hstep'
      exact ih hrest'

end Value

/-! ## Slots -/

namespace Resolved

open Value

theorem call_eq_slot_iff {r : Resolved} {w : Value} {slot : Slot} :
    r.call = ⟨w, some slot⟩ ↔ r = ⟨w, some slot⟩ ∧ ¬w.IsFunction := by
  obtain ⟨v, slot?⟩ := r
  cases v with
  | function handle result =>
    constructor
    · intro h
      cases h
    · rintro ⟨h, hfunction⟩
      cases h
      exact absurd rfl hfunction
  | _ =>
    refine ⟨fun h => ⟨h, ?_⟩, fun h => h.1⟩
    cases h
    exact nofun

theorem part?_eq_slot_iff {r : Resolved} {segment : String} {w : Value} {slot : Slot} :
    r.part? segment = some ⟨w, some slot⟩ ↔ ∃ start step, r.slot = some start
      ∧ LeadsTo r.value segment step w ∧ slot = ⟨start.root, start.steps ++ [step]⟩ := by
  constructor
  · intro h
    unfold part? at h
    split at h
    · cases h
    · split at h
      · next step item hlocate =>
        obtain ⟨rfl, hslot⟩ := Resolved.mk.inj (Option.some.inj h)
        obtain ⟨start, hstart, rfl⟩ := Option.map_eq_some_iff.1 hslot
        exact ⟨start, step, hstart, locate?_eq_some_iff.1 hlocate, rfl⟩
      · obtain ⟨_, _, hcopy⟩ := Option.map_eq_some_iff.1 h
        cases hcopy
  · rintro ⟨start, step, hstart, hleads, rfl⟩
    simp only [part?, hleads.attribute?_eq_none, locate?_eq_some_iff.2 hleads, hstart,
      Option.map_some]

/-- A step ends in a slot if it starts in one and leads to an item that is not a function. -/
theorem step?_eq_slot_iff {r : Resolved} {segment : String} {w : Value} {slot : Slot} :
    r.step? segment = some ⟨w, some slot⟩ ↔ ∃ start step, r.slot = some start
      ∧ LeadsTo r.value segment step w ∧ ¬w.IsFunction
      ∧ slot = ⟨start.root, start.steps ++ [step]⟩ := by
  rw [step?, Option.map_eq_some_iff]
  simp only [call_eq_slot_iff]
  constructor
  · rintro ⟨_, hpart, rfl, hfunction⟩
    obtain ⟨start, step, hstart, hleads, hslot⟩ := part?_eq_slot_iff.1 hpart
    exact ⟨start, step, hstart, hleads, hfunction, hslot⟩
  · rintro ⟨start, step, hstart, hleads, hfunction, hslot⟩
    exact ⟨_, part?_eq_slot_iff.2 ⟨start, step, hstart, hleads, hslot⟩, rfl, hfunction⟩

/-- Segments end in a slot if they start in one and lead through items alone. -/
theorem follow?_eq_slot_iff {r : Resolved} {segments : List String} {w : Value} {slot : Slot} :
    r.follow? segments = some ⟨w, some slot⟩ ↔ ∃ start steps, r.slot = some start
      ∧ Reaches r.value segments steps w ∧ slot = ⟨start.root, start.steps ++ steps⟩ := by
  induction segments generalizing r with
  | nil =>
    constructor
    · intro h
      obtain rfl := Option.some.inj h
      exact ⟨slot, [], rfl, .here, by rw [List.append_nil]⟩
    · rintro ⟨start, _, hstart, hreaches, rfl⟩
      cases hreaches with
      | here => rw [List.append_nil, ← hstart]; rfl
  | cons segment segments ih =>
    rw [follow?_cons, Option.bind_eq_some_iff]
    constructor
    · rintro ⟨⟨item, slot?⟩, hstep, hrest⟩
      obtain ⟨middle, steps, hmiddle, hreaches, rfl⟩ := ih.1 hrest
      obtain rfl : slot? = some middle := hmiddle
      obtain ⟨start, step, hstart, hleads, hfunction, rfl⟩ := step?_eq_slot_iff.1 hstep
      refine ⟨start, step :: steps, hstart, .there hleads hfunction hreaches, ?_⟩
      simp only [List.append_assoc, List.cons_append, List.nil_append]
    · rintro ⟨start, _, hstart, hreaches, rfl⟩
      cases hreaches with
      | @there _ item _ _ _ step steps hleads hfunction hreaches =>
        refine ⟨⟨item, some ⟨start.root, start.steps ++ [step]⟩⟩, ?_, ?_⟩
        · exact step?_eq_slot_iff.2 ⟨start, step, hstart, hleads, hfunction, rfl⟩
        · refine ih.2 ⟨_, steps, rfl, hreaches, ?_⟩
          simp only [List.append_assoc, List.cons_append, List.nil_append]

end Resolved

section

variable {σ : Type} [Scope σ] {s : σ}

/-- A path resolves without a copy: to the value at the end of these steps from its root. -/
def Path.InPlace (p : Path) (s : σ) (steps : List Step) (w : Value) : Prop :=
  ∃ v, Scope.lookup s p.root = some v ∧ v.Reaches p.rest steps w

theorem Path.resolve_eq_ok_iff {p : Path} {r : Resolved} :
    p.resolve s = .ok r ↔ ∃ v, Scope.lookup s p.root = some v
      ∧ (Resolved.ofRoot p.root v).follow? p.rest = some r := by
  rw [← Option.bind_eq_some_iff, ← toOption_resolve]
  cases p.resolve s <;> simp [Except.toOption]

theorem Path.resolve_eq_slot_iff {p : Path} {w : Value} {slot : Slot} :
    p.resolve s = .ok ⟨w, some slot⟩ ↔ slot.root = p.root ∧ p.InPlace s slot.steps w := by
  rw [resolve_eq_ok_iff]
  simp only [Resolved.follow?_eq_slot_iff]
  constructor
  · rintro ⟨v, hv, start, steps, hstart, hreaches, rfl⟩
    obtain rfl := Option.some.inj hstart
    exact ⟨rfl, v, hv, hreaches⟩
  · obtain ⟨root, steps⟩ := slot
    rintro ⟨rfl, v, hv, hreaches⟩
    exact ⟨v, hv, ⟨p.root, []⟩, steps, rfl, hreaches, rfl⟩

/-- Only paths end in slots, and a slot holds one value. -/
theorem Expr.value_eq_of_slot_eq {a b : Expr} {x y : Resolved} {slot : Slot}
    (hx : a.resolve s = .ok x) (hy : b.resolve s = .ok y) (hslot : x.slot = some slot)
    (hslot' : y.slot = some slot) : x.value = y.value := by
  obtain ⟨v, slot?⟩ := x
  obtain ⟨w, other?⟩ := y
  obtain rfl : slot? = some slot := hslot
  obtain rfl : other? = some slot := hslot'
  cases a with
  | literal => cases hx
  | name p =>
    cases b with
    | literal => cases hy
    | name q =>
      obtain ⟨hroot, u, hu, hreaches⟩ := Path.resolve_eq_slot_iff.1 hx
      obtain ⟨hroot', u', hu', hreaches'⟩ := Path.resolve_eq_slot_iff.1 hy
      rw [← hroot', hroot, hu] at hu'
      obtain rfl := Option.some.inj hu'
      exact hreaches.functional hreaches'

end

/-! ## Identity -/

namespace Value

theorem isSame_comm (a b : Value) : a.isSame b = b.isSame a := by
  cases a <;> cases b <;> simp [isSame, BEq.comm]

theorem isSame_self (v : Value) : v.isSame v = v.isShared := by
  cases v <;> simp [isSame, isShared]

theorem equal_of_isSame {a b : Value} (h : a.isSame b = true) : a.equal b = true := by
  cases a <;> cases b <;> try contradiction
  all_goals exact h

theorem isSame_eq_false_of_not_isShared {a b : Value} (h : a.isShared = false) :
    a.isSame b = false := by
  cases a <;> cases b <;> simp [isShared, isSame] at h ⊢

end Value

namespace Resolved

theorem isIdentical_iff {x y : Resolved} :
    x.isIdentical y = true ↔
      (∃ slot, x.slot = some slot ∧ y.slot = some slot) ∨ x.value.isSame y.value = true := by
  obtain ⟨v, slot?⟩ := x
  obtain ⟨w, other?⟩ := y
  cases slot? with
  | none => simp [isIdentical]
  | some slot =>
    cases other? with
    | none => simp [isIdentical]
    | some other => simp [isIdentical, @eq_comm _ other slot]

theorem isIdentical_comm (x y : Resolved) : x.isIdentical y = y.isIdentical x := by
  rw [Bool.eq_iff_iff, isIdentical_iff, isIdentical_iff, Value.isSame_comm]
  exact or_congr_left (exists_congr fun slot => and_comm)

theorem isIdentical_self_iff {x : Resolved} :
    x.isIdentical x = true ↔ (∃ slot, x.slot = some slot) ∨ x.value.isShared = true := by
  simp only [isIdentical_iff, and_self, Value.isSame_self]

end Resolved

section

variable {σ : Type} [Scope σ] {s : σ} {a b : Expr} {x y : Resolved}

theorem holds_identity (hx : a.resolve s = .ok x) (hy : b.resolve s = .ok y) (negated : Bool) :
    (Condition.identity a negated b).holds s = .ok (x.isIdentical y != negated) := by
  rw [Condition.holds, hx, Except.bind, hy]
  rfl

theorem exists_of_holds_identity {negated outcome : Bool}
    (h : (Condition.identity a negated b).holds s = .ok outcome) :
    ∃ x y, a.resolve s = .ok x ∧ b.resolve s = .ok y ∧ (x.isIdentical y != negated) = outcome := by
  rw [Condition.holds] at h
  cases hx : a.resolve s with
  | error e =>
    rw [hx] at h
    cases h
  | ok x =>
    cases hy : b.resolve s with
    | error e =>
      rw [hx, hy] at h
      cases h
    | ok y =>
      rw [hx, hy] at h
      exact ⟨x, y, rfl, rfl, Except.ok.inj h⟩

/-- Operands that are one and the same are equal, unless they are one slot of a value in
which something is not a number. -/
theorem equal_of_isIdentical (hx : a.resolve s = .ok x) (hy : b.resolve s = .ok y)
    (h : x.isIdentical y = true) :
    x.value.equal y.value = true
      ∨ (x.value.ContainsNaN ∧ ∃ slot, x.slot = some slot ∧ y.slot = some slot) := by
  rcases Resolved.isIdentical_iff.1 h with ⟨slot, hslot, hslot'⟩ | hsame
  · have hvalue := Expr.value_eq_of_slot_eq hx hy hslot hslot'
    by_cases hnan : x.value.ContainsNaN
    · exact .inr ⟨hnan, slot, hslot, hslot'⟩
    · left
      rw [← hvalue]
      exact Value.equal_self_iff.2 hnan
  · exact .inl (Value.equal_of_isSame hsame)

theorem Path.resolve_of_inPlace {p : Path} {steps : List Step} {v : Value}
    (h : p.InPlace s steps v) : p.resolve s = .ok ⟨v, some ⟨p.root, steps⟩⟩ :=
  resolve_eq_slot_iff.2 ⟨rfl, h⟩

theorem holds_identity_self_iff {p : Path} :
    (Condition.identity (.name p) false (.name p)).holds s = .ok true ↔
      (∃ steps v, p.InPlace s steps v) ∨ ∃ r, p.resolve s = .ok r ∧ r.value.isShared = true := by
  constructor
  · intro h
    obtain ⟨x, y, hx, hy, hidentical⟩ := exists_of_holds_identity h
    obtain rfl := Except.ok.inj (hx.symm.trans hy)
    rw [Bool.bne_false] at hidentical
    rcases Resolved.isIdentical_self_iff.1 hidentical with ⟨slot, hslot⟩ | hshared
    · obtain ⟨v, _⟩ := x
      obtain rfl := hslot
      exact .inl ⟨slot.steps, v, (Path.resolve_eq_slot_iff.1 hx).2⟩
    · exact .inr ⟨x, hx, hshared⟩
  · rintro (⟨steps, v, hplace⟩ | ⟨r, hr, hshared⟩)
    · have hp : (Expr.name p).resolve s = .ok _ := Path.resolve_of_inPlace hplace
      rw [holds_identity hp hp, Bool.bne_false, Resolved.isIdentical_self_iff.2 (.inl ⟨_, rfl⟩)]
    · have hp : (Expr.name p).resolve s = .ok r := hr
      rw [holds_identity hp hp, Bool.bne_false, Resolved.isIdentical_self_iff.2 (.inr hshared)]

theorem holds_identity_of_inPlace_iff {p q : Path} {steps steps' : List Step} {v w : Value}
    (hp : p.InPlace s steps v) (hq : q.InPlace s steps' w) (hv : v.isShared = false) :
    (Condition.identity (.name p) false (.name q)).holds s = .ok true ↔
      p.root = q.root ∧ steps = steps' := by
  have hx : (Expr.name p).resolve s = .ok _ := Path.resolve_of_inPlace hp
  have hy : (Expr.name q).resolve s = .ok _ := Path.resolve_of_inPlace hq
  rw [holds_identity hx hy, Bool.bne_false, Except.ok.injEq, Resolved.isIdentical_iff,
    Value.isSame_eq_false_of_not_isShared hv]
  simp [eq_comm]

theorem holds_identity_negated (s : σ) (a b : Expr) :
    (Condition.identity a true b).holds s
      = ((Condition.identity a false b).holds s).map (!·) := by
  simp only [Condition.holds]
  cases a.resolve s with
  | error e => rfl
  | ok x =>
    cases b.resolve s with
    | error e => rfl
    | ok y => exact congrArg Except.ok (by simp)

end

/-- The laws of `is` and `is not` in a scope. -/
theorem identity_lawful {σ : Type} [Scope σ] (s : σ) :
    -- Operands that resolve can be tested in either order, and those that are one and the
    -- same are equal, unless they are one slot of what does not equal itself.
    (∀ a b x y, Expr.resolve s a = .ok x → Expr.resolve s b = .ok y →
        (Condition.identity a false b).holds s = .ok (x.isIdentical y)
          ∧ (Condition.identity b false a).holds s = .ok (x.isIdentical y)
          ∧ (x.isIdentical y = true → x.value.equal y.value = true
            ∨ (x.value.ContainsNaN ∧ ∃ slot, x.slot = some slot ∧ y.slot = some slot)))
      -- A path is the same as itself if it resolves without a copy, or to a value whose
      -- copies are the same.
      ∧ (∀ p, (Condition.identity (.name p) false (.name p)).holds s = .ok true ↔
        (∃ steps v, p.InPlace s steps v) ∨ ∃ r, p.resolve s = .ok r ∧ r.value.isShared = true)
      -- All other values are the same in the same slot only.
      ∧ (∀ p q steps steps' v w, p.InPlace s steps v → q.InPlace s steps' w →
        v.isShared = false → w.isShared = false →
        ((Condition.identity (.name p) false (.name q)).holds s = .ok true ↔
          p.root = q.root ∧ steps = steps'))
      ∧ ∀ a b, (Condition.identity a true b).holds s
        = ((Condition.identity a false b).holds s).map (!·) := by
  refine ⟨?_, fun p => holds_identity_self_iff, ?_, holds_identity_negated s⟩
  · intro a b x y hx hy
    refine ⟨?_, ?_, equal_of_isIdentical hx hy⟩
    · rw [holds_identity hx hy, Bool.bne_false]
    · rw [holds_identity hy hx, Bool.bne_false, Resolved.isIdentical_comm]
  · intro p q steps steps' v w hp hq hv _
    exact holds_identity_of_inPlace_iff hp hq hv

/-- Three equal items, and a value that is not a number. -/
def sevens : Context :=
  .ofList [("xs", .list [.int 7, .int 7, .int 7]), ("y", .tuple [.float .nan])]

theorem identity_lawful_same_position :
    (Path.mk "xs" ["+0"]).InPlace sevens [.position 0] (.int 7)
      ∧ (Path.mk "xs" ["-3"]).InPlace sevens [.position 0] (.int 7)
      ∧ (Path.mk "xs" ["1"]).InPlace sevens [.position 1] (.int 7)
      ∧ (Condition.identity (.name ⟨"xs", ["+0"]⟩) false (.name ⟨"xs", ["-3"]⟩)).holds sevens
        = .ok true
      ∧ (Condition.identity (.name ⟨"xs", ["+0"]⟩) false (.name ⟨"xs", ["1"]⟩)).holds sevens
        ≠ .ok true
      ∧ (Condition.identity (.name ⟨"y", []⟩) false (.name ⟨"y", []⟩)).holds sevens = .ok true
      ∧ (Value.tuple [.float .nan]).ContainsNaN := by
  have hplace {p : Path} {steps v}
      (h : p.resolve sevens = .ok ⟨v, some ⟨p.root, steps⟩⟩) : p.InPlace sevens steps v :=
    (Path.resolve_eq_slot_iff.1 h).2
  have hplus : (Path.mk "xs" ["+0"]).InPlace sevens [.position 0] (.int 7) := hplace rfl
  have hminus : (Path.mk "xs" ["-3"]).InPlace sevens [.position 0] (.int 7) := hplace rfl
  have hnext : (Path.mk "xs" ["1"]).InPlace sevens [.position 1] (.int 7) := hplace rfl
  have hnan : (Path.mk "y" []).InPlace sevens [] (.tuple [.float .nan]) := hplace rfl
  have hresolve : Expr.resolve sevens (.name ⟨"y", []⟩)
      = .ok ⟨.tuple [.float .nan], some ⟨"y", []⟩⟩ := Path.resolve_of_inPlace hnan
  obtain ⟨hoperands, hself, hplaces, -⟩ := identity_lawful sevens
  obtain ⟨-, -, hequal⟩ := hoperands _ _ _ _ hresolve hresolve
  refine ⟨hplus, hminus, hnext, ?_, ?_, (hself _).2 (.inl ⟨_, _, hnan⟩), ?_⟩
  · exact (hplaces _ _ _ _ _ _ hplus hminus rfl rfl).2 ⟨rfl, rfl⟩
  · intro h
    obtain ⟨-, hsteps⟩ := (hplaces _ _ _ _ _ _ hplus hnext rfl rfl).1 h
    cases hsteps
  · rcases hequal (by decide) with hdiffers | ⟨hcontains, -⟩
    · exact absurd hdiffers (by decide +kernel)
    · exact hcontains

end Stencil
