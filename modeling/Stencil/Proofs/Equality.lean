-- SUMMARY: Equality of values by their shells and the values inside them: it is symmetric and transitive, and only what is not a number does not equal itself.
import Mathlib.Data.List.Forall2
import Stencil.Proofs.NumberLine
import Stencil.Value.Order

/-!
# Laws of Equality

A value is a shell around the values inside it: the items of a list or tuple,
the values of a map. An integer and a float at the same place of the number line
have the same shell. Two values are equal exactly if their shells are the same,
unless that is the shell of a float that is not a number, and the values inside
them are equal one by one. The laws of equality follow from this by induction on
the values inside.
-/

namespace Stencil

namespace Value

/-! ## Shells -/

/-- A value without the values inside it. -/
inductive Shell where
  | null
  | bool (b : Bool)
  /-- A number of either kind with its place on the number line, if it has one. -/
  | number (position? : Option Int)
  | string (s : String)
  | list
  | tuple
  | map (keys : List String)
  | object (handle : Nat)
  | function (handle : Nat)

def shell : Value → Shell
  | .null => .null
  | .bool b => .bool b
  | .int n => .number (some (Binary64.positionOfInt n.toInt))
  | .float x => .number x.position?
  | .string s => .string s
  | .list _ => .list
  | .tuple _ => .tuple
  | .map entries => .map (entries.map Prod.fst)
  | .object handle .. => .object handle
  | .function handle _ => .function handle

/-- The values that equality looks at inside a value. Objects and functions are
closed. -/
def inner : Value → List Value
  | .list items => items
  | .tuple items => items
  | .map entries => entries.map Prod.snd
  | _ => []

theorem sizeOf_lt_of_mem_inner {v x : Value} (h : x ∈ v.inner) : sizeOf x < sizeOf v := by
  cases v with
  | list items | tuple items =>
    have := List.sizeOf_lt_of_mem (show x ∈ items from h)
    simp only [list.sizeOf_spec, tuple.sizeOf_spec]
    omega
  | map entries =>
    obtain ⟨entry, hentry, rfl⟩ := List.mem_map.1 (show x ∈ entries.map Prod.snd from h)
    have hlt := List.sizeOf_lt_of_mem hentry
    have hsnd : sizeOf entry = 1 + sizeOf entry.1 + sizeOf entry.2 := by cases entry; rfl
    simp only [map.sizeOf_spec]
    omega
  | null | bool | int | float | string | object | function => cases h

/-- A property holds of every value if it passes from the values inside to the
value around them. -/
@[elab_as_elim]
theorem inner_induction {P : Value → Prop} (around : ∀ v, (∀ x ∈ v.inner, P x) → P v) (v : Value) :
    P v :=
  around v fun x _ => inner_induction around x
termination_by sizeOf v
decreasing_by exact sizeOf_lt_of_mem_inner ‹_›

/-! ## Equality by shells -/

theorem equalItems_iff {as bs : List Value} :
    equalItems as bs = true ↔ List.Forall₂ (fun a b => a.equal b = true) as bs := by
  induction as generalizing bs with
  | nil => cases bs <;> simp [equalItems]
  | cons a as ih => cases bs <;> simp [equalItems, ih]

theorem equalEntries_iff {as bs : List (String × Value)} :
    equalEntries as bs = true ↔ as.map Prod.fst = bs.map Prod.fst
      ∧ List.Forall₂ (fun a b => a.equal b = true) (as.map Prod.snd) (bs.map Prod.snd) := by
  induction as generalizing bs with
  | nil => cases bs <;> simp [equalEntries]
  | cons entry as ih => cases bs <;> simp [equalEntries, ih, and_assoc, and_left_comm]

theorem equal_iff {a b : Value} :
    a.equal b = true ↔ a.shell = b.shell ∧ a.shell ≠ .number none
      ∧ List.Forall₂ (fun x y => x.equal y = true) a.inner b.inner := by
  cases a <;> cases b
  case int.float n y =>
    simp [equal, shell, inner, Binary64.orderInt64_eq, Binary64.orderInt_eq_eq_iff,
      @eq_comm _ y.position?]
  case float.int =>
    simp +contextual [equal, shell, inner, Binary64.orderInt64_eq, Binary64.orderInt_eq_eq_iff]
  all_goals
    simp [equal, shell, inner, equalItems_iff, equalEntries_iff, Binary64.order_eq_eq_iff,
      Binary64.positionOfInt_inj, Int64.toInt_inj]

/-! ## Symmetry and transitivity -/

theorem equal_symm {a b : Value} (h : a.equal b = true) : b.equal a = true := by
  induction a using inner_induction generalizing b with
  | around a ih =>
    obtain ⟨hshell, hnumber, hinner⟩ := equal_iff.1 h
    refine equal_iff.2 ⟨hshell.symm, hshell ▸ hnumber, ?_⟩
    have hboth := (List.forall₂_and_left _ _).2 ⟨ih, hinner⟩
    exact (hboth.imp fun x y hxy => hxy.1 hxy.2).flip

theorem equal_comm (a b : Value) : a.equal b = b.equal a :=
  Bool.eq_iff_iff.2 ⟨equal_symm, equal_symm⟩

theorem forall₂_trans_of_mem {R : Value → Value → Prop} {as bs cs : List Value}
    (htrans : ∀ a ∈ as, ∀ b c, R a b → R b c → R a c) (hab : List.Forall₂ R as bs)
    (hbc : List.Forall₂ R bs cs) : List.Forall₂ R as cs := by
  induction hab generalizing cs with
  | nil => exact hbc
  | cons hfirst _ ih =>
    cases hbc with
    | cons hsecond hrest =>
      refine .cons (htrans _ List.mem_cons_self _ _ hfirst hsecond) (ih ?_ hrest)
      exact fun a ha => htrans a (List.mem_cons_of_mem _ ha)

theorem equal_trans {a b c : Value} (hab : a.equal b = true) (hbc : b.equal c = true) :
    a.equal c = true := by
  induction a using inner_induction generalizing b c with
  | around a ih =>
    obtain ⟨hshell, hnumber, hinner⟩ := equal_iff.1 hab
    obtain ⟨hnext, -, hafter⟩ := equal_iff.1 hbc
    refine equal_iff.2 ⟨hshell.trans hnext, hnumber, ?_⟩
    exact forall₂_trans_of_mem (fun x hx _ _ => ih x hx) hinner hafter

/-- Equal values are equal to the same values. -/
theorem equal_congr {b c : Value} (h : b.equal c = true) (a : Value) : a.equal b = a.equal c :=
  Bool.eq_iff_iff.2 ⟨fun hab => equal_trans hab h, fun hac => equal_trans hac (equal_symm h)⟩

/-! ## Values that do not equal themselves -/

/-- A float that is not a number occurs in a value. Objects and functions are closed. -/
inductive ContainsNaN : Value → Prop where
  | float : ContainsNaN (.float .nan)
  | list {items : List Value} {item : Value} :
    item ∈ items → ContainsNaN item → ContainsNaN (.list items)
  | tuple {items : List Value} {item : Value} :
    item ∈ items → ContainsNaN item → ContainsNaN (.tuple items)
  | map {entries : List (String × Value)} {key : String} {item : Value} :
    (key, item) ∈ entries → ContainsNaN item → ContainsNaN (.map entries)

theorem shell_eq_number_none_iff {v : Value} : v.shell = .number none ↔ v = .float .nan := by
  cases v with
  | float x => cases x <;> simp [shell, Binary64.position?]
  | _ => simp [shell]

theorem containsNaN_iff {v : Value} :
    v.ContainsNaN ↔ v.shell = .number none ∨ ∃ x ∈ v.inner, x.ContainsNaN := by
  rw [shell_eq_number_none_iff]
  constructor
  · intro h
    cases h with
    | float => exact .inl rfl
    | list hmem hitem | tuple hmem hitem => exact .inr ⟨_, hmem, hitem⟩
    | map hmem hitem => exact .inr ⟨_, List.mem_map_of_mem hmem, hitem⟩
  · rintro (rfl | ⟨x, hmem, hx⟩)
    · exact .float
    · cases v with
      | list items => exact .list hmem hx
      | tuple items => exact .tuple hmem hx
      | map entries =>
        obtain ⟨⟨key, item⟩, hentry, rfl⟩ := List.mem_map.1 hmem
        exact .map hentry hx
      | null | bool | int | float | string | object | function => cases hmem

theorem equal_self_iff {v : Value} : v.equal v = true ↔ ¬v.ContainsNaN := by
  induction v using inner_induction with
  | around v ih =>
    rw [equal_iff, containsNaN_iff, List.forall₂_same, not_or]
    have hitems : (∀ x ∈ v.inner, x.equal x = true) ↔ ¬∃ x ∈ v.inner, x.ContainsNaN := by
      simp only [not_exists, not_and]
      exact forall₂_congr ih
    rw [hitems]
    exact and_iff_right rfl

theorem kind_of_shell_eq {a b : Value} (h : a.shell = b.shell) :
    a.kind = b.kind ∨ (a.kind = .int ∧ b.kind = .float) ∨ (a.kind = .float ∧ b.kind = .int) := by
  cases a <;> cases b <;> simp [shell, kind] at h ⊢

/-- Equality is symmetric and transitive, and the values that do not equal themselves are
those in which something is not a number. It passes between integers and floats, but not
between any other kinds. -/
theorem equal_partial_equivalence (a b c : Value) :
    (a.equal b = true → b.equal a = true)
      ∧ (a.equal b = true → b.equal c = true → a.equal c = true)
      ∧ (a.equal a = true ↔ ¬a.ContainsNaN)
      ∧ (a.equal b = true → a.kind = b.kind
        ∨ (a.kind = .int ∧ b.kind = .float) ∨ (a.kind = .float ∧ b.kind = .int)) :=
  ⟨equal_symm, equal_trans, equal_self_iff, fun h => kind_of_shell_eq (equal_iff.1 h).1⟩

/-- A list of a tuple of a number and a map. -/
def nestedNumber (number : Value) : Value :=
  .list [.tuple [number, .map [("n", number)]]]

theorem equal_partial_equivalence_nested :
    (nestedNumber (.int 2)).equal (nestedNumber (.float (Binary64.ofInt 2))) = true
      ∧ (nestedNumber (.float (Binary64.ofInt 2))).equal (nestedNumber (.int 2)) = true
      ∧ (nestedNumber (.int 2)).equal (nestedNumber (.int 2)) = true
      ∧ (nestedNumber (.float .nan)).ContainsNaN
      ∧ ¬(nestedNumber (.float .nan)).equal (nestedNumber (.float .nan)) = true := by
  have heq : (nestedNumber (.int 2)).equal (nestedNumber (.float (Binary64.ofInt 2))) = true := by
    decide +kernel
  have hnan : (nestedNumber (.float .nan)).ContainsNaN :=
    .list List.mem_cons_self (.tuple List.mem_cons_self .float)
  obtain ⟨hsymm, htrans, -, -⟩ := equal_partial_equivalence (nestedNumber (.int 2))
    (nestedNumber (.float (Binary64.ofInt 2))) (nestedNumber (.int 2))
  obtain ⟨-, -, hself, -⟩ := equal_partial_equivalence (nestedNumber (.float .nan)) .null .null
  exact ⟨heq, hsymm heq, htrans heq (hsymm heq), hnan, fun h => hself.1 h hnan⟩

end Value

end Stencil
