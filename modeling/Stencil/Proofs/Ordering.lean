-- SUMMARY: The order of values is lawful and consistent with equality, and the six comparison operators agree with each other.
import Stencil.Condition
import Stencil.Proofs.Equality

/-!
# Laws of Order

Two lists or two tuples are ordered by the values inside them, all other values
by their shells. The laws for shells are those of whole numbers, strings and
booleans. The laws for sequences pass from their items to them, because the
items that are skipped are equal, and the order cannot tell equal values apart.
`Except.toOption` makes all errors one: most laws hold whichever two kinds an
error names.
-/

namespace Stencil

theorem Binary64.orderInt_swap (n : Int) (x : Binary64) :
    (orderInt n x).map Ordering.swap = x.position?.map fun p => compare p (positionOfInt n) := by
  unfold orderInt
  cases x.position? with
  | none => rfl
  | some p => exact congrArg some Std.OrientedCmp.eq_swap.symm

namespace Value

/-- The opposite of an answer. That there is no order is its own opposite. -/
def mirror : Option (Option Ordering) → Option (Option Ordering) :=
  Option.map (Option.map Ordering.swap)

/-! ## The order of shells -/

namespace Shell

/-- The values inside decide the order. -/
def isSequence : Shell → Bool
  | .list | .tuple => true
  | _ => false

/-- The order of two shells, or nothing if their kinds have none. -/
def order? : Shell → Shell → Option (Option Ordering)
  | .number p, .number q => some (p.bind fun m => q.map fun n => compare m n)
  | .string s, .string t => some (some (compare s t))
  | .bool a, .bool b => some (some (compare a b))
  | _, _ => none

variable {r s t : Shell}

theorem isSequence_of_order? {o? : Option Ordering} (h : s.order? t = some o?) :
    s.isSequence = false ∧ t.isSequence = false := by
  cases s <;> cases t <;> try contradiction
  all_goals exact ⟨rfl, rfl⟩

theorem order?_mirror (s t : Shell) : t.order? s = mirror (s.order? t) := by
  cases s <;> cases t <;> try rfl
  case number p q =>
    cases p <;> cases q <;> try rfl
    exact congrArg (fun o => some (some o)) Std.OrientedCmp.eq_swap
  all_goals exact congrArg (fun o => some (some o)) Std.OrientedCmp.eq_swap

theorem eq_of_order?_eq (h : s.order? t = some (some .eq)) : s = t ∧ s ≠ .number none := by
  cases s <;> cases t <;> try contradiction
  case number p q =>
    cases p <;> cases q <;> simp [order?] at h ⊢
    exact h
  all_goals simpa [order?] using h

theorem order?_self (h : s ≠ .number none) : s.order? s = some (some .eq) ∨ s.order? s = none := by
  cases s with
  | number p => cases p <;> simp [order?] at h ⊢
  | _ => simp [order?]

theorem order?_lt_trans (hrs : r.order? s = some (some .lt)) (hst : s.order? t = some (some .lt)) :
    r.order? t = some (some .lt) := by
  cases r <;> cases s <;> try contradiction
  all_goals cases t <;> try contradiction
  case number p q r =>
    cases p <;> cases q <;> cases r <;> simp [order?, Int.compare_eq_lt] at hrs hst ⊢
    exact Int.lt_trans hrs hst
  all_goals
    simp only [order?, Option.some.injEq] at hrs hst ⊢
    exact Std.TransCmp.lt_trans hrs hst

end Shell

/-! ## The order of values by their shells -/

variable {a b c : Value} {as bs cs : List Value}

theorem order_of_isSequence (hseq : a.shell.isSequence = true) (hshell : a.shell = b.shell) :
    a.order b = orderItems a.inner b.inner := by
  cases a <;> cases b <;> simp [shell, Shell.isSequence] at hseq hshell ⊢ <;> simp [order, inner]

theorem toOption_order (h : ¬(a.shell.isSequence = true ∧ a.shell = b.shell)) :
    (a.order b).toOption = a.shell.order? b.shell := by
  cases a <;> cases b <;> try rfl
  case int.int m n =>
    exact congrArg (fun o => some (some o)) (Binary64.compare_positionOfInt _ _).symm
  case int.float n x => exact congrArg some (Binary64.orderInt64_eq n x)
  case float.int x n =>
    rw [order, Binary64.orderInt64_eq]
    refine congrArg some ((Binary64.orderInt_swap n.toInt x).trans ?_)
    cases x.position? <;> rfl
  all_goals exact absurd ⟨rfl, rfl⟩ h

theorem inner_eq_nil_of_order? {s : Shell} {o? : Option Ordering}
    (h : a.shell.order? s = some o?) : a.inner = [] := by
  cases a with
  | list | tuple | map => cases h
  | _ => rfl

theorem toOption_eq_some_iff {answer : Except Unorderable (Option Ordering)}
    {o? : Option Ordering} : answer.toOption = some o? ↔ answer = .ok o? := by
  cases answer <;> simp [Except.toOption]

theorem toOption_eq_none_iff {answer : Except Unorderable (Option Ordering)} :
    answer.toOption = none ↔ ∃ u, answer = .error u := by
  cases answer <;> simp [Except.toOption]

theorem toOption_eq_toOption_iff {answer other : Except Unorderable (Option Ordering)} :
    answer.toOption = other.toOption ↔
      ((∃ u, answer = .error u) ∧ ∃ u, other = .error u)
        ∨ ∃ o?, answer = .ok o? ∧ other = .ok o? := by
  cases answer <;> cases other <;> simp [Except.toOption, eq_comm]

/-- Either two sequences decide by the values inside, or two other values by
their shells. -/
theorem order_eq_ok {o? : Option Ordering} (h : a.order b = .ok o?) :
    (a.shell.isSequence = true ∧ a.shell = b.shell ∧ orderItems a.inner b.inner = .ok o?)
      ∨ (a.shell.isSequence = false ∧ b.shell.isSequence = false
        ∧ a.shell.order? b.shell = some o?) := by
  by_cases hseq : a.shell.isSequence = true ∧ a.shell = b.shell
  · obtain ⟨hseq, hshell⟩ := hseq
    exact .inl ⟨hseq, hshell, order_of_isSequence hseq hshell ▸ h⟩
  · have hshells := (toOption_order hseq).symm.trans (toOption_eq_some_iff.2 h)
    obtain ⟨hleft, hright⟩ := Shell.isSequence_of_order? hshells
    exact .inr ⟨hleft, hright, hshells⟩

/-! ## Mirror images -/

theorem orderItems_mirror
    (hitems : ∀ a ∈ as, ∀ b, (b.order a).toOption = mirror (a.order b).toOption) :
    (orderItems bs as).toOption = mirror (orderItems as bs).toOption := by
  induction as generalizing bs with
  | nil => cases bs <;> rfl
  | cons a as ih =>
    obtain ⟨hfirst, hrest⟩ := List.forall_mem_cons.1 hitems
    cases bs with
    | nil => rfl
    | cons b bs =>
      simp only [orderItems, equal_comm b a]
      split
      · exact ih hrest
      · exact hfirst b

theorem order_mirror (a b : Value) : (b.order a).toOption = mirror (a.order b).toOption := by
  induction a using inner_induction generalizing b with
  | around a ih =>
    by_cases h : a.shell.isSequence = true ∧ a.shell = b.shell
    · obtain ⟨hseq, hshell⟩ := h
      rw [order_of_isSequence hseq hshell, order_of_isSequence (hshell ▸ hseq) hshell.symm]
      exact orderItems_mirror ih
    · have hback : ¬(b.shell.isSequence = true ∧ b.shell = a.shell) := fun hb =>
        h ⟨hb.2 ▸ hb.1, hb.2.symm⟩
      rw [toOption_order h, toOption_order hback]
      exact Shell.order?_mirror _ _

theorem order_of_swapped {o? : Option Ordering} (h : a.order b = .ok o?) :
    b.order a = .ok (o?.map Ordering.swap) := by
  apply toOption_eq_some_iff.1
  rw [order_mirror, h]
  rfl

/-! ## Order and equality -/

theorem orderItems_of_equal (h : List.Forall₂ (fun a b => a.equal b = true) as bs) :
    orderItems as bs = .ok (some .eq) := by
  induction h with
  | nil => rfl
  | cons hfirst _ ih => rw [orderItems, if_pos hfirst, ih]

theorem order_of_equal (h : a.equal b = true) :
    a.order b = .ok (some .eq) ∨ ∃ u, a.order b = .error u := by
  obtain ⟨hshell, hnumber, hinner⟩ := equal_iff.1 h
  by_cases hseq : a.shell.isSequence = true
  · left
    rw [order_of_isSequence hseq hshell]
    exact orderItems_of_equal hinner
  · rw [← toOption_eq_some_iff, ← toOption_eq_none_iff, toOption_order fun h => hseq h.1, ← hshell]
    exact Shell.order?_self hnumber

theorem equal_of_orderItems
    (hitems : ∀ a ∈ as, ∀ b, a.order b = .ok (some .eq) → a.equal b = true)
    (h : orderItems as bs = .ok (some .eq)) :
    List.Forall₂ (fun a b => a.equal b = true) as bs := by
  induction as generalizing bs with
  | nil =>
    cases bs with
    | nil => exact .nil
    | cons => cases h
  | cons a as ih =>
    obtain ⟨hfirst, hrest⟩ := List.forall_mem_cons.1 hitems
    cases bs with
    | nil => cases h
    | cons b bs =>
      unfold orderItems at h
      split at h
      · next hequal => exact .cons hequal (ih hrest h)
      · next hdiffer => exact absurd (hfirst b h) hdiffer

theorem equal_of_order (h : a.order b = .ok (some .eq)) : a.equal b = true := by
  induction a using inner_induction generalizing b with
  | around a ih =>
    rcases order_eq_ok h with ⟨hseq, hshell, hitems⟩ | ⟨-, -, hshells⟩
    · have hnumber : a.shell ≠ .number none := by
        intro hnan
        rw [hnan] at hseq
        cases hseq
      exact equal_iff.2 ⟨hshell, hnumber, equal_of_orderItems (fun x hx _ => ih x hx) hitems⟩
    · obtain ⟨hshell, hnumber⟩ := Shell.eq_of_order?_eq hshells
      refine equal_iff.2 ⟨hshell, hnumber, ?_⟩
      rw [inner_eq_nil_of_order? hshells, inner_eq_nil_of_order? (hshell ▸ hshells)]
      exact .nil

theorem equal_eq_of_order {o? : Option Ordering} (h : a.order b = .ok o?) :
    a.equal b = decide (o? = some .eq) := by
  rw [Bool.eq_iff_iff, decide_eq_true_iff]
  constructor
  · intro hequal
    rcases order_of_equal hequal with heq | ⟨u, herror⟩
    · rw [h] at heq
      injection heq
    · rw [h] at herror
      cases herror
  · rintro rfl
    exact equal_of_order h

/-! ## Equal values have the same order to all others -/

theorem orderItems_congr
    (hitems : ∀ a ∈ as, ∀ b c, b.equal c = true → (a.order b).toOption = (a.order c).toOption)
    (h : List.Forall₂ (fun b c => b.equal c = true) bs cs) :
    (orderItems as bs).toOption = (orderItems as cs).toOption := by
  induction h generalizing as with
  | nil => rfl
  | @cons b c _ _ hhead _ ih =>
    cases as with
    | nil => rfl
    | cons a as =>
      obtain ⟨hfirst, hrest⟩ := List.forall_mem_cons.1 hitems
      simp only [orderItems, equal_congr hhead a]
      split
      · exact ih hrest
      · exact hfirst b c hhead

theorem order_congr (h : b.equal c = true) (a : Value) :
    (a.order b).toOption = (a.order c).toOption := by
  induction a using inner_induction generalizing b c with
  | around a ih =>
    obtain ⟨hshell, -, hinner⟩ := equal_iff.1 h
    by_cases hseq : a.shell.isSequence = true ∧ a.shell = b.shell
    · obtain ⟨hseq, hsame⟩ := hseq
      rw [order_of_isSequence hseq hsame, order_of_isSequence hseq (hsame.trans hshell)]
      exact orderItems_congr (fun x hx _ _ hbc => ih x hx hbc) hinner
    · rw [toOption_order hseq, toOption_order (hshell ▸ hseq), hshell]

theorem order_eq_ok_of_equal_right {o? : Option Ordering} (h : b.equal c = true)
    (hab : a.order b = .ok o?) : a.order c = .ok o? := by
  rw [← toOption_eq_some_iff, ← order_congr h, hab]
  rfl

theorem order_eq_ok_of_equal_left {o? : Option Ordering} (h : a.equal b = true)
    (hbc : b.order c = .ok o?) : a.order c = .ok o? := by
  rw [← toOption_eq_some_iff, order_mirror c a, order_congr h, ← order_mirror c b, hbc]
  rfl

/-! ## Transitivity -/

theorem not_equal_of_order_lt (h : a.order b = .ok (some .lt)) : a.equal b = false := by
  rw [equal_eq_of_order h]
  rfl

theorem orderItems_lt_trans
    (hitems : ∀ a ∈ as, ∀ b c, a.order b = .ok (some .lt) → b.order c = .ok (some .lt) →
      a.order c = .ok (some .lt))
    (hab : orderItems as bs = .ok (some .lt)) (hbc : orderItems bs cs = .ok (some .lt)) :
    orderItems as cs = .ok (some .lt) := by
  induction as generalizing bs cs with
  | nil =>
    cases bs with
    | nil => cases hab
    | cons =>
      cases cs with
      | nil => cases hbc
      | cons => rfl
  | cons a as ih =>
    obtain ⟨hfirst, hrest⟩ := List.forall_mem_cons.1 hitems
    cases bs with
    | nil => cases hab
    | cons b bs =>
      cases cs with
      | nil => cases hbc
      | cons c cs =>
        have hdecided : a.order c = .ok (some .lt) →
            orderItems (a :: as) (c :: cs) = .ok (some .lt) := by
          intro h
          rw [orderItems, not_equal_of_order_lt h]
          exact h
        unfold orderItems at hab hbc
        split at hab <;> split at hbc
        · next hequal hequal' =>
          rw [orderItems, if_pos (equal_trans hequal hequal')]
          exact ih hrest hab hbc
        · next hequal _ => exact hdecided (order_eq_ok_of_equal_left hequal hbc)
        · next _ hequal' => exact hdecided (order_eq_ok_of_equal_right hequal' hab)
        · exact hdecided (hfirst b c hab hbc)

theorem order_lt_trans (hab : a.order b = .ok (some .lt)) (hbc : b.order c = .ok (some .lt)) :
    a.order c = .ok (some .lt) := by
  induction a using inner_induction generalizing b c with
  | around a ih =>
    rcases order_eq_ok hab with ⟨hseq, hshell, hitems⟩ | ⟨hseq, hseq', hshells⟩ <;>
      rcases order_eq_ok hbc with ⟨hnext, hshell', hitems'⟩ | ⟨hnext, -, hshells'⟩
    · rw [order_of_isSequence hseq (hshell.trans hshell')]
      exact orderItems_lt_trans (fun x hx _ _ => ih x hx) hitems hitems'
    · rw [← hshell, hseq] at hnext
      cases hnext
    · rw [hseq'] at hnext
      cases hnext
    · rw [← toOption_eq_some_iff, toOption_order (by simp [hseq])]
      exact Shell.order?_lt_trans hshells hshells'

/-! ## Operators -/

theorem order_of_apply_lt {less : Bool} (h : CompareOp.lt.apply a b = .ok less) :
    ∃ o?, a.order b = .ok o? ∧ o?.any Ordering.isLT = less := by
  simp only [CompareOp.apply] at h
  cases horder : a.order b with
  | error u =>
    rw [horder] at h
    cases h
  | ok o? =>
    rw [horder] at h
    exact ⟨o?, rfl, Except.ok.inj h⟩

theorem apply_eq_of_order {o? : Option Ordering} (h : a.order b = .ok o?) (op : CompareOp) :
    op.apply a b = .ok (match op with
      | .eq => o?.any Ordering.isEq
      | .ne => !o?.any Ordering.isEq
      | _ => o?.any op.accepts) := by
  have hequal : a.equal b = o?.any Ordering.isEq := by
    rw [equal_eq_of_order h]
    rcases o? with _ | _ | _ | _ <;> rfl
  cases op <;> simp only [CompareOp.apply, h, hequal] <;> rfl

/-! ## The laws together -/

/-- The laws of the order of values: mirror images, agreement with equality,
transitivity, and agreement of the operators wherever `<` gives an answer. -/
theorem order_lawful (a b c : Value) :
    -- The two directions are mirror images.
    (((∃ u, b.order a = .error u) ↔ ∃ u, a.order b = .error u)
        ∧ (b.order a = .ok none ↔ a.order b = .ok none)
        ∧ ∀ o, b.order a = .ok (some o.swap) ↔ a.order b = .ok (some o))
      -- Order and equality agree where there is an order.
      ∧ ((a.order b = .ok (some .eq) → a.equal b = true)
        ∧ (a.equal b = true → a.order b = .ok (some .eq) ∨ ∃ u, a.order b = .error u))
      -- The order is transitive and does not tell equal values apart.
      ∧ ((a.order b = .ok (some .lt) → b.order c = .ok (some .lt) → a.order c = .ok (some .lt))
        ∧ (b.equal c = true →
          ((∃ u, a.order b = .error u) ∧ ∃ u, a.order c = .error u)
            ∨ ∃ o?, a.order b = .ok o? ∧ a.order c = .ok o?))
      -- The operators fit together where `<` gives an answer.
      ∧ ∀ less, CompareOp.lt.apply a b = .ok less → ∃ greater same,
        CompareOp.gt.apply a b = .ok greater
          ∧ CompareOp.eq.apply a b = .ok same
          ∧ CompareOp.ne.apply a b = .ok (!same)
          ∧ CompareOp.le.apply a b = .ok (less || same)
          ∧ CompareOp.ge.apply a b = .ok (greater || same)
          ∧ CompareOp.gt.apply b a = .ok less
          ∧ ¬(less = true ∧ (greater || same) = true)
          ∧ ((less = false ∧ (greater || same) = false) ↔ a.order b = .ok none) := by
  refine ⟨?_, ⟨equal_of_order, order_of_equal⟩, ⟨order_lt_trans, ?_⟩, ?_⟩
  · simp only [← toOption_eq_none_iff, ← toOption_eq_some_iff, order_mirror a b]
    rcases (a.order b).toOption with _ | _ | o <;> simp [mirror]
  · intro h
    exact toOption_eq_toOption_iff.1 (order_congr h a)
  · intro less h
    obtain ⟨o?, horder, rfl⟩ := order_of_apply_lt h
    refine ⟨o?.any Ordering.isGT, o?.any Ordering.isEq, ?_⟩
    simp only [apply_eq_of_order horder, apply_eq_of_order (order_of_swapped horder), horder]
    rcases o? with _ | _ | _ | _ <;> simp [CompareOp.accepts]

/-- A list of null and an integer. Null has no order, but equals itself. -/
def nullAndInt (n : Int64) : Value := .list [.null, .int n]

/-- The same list with the nearest float in place of the integer. -/
def nullAndFloat (n : Int) : Value := .list [.null, .float (Binary64.ofInt n)]

theorem order_lawful_mixed_lists :
    (nullAndInt 1).order (nullAndFloat 2) = .ok (some .lt)
      ∧ (nullAndFloat 2).order (nullAndInt 3) = .ok (some .lt)
      ∧ (nullAndInt 1).order (nullAndInt 3) = .ok (some .lt)
      ∧ (nullAndFloat 2).equal (nullAndInt 2) = true
      ∧ ((nullAndFloat 2).order (nullAndInt 2) = .ok (some .eq)
        ∨ ∃ u, (nullAndFloat 2).order (nullAndInt 2) = .error u)
      ∧ (((∃ u, (nullAndInt 1).order (nullAndFloat 2) = .error u)
          ∧ ∃ u, (nullAndInt 1).order (nullAndInt 2) = .error u)
        ∨ ∃ o?, (nullAndInt 1).order (nullAndFloat 2) = .ok o?
          ∧ (nullAndInt 1).order (nullAndInt 2) = .ok o?)
      ∧ CompareOp.lt.apply (nullAndInt 1) (nullAndFloat 2) = .ok true
      ∧ CompareOp.gt.apply (nullAndFloat 2) (nullAndInt 1) = .ok true := by
  have hlt : (nullAndInt 1).order (nullAndFloat 2) = .ok (some .lt) := by decide +kernel
  have hnext : (nullAndFloat 2).order (nullAndInt 3) = .ok (some .lt) := by decide +kernel
  have heq : (nullAndFloat 2).order (nullAndInt 2) = .ok (some .eq) := by decide +kernel
  have hless : CompareOp.lt.apply (nullAndInt 1) (nullAndFloat 2) = .ok true := by
    decide +kernel
  obtain ⟨-, -, ⟨htrans, -⟩, -⟩ := order_lawful (nullAndInt 1) (nullAndFloat 2) (nullAndInt 3)
  obtain ⟨-, ⟨hequal, hback⟩, -, -⟩ := order_lawful (nullAndFloat 2) (nullAndInt 2) .null
  obtain ⟨-, -, ⟨-, hsame⟩, hagree⟩ := order_lawful (nullAndInt 1) (nullAndFloat 2) (nullAndInt 2)
  obtain ⟨-, -, -, -, -, -, -, hgreater, -⟩ := hagree true hless
  exact ⟨hlt, hnext, htrans hlt hnext, hequal heq, hback (hequal heq), hsame (hequal heq), hless,
    hgreater⟩

end Value

end Stencil
