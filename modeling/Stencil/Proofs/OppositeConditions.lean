-- SUMMARY: A conditional with the opposite condition and its two branches exchanged renders the same.
import Stencil.Proofs.Identity
import Stencil.Proofs.WellFormed

/-!
# Opposite Conditions

`is` and `is not` test the same operands in the same order and differ in the answer alone,
and so do `==` and `!=`, whatever the operands are and also if one of them fails. So the
condition of a conditional can be exchanged for its opposite if the branches are exchanged
too. The else branch stands among the children of its conditional: it puts out nothing there
when the condition holds, and it is found by a scan when it does not.
-/

namespace Stencil

/-! ## Conditions -/

namespace Condition

/-- The condition with `is` and `is not` exchanged, or `==` and `!=`. -/
def opposite? : Condition → Option Condition
  | .identity left negated right => some (.identity left (!negated) right)
  | .compare left .eq right => some (.compare left .ne right)
  | .compare left .ne right => some (.compare left .eq right)
  | _ => none

theorem map_not_map_not (answer : Except TemplateError Bool) :
    (answer.map (!·)).map (!·) = answer := by
  cases answer with
  | error e => rfl
  | ok holds => exact congrArg Except.ok (Bool.not_not holds)

variable {σ : Type} [Scope σ]

theorem holds_ne (s : σ) (left right : Expr) :
    (compare left .ne right).holds s = ((compare left .eq right).holds s).map (!·) := by
  simp only [holds]
  cases left.resolve s with
  | error e => rfl
  | ok x =>
    cases right.resolve s with
    | error e => rfl
    | ok y => rfl

/-- The opposite condition has the opposite answer, and fails where the condition fails. -/
theorem holds_opposite (s : σ) {test opposite : Condition} (h : test.opposite? = some opposite) :
    opposite.holds s = (test.holds s).map (!·) := by
  cases test with
  | truthy operand => cases h
  | identity left negated right =>
    cases h
    cases negated with
    | false => exact holds_identity_negated s left right
    | true => rw [holds_identity_negated, map_not_map_not, Bool.not_true]
  | compare left op right =>
    cases op with
    | eq =>
      cases h
      exact holds_ne s left right
    | ne =>
      cases h
      rw [holds_ne, map_not_map_not]
    | lt | gt | le | ge => cases h

end Condition

/-! ## Branches -/

namespace Node

/-- Whether a node is an else branch. -/
def isElse : Node → Bool
  | .elseBranch .. => true
  | _ => false

/-- The children of a conditional that render if its condition holds: all but the else
branch. -/
def body (children : List Node) : List Node := children.filter fun node => !node.isElse

/-- The children of the else branch of a conditional, none if there is no else branch. -/
def otherwise (children : List Node) : List Node :=
  match findElse? children with
  | some (other, _) => other
  | none => []

/-- No else branch stands right inside an else branch of a well-formed tree. -/
theorem WellFormed.findElse?_otherwise {root : Node} {test : Condition} {children : List Node}
    {location : Location} (h : root.WellFormed)
    (hnode : root.Contains (.conditional test children location)) :
    findElse? (otherwise children) = none := by
  unfold otherwise
  cases hfind : findElse? children with
  | none => rfl
  | some found =>
    obtain ⟨other, place⟩ := found
    have helse : root.Contains (.elseBranch other place) := hnode.child (mem_of_findElse? hfind)
    cases hinner : findElse? other with
    | none => rfl
    | some inner =>
      obtain ⟨before, after, hsplit⟩ := List.append_of_mem (mem_of_findElse? hinner)
      obtain ⟨⟨_, _, hconditional⟩, -⟩ := h.elseLast _ before _ _ after helse hsplit
      cases hconditional

section

variable {σ : Type} [Scope σ]

theorem renderAll_body (children : List Node) :
    (renderAll (body children) : Rendering σ) = renderAll children := by
  induction children with
  | nil => rfl
  | cons node nodes ih =>
    cases node with
    | elseBranch other place =>
      have hbody : body (.elseBranch other place :: nodes) = body nodes := rfl
      rw [hbody, ih, renderAll, render, Rendering.skip_andThen]
    | root | text | placeholder | forLoop | conditional =>
      rw [body, List.filter_cons_of_pos rfl, renderAll, renderAll]
      exact congrArg _ ih

theorem renderElse_eq_otherwise (children : List Node) :
    (renderElse children : Rendering σ) = renderAll (otherwise children) := by
  rw [renderElse_eq]
  unfold otherwise
  cases findElse? children with
  | none => simp only [renderAll]
  | some found => rfl

theorem renderAll_concat_elseBranch (nodes other : List Node) (place : Location) :
    (renderAll (nodes ++ [.elseBranch other place]) : Rendering σ) = renderAll nodes := by
  rw [renderAll_append, renderAll, renderAll, render, Rendering.andThen_skip,
    Rendering.andThen_skip]

theorem renderElse_concat_elseBranch {nodes : List Node} (h : findElse? nodes = none)
    (other : List Node) (place : Location) :
    (renderElse (nodes ++ [.elseBranch other place]) : Rendering σ) = renderAll other := by
  rw [renderElse_eq, findElse?_append h]
  rfl

end

/-- In a tree of tokens, a conditional on an identity, on `==` or on `!=` renders the same if
its condition is negated and its branches are exchanged: with the same output or error, and
leaving the same bindings. -/
theorem render_exchanged_branches {ts : List Token} {root : Node}
    (htree : Node.ofTokens ts = .ok root) {test opposite : Condition} {children : List Node}
    {location : Location} (hnode : root.Contains (.conditional test children location))
    (hopposite : test.opposite? = some opposite) (place : Location) {σ : Type} [Scope σ] (s : σ) :
    (Node.conditional opposite (otherwise children ++ [.elseBranch (body children) place])
        location).render s
      = (Node.conditional test children location).render s := by
  have hinner := (wellFormed_of_ofTokens htree).findElse?_otherwise hnode
  simp only [render, Rendering.reading, Condition.holds_opposite s hopposite,
    renderAll_concat_elseBranch, renderElse_concat_elseBranch hinner, renderAll_body,
    ← renderElse_eq_otherwise]
  cases test.holds s with
  | error e => rfl
  | ok holds =>
    cases holds with
    | true => rfl
    | false => rfl

/-- A test of a value for equality with itself, with a loop in its else branch. -/
def selfTest : List Token :=
  [⟨.block, "", "if x == x", ⟨0, 0, 0⟩⟩, ⟨.text, "same", "same", ⟨1, 0, 1⟩⟩,
    ⟨.block, "", "else", ⟨2, 0, 2⟩⟩, ⟨.block, "", "for k in xs", ⟨3, 0, 3⟩⟩,
    ⟨.placeholder, "", "k", ⟨4, 0, 4⟩⟩, ⟨.blockEnd, "", "endfor", ⟨5, 0, 5⟩⟩,
    ⟨.blockEnd, "", "endif", ⟨6, 0, 6⟩⟩]

theorem render_exchanged_branches_nan :
    let x : Expr := .name ⟨"x", []⟩
    let loop : Node := .forLoop "k" (.name ⟨"xs", []⟩) [.placeholder ⟨"k", []⟩ ⟨4, 0, 4⟩] ⟨3, 0, 3⟩
    let children : List Node := [.text "same" ⟨1, 0, 1⟩, .elseBranch [loop] ⟨2, 0, 2⟩]
    let c : Context := .ofList [("x", .float .nan), ("xs", .list [.int 7])]
    let after : Context := .ofList
      [("index", .int 0), ("k", .int 7), ("x", .float .nan), ("xs", .list [.int 7])]
    Node.ofTokens selfTest = .ok (.root [.conditional (.compare x .eq x) children ⟨0, 0, 0⟩])
      ∧ (Node.conditional (.compare x .ne x) [loop, .elseBranch [.text "same" ⟨1, 0, 1⟩] ⟨9, 0, 9⟩]
          ⟨0, 0, 0⟩).render c = ⟨.ok "7", after⟩ := by
  intro x loop children c after
  have htree : Node.ofTokens selfTest
      = .ok (.root [.conditional (.compare x .eq x) children ⟨0, 0, 0⟩]) := by rfl
  have hnode : (Node.root [.conditional (.compare x .eq x) children ⟨0, 0, 0⟩]).Contains
      (.conditional (.compare x .eq x) children ⟨0, 0, 0⟩) := .child .self List.mem_cons_self
  refine ⟨htree, ?_⟩
  exact render_exchanged_branches htree hnode rfl ⟨9, 0, 9⟩ c

end Node

end Stencil
