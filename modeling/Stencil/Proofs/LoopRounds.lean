-- SUMMARY: The rounds of a loop without loops inside do not depend on each other, and the first one that fails is the failure of the loop.
import Stencil.Proofs.LineBoundaries
import Stencil.Proofs.LoopBindings

/-!
# Independent Rounds

Only loops bind names. If there is none in the body of a loop, then each round leaves
the scope as it has found it, and the next one binds its own number and item over those
of the round before. So every round starts in the scope of the loop with nothing but its
own bindings, also if the loop binds `index` itself or a name that it runs over: what it
visits is worked out before the first round.
-/

namespace Stencil

open Rendering

/-! ## Bodies without loops -/

namespace Node

/-- There is no loop among some trees or anywhere below them. -/
def LoopFree (nodes : List Node) : Prop :=
  ∀ node ∈ nodes, ∀ name iterable children place,
    ¬node.Contains (.forLoop name iterable children place)

variable {σ : Type} [Scope σ] {nodes : List Node}

theorem LoopFree.roundsAll_eq_nil (h : LoopFree nodes) (s : σ) : roundsAll nodes s = [] := by
  refine List.eq_nil_iff_forall_not_mem.2 fun round hround => ?_
  obtain ⟨node, hmem, ⟨children, place, hloop⟩, -⟩ := exists_runsIn_of_mem_roundsAll nodes hround
  exact h node hmem _ _ _ _ hloop

/-- Without loops nothing is bound. -/
theorem LoopFree.scope_renderAll (h : LoopFree nodes) (s : σ) : (renderAll nodes s).scope = s := by
  rw [bindsIn_renderAll nodes s, h.roundsAll_eq_nil]
  rfl

end Node

/-! ## Entering rounds -/

namespace Context

/-- The context in which a round starts: the number is bound, and then the item. -/
def enter (c : Context) (name : String) (round : Nat) (item : Value) : Context :=
  (c.insert indexName (.ofInt round)).insert name item

/-- A round binds over all that an earlier round has bound. -/
theorem enter_enter (c : Context) (name : String) (earlier round : Nat) (old item : Value) :
    (c.enter name earlier old).enter name round item = c.enter name round item := by
  apply Dictionary.eq_of_get?_eq
  intro other
  simp only [enter, Dictionary.get?_insert]
  split
  · rfl
  · split
    · rfl
    · rfl

/-- Enters rounds in turn, numbered from `start`. -/
def enterAll (c : Context) (name : String) (start : Nat) : List Value → Context
  | [] => c
  | item :: items => enterAll (c.enter name start item) name (start + 1) items

/-- Only the bindings of the last round are left. -/
theorem enterAll_eq_enter (c : Context) (name : String) (start : Nat) {items : List Value}
    {last : Nat} {item : Value} (hlast : last + 1 = items.length)
    (hitem : items[last]? = some item) :
    c.enterAll name start items = c.enter name (start + last) item := by
  induction items generalizing c start last with
  | nil => cases hitem
  | cons first items ih =>
    cases last with
    | zero =>
      obtain rfl := List.length_eq_zero_iff.1 (Nat.succ.inj hlast).symm
      obtain rfl := Option.some.inj hitem
      rfl
    | succ last =>
      rw [enterAll, ih _ _ (Nat.succ.inj hlast) hitem, enter_enter, Nat.add_assoc, Nat.add_comm 1]

end Context

/-! ## Loops -/

namespace Rendering

theorem binding_andThen {σ : Type} [Scope σ] (name : String) (v : Value) (r : Rendering σ) (s : σ) :
    (binding name v).andThen r s = r (Scope.bind s name v) := by
  simp only [andThen, binding]
  rcases r (Scope.bind s name v) with ⟨output, after⟩
  cases output <;> simp [Except.map]

variable {name : String} {body : Rendering Context} {c : Context} {start : Nat} {item : Value}
  {items : List Value}

/-- A loop enters its first round, renders the body and goes on with the other rounds. -/
theorem forEach_cons (name : String) (body : Rendering Context) (start : Nat) (item : Value)
    (items : List Value) (c : Context) :
    forEach name body start (item :: items) c
      = body.andThen (forEach name body (start + 1) items) (c.enter name start item) := by
  rw [forEach, binding_andThen, binding_andThen]
  rfl

/-- What a body comes to in each round, entered from one and the same context. -/
def outputsAlone (name : String) (body : Rendering Context) (c : Context) (start : Nat) :
    List Value → List (Except TemplateError String)
  | [] => []
  | item :: items =>
    (body (c.enter name start item)).output :: outputsAlone name body c (start + 1) items

theorem outputsAlone_enter (name : String) (body : Rendering Context) (c : Context) (earlier : Nat)
    (old : Value) (start : Nat) (items : List Value) :
    outputsAlone name body (c.enter name earlier old) start items
      = outputsAlone name body c start items := by
  induction items generalizing start with
  | nil => rfl
  | cons item items ih => rw [outputsAlone, outputsAlone, ih, Context.enter_enter]

theorem outputsAlone_eq_ofFn (name : String) (body : Rendering Context) (c : Context) (start : Nat)
    (items : List Value) :
    outputsAlone name body c start items
      = List.ofFn fun i : Fin items.length =>
          (body (c.enter name (start + i) items[i])).output := by
  induction items generalizing start with
  | nil => rfl
  | cons item items ih =>
    rw [outputsAlone, ih]
    simp [List.ofFn_succ, Nat.add_assoc, Nat.add_comm 1]

section Keeping

variable (hkeeps : ∀ c, (body c).scope = c)

include hkeeps

/-- If all rounds succeed alone, the loop puts out what they do, one after another. -/
theorem forEach_eq_ok {texts : List String}
    (h : outputsAlone name body c start items = texts.map .ok) :
    forEach name body start items c = ⟨.ok (String.join texts), c.enterAll name start items⟩ := by
  induction items generalizing c start texts with
  | nil =>
    obtain rfl := List.map_eq_nil_iff.1 h.symm
    rfl
  | cons item items ih =>
    obtain ⟨text, texts, rfl, htext, htexts⟩ := List.map_eq_cons_iff.1 h.symm
    have hover := outputsAlone_enter name body c start item (start + 1) items
    have hrest := ih (hover.trans htexts.symm)
    rw [forEach_cons, andThen_of_ok htext.symm, hkeeps, hrest, Context.enterAll]
    simp [Except.map]

/-- The first round that fails alone is where the loop fails. -/
theorem forEach_eq_error {i : Nat} {e : TemplateError} (hitem : items[i]? = some item)
    (hfails : (body (c.enter name (start + i) item)).output = .error e)
    (hearlier : ∀ j < i, ∀ other, items[j]? = some other →
      ∃ text, (body (c.enter name (start + j) other)).output = .ok text) :
    forEach name body start items c = ⟨.error e, c.enter name (start + i) item⟩ := by
  induction items generalizing c start i with
  | nil => cases hitem
  | cons first items ih =>
    rw [forEach_cons]
    cases i with
    | zero =>
      obtain rfl := Option.some.inj hitem
      rw [Nat.add_zero] at hfails
      rw [andThen_of_error hfails, hkeeps]
      rfl
    | succ i =>
      obtain ⟨text, htext⟩ := hearlier 0 (Nat.succ_pos i) first rfl
      -- round `i + 1` from `start` is round `i` from `start + 1`, and what the first round
      -- has bound is bound over
      have hnumber (j : Nat) : start + (j + 1) = start + 1 + j := by
        rw [Nat.add_assoc, Nat.add_comm 1]
      have hover (round : Nat) (other : Value) :
          (c.enter name start first).enter name round other = c.enter name round other :=
        c.enter_enter name start round first other
      have hrest : forEach name body (start + 1) items (c.enter name start first)
          = ⟨.error e, c.enter name (start + (i + 1)) item⟩ := by
        rw [hnumber i, ← hover (start + 1 + i) item]
        refine ih hitem ?_ fun j hj other hother => ?_
        · rw [hover, ← hnumber i]
          exact hfails
        · rw [hover, ← hnumber j]
          exact hearlier (j + 1) (Nat.succ_lt_succ hj) other hother
      rw [Nat.add_zero] at htext
      rw [andThen_of_ok htext, hkeeps, hrest]
      rfl

end Keeping

end Rendering

namespace Node

variable {name : String} {iterable : Expr} {children : List Node} {place : Location}
  {c : Context} {items : List Value}

section Rounds

variable (hfree : LoopFree children) (hitems : iterable.items c = .ok items)

include hfree hitems

theorem render_forLoop_eq_ok {texts : Fin items.length → String}
    (h : ∀ i : Fin items.length,
      (renderAll children (c.enter name i items[i])).output = .ok (texts i)) :
    (Node.forLoop name iterable children place).render c
      = ⟨.ok (String.join (List.ofFn texts)), c.enterAll name 0 items⟩ := by
  simp only [render, reading, hitems]
  apply forEach_eq_ok hfree.scope_renderAll
  rw [outputsAlone_eq_ofFn, List.map_ofFn]
  congr 1
  funext i
  rw [Nat.zero_add]
  exact h i

theorem render_forLoop_eq_error {i : Fin items.length} {e : TemplateError}
    (h : (renderAll children (c.enter name i items[i])).output = .error e)
    (hearlier : ∀ j < i, ∃ text, (renderAll children (c.enter name j items[j])).output = .ok text) :
    (Node.forLoop name iterable children place).render c
      = ⟨.error e, c.enter name i items[i]⟩ := by
  have hitem : items[(i : Nat)]? = some items[i] := List.getElem?_eq_getElem i.isLt
  have hfails : (renderAll children (c.enter name (0 + i) items[i])).output = .error e := by
    rw [Nat.zero_add]
    exact h
  simp only [render, reading, hitems]
  rw [forEach_eq_error hfree.scope_renderAll hitem hfails, Nat.zero_add]
  intro j hj other hother
  obtain ⟨hlt, rfl⟩ := List.getElem?_eq_some_iff.1 hother
  rw [Nat.zero_add]
  exact hearlier ⟨j, hlt⟩ hj

end Rounds

/-- A loop without loops inside renders its body for each item as it would alone, in the
context of the loop with the number of the round and then the item bound, up to the first
round that fails. -/
theorem render_loop_in_rounds (hfree : LoopFree children) (hitems : iterable.items c = .ok items) :
    let loop : Outcome Context := (Node.forLoop name iterable children place).render c
    let entered (i : Fin items.length) : Context := c.enter name i items[i]
    let alone (i : Fin items.length) : Outcome Context := renderAll children (entered i)
    ((∃ text, loop.output = .ok text) ↔ ∀ i, ∃ text, (alone i).output = .ok text)
      ∧ (∀ texts : Fin items.length → String, (∀ i, (alone i).output = .ok (texts i)) →
          loop.output = .ok (String.join (List.ofFn texts))
          ∧ ∀ last : Fin items.length, last + 1 = items.length → loop.scope = entered last)
      ∧ (∀ i e, (alone i).output = .error e → (∀ j < i, ∃ text, (alone j).output = .ok text) →
          loop = ⟨.error e, entered i⟩)
      ∧ (items = [] → loop = ⟨.ok "", c⟩)
      ∧ (items.length ≤ 2 ^ 63 → ∀ i : Fin items.length,
          ∃ n : Int64, Value.ofInt (i : Nat) = .int n ∧ n.toInt = (i : Nat)) := by
  intro loop entered alone
  have hsuccess (texts : Fin items.length → String)
      (htexts : ∀ i, (alone i).output = .ok (texts i)) :
      loop = ⟨.ok (String.join (List.ofFn texts)), c.enterAll name 0 items⟩ :=
    render_forLoop_eq_ok hfree hitems htexts
  have hfailure (i : Fin items.length) (e : TemplateError) (he : (alone i).output = .error e)
      (hearlier : ∀ j < i, ∃ text, (alone j).output = .ok text) : loop = ⟨.error e, entered i⟩ :=
    render_forLoop_eq_error hfree hitems he hearlier
  refine ⟨⟨?_, ?_⟩, ?_, hfailure, ?_, ?_⟩
  · rintro ⟨text, htext⟩
    by_contra hsome
    -- the first round that fails alone would be the failure of the loop
    obtain ⟨i, hi, hearlier⟩ := wellFounded_lt.has_min {i | ¬∃ text, (alone i).output = .ok text}
      (not_forall.1 hsome)
    cases halone : (alone i).output with
    | ok text => exact hi ⟨text, halone⟩
    | error e =>
      rw [hfailure i e halone fun j hj => not_not.1 fun hj' => hearlier j hj' hj] at htext
      cases htext
  · intro hall
    choose texts htexts using hall
    exact ⟨_, congrArg Outcome.output (hsuccess texts htexts)⟩
  · intro texts htexts
    rw [hsuccess texts htexts]
    refine ⟨rfl, fun last hlast => ?_⟩
    have hitem : items[(last : Nat)]? = some items[last] := List.getElem?_eq_getElem last.isLt
    have hscope := c.enterAll_eq_enter name 0 hlast hitem
    rwa [Nat.zero_add] at hscope
  · rintro rfl
    simp only [loop, render, reading, hitems]
    rfl
  · intro hsize i
    exact Value.exists_ofInt_eq_int (Nat.lt_of_lt_of_le i.isLt hsize)

/-- A loop whose variable takes the name that the loop runs over. -/
def loopOverItself : Node :=
  let otherwise : Node := .elseBranch [.placeholder ⟨"index", []⟩ ⟨37, 0, 37⟩] ⟨29, 0, 29⟩
  let conditional : Node := .conditional (.truthy (.name ⟨"x", []⟩))
    [.placeholder ⟨"x", ["y"]⟩ ⟨22, 0, 22⟩, otherwise] ⟨14, 0, 14⟩
  .forLoop "x" (.name ⟨"x", []⟩) [conditional] ⟨0, 0, 0⟩

/-- How that loop is written. -/
def loopOverItselfSource : String :=
  "\x7b%for x in x%\x7d\x7b%if x%\x7d\x7b\x7bx.y\x7d\x7d\x7b%else%\x7d\x7b\x7bindex\x7d\x7d"
    ++ "\x7b%endif%\x7d\x7b%endfor%\x7d"

theorem loopFree_loopOverItself : LoopFree loopOverItself.children := by
  intro node hmem name iterable children place h
  obtain rfl := List.mem_singleton.1 hmem
  rcases h.eq_or_exists_child with heq | ⟨child, hchild, h⟩
  · cases heq
  rcases List.mem_pair.1 hchild with rfl | rfl
  · rcases h.eq_or_exists_child with heq | ⟨below, hbelow, -⟩
    · cases heq
    · cases hbelow
  · rcases h.eq_or_exists_child with heq | ⟨below, hbelow, h⟩
    · cases heq
    obtain rfl := List.mem_singleton.1 hbelow
    rcases h.eq_or_exists_child with heq | ⟨below, hbelow, -⟩
    · cases heq
    · cases hbelow

theorem render_loop_in_rounds_over_itself :
    let items : List Value := [.map [("y", .int 5)], .null, .bool true]
    let c : Context := .ofList [("x", .list items)]
    let few : Context := .ofList [("x", .list (items.take 2))]
    Node.ofTokens (tokenize loopOverItselfSource) = .ok (.root [loopOverItself])
      ∧ LoopFree loopOverItself.children
      ∧ loopOverItself.render c
        = ⟨.error (.unresolved ⟨"x", ["y"]⟩), c.enter "x" 2 (.bool true)⟩
      ∧ (loopOverItself.render few).output = .ok "51"
      ∧ (loopOverItself.render few).scope = few.enter "x" 1 .null := by
  intro items c few
  have hall : (Expr.name ⟨"x", []⟩).items c = .ok items := by rfl
  have hfew : (Expr.name ⟨"x", []⟩).items few = .ok (items.take 2) := by rfl
  let children := loopOverItself.children
  have hfirst : (renderAll children (c.enter "x" 0 (.map [("y", .int 5)]))).output = .ok "5" := by
    cbv
  have hsecond : (renderAll children (c.enter "x" 1 .null)).output = .ok "1" := by cbv
  have hthird : (renderAll children (c.enter "x" 2 (.bool true))).output
      = .error (.unresolved ⟨"x", ["y"]⟩) := by cbv
  obtain ⟨-, -, hfailure, -⟩ :=
    @render_loop_in_rounds "x" (.name ⟨"x", []⟩) children ⟨0, 0, 0⟩ c items
      loopFree_loopOverItself hall
  obtain ⟨-, hsuccess, -⟩ :=
    @render_loop_in_rounds "x" (.name ⟨"x", []⟩) children ⟨0, 0, 0⟩ few (items.take 2)
      loopFree_loopOverItself hfew
  have hfails := hfailure ⟨2, by decide⟩ _ hthird fun j hj => by
    fin_cases j
    · exact ⟨"5", hfirst⟩
    · exact ⟨"1", hsecond⟩
    · exact absurd hj (by decide)
  obtain ⟨houtput, hscope⟩ := hsuccess (fun i => if i.1 = 0 then "5" else "1") fun i => by
    fin_cases i
    · cbv
    · cbv
  have htree : Node.ofTokens (tokenize loopOverItselfSource) = .ok (.root [loopOverItself]) := by
    cbv
  exact ⟨htree, loopFree_loopOverItself, hfails, houtput, hscope ⟨1, by decide⟩ rfl⟩

end Node

end Stencil
