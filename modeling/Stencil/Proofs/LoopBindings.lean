-- SUMMARY: The rounds that the loops of a tree run, and that rendering binds their items and numbers and nothing else.
import Stencil.Proofs.Journals
import Stencil.Proofs.LiteralGrammar
import Stencil.Proofs.WellFormed
import Stencil.Template

/-!
# Loop Bindings

A round of a loop binds its number and then the item that it visits. Rendering
binds nothing besides: the scope that it leaves, with an output or with an error, is
the scope at the start with the bindings of all rounds in turn.
-/

namespace Stencil

open Rendering

/-! ## Rounds -/

/-- A round of a loop: the name that the loop binds, what it runs over, and the item
of the round between those of the other rounds. -/
structure Round where
  binding : String
  iterable : Expr
  before : List Value
  item : Value
  behind : List Value

namespace Round

/-- The items of the loop. -/
def items (r : Round) : List Value := r.before ++ r.item :: r.behind

/-- The number of the round, from zero. -/
def number (r : Round) : Nat := r.before.length

/-- What the round binds, in order. -/
def writes (r : Round) : Entries Value :=
  [(indexName, .ofInt r.number), (r.binding, r.item)]

theorem mem_writes_iff {r : Round} {name : String} {v : Value} :
    (name, v) ∈ r.writes
      ↔ (name = indexName ∧ v = .ofInt r.number) ∨ (name = r.binding ∧ v = r.item) := by
  simp [writes]

theorem number_lt (r : Round) : r.number < r.items.length := by
  simp only [number, items, List.length_append, List.length_cons]
  omega

end Round

/-- The number of a round is an integer, unless there are more rounds than integers. -/
theorem Value.exists_ofInt_eq_int {n : Nat} (h : n < 2 ^ 63) :
    ∃ i : Int64, Value.ofInt n = .int i ∧ i.toInt = n := by
  have hread : Text.int64? n = some (Int64.ofInt n) :=
    Literal.int64?_eq_some_iff.2 (Int64.toInt_ofInt_of_le (by omega) (by omega))
  refine ⟨Int64.ofInt n, ?_, Literal.int64?_eq_some_iff.1 hread⟩
  unfold Value.ofInt
  rw [hread]

variable {σ : Type} [Scope σ]

/-- Binds several names in turn. -/
def Scope.bindAll (s : σ) (entries : Entries Value) : σ :=
  entries.foldl (fun s entry => Scope.bind s entry.1 entry.2) s

theorem Scope.bindAll_append (s : σ) (entries more : Entries Value) :
    bindAll s (entries ++ more) = bindAll (bindAll s entries) more :=
  List.foldl_append

/-- The rounds of a loop from some item on, each with the rounds inside it, up to the
first round that fails. -/
def Rendering.roundsFrom (binding : String) (iterable : Expr) (body : Rendering σ)
    (inside : σ → List Round) (before : List Value) : List Value → σ → List Round
  | [], _ => []
  | item :: behind, s =>
    let round : Round := ⟨binding, iterable, before, item, behind⟩
    let entered := Scope.bindAll s round.writes
    round :: inside entered
      ++ body.after (roundsFrom binding iterable body inside (before ++ [item]) behind) entered

namespace Node

mutual

/-- The rounds that the loops of a tree run, in the order in which they begin. -/
def rounds : Node → σ → List Round
  | .root children, s => roundsAll children s
  | .text .., _ => []
  | .placeholder .., _ => []
  | .forLoop name iterable children _, s =>
    match iterable.items s with
    | .error _ => []
    | .ok items => roundsFrom name iterable (renderAll children) (roundsAll children) [] items s
  | .conditional test children _, s =>
    match test.holds s with
    | .error _ => []
    | .ok true => roundsAll children s
    | .ok false => roundsElse children s
  | .elseBranch .., _ => []

def roundsAll : List Node → σ → List Round
  | [], _ => []
  | node :: nodes, s => rounds node s ++ (render node).after (roundsAll nodes) s

def roundsElse : List Node → σ → List Round
  | [], _ => []
  | .elseBranch children _ :: _, s => roundsAll children s
  | _ :: nodes, s => roundsElse nodes s

end

end Node

/-! ## Rendering binds what its rounds bind -/

/-- The rounds bind all that the rendering does, whatever it comes to. -/
def Rendering.BindsIn (r : Rendering σ) (rounds : σ → List Round) : Prop :=
  ∀ s, (r s).scope = Scope.bindAll s ((rounds s).flatMap Round.writes)

namespace Rendering.BindsIn

variable {r r₁ r₂ body : Rendering σ} {rounds rounds₁ rounds₂ inside : σ → List Round}

theorem emit (text : String) : BindsIn (emit text : Rendering σ) fun _ => [] :=
  fun _ => rfl

theorem andThen (h₁ : r₁.BindsIn rounds₁) (h₂ : r₂.BindsIn rounds₂) :
    (r₁.andThen r₂).BindsIn fun s => rounds₁ s ++ r₁.after rounds₂ s := by
  intro s
  rw [List.flatMap_append, Scope.bindAll_append, ← h₁ s]
  simp only [Rendering.andThen, after]
  cases (r₁ s).output with
  | error e => rfl
  | ok text => exact h₂ _

/-- A round binds first, and then come its body and the rounds after it. -/
theorem forEach (hbody : body.BindsIn inside) (name : String) (iterable : Expr)
    (before items : List Value) :
    (forEach name body before.length items).BindsIn
      (roundsFrom name iterable body inside before items) := by
  induction items generalizing before with
  | nil => exact emit ""
  | cons item behind ih =>
    intro s
    have hrest := ih (before ++ [item])
    rw [List.length_append, List.length_singleton] at hrest
    let round : Round := ⟨name, iterable, before, item, behind⟩
    let entered := Scope.bindAll s round.writes
    let rest := Rendering.forEach name body (before.length + 1) behind
    let later := body.after (roundsFrom name iterable body inside (before ++ [item]) behind) entered
    calc (Rendering.forEach name body before.length (item :: behind) s).scope
      _ = (body.andThen rest entered).scope := rfl
      _ = Scope.bindAll entered ((inside entered ++ later).flatMap Round.writes) :=
        hbody.andThen hrest entered
      _ = Scope.bindAll s ((round :: inside entered ++ later).flatMap Round.writes) := by
        rw [List.cons_append, List.flatMap_cons, Scope.bindAll_append]

end Rendering.BindsIn

namespace Node

mutual

theorem bindsIn_render : (node : Node) → (node.render : Rendering σ).BindsIn node.rounds
  | .root children => by
    intro s
    simp only [render, rounds]
    exact bindsIn_renderAll children s
  | .text content _ => by
    intro s
    simp only [render, rounds]
    exact BindsIn.emit content s
  | .placeholder path _ => by
    intro s
    simp only [render, rounds, reading]
    cases path.resolve s with
    | error e => rfl
    | ok r => exact BindsIn.emit _ s
  | .forLoop name iterable children _ => by
    intro s
    simp only [render, rounds, reading]
    cases iterable.items s with
    | error e => rfl
    | ok items => exact (bindsIn_renderAll children).forEach name iterable [] items s
  | .conditional test children _ => by
    intro s
    simp only [render, rounds, reading]
    cases test.holds s with
    | error e => rfl
    | ok holds =>
      cases holds with
      | true => exact bindsIn_renderAll children s
      | false => exact bindsIn_renderElse children s
  | .elseBranch .. => by
    intro s
    simp only [render, rounds]
    exact BindsIn.emit "" s

theorem bindsIn_renderAll : (nodes : List Node) →
    (renderAll nodes : Rendering σ).BindsIn (roundsAll nodes)
  | [] => by
    intro s
    simp only [renderAll, roundsAll]
    exact BindsIn.emit "" s
  | node :: nodes => by
    intro s
    simp only [renderAll, roundsAll]
    exact (bindsIn_render node).andThen (bindsIn_renderAll nodes) s

theorem bindsIn_renderElse : (nodes : List Node) →
    (renderElse nodes : Rendering σ).BindsIn (roundsElse nodes)
  | [] => by
    intro s
    simp only [renderElse, roundsElse]
    exact BindsIn.emit "" s
  | node :: nodes => by
    intro s
    cases node with
    | elseBranch children location =>
      simp only [renderElse, roundsElse]
      exact bindsIn_renderAll children s
    | _ =>
      simp only [renderElse, roundsElse]
      exact bindsIn_renderElse nodes s

end

end Node

/-! ## Rounds belong to the loops of the tree -/

variable {α : Type}

omit [Scope σ] in
theorem Rendering.exists_mem_of_mem_after {r : Rendering σ} {seen : σ → List α} {a : α} {s : σ}
    (h : a ∈ r.after seen s) : ∃ s', a ∈ seen s' := by
  unfold after at h
  split at h
  · cases h
  · exact ⟨_, h⟩

/-- A round of the loop itself or a round inside it. -/
theorem Rendering.mem_roundsFrom_cases {name : String} {iterable : Expr} {body : Rendering σ}
    {inside : σ → List Round} {before items : List Value} {s : σ} {r : Round}
    (h : r ∈ roundsFrom name iterable body inside before items s) :
    (r.binding = name ∧ r.iterable = iterable ∧ r.items = before ++ items)
      ∨ ∃ s', r ∈ inside s' := by
  induction items generalizing before s with
  | nil => cases h
  | cons item behind ih =>
    rw [roundsFrom] at h
    rcases List.mem_append.1 h with hmem | hafter
    · rcases List.mem_cons.1 hmem with rfl | hinside
      · exact .inl ⟨rfl, rfl, rfl⟩
      · exact .inr ⟨_, hinside⟩
    · obtain ⟨s', hrest⟩ := exists_mem_of_mem_after hafter
      simpa using ih hrest

theorem Node.Contains.of_mem_children {parent child node : Node} (hmem : child ∈ parent.children)
    (h : child.Contains node) : parent.Contains node := by
  induction h with
  | self => exact .child .self hmem
  | child _ hbelow ih => exact ih.child hbelow

theorem Node.Contains.eq_or_exists_child {tree node : Node} (h : tree.Contains node) :
    node = tree ∨ ∃ child ∈ tree.children, child.Contains node := by
  induction h with
  | self => exact .inl rfl
  | child _ hmem ih =>
    rcases ih with rfl | ⟨child, hchild, hbelow⟩
    · exact .inr ⟨_, hmem, .self⟩
    · exact .inr ⟨child, hchild, hbelow.child hmem⟩

/-- The round is one of a loop in the tree, which runs over the items of the round in
some scope. -/
def Round.RunsIn (σ : Type) [Scope σ] (r : Round) (tree : Node) : Prop :=
  (∃ children place, tree.Contains (.forLoop r.binding r.iterable children place))
    ∧ ∃ s : σ, r.iterable.items s = .ok r.items

theorem Round.RunsIn.of_mem_children {r : Round} {parent child : Node}
    (hmem : child ∈ parent.children) (h : r.RunsIn σ child) : r.RunsIn σ parent := by
  obtain ⟨⟨children, place, hloop⟩, hitems⟩ := h
  exact ⟨⟨children, place, hloop.of_mem_children hmem⟩, hitems⟩

namespace Node

mutual

theorem runsIn_of_mem_rounds : (node : Node) → {s : σ} → {r : Round} → r ∈ node.rounds s →
    r.RunsIn σ node
  | .root children, s, r, h => by
    rw [rounds] at h
    obtain ⟨child, hmem, hruns⟩ := exists_runsIn_of_mem_roundsAll children h
    exact hruns.of_mem_children hmem
  | .text .., s, r, h => by
    rw [rounds] at h
    cases h
  | .placeholder .., s, r, h => by
    rw [rounds] at h
    cases h
  | .forLoop name iterable children place, s, r, h => by
    rw [rounds] at h
    split at h
    · cases h
    · next items hitems =>
      rcases mem_roundsFrom_cases h with ⟨hname, hiterable, hall⟩ | ⟨s', hinside⟩
      · refine ⟨⟨children, place, ?_⟩, s, ?_⟩
        · rw [hname, hiterable]
          exact .self
        · rw [hiterable, hall]
          exact hitems
      · obtain ⟨child, hmem, hruns⟩ := exists_runsIn_of_mem_roundsAll children hinside
        exact hruns.of_mem_children hmem
  | .conditional test children place, s, r, h => by
    rw [rounds] at h
    have hbelow : ∃ child ∈ children, r.RunsIn σ child := by
      split at h
      · cases h
      · exact exists_runsIn_of_mem_roundsAll children h
      · exact exists_runsIn_of_mem_roundsElse children h
    obtain ⟨child, hmem, hruns⟩ := hbelow
    exact hruns.of_mem_children hmem
  | .elseBranch .., s, r, h => by
    rw [rounds] at h
    cases h

theorem exists_runsIn_of_mem_roundsAll : (nodes : List Node) → {s : σ} → {r : Round} →
    r ∈ roundsAll nodes s → ∃ node ∈ nodes, r.RunsIn σ node
  | [], s, r, h => by
    rw [roundsAll] at h
    cases h
  | node :: nodes, s, r, h => by
    rw [roundsAll] at h
    rcases List.mem_append.1 h with hfirst | hafter
    · exact ⟨node, List.mem_cons_self, runsIn_of_mem_rounds node hfirst⟩
    · obtain ⟨s', hrest⟩ := exists_mem_of_mem_after hafter
      obtain ⟨later, hmem, hruns⟩ := exists_runsIn_of_mem_roundsAll nodes hrest
      exact ⟨later, List.mem_cons_of_mem _ hmem, hruns⟩

theorem exists_runsIn_of_mem_roundsElse : (nodes : List Node) → {s : σ} → {r : Round} →
    r ∈ roundsElse nodes s → ∃ node ∈ nodes, r.RunsIn σ node
  | [], s, r, h => by
    rw [roundsElse] at h
    cases h
  | node :: nodes, s, r, h => by
    cases node with
    | elseBranch other place =>
      rw [roundsElse] at h
      obtain ⟨child, hmem, hruns⟩ := exists_runsIn_of_mem_roundsAll other h
      exact ⟨_, List.mem_cons_self, hruns.of_mem_children hmem⟩
    | _ =>
      simp only [roundsElse] at h
      obtain ⟨later, hmem, hruns⟩ := exists_runsIn_of_mem_roundsElse nodes h
      exact ⟨later, List.mem_cons_of_mem _ hmem, hruns⟩

end

end Node

/-! ## What a rendering leaves in a context -/

theorem Entries.mem_of_find?_eq_some {name : String} {value : α} {entries : Entries α}
    (h : find? name entries = some value) : (name, value) ∈ entries := by
  induction entries with
  | nil => cases h
  | cons entry entries ih =>
    simp only [find?] at h
    split at h
    · next heq =>
      cases h
      cases heq
      exact List.mem_cons_self
    · exact List.mem_cons_of_mem _ (ih h)

/-- Setting entries leaves a name alone, or gives it the value of an entry. -/
theorem Dictionary.get?_insertAll_cases (d : Dictionary α) (entries : Entries α) (name : String) :
    (d.insertAll entries).get? name = d.get? name
      ∨ ∃ value, (name, value) ∈ entries ∧ (d.insertAll entries).get? name = some value := by
  rw [get?_insertAll_eq]
  cases hfind : Entries.find? name entries.reverse with
  | none => exact .inl rfl
  | some value =>
    exact .inr ⟨value, List.mem_reverse.1 (Entries.mem_of_find?_eq_some hfind), rfl⟩

/-- A name has its value from before, or one that a round has bound to it. -/
theorem Node.get?_render_cases (node : Node) (c : Context) (name : String) :
    (node.render c).scope.get? name = c.get? name
      ∨ ∃ round ∈ node.rounds c, ∃ value, (name, value) ∈ round.writes
        ∧ (node.render c).scope.get? name = some value := by
  have hscope : (node.render c).scope = c.insertAll ((node.rounds c).flatMap Round.writes) :=
    node.bindsIn_render c
  rw [hscope]
  rcases c.get?_insertAll_cases ((node.rounds c).flatMap Round.writes) name with
    hsame | ⟨value, hmem, hvalue⟩
  · exact .inl hsame
  · obtain ⟨round, hround, hwrite⟩ := List.mem_flatMap.1 hmem
    exact .inr ⟨round, hround, value, hwrite, hvalue⟩

namespace Template

/-- Rendering in a context, whatever comes of it, keeps all names, changes no name
that no loop binds, and leaves in `index` its value from before, a value that a loop
has bound to it, or the number of a round of some loop. -/
theorem renderInPlace_binds_in_loops (t : Template) (c : Context) :
    let after := (t.renderInPlace c).scope
    (∀ name, c.contains name → after.contains name)
      ∧ (∀ name, name ≠ indexName →
          (∀ iterable children place,
            ¬t.root.Contains (.forLoop name iterable children place)) →
          after.get? name = c.get? name)
      ∧ (after.get? indexName ≠ c.get? indexName →
          ∃ round ∈ t.root.rounds c, round.RunsIn Context t.root
            ∧ ((round.binding = indexName ∧ after.get? indexName = some round.item)
              ∨ (after.get? indexName = some (.ofInt round.number)
                ∧ round.number < round.items.length
                ∧ (round.items.length ≤ 2 ^ 63 →
                  ∃ n : Int64, Value.ofInt round.number = .int n ∧ n.toInt = round.number)))) := by
  intro after
  have hcases (name : String) : after.get? name = c.get? name
      ∨ ∃ round ∈ t.root.rounds c, ∃ value, (name, value) ∈ round.writes
        ∧ after.get? name = some value := t.root.get?_render_cases c name
  refine ⟨fun name hname => ?_, fun name hindex hloops => ?_, fun hchanged => ?_⟩
  · unfold Dictionary.contains at hname ⊢
    rcases hcases name with hsame | ⟨-, -, value, -, hvalue⟩
    · rwa [hsame]
    · rw [hvalue]
      rfl
  · rcases hcases name with hsame | ⟨round, hround, value, hwrite, -⟩
    · exact hsame
    · rcases Round.mem_writes_iff.1 hwrite with ⟨rfl, -⟩ | ⟨rfl, -⟩
      · exact absurd rfl hindex
      · obtain ⟨⟨children, place, hloop⟩, -⟩ := t.root.runsIn_of_mem_rounds hround
        exact absurd hloop (hloops _ _ _)
  · rcases hcases indexName with hsame | ⟨round, hround, value, hwrite, hvalue⟩
    · exact absurd hsame hchanged
    · refine ⟨round, hround, t.root.runsIn_of_mem_rounds hround, ?_⟩
      rcases Round.mem_writes_iff.1 hwrite with ⟨-, rfl⟩ | ⟨hname, rfl⟩
      · exact .inr ⟨hvalue, round.number_lt, fun hsize =>
          Value.exists_ofInt_eq_int (Nat.lt_of_lt_of_le round.number_lt hsize)⟩
      · exact .inl ⟨hname.symm, hvalue⟩

/-- A loop over the items of an outer loop, whose variable is `index`. -/
def nestedLoops : Template :=
  let place : Node := .placeholder ⟨"x", ["y"]⟩ ⟨43, 0, 43⟩
  let inner : Node := .forLoop "x" (.name ⟨"index", []⟩) [place] ⟨23, 0, 23⟩
  ⟨.root [.forLoop "index" (.name ⟨"rows", []⟩) [inner] ⟨0, 0, 0⟩],
    "\x7b% for index in rows %\x7d\x7b% for x in index %\x7d\x7b\x7b x.y \x7d\x7d"
      ++ "\x7b% endfor %\x7d\x7b% endfor %\x7d",
    defaultFilename⟩

theorem renderInPlace_binds_in_loops_nested :
    let c : Context := .ofList [("index", .null), ("kept", .bool true),
      ("rows", .list [.list [.map [("y", .int 5)], .map []], .list []])]
    let after := (nestedLoops.renderInPlace c).scope
    compile nestedLoops.source defaultFilename = .ok nestedLoops
      ∧ (nestedLoops.renderInPlace c).output = .error (.unresolved ⟨"x", ["y"]⟩)
      ∧ after.get? "kept" = some (.bool true)
      ∧ after.get? indexName = some (.int 1)
      ∧ ∃ round ∈ nestedLoops.root.rounds c, round.RunsIn Context nestedLoops.root := by
  intro c after
  obtain ⟨-, hframe, hindex⟩ := renderInPlace_binds_in_loops nestedLoops c
  have hchanged : after.get? indexName ≠ c.get? indexName := by decide +kernel
  obtain ⟨round, hround, hruns, -⟩ := hindex hchanged
  have hkept (iterable children place) :
      ¬nestedLoops.root.Contains (.forLoop "kept" iterable children place) := by
    intro h
    rcases h.eq_or_exists_child with heq | ⟨outer, houter, h⟩
    · cases heq
    obtain rfl := List.mem_singleton.1 houter
    rcases h.eq_or_exists_child with heq | ⟨inner, hinner, h⟩
    · exact absurd (Node.forLoop.inj heq).1 (by decide)
    obtain rfl := List.mem_singleton.1 hinner
    rcases h.eq_or_exists_child with heq | ⟨leaf, hleaf, h⟩
    · exact absurd (Node.forLoop.inj heq).1 (by decide)
    obtain rfl := List.mem_singleton.1 hleaf
    rcases h.eq_or_exists_child with heq | ⟨below, hbelow, h⟩
    · cases heq
    · cases hbelow
  exact ⟨by cbv, by decide +kernel, hframe "kept" (by decide) hkept, by decide +kernel,
    round, hround, hruns⟩

end Template

end Stencil
