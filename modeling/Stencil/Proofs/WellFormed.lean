-- SUMMARY: The shape of the trees that tokens write: one root, else branches last in their conditional, and names that can be looked up.
import Stencil.Proofs.Transcript
import Stencil.Render

/-!
# Well-Formed Trees

Nothing in the type of trees keeps a root from standing inside a tree, or an else
branch from standing in a loop or in front of other nodes. The trees of tokens are
all well formed: `WellFormed` says so of each node in the tree, by looking at that
node and the nodes right below it.

What tokens build is made of parts: nodes other than roots and else branches whose
bodies are made of parts again, where a conditional may have an else branch at the
end of its body. Every finished node of an outline is a part. An else branch is
finished together with its conditional, so it never stands among parts for longer
than one step.
-/

namespace Stencil

/-! ## The nodes of a tree -/

/-- `tree.Contains node`: the node is the tree itself or somewhere below its top. -/
inductive Node.Contains (tree : Node) : Node → Prop where
  | self : Contains tree tree
  | child {parent node : Node} (h : Contains tree parent) (hmem : node ∈ parent.children) :
      Contains tree node

/-! ## The paths in a header -/

def Expr.paths : Expr → List Path
  | .literal _ => []
  | .name path => [path]

def Condition.paths : Condition → List Path
  | .truthy operand => operand.paths
  | .compare left _ right => left.paths ++ right.paths
  | .identity left _ right => left.paths ++ right.paths

/-- The paths that a node looks up itself, apart from the nodes below it. -/
def Node.paths : Node → List Path
  | .placeholder path _ => [path]
  | .forLoop _ iterable _ _ => iterable.paths
  | .conditional test _ _ => test.paths
  | _ => []

/-- The text of the path is not empty and has no blanks. -/
def Path.IsWord (p : Path) : Prop := p.text ≠ "" ∧ Text.Solid p.text.toList

/-- An alphabetic character or an underscore, and after it alphabetic and numeric
characters and underscores. -/
def Text.IsName (s : String) : Prop :=
  ∃ first others, s.toList = first :: others ∧ (isAlphabetic first ∨ first = '_')
    ∧ ∀ c ∈ others, isAlphabetic c ∨ isNumeric c ∨ c = '_'

theorem Text.isName_of_isIdentifier {s : String} (h : isIdentifier s = true) : IsName s := by
  unfold isIdentifier at h
  split at h
  · cases h
  · next first others hchars =>
    obtain ⟨hfirst, hothers⟩ := Bool.and_eq_true_iff.1 h
    refine ⟨first, others, hchars, by simpa [isWordStart] using hfirst, ?_⟩
    intro c hc
    have hword := List.all_eq_true.1 hothers c hc
    simpa [isWordChar, isAlphanumeric, or_assoc] using hword

/-! ## Well-formed trees -/

/-- What holds of each node in the tree of some tokens. -/
structure Node.WellFormed (tree : Node) : Prop where
  root : ∃ children, tree = .root children
  noOtherRoot : ∀ parent node children, tree.Contains parent → node ∈ parent.children →
    node ≠ .root children
  /-- An else branch is the last child of a conditional and its first else branch,
  so it is the one that renders. -/
  elseLast : ∀ parent before other place after, tree.Contains parent →
    parent.children = before ++ .elseBranch other place :: after →
      (∃ test location, parent = .conditional test parent.children location)
        ∧ after = []
        ∧ findElse? parent.children = some (other, place)
        ∧ ∀ {σ : Type} [Scope σ], (renderElse parent.children : Rendering σ) = renderAll other
  binding : ∀ name iterable children place,
    tree.Contains (.forLoop name iterable children place) → Text.IsName name
  paths : ∀ node path, tree.Contains node → path ∈ node.paths → path.IsWord
  segments : ∀ path place, tree.Contains (.placeholder path place) →
    ∀ segment ∈ path.segments, segment ≠ ""

/-! ## Headers -/

/-- The name and the paths in the header of a block are as they should be. -/
def BlockHead.IsSound : BlockHead → Prop
  | .forLoop name iterable => Text.IsName name ∧ ∀ path ∈ iterable.paths, path.IsWord
  | .conditional test => ∀ path ∈ test.paths, path.IsWord
  | .elseBranch => True

theorem Expr.isWord_of_mem_paths {cs : List Char} (hne : cs ≠ []) (hsolid : Text.Solid cs) :
    ∀ path ∈ (Expr.ofString (String.ofList cs)).paths, path.IsWord := by
  intro path hpath
  unfold Expr.ofString at hpath
  split at hpath
  · cases hpath
  · have htext : path.text = String.ofList cs := by
      rw [List.mem_singleton.1 hpath, Path.text_ofString, Text.trim, String.toList_ofList,
        Text.trimChars_of_solid hsolid]
    unfold Path.IsWord
    rw [htext, String.toList_ofList]
    refine ⟨fun hempty => hne ?_, hsolid⟩
    simpa using congrArg String.toList hempty

namespace Token

variable {t : Token}

theorem isWord_of_mem_words {word : String} (h : word ∈ t.words) :
    ∀ path ∈ (Expr.ofString word).paths, path.IsWord := by
  obtain ⟨chars, hchars, rfl⟩ := List.mem_map.1 h
  obtain ⟨hne, hsolid⟩ := Text.solid_of_mem_wordsOf hchars
  exact Expr.isWord_of_mem_paths hne hsolid

theorem isSound_of_ofToken_forLoop {name : String} {iterable : Expr}
    (h : Tag.ofToken t = .ok (.forLoop name iterable)) :
    (BlockHead.forLoop name iterable).IsSound := by
  obtain ⟨-, chars, operand, hleading, hname, hne, hoperand⟩ : t.IsFor := inClass_of_ofToken h
  obtain ⟨operand', hleading', rfl⟩ := writesLoop_of_ofToken h
  -- A text has one list of three leading words, with one rest.
  have hsplit : (["for".toList, chars, "in".toList], operand)
      = (["for".toList, name.toList, "in".toList], operand') :=
    hleading.splitWords_eq.symm.trans hleading'.splitWords_eq
  simp only [Prod.mk.injEq, List.cons.injEq] at hsplit
  obtain ⟨⟨-, rfl, -⟩, rfl⟩ := hsplit
  rw [String.ofList_toList] at hname
  refine ⟨Text.isName_of_isIdentifier hname, ?_⟩
  rcases hoperand with hsolid | hliteral
  · exact Expr.isWord_of_mem_paths hne hsolid
  · obtain ⟨v, hv⟩ := Option.isSome_iff_exists.1 hliteral
    simp [Expr.ofString, hv, Expr.paths]

theorem isSound_of_ofToken_conditional {test : Condition}
    (h : Tag.ofToken t = .ok (.conditional test)) : (BlockHead.conditional test).IsSound := by
  have hwrites := writesTest_of_ofToken h
  cases test with
  | truthy operand =>
    obtain ⟨word, hwords, rfl⟩ := hwrites
    have hword : word ∈ t.words := by simp [hwords]
    exact isWord_of_mem_words hword
  | compare left op right =>
    obtain ⟨first, second, hwords, rfl, rfl⟩ := hwrites
    have hfirst : first ∈ t.words := by simp [hwords]
    have hsecond : second ∈ t.words := by simp [hwords]
    exact List.forall_mem_append.2 ⟨isWord_of_mem_words hfirst, isWord_of_mem_words hsecond⟩
  | identity left negated right =>
    obtain ⟨first, second, hfirst, hsecond, rfl, rfl⟩ : ∃ first second,
        first ∈ t.words ∧ second ∈ t.words ∧ left = .ofString first
          ∧ right = .ofString second := by
      cases negated with
      | false =>
        obtain ⟨first, second, hwords, hleft, hright⟩ := hwrites
        exact ⟨first, second, by simp [hwords], by simp [hwords], hleft, hright⟩
      | true =>
        obtain ⟨first, second, hwords, hleft, hright⟩ := hwrites
        exact ⟨first, second, by simp [hwords], by simp [hwords], hleft, hright⟩
    exact List.forall_mem_append.2 ⟨isWord_of_mem_words hfirst, isWord_of_mem_words hsecond⟩

/-- The path of a placeholder is a word, and none of its segments is empty. -/
theorem isWord_of_ofToken_placeholder {path : Path} (h : Tag.ofToken t = .ok (.placeholder path)) :
    path.IsWord ∧ ∀ segment ∈ path.segments, segment ≠ "" := by
  obtain ⟨-, hne, hsolid, hsegments⟩ : t.IsPlaceholder := inClass_of_ofToken h
  have hpath := path_of_ofToken h
  refine ⟨?_, ?_⟩
  · unfold Path.IsWord
    rw [hpath, Path.text_ofString]
    exact ⟨hne, hsolid⟩
  · rintro segment hmem rfl
    rw [hpath] at hmem
    exact hsegments [] (empty_mem_segments_iff.1 hmem) rfl

end Token

/-! ## Parts -/

/-- A node that may stand in a body. -/
inductive Node.IsPart : Node → Prop where
  | text (content : String) (place : Location) : IsPart (.text content place)
  | placeholder {path : Path} (place : Location)
      (hpath : path.IsWord ∧ ∀ segment ∈ path.segments, segment ≠ "") :
      IsPart (.placeholder path place)
  | forLoop {name : String} {iterable : Expr} {body : List Node} (place : Location)
      (hhead : (BlockHead.forLoop name iterable).IsSound) (hbody : ∀ node ∈ body, IsPart node) :
      IsPart (.forLoop name iterable body place)
  | conditional {test : Condition} {body : List Node} (place : Location)
      (hhead : (BlockHead.conditional test).IsSound) (hbody : ∀ node ∈ body, IsPart node) :
      IsPart (.conditional test body place)
  | branches {test : Condition} {body other : List Node} (place elsePlace : Location)
      (hhead : (BlockHead.conditional test).IsSound) (hbody : ∀ node ∈ body, IsPart node)
      (hother : ∀ node ∈ other, IsPart node) :
      IsPart (.conditional test (body ++ [.elseBranch other elsePlace]) place)

namespace Outline

variable {o o' : Outline} {t : Token} {tag : Tag} {ts us : List Token}

/-- All that is finished are parts, and the open blocks have sound headers. -/
structure IsSound (o : Outline) : Prop where
  finished : ∀ node ∈ o.finished, node.IsPart
  blocks : ∀ b ∈ o.blocks, b.head.IsSound ∧ ∀ node ∈ b.children, node.IsPart

theorem isSound_start : IsSound start := ⟨List.forall_mem_nil _, List.forall_mem_nil _⟩

theorem IsSound.add {node : Node} (h : o.IsSound) (hnode : node.IsPart) : (o.add node).IsSound := by
  rcases o with ⟨blocks, finished⟩
  obtain ⟨hfinished, hblocks⟩ := h
  have hsnoc {nodes : List Node} (hnodes : ∀ n ∈ nodes, n.IsPart) :
      ∀ n ∈ nodes ++ [node], n.IsPart :=
    List.forall_mem_append.2 ⟨hnodes, List.forall_mem_singleton.2 hnode⟩
  cases blocks with
  | nil => exact ⟨hsnoc hfinished, List.forall_mem_nil _⟩
  | cons b rest =>
    obtain ⟨⟨hhead, hchildren⟩, hrest⟩ := List.forall_mem_cons.1 hblocks
    exact ⟨hfinished, List.forall_mem_cons.2 ⟨⟨hhead, hsnoc hchildren⟩, hrest⟩⟩

theorem IsSound.push {head : BlockHead} (h : o.IsSound) (hhead : head.IsSound) (t : Token) :
    (o.push head t).IsSound :=
  ⟨h.finished, List.forall_mem_cons.2 ⟨⟨hhead, List.forall_mem_nil _⟩, h.blocks⟩⟩

/-- Closing a loop or a conditional without an else branch. -/
theorem IsSound.pop {head : BlockHead} {heads : List BlockHead} (h : o.IsSound)
    (hheads : o.heads = head :: heads) (hne : head ≠ .elseBranch) : o.pop.IsSound := by
  rcases o with ⟨blocks, finished⟩
  obtain ⟨⟨head, opener, children⟩, rest, rfl, rfl, -⟩ := List.map_eq_cons_iff.1 hheads
  obtain ⟨⟨hhead, hchildren⟩, hrest⟩ := List.forall_mem_cons.1 h.blocks
  have hbelow : IsSound ⟨rest, finished⟩ := ⟨h.finished, hrest⟩
  cases head with
  | forLoop name iterable => exact hbelow.add (.forLoop _ hhead hchildren)
  | conditional test => exact hbelow.add (.conditional _ hhead hchildren)
  | elseBranch => exact absurd rfl hne

/-- Closing an else branch and the conditional around it. -/
theorem IsSound.pop_pop {test : Condition} {heads : List BlockHead} (h : o.IsSound)
    (hheads : o.heads = .elseBranch :: .conditional test :: heads) : o.pop.pop.IsSound := by
  rcases o with ⟨blocks, finished⟩
  obtain ⟨⟨head, opener, other⟩, rest, rfl, hhead, hrest⟩ := List.map_eq_cons_iff.1 hheads
  obtain ⟨⟨head', opener', body⟩, rest, rfl, hhead', -⟩ := List.map_eq_cons_iff.1 hrest
  obtain rfl : head = .elseBranch := hhead
  obtain rfl : head' = .conditional test := hhead'
  obtain ⟨⟨-, hother⟩, houter⟩ := List.forall_mem_cons.1 h.blocks
  obtain ⟨⟨htest, hbody⟩, hbelow⟩ := List.forall_mem_cons.1 houter
  have hbelow : IsSound ⟨rest, finished⟩ := ⟨h.finished, hbelow⟩
  exact hbelow.add (.branches _ _ htest hbody hother)

theorem IsSound.take (h : o.IsSound) (hopens : Opens o.heads us) (htag : Tag.ofToken t = .ok tag)
    (htake : o.take t tag = .ok o') : o'.IsSound := by
  cases tag with
  | text =>
    cases htake
    exact h.add (.text _ _)
  | placeholder path =>
    cases htake
    exact h.add (.placeholder _ (Token.isWord_of_ofToken_placeholder htag))
  | forLoop name iterable =>
    cases htake
    exact h.push (Token.isSound_of_ofToken_forLoop htag) t
  | conditional test =>
    cases htake
    exact h.push (Token.isSound_of_ofToken_conditional htag) t
  | otherwise =>
    simp only [Outline.take, startElse] at htake
    split at htake
    · cases htake
    · split at htake
      · cases htake
        exact h.push (show BlockHead.elseBranch.IsSound from trivial) t
      · cases htake
      · cases htake
  | close closer =>
    obtain ⟨head, heads, hheads, -, ⟨rfl, rfl⟩ | ⟨hne, rfl⟩⟩ := exists_of_close htake
    · rw [hheads] at hopens
      obtain ⟨test, rest, rfl⟩ := hopens.exists_conditional
      exact h.pop_pop hheads
    · exact h.pop hheads hne
  | inert =>
    cases htake
    exact h

theorem IsSound.runs (h : o.IsSound) (hopens : Opens o.heads us) (hruns : Runs o ts o') :
    o'.IsSound := by
  induction ts generalizing o us with
  | nil =>
    cases hruns
    exact h
  | cons t ts ih =>
    obtain ⟨o₁, hstep, hrest⟩ := hruns.exists_of_cons
    obtain ⟨tag, htag, htake⟩ := step_eq_ok_iff.1 hstep
    exact ih (h.take hopens htag htake) (hopens.step hstep) hrest

end Outline

/-! ## The nodes of a tree of parts -/

namespace Node

theorem not_isPart_root (children : List Node) : ¬(Node.root children).IsPart := nofun

theorem not_isPart_elseBranch (other : List Node) (place : Location) :
    ¬(Node.elseBranch other place).IsPart := nofun

/-- What can stand in a tree whose finished nodes are parts: its root, parts, and the
else branches inside them. -/
inductive IsInner (nodes : List Node) : Node → Prop where
  | root : IsInner nodes (.root nodes)
  | part {node : Node} (h : node.IsPart) : IsInner nodes node
  | elseBranch {other : List Node} (place : Location) (hother : ∀ node ∈ other, node.IsPart) :
      IsInner nodes (.elseBranch other place)

variable {nodes : List Node} {node parent : Node}

/-- The children of such a node are parts, but for an else branch at the end of a
conditional. -/
theorem IsInner.children_cases (hnodes : ∀ n ∈ nodes, n.IsPart) (h : IsInner nodes parent) :
    (∀ n ∈ parent.children, n.IsPart)
      ∨ ∃ test body other elsePlace place,
        parent = .conditional test (body ++ [.elseBranch other elsePlace]) place
          ∧ (∀ n ∈ body, n.IsPart) ∧ ∀ n ∈ other, n.IsPart := by
  cases h with
  | root => exact .inl hnodes
  | elseBranch place hother => exact .inl hother
  | part hpart =>
    cases hpart with
    | text => exact .inl (List.forall_mem_nil _)
    | placeholder => exact .inl (List.forall_mem_nil _)
    | forLoop place hhead hbody => exact .inl hbody
    | conditional place hhead hbody => exact .inl hbody
    | branches place elsePlace hhead hbody hother =>
      exact .inr ⟨_, _, _, _, _, rfl, hbody, hother⟩

theorem Contains.isInner (hnodes : ∀ n ∈ nodes, n.IsPart) (h : (Node.root nodes).Contains node) :
    IsInner nodes node := by
  induction h with
  | self => exact .root
  | child _ hmem ih =>
    rcases ih.children_cases hnodes with hparts | ⟨_, body, other, elsePlace, _, rfl, hbody, hother⟩
    · exact .part (hparts _ hmem)
    · rcases List.mem_append.1 hmem with hmem | hmem
      · exact .part (hbody _ hmem)
      · obtain rfl := List.mem_singleton.1 hmem
        exact .elseBranch elsePlace hother

theorem mem_of_findElse? {other : List Node} {place : Location}
    (h : findElse? nodes = some (other, place)) : .elseBranch other place ∈ nodes := by
  induction nodes with
  | nil => cases h
  | cons node nodes ih =>
    cases node with
    | elseBranch other' place' =>
      cases h
      exact List.mem_cons_self
    | _ => exact List.mem_cons_of_mem _ (ih h)

theorem findElse?_eq_none (hnodes : ∀ n ∈ nodes, n.IsPart) : findElse? nodes = none := by
  cases h : findElse? nodes with
  | none => rfl
  | some found => exact absurd (hnodes _ (mem_of_findElse? h)) (not_isPart_elseBranch _ _)

/-- Behind nodes without an else branch the first one is found. -/
theorem findElse?_append (h : findElse? nodes = none) (more : List Node) :
    findElse? (nodes ++ more) = findElse? more := by
  induction nodes with
  | nil => rfl
  | cons node nodes ih =>
    cases node with
    | elseBranch other place => cases h
    | _ => exact ih h

/-- Rendering scans for the same else branch. -/
theorem renderElse_eq {σ : Type} [Scope σ] (nodes : List Node) :
    (renderElse nodes : Rendering σ)
      = match findElse? nodes with
        | some (other, _) => renderAll other
        | none => .skip := by
  induction nodes with
  | nil => simp only [renderElse, findElse?]
  | cons node nodes ih =>
    cases node with
    | elseBranch other place => simp only [renderElse, findElse?]
    | _ => simp only [renderElse, findElse?, ih]

/-- An else branch among the children can only be the one at the end. -/
theorem IsInner.elseLast (hnodes : ∀ n ∈ nodes, n.IsPart) (h : IsInner nodes parent)
    {before after other : List Node} {place : Location}
    (heq : parent.children = before ++ .elseBranch other place :: after) :
    (∃ test location, parent = .conditional test parent.children location)
      ∧ after = [] ∧ findElse? parent.children = some (other, place) := by
  have hmem : Node.elseBranch other place ∈ parent.children := by simp [heq]
  rcases h.children_cases hnodes with
    hparts | ⟨test, body, other', elsePlace, location, rfl, hbody, -⟩
  · exact absurd (hparts _ hmem) (not_isPart_elseBranch other place)
  · have hlast : body ++ [.elseBranch other' elsePlace]
        = before ++ .elseBranch other place :: after := heq
    rcases List.eq_nil_or_concat after with rfl | ⟨init, last, rfl⟩
    · obtain ⟨rfl, hsame⟩ := List.append_inj' hlast rfl
      cases hsame
      exact ⟨⟨test, location, rfl⟩, rfl, findElse?_append (findElse?_eq_none hbody) _⟩
    · -- With a node behind it, the branch would stand in the body.
      rw [List.concat_eq_append, ← List.cons_append, ← List.append_assoc] at hlast
      obtain ⟨rfl, -⟩ := List.append_inj' hlast rfl
      exact absurd (hbody _ (by simp)) (not_isPart_elseBranch other place)

end Node

/-- Every tree of tokens is well formed. -/
theorem wellFormed_of_ofTokens {ts : List Token} {root : Node} (h : Node.ofTokens ts = .ok root) :
    root.WellFormed := by
  obtain ⟨o, hruns, hfinish⟩ := Node.ofTokens_eq_ok_iff.1 h
  obtain ⟨-, rfl⟩ := Outline.finish_eq_ok_iff.1 hfinish
  have hnodes := (Outline.isSound_start.runs (.body .nil) hruns).finished
  constructor
  case root => exact ⟨o.finished, rfl⟩
  case noOtherRoot =>
    rintro parent node children hparent hmem rfl
    rcases (hparent.isInner hnodes).children_cases hnodes with
      hparts | ⟨_, body, other, elsePlace, _, rfl, hbody, -⟩
    · exact Node.not_isPart_root children (hparts _ hmem)
    · rcases List.mem_append.1 hmem with hmem | hmem
      · exact Node.not_isPart_root children (hbody _ hmem)
      · cases List.mem_singleton.1 hmem
  case elseLast =>
    intro parent before other place after hparent heq
    obtain ⟨hconditional, hafter, hfind⟩ := (hparent.isInner hnodes).elseLast hnodes heq
    refine ⟨hconditional, hafter, hfind, ?_⟩
    intro σ _
    rw [Node.renderElse_eq, hfind]
  case binding =>
    intro name iterable children place hloop
    cases hloop.isInner hnodes with
    | part hpart =>
      cases hpart with
      | forLoop _ hhead _ => exact hhead.1
  case paths =>
    intro node path hnode hpath
    cases hnode.isInner hnodes with
    | root => cases hpath
    | elseBranch => cases hpath
    | part hpart =>
      cases hpart with
      | text => cases hpath
      | placeholder _ hword =>
        obtain rfl := List.mem_singleton.1 hpath
        exact hword.1
      | forLoop _ hhead _ => exact hhead.2 path hpath
      | conditional _ hhead _ => exact hhead path hpath
      | branches _ _ hhead _ _ => exact hhead path hpath
  case segments =>
    intro path place hplaceholder
    cases hplaceholder.isInner hnodes with
    | part hpart =>
      cases hpart with
      | placeholder _ hpath => exact hpath.2

/-- A conditional in a loop, with a loop in its else branch. -/
def Token.nestedBlocks : List Token :=
  [⟨.block, "", "for x in xs", ⟨0, 0, 0⟩⟩, ⟨.block, "", "if x is not y.z", ⟨1, 0, 1⟩⟩,
    ⟨.placeholder, "", "x.0", ⟨2, 0, 2⟩⟩, ⟨.block, "", "else", ⟨3, 0, 3⟩⟩,
    ⟨.block, "", "for _k in x", ⟨4, 0, 4⟩⟩, ⟨.blockEnd, "", "endfor", ⟨5, 0, 5⟩⟩,
    ⟨.blockEnd, "", "endif", ⟨6, 0, 6⟩⟩, ⟨.blockEnd, "", "endfor", ⟨7, 0, 7⟩⟩]

theorem wellFormed_of_ofTokens_nested :
    let inner : Node := .forLoop "_k" (.name ⟨"x", []⟩) [] ⟨4, 0, 4⟩
    let test : Condition := .identity (.name ⟨"x", []⟩) true (.name ⟨"y", ["z"]⟩)
    let branches := [.placeholder ⟨"x", ["0"]⟩ ⟨2, 0, 2⟩, .elseBranch [inner] ⟨3, 0, 3⟩]
    let root : Node :=
      .root [.forLoop "x" (.name ⟨"xs", []⟩) [.conditional test branches ⟨1, 0, 1⟩] ⟨0, 0, 0⟩]
    Node.ofTokens Token.nestedBlocks = .ok root
      ∧ root.WellFormed
      ∧ Node.findElse? branches = some ([inner], ⟨3, 0, 3⟩)
      ∧ Text.IsName "_k" := by
  intro inner test branches root
  have h : Node.ofTokens Token.nestedBlocks = .ok root := by rfl
  have hformed := wellFormed_of_ofTokens h
  have hloop : root.Contains (.forLoop "x" (.name ⟨"xs", []⟩)
      [.conditional test branches ⟨1, 0, 1⟩] ⟨0, 0, 0⟩) := .child .self List.mem_cons_self
  have hconditional : root.Contains (.conditional test branches ⟨1, 0, 1⟩) :=
    hloop.child List.mem_cons_self
  have helse : root.Contains (.elseBranch [inner] ⟨3, 0, 3⟩) :=
    hconditional.child (List.mem_cons_of_mem _ List.mem_cons_self)
  refine ⟨h, hformed, ?_, ?_⟩
  · exact (hformed.elseLast _ [.placeholder ⟨"x", ["0"]⟩ ⟨2, 0, 2⟩] _ _ [] hconditional rfl).2.2.1
  · exact hformed.binding _ _ _ _ (helse.child List.mem_cons_self)

end Stencil
