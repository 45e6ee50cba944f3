-- SUMMARY: Walking a tree gives back the tokens it was built from, all of them but the inert ones, in order.
import Mathlib
import Stencil.Proofs.BlockGrammar

/-!
# Transcripts of Trees

A walk over a tree passes the opening of every block, its nodes, and its end. What
it passes is what the tokens wrote, one mark for each token that is not inert, so
building a tree loses, invents and reorders nothing.

The tokens so far stand in two places of an outline: in the nodes that are
finished, and in the blocks that are still open, outermost first. A step adds the
mark of its token at the end of this transcript. For the end of a conditional that
takes an else branch that is open stands right inside its conditional, which is
what `Opens` knows about the open blocks.
-/

namespace Stencil

/-! ## Marks -/

/-- What a walk over a tree passes. -/
inductive Mark where
  | text (content : String) (location : Location)
  | placeholder (path : Path) (location : Location)
  | forLoop (binding : String) (iterable : Expr) (location : Location)
  | conditional (test : Condition) (location : Location)
  | otherwise (location : Location)
  /-- The end of a block. Nodes do not keep where it was. -/
  | close (closer : Closer)

namespace Node

mutual

/-- What a walk over a tree passes, in order. An else branch ends with its
conditional. -/
def marks : Node → List Mark
  | .root children => marksAll children
  | .text content location => [.text content location]
  | .placeholder path location => [.placeholder path location]
  | .forLoop binding iterable children location =>
    .forLoop binding iterable location :: marksAll children ++ [.close .endfor]
  | .conditional test children location =>
    .conditional test location :: marksAll children ++ [.close .endif]
  | .elseBranch children location => .otherwise location :: marksAll children

def marksAll : List Node → List Mark
  | [] => []
  | node :: nodes => marks node ++ marksAll nodes

end

theorem marksAll_append (nodes more : List Node) :
    marksAll (nodes ++ more) = marksAll nodes ++ marksAll more := by
  induction nodes with
  | nil => rfl
  | cons node nodes ih => simp only [List.cons_append, marksAll, ih, List.append_assoc]

theorem marksAll_singleton (node : Node) : marksAll [node] = node.marks := by
  simp only [marksAll, List.append_nil]

theorem countAll_append (nodes more : List Node) :
    countAll (nodes ++ more) = countAll nodes + countAll more := by
  induction nodes with
  | nil => simp only [List.nil_append, countAll, Nat.zero_add]
  | cons node nodes ih => simp only [List.cons_append, countAll, ih, Nat.add_assoc]

theorem countAll_singleton (node : Node) : countAll [node] = node.count := by
  simp only [countAll, Nat.add_zero]

end Node

/-! ## What tokens write -/

namespace Token

/-- The token writes the mark: they are of the same kind, and the mark has the
place, the text, the path or the header of the token. -/
def Writes (t : Token) : Mark → Prop
  | .text content location => t.IsText ∧ content = t.raw ∧ location = t.location
  | .placeholder path location =>
    t.IsPlaceholder ∧ path = .ofString t.content ∧ path.text = t.content ∧ location = t.location
  | .forLoop binding iterable location =>
    t.IsFor ∧ t.WritesLoop binding iterable ∧ location = t.location
  | .conditional test location => t.IsIf ∧ t.WritesTest test ∧ location = t.location
  | .otherwise location => t.IsElse ∧ location = t.location
  | .close closer => t.IsCloser closer

instance (t : Token) : Decidable t.IsInert :=
  inferInstanceAs (Decidable (_ ∨ _ ∧ _ ∨ _ ∧ _))

/-- Text, a placeholder, or an opening or else tag: what a tree has a node for. -/
def MakesNode (t : Token) : Prop :=
  t.kind = .text ∨ t.kind = .placeholder
    ∨ t.kind = .block ∧ (t.keyword = "for" ∨ t.keyword = "if" ∨ t.keyword = "else")

instance (t : Token) : Decidable t.MakesNode :=
  inferInstanceAs (Decidable (_ ∨ _ ∨ _ ∧ _))

/-- The mark that a token with a given tag leaves. -/
def mark? (t : Token) : Tag → Option Mark
  | .text => some (.text t.raw t.location)
  | .placeholder path => some (.placeholder path t.location)
  | .forLoop binding iterable => some (.forLoop binding iterable t.location)
  | .conditional test => some (.conditional test t.location)
  | .otherwise => some (.otherwise t.location)
  | .close closer => some (.close closer)
  | .inert => none

variable {t : Token} {tag : Tag}

theorem writesLoop_of_ofToken {binding : String} {iterable : Expr}
    (h : Tag.ofToken t = .ok (.forLoop binding iterable)) : t.WritesLoop binding iterable := by
  have hclass : t.IsFor := inClass_of_ofToken h
  obtain ⟨binding', iterable', htag, hwrites⟩ := hclass.exists_writesLoop
  rw [h] at htag
  cases htag
  exact hwrites

theorem writesTest_of_ofToken {test : Condition} (h : Tag.ofToken t = .ok (.conditional test)) :
    t.WritesTest test := by
  have hclass : t.IsIf := inClass_of_ofToken h
  obtain ⟨test', htag, hwrites⟩ := hclass.exists_writesTest
  rw [h] at htag
  cases htag
  exact hwrites

theorem path_of_ofToken {path : Path} (h : Tag.ofToken t = .ok (.placeholder path)) :
    path = .ofString t.content := by
  have hclass : t.IsPlaceholder := inClass_of_ofToken h
  unfold Tag.ofToken at h
  rw [show t.kind = .placeholder from hclass.1] at h
  simp only [Tag.ofPlaceholder] at h
  split at h
  · cases h
  · split at h
    · cases h
    · cases h
      rfl

/-- A token that is not inert writes its mark. -/
theorem writes_of_mark? {m : Mark} (htag : Tag.ofToken t = .ok tag) (hm : t.mark? tag = some m) :
    t.Writes m := by
  have hclass : t.InClass tag := inClass_of_ofToken htag
  cases tag with
  | text =>
    cases hm
    exact ⟨hclass, rfl, rfl⟩
  | placeholder path =>
    cases hm
    have hpath := path_of_ofToken htag
    exact ⟨hclass, hpath, by rw [hpath, Path.text_ofString], rfl⟩
  | forLoop binding iterable =>
    cases hm
    exact ⟨hclass, writesLoop_of_ofToken htag, rfl⟩
  | conditional test =>
    cases hm
    exact ⟨hclass, writesTest_of_ofToken htag, rfl⟩
  | otherwise =>
    cases hm
    exact ⟨hclass, rfl⟩
  | close closer =>
    cases hm
    exact hclass
  | inert => cases hm

theorem mark?_eq_none_iff (htag : Tag.ofToken t = .ok tag) : t.mark? tag = none ↔ t.IsInert := by
  constructor
  · intro h
    have hclass : t.InClass tag := inClass_of_ofToken htag
    cases tag with
    | inert => exact hclass
    | _ => cases h
  · intro h
    rw [h.ofToken] at htag
    cases htag
    rfl

/-- How many nodes a tag makes. -/
def nodesOf : Tag → Nat
  | .text => 1
  | .placeholder _ => 1
  | .forLoop .. => 1
  | .conditional _ => 1
  | .otherwise => 1
  | .close _ => 0
  | .inert => 0

theorem nodesOf_eq (htag : Tag.ofToken t = .ok tag) :
    nodesOf tag = if t.MakesNode then 1 else 0 := by
  have hclass : t.InClass tag := inClass_of_ofToken htag
  cases tag with
  | text => exact (if_pos (.inl hclass)).symm
  | placeholder path => exact (if_pos (.inr (.inl hclass.1))).symm
  | forLoop binding iterable =>
    obtain ⟨hkind, name, operand, hleading, -, -⟩ := hclass
    have hkeyword : t.keyword = "for" := keyword_of_leadingWords hleading
    exact (if_pos (.inr (.inr ⟨hkind, .inl hkeyword⟩))).symm
  | conditional test =>
    obtain ⟨hkind, hwords⟩ := hclass
    have hkeyword : t.keyword = "if" := by
      rcases hwords with ⟨_, hwords⟩ | ⟨_, _, _, hwords, -⟩ | ⟨_, _, hwords⟩
      · exact keyword_of_words hwords
      · exact keyword_of_words hwords
      · exact keyword_of_words hwords
    exact (if_pos (.inr (.inr ⟨hkind, .inr (.inl hkeyword)⟩))).symm
  | otherwise =>
    obtain ⟨hkind, hwords⟩ := hclass
    have hkeyword : t.keyword = "else" := keyword_of_words hwords
    exact (if_pos (.inr (.inr ⟨hkind, .inr (.inr hkeyword)⟩))).symm
  | close closer => exact (if_neg (by simp [MakesNode, hclass.1])).symm
  | inert =>
    refine (if_neg ?_).symm
    rcases hclass with hkind | ⟨hkind, hhead⟩ | ⟨hkind, -⟩
    · simp [MakesNode, hkind]
    · rcases hhead with hhead | hhead
      · simp [MakesNode, hkind, keyword_of_head?_words hhead]
      · simp [MakesNode, hkind, keyword_of_head?_words hhead]
    · simp [MakesNode, hkind]

end Token

/-! ## The transcript of an outline -/

namespace BlockHead

/-- The mark of the tag that opened a block. -/
def mark (location : Location) : BlockHead → Mark
  | .forLoop binding iterable => .forLoop binding iterable location
  | .conditional test => .conditional test location
  | .elseBranch => .otherwise location

/-- The mark at the end of a block. An else branch has none of its own. -/
def closing : BlockHead → List Mark
  | .forLoop .. => [.close .endfor]
  | .conditional _ => [.close .endif]
  | .elseBranch => []

end BlockHead

namespace OpenBlock

def marks (b : OpenBlock) : List Mark := b.head.mark b.opener.location :: Node.marksAll b.children

theorem marks_toNode (b : OpenBlock) : b.toNode.marks = b.marks ++ b.head.closing := by
  rcases b with ⟨head, opener, children⟩
  cases head with
  | forLoop binding iterable => simp only [toNode, BlockHead.toNode, Node.marks]; rfl
  | conditional test => simp only [toNode, BlockHead.toNode, Node.marks]; rfl
  | elseBranch =>
    simp only [toNode, BlockHead.toNode, Node.marks]
    exact (List.append_nil _).symm

theorem count_toNode (b : OpenBlock) : b.toNode.count = 1 + Node.countAll b.children := by
  rcases b with ⟨head, opener, children⟩
  cases head with
  | forLoop binding iterable => simp only [toNode, BlockHead.toNode, Node.count]
  | conditional test => simp only [toNode, BlockHead.toNode, Node.count]
  | elseBranch => simp only [toNode, BlockHead.toNode, Node.count]

end OpenBlock

namespace Outline

/-- The marks of the tokens so far. -/
def marks (o : Outline) : List Mark :=
  Node.marksAll o.finished ++ o.blocks.reverse.flatMap OpenBlock.marks

/-- How many nodes there are so far, without the root. -/
def size (o : Outline) : Nat :=
  Node.countAll o.finished + (o.blocks.map fun b => 1 + Node.countAll b.children).sum

variable {o o' : Outline} {t : Token} {tag : Tag}

theorem marks_add (o : Outline) (node : Node) : (o.add node).marks = o.marks ++ node.marks := by
  rcases o with ⟨blocks, finished⟩
  cases blocks with
  | nil => simp [add, marks, Node.marksAll_append, Node.marksAll_singleton]
  | cons b rest =>
    simp [add, marks, OpenBlock.marks, Node.marksAll_append, Node.marksAll_singleton]

theorem size_add (o : Outline) (node : Node) : (o.add node).size = o.size + node.count := by
  rcases o with ⟨blocks, finished⟩
  cases blocks with
  | nil => simp [add, size, Node.countAll_append, Node.countAll_singleton]
  | cons b rest =>
    simp [add, size, Node.countAll_append, Node.countAll_singleton]
    omega

theorem marks_push (o : Outline) (head : BlockHead) (t : Token) :
    (o.push head t).marks = o.marks ++ [head.mark t.location] := by
  simp [push, marks, OpenBlock.marks, Node.marksAll]

theorem size_push (o : Outline) (head : BlockHead) (t : Token) :
    (o.push head t).size = o.size + 1 := by
  simp [push, size, Node.countAll]
  omega

theorem marks_pop {head : BlockHead} {heads : List BlockHead} (h : o.heads = head :: heads) :
    o.pop.marks = o.marks ++ head.closing := by
  rcases o with ⟨blocks, finished⟩
  obtain ⟨b, rest, rfl, rfl, -⟩ := List.map_eq_cons_iff.1 h
  have hblock : marks ⟨b :: rest, finished⟩ = marks ⟨rest, finished⟩ ++ b.marks := by
    simp [marks]
  simp only [pop, marks_add, OpenBlock.marks_toNode, hblock, List.append_assoc]

theorem size_pop (o : Outline) : o.pop.size = o.size := by
  rcases o with ⟨blocks, finished⟩
  cases blocks with
  | nil => rfl
  | cons b rest =>
    simp only [pop, size_add, OpenBlock.count_toNode]
    simp [size]
    omega

/-- A closing tag pops the innermost block, and the block around it too if the
innermost one is an else branch. -/
theorem exists_of_close {closer : Closer} (h : o.close closer = .ok o') :
    ∃ head heads, o.heads = head :: heads ∧ head.closer = closer
      ∧ (head = .elseBranch ∧ o' = o.pop.pop ∨ head ≠ .elseBranch ∧ o' = o.pop) := by
  rcases o with ⟨blocks, finished⟩
  cases blocks with
  | nil => cases h
  | cons b rest =>
    simp only [close] at h
    split at h
    · next hcloser =>
      refine ⟨b.head, _, rfl, hcloser, ?_⟩
      split at h
      · next hhead =>
        cases h
        exact .inl ⟨hhead, rfl⟩
      · next hhead =>
        cases h
        exact .inr ⟨hhead, rfl⟩
    · cases h

theorem size_take (h : o.take t tag = .ok o') : o'.size = o.size + Token.nodesOf tag := by
  cases tag with
  | text =>
    cases h
    simp only [size_add, Node.count, Token.nodesOf]
  | placeholder path =>
    cases h
    simp only [size_add, Node.count, Token.nodesOf]
  | forLoop binding iterable =>
    cases h
    exact size_push o _ t
  | conditional test =>
    cases h
    exact size_push o _ t
  | otherwise =>
    simp only [take, startElse] at h
    split at h
    · cases h
    · split at h
      · cases h
        exact size_push o _ t
      · cases h
      · cases h
  | close closer =>
    obtain ⟨head, heads, -, -, ⟨-, rfl⟩ | ⟨-, rfl⟩⟩ := exists_of_close h
    · rw [size_pop, size_pop]
      rfl
    · rw [size_pop]
      rfl
  | inert =>
    cases h
    rfl

end Outline

theorem Opens.exists_conditional {heads : List BlockHead} {ts : List Token}
    (h : Opens (.elseBranch :: heads) ts) : ∃ test rest, heads = .conditional test :: rest := by
  cases h with
  | branch _ _ _ => exact ⟨_, _, rfl⟩

namespace Outline

variable {o o' : Outline} {t : Token} {tag : Tag} {ts us : List Token}

/-- A step writes the mark of its token after those of the tokens before. -/
theorem marks_take (hopens : Opens o.heads us) (h : o.take t tag = .ok o') :
    o'.marks = o.marks ++ (t.mark? tag).toList := by
  cases tag with
  | text =>
    cases h
    simp only [marks_add, Node.marks]
    rfl
  | placeholder path =>
    cases h
    simp only [marks_add, Node.marks]
    rfl
  | forLoop binding iterable =>
    cases h
    exact marks_push o _ t
  | conditional test =>
    cases h
    exact marks_push o _ t
  | otherwise =>
    simp only [take, startElse] at h
    split at h
    · cases h
    · split at h
      · cases h
        exact marks_push o _ t
      · cases h
      · cases h
  | close closer =>
    obtain ⟨head, heads, hheads, hcloser, ⟨rfl, rfl⟩ | ⟨hhead, rfl⟩⟩ := exists_of_close h
    · -- The mark at the end is that of the conditional around the else branch.
      rw [hheads] at hopens
      obtain ⟨test, rest, rfl⟩ := hopens.exists_conditional
      have hpop : o.pop.heads = .conditional test :: rest := by rw [heads_pop, hheads]; rfl
      rw [marks_pop hpop, marks_pop hheads, ← hcloser]
      simp only [BlockHead.closing, List.append_nil]
      rfl
    · rw [marks_pop hheads, ← hcloser]
      cases head with
      | forLoop binding iterable => rfl
      | conditional test => rfl
      | elseBranch => exact absurd rfl hhead
  | inert =>
    cases h
    exact (List.append_nil _).symm

theorem exists_of_runs (hopens : Opens o.heads us) (h : Runs o ts o') :
    ∃ new, o'.marks = o.marks ++ new
      ∧ List.Forall₂ Token.Writes (ts.filter (¬·.IsInert)) new
      ∧ o'.size = o.size + ts.countP (·.MakesNode) := by
  induction ts generalizing o us with
  | nil =>
    cases h
    exact ⟨[], (List.append_nil _).symm, .nil, rfl⟩
  | cons t ts ih =>
    obtain ⟨o₁, hstep, hrest⟩ := h.exists_of_cons
    obtain ⟨tag, htag, htake⟩ := step_eq_ok_iff.1 hstep
    obtain ⟨new, hmarks, hwrites, hsize⟩ := ih (hopens.step hstep) hrest
    have hfirst := marks_take hopens htake
    refine ⟨(t.mark? tag).toList ++ new, ?_, ?_, ?_⟩
    · rw [hmarks, hfirst, List.append_assoc]
    · cases hm : t.mark? tag with
      | none =>
        have hinert := (Token.mark?_eq_none_iff htag).1 hm
        rw [List.filter_cons_of_neg (by simpa using hinert)]
        exact hwrites
      | some m =>
        have hinert : ¬t.IsInert := by
          rw [← Token.mark?_eq_none_iff htag, hm]
          exact nofun
        rw [List.filter_cons_of_pos (by simpa using hinert)]
        exact .cons (Token.writes_of_mark? htag hm) hwrites
    · rw [hsize, size_take htake, Token.nodesOf_eq htag, List.countP_cons]
      simp only [decide_eq_true_eq]
      omega

/-- An inert token changes nothing, wherever it stands. -/
theorem foldlM_filter_inert (o : Outline) (ts : List Token) :
    (ts.filter (¬·.IsInert)).foldlM step o = ts.foldlM step o := by
  induction ts generalizing o with
  | nil => rfl
  | cons t ts ih =>
    by_cases hinert : t.IsInert
    · have hstep : o.step t = .ok o := step_eq_ok_iff.2 ⟨.inert, hinert.ofToken, rfl⟩
      rw [List.filter_cons_of_neg (by simpa using hinert), ih, List.foldlM_cons, hstep]
      rfl
    · rw [List.filter_cons_of_pos (by simpa using hinert), List.foldlM_cons, List.foldlM_cons]
      exact congrArg _ (funext ih)

end Outline

/-- A walk over the tree of some tokens passes, one by one and in order, what the
tokens write that are not inert, and the tree has a node for each token that makes
one, besides its root. Without the inert tokens, the tree or the error is the
same. -/
theorem transcript_of_tree (ts : List Token) :
    (∀ root, Node.ofTokens ts = .ok root →
      List.Forall₂ Token.Writes (ts.filter (¬·.IsInert)) root.marks
        ∧ root.count = 1 + ts.countP (·.MakesNode))
    ∧ Node.ofTokens (ts.filter (¬·.IsInert)) = Node.ofTokens ts := by
  constructor
  · intro root h
    obtain ⟨o, hruns, hfinish⟩ := Node.ofTokens_eq_ok_iff.1 h
    obtain ⟨hheads, rfl⟩ := Outline.finish_eq_ok_iff.1 hfinish
    have hstart : Opens Outline.start.heads [] := .body .nil
    obtain ⟨new, hmarks, hwrites, hsize⟩ := Outline.exists_of_runs hstart hruns
    have hblocks : o.blocks = [] := List.map_eq_nil_iff.1 hheads
    have hnew : (Node.root o.finished).marks = new := by
      simpa [Outline.marks, hblocks, Outline.start, Node.marksAll, Node.marks] using hmarks
    have hcount : (Node.root o.finished).count = 1 + o.size := by
      simp [Outline.size, hblocks, Node.count]
    rw [hnew, hcount, hsize]
    exact ⟨hwrites, by simp [Outline.size, Outline.start, Node.countAll]⟩
  · unfold Node.ofTokens
    rw [Outline.foldlM_filter_inert]

/-- A conditional with an else branch, and inert tokens in and around it. -/
def Token.branches : List Token :=
  [⟨.block, "", "extends y", ⟨0, 0, 0⟩⟩, ⟨.block, "", "if a", ⟨1, 0, 1⟩⟩,
    ⟨.text, "x", "x", ⟨2, 0, 2⟩⟩, ⟨.comment, "", "note", ⟨3, 0, 3⟩⟩,
    ⟨.block, "", "else", ⟨4, 0, 4⟩⟩, ⟨.placeholder, "", "b", ⟨5, 0, 5⟩⟩,
    ⟨.blockEnd, "", "endblock", ⟨6, 0, 6⟩⟩, ⟨.blockEnd, "", "endif", ⟨7, 0, 7⟩⟩]

theorem transcript_of_tree_branches :
    ∃ root, Node.ofTokens Token.branches = .ok root
      ∧ List.Forall₂ Token.Writes (Token.branches.filter (¬·.IsInert)) root.marks
      ∧ root.count = 5 := by
  have h : Node.ofTokens Token.branches
      = .ok (.root [.conditional (.truthy (.name ⟨"a", []⟩))
          [.text "x" ⟨2, 0, 2⟩, .elseBranch [.placeholder ⟨"b", []⟩ ⟨5, 0, 5⟩] ⟨4, 0, 4⟩]
          ⟨1, 0, 1⟩]) := by cbv
  obtain ⟨hwrites, hcount⟩ := (transcript_of_tree Token.branches).1 _ h
  refine ⟨_, h, hwrites, hcount.trans ?_⟩
  decide +kernel

end Stencil
