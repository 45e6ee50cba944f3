-- SUMMARY: The tags of the blocks that some tokens leave open, and the closing tags that close these blocks, innermost first.
import Stencil.Proofs.Concatenation
import Stencil.Proofs.Transcript

/-!
# Open Blocks

Tokens that are all taken may still leave blocks open. The error is then at the tag
that opened the innermost one, and it names the closing tag that this block takes.
Appending the tag that is asked for closes the block, together with the conditional
around it if it is an else branch; the other closing tag is a fault at that tag.

`LeavesOpen` adds the opening tags to what `Opens` says of the open blocks: after
each of them stands a body, up to the tag of the next block or the end.
-/

namespace Stencil

open Outline (Runs)

/-! ## The tags that opened the open blocks -/

namespace BlockHead

/-- The class of the tags that open a block. -/
def OpenedBy : BlockHead → Token → Prop
  | .forLoop .., t => t.IsFor
  | .conditional _, t => t.IsIf
  | .elseBranch, t => t.IsElse

/-- Whether a block has a closing tag of its own. An else branch ends with the
conditional around it. -/
def hasCloser : BlockHead → Bool
  | .forLoop .. => true
  | .conditional _ => true
  | .elseBranch => false

end BlockHead

namespace Outline

/-- What opened the open blocks, and with which tags, innermost first. -/
def openers (o : Outline) : List (BlockHead × Token) := o.blocks.map fun b => (b.head, b.opener)

theorem map_fst_openers (o : Outline) : o.openers.map (·.1) = o.heads := by
  simp [openers, heads]

@[simp] theorem openers_add (o : Outline) (node : Node) : (o.add node).openers = o.openers := by
  rcases o with ⟨blocks, finished⟩
  cases blocks <;> rfl

@[simp] theorem openers_push (o : Outline) (head : BlockHead) (t : Token) :
    (o.push head t).openers = (head, t) :: o.openers := rfl

@[simp] theorem openers_pop (o : Outline) : o.pop.openers = o.openers.tail := by
  rcases o with ⟨blocks, finished⟩
  cases blocks with
  | nil => rfl
  | cons b rest => exact openers_add ⟨rest, finished⟩ b.toNode

theorem exists_openers_of_heads {o : Outline} {head : BlockHead} {heads : List BlockHead}
    (h : o.heads = head :: heads) :
    ∃ t rest, o.openers = (head, t) :: rest ∧ rest.map (·.1) = heads := by
  rw [← map_fst_openers] at h
  obtain ⟨⟨head', t⟩, rest, hopeners, rfl, hrest⟩ := List.map_eq_cons_iff.1 h
  exact ⟨t, rest, hopeners, hrest⟩

end Outline

/-- `LeavesOpen openers ts`: the tokens `ts` are a body but for the tags in `openers`,
innermost first. -/
inductive LeavesOpen : List (BlockHead × Token) → List Token → Prop where
  | body {ts : List Token} (hts : IsBody ts) : LeavesOpen [] ts
  | opening {head : BlockHead} {t : Token} {openers : List (BlockHead × Token)}
      {ts body : List Token} (h : LeavesOpen openers ts) (ht : head.OpenedBy t)
      (hbody : IsBody body) : LeavesOpen ((head, t) :: openers) (ts ++ t :: body)

namespace LeavesOpen

variable {o o' : Outline} {openers : List (BlockHead × Token)} {t u : Token} {tag : Tag}
  {ts us : List Token}

theorem append (h : LeavesOpen openers ts) (hus : IsBody us) : LeavesOpen openers (ts ++ us) := by
  cases h with
  | body hts => exact .body (hts.append hus)
  | opening h ht hbody =>
    rw [List.append_assoc, List.cons_append]
    exact .opening h ht (hbody.append hus)

/-- The closing tag of a loop, or of a conditional without an else branch. -/
theorem close {head : BlockHead} (h : LeavesOpen ((head, t) :: openers) ts)
    (hne : head ≠ .elseBranch) (hu : u.IsCloser head.closer) : LeavesOpen openers (ts ++ [u]) := by
  cases h with
  | @opening _ _ _ ts body h ht hbody =>
    have hblock : IsBody (t :: body ++ [u]) := by
      cases head with
      | forLoop name iterable => exact .loop ht hbody hu .nil
      | conditional test => exact .conditional ht hbody hu .nil
      | elseBranch => exact absurd rfl hne
    rw [List.append_assoc]
    exact h.append hblock

/-- The closing tag of an else branch and the conditional around it. -/
theorem closeElse {e : Token} {test : Condition}
    (h : LeavesOpen ((.elseBranch, e) :: (.conditional test, t) :: openers) ts)
    (hu : u.IsCloser .endif) : LeavesOpen openers (ts ++ [u]) := by
  cases h with
  | @opening _ _ _ _ other h helse hother =>
    cases h with
    | @opening _ _ _ ts body h hif hbody =>
      have hblock : IsBody (t :: body ++ e :: other ++ [u]) :=
        .branches hif hbody helse hother hu .nil
      simpa using h.append hblock

theorem take (h : LeavesOpen o.openers ts) (hopens : Opens o.heads ts)
    (htag : Tag.ofToken t = .ok tag) (htake : o.take t tag = .ok o') :
    LeavesOpen o'.openers (ts ++ [t]) := by
  have hclass : t.InClass tag := Token.inClass_of_ofToken htag
  cases tag with
  | text =>
    cases htake
    rw [Outline.openers_add]
    exact h.append (.leaf (.inl hclass) .nil)
  | placeholder path =>
    cases htake
    rw [Outline.openers_add]
    exact h.append (.leaf (.inr (.inl hclass)) .nil)
  | forLoop name iterable =>
    cases htake
    exact .opening h hclass .nil
  | conditional test =>
    cases htake
    exact .opening h hclass .nil
  | otherwise =>
    simp only [Outline.take, Outline.startElse] at htake
    split at htake
    · cases htake
    · split at htake
      · cases htake
        exact .opening h hclass .nil
      · cases htake
      · cases htake
  | close closer =>
    obtain ⟨head, heads, hheads, rfl, ⟨rfl, rfl⟩ | ⟨hne, rfl⟩⟩ := Outline.exists_of_close htake
    · -- an else branch stands in a conditional, which is closed with it
      rw [hheads] at hopens
      obtain ⟨test, others, rfl⟩ := hopens.exists_conditional
      obtain ⟨e, rest, hopeners, hrest⟩ := Outline.exists_openers_of_heads hheads
      obtain ⟨⟨_, opener⟩, rest, rfl, rfl, -⟩ := List.map_eq_cons_iff.1 hrest
      rw [hopeners] at h
      rw [Outline.openers_pop, Outline.openers_pop, hopeners]
      exact h.closeElse hclass
    · obtain ⟨opener, rest, hopeners, -⟩ := Outline.exists_openers_of_heads hheads
      rw [hopeners] at h
      rw [Outline.openers_pop, hopeners]
      exact h.close hne hclass
  | inert =>
    cases htake
    exact h.append (.leaf (.inr (.inr hclass)) .nil)

theorem runs (h : LeavesOpen o.openers us) (hopens : Opens o.heads us) (hruns : Runs o ts o') :
    LeavesOpen o'.openers (us ++ ts) := by
  induction ts generalizing o us with
  | nil =>
    cases hruns
    rwa [List.append_nil]
  | cons t ts ih =>
    obtain ⟨o₁, hstep, hrest⟩ := hruns.exists_of_cons
    obtain ⟨tag, htag, htake⟩ := Outline.step_eq_ok_iff.1 hstep
    have h' := ih (h.take hopens htag htake) (hopens.step hstep) hrest
    rwa [List.append_assoc, List.singleton_append] at h'

end LeavesOpen

/-- `t.LeftOpen closer ts`: the tag `t` opened the innermost block that `ts` leave open,
and `closer` closes that block. All that comes after the tag is a body. -/
def Token.LeftOpen (t : Token) (closer : Closer) (ts : List Token) : Prop :=
  ∃ before body, ts = before ++ t :: body ∧ IsBody body
    ∧ (t.IsFor ∧ closer = .endfor ∨ (t.IsIf ∨ t.IsElse) ∧ closer = .endif)

theorem LeavesOpen.leftOpen {head : BlockHead} {t : Token} {openers : List (BlockHead × Token)}
    {ts : List Token} (h : LeavesOpen ((head, t) :: openers) ts) : t.LeftOpen head.closer ts := by
  cases h with
  | @opening _ _ _ before body h ht hbody =>
    refine ⟨before, body, rfl, hbody, ?_⟩
    cases head with
    | forLoop name iterable => exact .inl ⟨ht, rfl⟩
    | conditional test => exact .inr ⟨.inl ht, rfl⟩
    | elseBranch => exact .inr ⟨.inr ht, rfl⟩

/-! ## How many closing tags are missing -/

/-- How many of some blocks have a closing tag of their own. -/
def BlockHead.depth (heads : List BlockHead) : Nat := heads.countP hasCloser

/-- The closing tag of the innermost block takes one block with a closing tag away. -/
theorem Opens.exists_moves_close {head : BlockHead} {heads : List BlockHead} {ts : List Token}
    (h : Opens (head :: heads) ts) :
    ∃ after, Moves (.close head.closer) (head :: heads) after
      ∧ BlockHead.depth (head :: heads) = BlockHead.depth after + 1 := by
  cases head with
  | forLoop name iterable => exact ⟨heads, .endfor _ _ _, List.countP_cons_of_pos rfl⟩
  | conditional test => exact ⟨heads, .endif _ _, List.countP_cons_of_pos rfl⟩
  | elseBranch =>
    obtain ⟨test, outer, rfl⟩ := h.exists_conditional
    refine ⟨outer, .endifElse _, ?_⟩
    calc BlockHead.depth (.elseBranch :: .conditional test :: outer)
      _ = BlockHead.depth (.conditional test :: outer) := List.countP_cons_of_neg nofun
      _ = BlockHead.depth outer + 1 := List.countP_cons_of_pos rfl

theorem Opens.depth_eq_zero_iff {heads : List BlockHead} {ts : List Token} (h : Opens heads ts) :
    BlockHead.depth heads = 0 ↔ heads = [] := by
  cases heads with
  | nil => exact iff_of_true rfl rfl
  | cons head heads =>
    obtain ⟨after, -, hdepth⟩ := h.exists_moves_close
    exact iff_of_false (by omega) nofun

/-! ## The outlines of tokens that are all taken -/

namespace Outline

variable {o : Outline} {head : BlockHead} {t u : Token} {rest : List (BlockHead × Token)}
  {ts : List Token}

/-- How many closing tags are missing. -/
def depth (o : Outline) : Nat := BlockHead.depth o.heads

theorem Runs.opens (h : Runs start ts o) : Opens o.heads ts := by
  have hstart : Opens start.heads [] := .body .nil
  exact hstart.runs h

theorem Runs.leavesOpen (h : Runs start ts o) : LeavesOpen o.openers ts := by
  have hstart : LeavesOpen start.openers [] := .body .nil
  exact hstart.runs (.body .nil) h

theorem Runs.ofTokens_eq (h : Runs start ts o) : Node.ofTokens ts = o.finish := by
  unfold Node.ofTokens
  rw [show ts.foldlM step start = .ok o from h]
  rfl

theorem Runs.ofTokens_of_closed (h : Runs start ts o) (hopeners : o.openers = []) :
    Node.ofTokens ts = .ok (.root o.finished) := by
  have hheads : o.heads = [] := by rw [← map_fst_openers, hopeners, List.map_nil]
  exact h.ofTokens_eq.trans (finish_eq_ok_iff.2 ⟨hheads, rfl⟩)

theorem Runs.depth_eq_zero_iff (h : Runs start ts o) : o.depth = 0 ↔ o.openers = [] := by
  unfold depth
  rw [h.opens.depth_eq_zero_iff, ← map_fst_openers, List.map_eq_nil_iff]

theorem finish_of_openers (h : o.openers = (head, t) :: rest) :
    o.finish = .error (t.error (.unclosed t.raw head.closer)) := by
  obtain ⟨b, blocks, hblocks, heq, -⟩ := List.map_eq_cons_iff.1 h
  cases heq
  simp only [finish, hblocks]

/-- Appending the closing tag of the innermost block. -/
theorem Runs.exists_close (h : Runs start ts o) (hopeners : o.openers = (head, t) :: rest)
    (hu : u.IsCloser head.closer) :
    ∃ o', Runs start (ts ++ [u]) o' ∧ o.depth = o'.depth + 1 := by
  have hheads : o.heads = head :: rest.map (·.1) := by
    rw [← map_fst_openers, hopeners]
    rfl
  have hopens := h.opens
  rw [hheads] at hopens
  obtain ⟨after, hmoves, hdepth⟩ := hopens.exists_moves_close
  rw [← hheads] at hmoves hdepth
  obtain ⟨o', hstep, rfl⟩ := exists_step_of_moves hu.ofToken hmoves
  exact ⟨o', h.append (.cons hstep (.nil o')), hdepth⟩

/-- The other closing tag fits nowhere. -/
theorem step_of_mismatched {closer : Closer} (hopeners : o.openers = (head, t) :: rest)
    (hu : u.IsCloser closer) (hne : head.closer ≠ closer) :
    o.step u = .error (u.error (.mismatched head.closer closer)) := by
  obtain ⟨b, blocks, hblocks, heq, -⟩ := List.map_eq_cons_iff.1 hopeners
  cases heq
  unfold step
  rw [hu.ofToken]
  simp only [Except.bind, take, close, hblocks, if_neg hne]
  rfl

theorem Runs.ofTokens_of_step {e : TemplateError} (h : Runs start ts o)
    (hstep : o.step t = .error e) (us : List Token) :
    Node.ofTokens (ts ++ t :: us) = .error e := by
  unfold Node.ofTokens
  rw [List.foldlM_append, show ts.foldlM step start = .ok o from h]
  show Except.bind (List.foldlM step o (t :: us)) finish = _
  rw [List.foldlM_cons, hstep]
  rfl

end Outline

/-! ## Closing tags that errors ask for -/

/-- The error asks for a closing tag: its message ends with the tag that is expected. -/
def TemplateError.AsksFor (e : TemplateError) (closer : Closer) : Prop :=
  ∃ before, e.display = before ++ "expected " ++ blockTag closer.keyword

theorem Token.asksFor_unclosed (t : Token) (raw : String) (closer : Closer) :
    (t.error (.unclosed raw closer)).AsksFor closer := by
  let place := "Syntax error at line " ++ toString t.location.line ++ ", column "
    ++ toString t.location.displayColumn ++ ": "
  let block := "unbalanced blocks: " ++ doubleQuoted raw
  have hsplit : " is never closed; expected " = " is never closed; " ++ "expected " := by decide
  refine ⟨place ++ (block ++ " is never closed; "), ?_⟩
  calc (t.error (.unclosed raw closer)).display
    _ = place ++ (block ++ " is never closed; expected " ++ blockTag closer.keyword) := rfl
    _ = place ++ (block ++ (" is never closed; " ++ "expected ") ++ blockTag closer.keyword) :=
      congrArg (fun text => place ++ (block ++ text ++ blockTag closer.keyword)) hsplit
    _ = place ++ (block ++ " is never closed; ") ++ "expected " ++ blockTag closer.keyword := by
      simp only [String.append_assoc]

/-- The letter before the end of a closing tag tells the two closing tags apart. -/
theorem Closer.eq_of_append_blockTag {closer other : Closer} {before before' : String}
    (h : before ++ blockTag closer.keyword = before' ++ blockTag other.keyword) :
    closer = other := by
  have hendfor : (blockTag "endfor").toList
      = ['\x7b', '%', ' ', 'e', 'n', 'd', 'f', 'o'] ++ ['r', ' ', '%', '\x7d'] := by decide
  have hendif : (blockTag "endif").toList
      = ['\x7b', '%', ' ', 'e', 'n', 'd', 'i'] ++ ['f', ' ', '%', '\x7d'] := by decide
  have hchars := congrArg String.toList h
  rw [String.toList_append, String.toList_append] at hchars
  cases closer <;> cases other
  · rfl
  · simp only [keyword, hendfor, hendif, ← List.append_assoc] at hchars
    exact absurd (List.append_inj_right' hchars rfl) (by decide)
  · simp only [keyword, hendfor, hendif, ← List.append_assoc] at hchars
    exact absurd (List.append_inj_right' hchars rfl) (by decide)
  · rfl

/-- An error asks for one closing tag only. -/
theorem TemplateError.AsksFor.unique {e : TemplateError} {closer other : Closer}
    (h : e.AsksFor closer) (h' : e.AsksFor other) : closer = other := by
  obtain ⟨before, hdisplay⟩ := h
  obtain ⟨before', hdisplay'⟩ := h'
  exact Closer.eq_of_append_blockTag (hdisplay.symm.trans hdisplay')

/-- The tokens `us` are closing tags, each of them asked for by the error on the tokens
`ts` and those of `us` before it. -/
inductive AskedClosers (ts : List Token) : List Token → Prop where
  | nil : AskedClosers ts []
  | snoc {us : List Token} {u : Token} {e : TemplateError} {closer : Closer}
      (h : AskedClosers ts us) (herror : Node.ofTokens (ts ++ us) = .error e)
      (hasks : e.AsksFor closer) (hu : u.IsCloser closer) : AskedClosers ts (us ++ [u])

/-- All tokens are taken, but the innermost block that they leave open is still open at
the end, and the error is at the tag that opened it. -/
structure UnclosedAt (ts : List Token) (opener : Token) (closer : Closer) : Prop where
  taken : ∃ o, Runs .start ts o
  leftOpen : opener.LeftOpen closer ts
  error : Node.ofTokens ts = .error (opener.error (.unclosed opener.raw closer))

theorem Outline.Runs.unclosedAt {o : Outline} {head : BlockHead} {t : Token}
    {rest : List (BlockHead × Token)} {ts : List Token} (h : Runs .start ts o)
    (hopeners : o.openers = (head, t) :: rest) : UnclosedAt ts t head.closer where
  taken := ⟨o, h⟩
  leftOpen := LeavesOpen.leftOpen (hopeners ▸ h.leavesOpen)
  error := h.ofTokens_eq.trans (finish_of_openers hopeners)

/-- The closing tags that are asked for are all taken, and each one closes a block. -/
theorem AskedClosers.exists_runs {o : Outline} {ts us : List Token} (h : AskedClosers ts us)
    (hruns : Runs .start ts o) :
    ∃ o', Runs .start (ts ++ us) o' ∧ o.depth = o'.depth + us.length := by
  induction h with
  | nil => exact ⟨o, by rwa [List.append_nil], rfl⟩
  | @snoc us u e closer h herror hasks hu ih =>
    -- the depth and the number of tags appended so far add up to the depth at the start
    obtain ⟨o₁, hruns₁, hdepth₁⟩ := ih
    cases hopeners : o₁.openers with
    | nil =>
      rw [hruns₁.ofTokens_of_closed hopeners] at herror
      cases herror
    | cons opening rest =>
      obtain ⟨head, t⟩ := opening
      rw [(hruns₁.unclosedAt hopeners).error] at herror
      cases herror
      obtain rfl := hasks.unique (t.asksFor_unclosed t.raw head.closer)
      obtain ⟨o', hruns', hdepth'⟩ := hruns₁.exists_close hopeners hu
      refine ⟨o', by rwa [← List.append_assoc], ?_⟩
      rw [List.length_append, List.length_singleton]
      omega

theorem Closer.exists_token (closer : Closer) : ∃ u : Token, u.IsCloser closer := by
  refine ⟨⟨.blockEnd, closer.keyword, closer.keyword, .origin⟩, rfl, ?_⟩
  cases closer <;> decide

/-- As long as blocks are open, the error asks for a closing tag, and takes no other. -/
theorem AskedClosers.exists_unclosedAt {o : Outline} {ts us : List Token}
    (h : AskedClosers ts us) (hruns : Runs .start ts o) (hlength : us.length < o.depth) :
    ∃ opener closer, UnclosedAt (ts ++ us) opener closer
      ∧ (∀ u, u.IsCloser closer → AskedClosers ts (us ++ [u]))
      ∧ ∀ u other, other ≠ closer → u.IsCloser other →
          Node.ofTokens (ts ++ us ++ [u]) = .error (u.error (.mismatched closer other)) := by
  obtain ⟨o', hruns', hdepth⟩ := h.exists_runs hruns
  cases hopeners : o'.openers with
  | nil =>
    have hzero := hruns'.depth_eq_zero_iff.2 hopeners
    omega
  | cons opening rest =>
    obtain ⟨head, opener⟩ := opening
    have hunclosed := hruns'.unclosedAt hopeners
    refine ⟨opener, head.closer, hunclosed, ?_, ?_⟩
    · intro u hu
      exact .snoc h hunclosed.error (opener.asksFor_unclosed _ _) hu
    · intro u other hne hu
      exact hruns'.ofTokens_of_step (Outline.step_of_mismatched hopeners hu hne.symm) []

theorem AskedClosers.exists_of_length_le {o : Outline} {ts : List Token}
    (hruns : Runs .start ts o) {n : Nat} (hn : n ≤ o.depth) :
    ∃ us, AskedClosers ts us ∧ us.length = n := by
  induction n with
  | zero => exact ⟨[], .nil, rfl⟩
  | succ n ih =>
    obtain ⟨us, hasked, rfl⟩ := ih (by omega)
    obtain ⟨_, closer, -, hnext, -⟩ := hasked.exists_unclosedAt hruns hn
    obtain ⟨u, hu⟩ := closer.exists_token
    exact ⟨us ++ [u], hnext u hu, List.length_append⟩

theorem AskedClosers.exists_tree {o : Outline} {ts us : List Token} (h : AskedClosers ts us)
    (hruns : Runs .start ts o) (hlength : us.length = o.depth) :
    ∃ root, Node.ofTokens (ts ++ us) = .ok root := by
  obtain ⟨o', hruns', hdepth⟩ := h.exists_runs hruns
  have hclosed := hruns'.depth_eq_zero_iff.1 (by omega)
  exact ⟨_, hruns'.ofTokens_of_closed hclosed⟩

/-- Tokens that are all taken are the beginning of a list with a tree. -/
theorem Outline.Runs.exists_tree_append {o : Outline} {ts : List Token} (h : Runs .start ts o) :
    ∃ us root, Node.ofTokens (ts ++ us) = .ok root := by
  obtain ⟨us, hasked, hlength⟩ := AskedClosers.exists_of_length_le h (Nat.le_refl _)
  exact ⟨us, hasked.exists_tree h hlength⟩

/-- Blocks that are still open at the end are closed by the closing tags that the errors
ask for, as many as loops and conditionals are open. With fewer of them the innermost
block is still unclosed, and the other closing tag is a fault at that tag. -/
theorem asked_closers_repair {ts : List Token} {o : Outline} (hruns : Runs .start ts o)
    (hopen : o.blocks ≠ []) :
    0 < o.depth
    ∧ (∃ us, AskedClosers ts us ∧ us.length = o.depth)
    ∧ ∀ us, AskedClosers ts us →
        us.length ≤ o.depth
        ∧ (us.length = o.depth → ∃ root, Node.ofTokens (ts ++ us) = .ok root)
        ∧ (us.length < o.depth → ∃ opener closer, UnclosedAt (ts ++ us) opener closer
            ∧ (∀ u, u.IsCloser closer → AskedClosers ts (us ++ [u]))
            ∧ ∀ u other, other ≠ closer → u.IsCloser other →
                Node.ofTokens (ts ++ us ++ [u]) = .error (u.error (.mismatched closer other))) := by
  refine ⟨?_, AskedClosers.exists_of_length_le hruns (Nat.le_refl _), fun us hasked => ?_⟩
  · apply Nat.pos_of_ne_zero
    intro hzero
    exact hopen (List.map_eq_nil_iff.1 (hruns.depth_eq_zero_iff.1 hzero))
  · obtain ⟨o', hruns', hdepth⟩ := hasked.exists_runs hruns
    exact ⟨by omega, hasked.exists_tree hruns, hasked.exists_unclosedAt hruns⟩

/-- A loop, a conditional and its else branch, none of them closed. -/
def Token.unclosedBranches : List Token :=
  [⟨.block, "", "for x in xs", ⟨0, 0, 0⟩⟩, ⟨.block, "", "if x", ⟨1, 0, 1⟩⟩,
    ⟨.block, "", "else", ⟨2, 0, 2⟩⟩]

theorem asked_closers_repair_branches :
    let ts := Token.unclosedBranches
    let endif : Token := ⟨.blockEnd, "", "endif", ⟨3, 0, 3⟩⟩
    let endfor : Token := ⟨.blockEnd, "", "endfor", ⟨4, 0, 4⟩⟩
    ∃ o, Runs .start ts o ∧ o.blocks ≠ [] ∧ o.depth = 2
      ∧ AskedClosers ts [endif, endfor]
      ∧ (∃ root, Node.ofTokens (ts ++ [endif, endfor]) = .ok root)
      ∧ Node.ofTokens (ts ++ [endfor]) = .error (endfor.error (.mismatched .endif .endfor)) := by
  intro ts endif endfor
  let o : Outline := ⟨[⟨.elseBranch, ⟨.block, "", "else", ⟨2, 0, 2⟩⟩, []⟩,
    ⟨.conditional (.truthy (.name ⟨"x", []⟩)), ⟨.block, "", "if x", ⟨1, 0, 1⟩⟩, []⟩,
    ⟨.forLoop "x" (.name ⟨"xs", []⟩), ⟨.block, "", "for x in xs", ⟨0, 0, 0⟩⟩, []⟩], []⟩
  have hruns : Runs .start ts o := by rfl
  have hendif : endif.IsCloser .endif := ⟨rfl, by decide +kernel⟩
  have hendfor : endfor.IsCloser .endfor := ⟨rfl, by decide +kernel⟩
  obtain ⟨-, -, hall⟩ := asked_closers_repair hruns (List.cons_ne_nil _ _)
  obtain ⟨-, -, hunclosed⟩ := hall [] .nil
  obtain ⟨opener, closer, hat, hnext, hother⟩ := hunclosed (by decide)
  have hfirst :
      Node.ofTokens (ts ++ []) = .error (.malformed (.unclosed "" .endif) ⟨2, 0, 2⟩ 0) := by
    rfl
  obtain rfl : closer = .endif := by
    have herror := Except.error.inj (hat.error.symm.trans hfirst)
    exact (SyntaxFault.unclosed.inj (TemplateError.malformed.inj herror).1).2
  have hasked := hnext endif hendif
  obtain ⟨-, -, hunclosed'⟩ := hall [endif] hasked
  obtain ⟨opener', closer', hat', hnext', -⟩ := hunclosed' (by decide)
  have hsecond : Node.ofTokens (ts ++ [endif])
      = .error (.malformed (.unclosed "" .endfor) ⟨0, 0, 0⟩ 0) := by cbv
  obtain rfl : closer' = .endfor := by
    have herror := Except.error.inj (hat'.error.symm.trans hsecond)
    exact (SyntaxFault.unclosed.inj (TemplateError.malformed.inj herror).1).2
  have hasked' := hnext' endfor hendfor
  obtain ⟨-, hclosed, -⟩ := hall [endif, endfor] hasked'
  exact ⟨o, hruns, List.cons_ne_nil _ _, rfl, hasked', hclosed rfl,
    hother endfor .endfor (by decide) hendfor⟩

end Stencil
