-- SUMMARY: The grammar of nested blocks, and that exactly its token lists have a tree.
import Stencil.Node.OfTokens
import Stencil.Proofs.TokenClasses

/-!
# The Grammar of Blocks

A token list has a tree exactly if its blocks nest: every loop and conditional
is closed by a closing tag of its own, every else tag stands right inside a
conditional and at most once, and every token is in one of the classes that the
grammar is made of.

Taking tokens works on a stack of open blocks. `Moves` says what a tag does to
that stack, and nothing else about the outline matters for acceptance. From left
to right, the invariant is that the tokens so far open the blocks on the stack
(`Opens`); from right to left, a body leaves the stack as it finds it.
-/

namespace Stencil

/-! ## The grammar -/

/-- The token lists whose blocks nest. -/
inductive IsBody : List Token → Prop where
  | nil : IsBody []
  | leaf {t : Token} {ts : List Token} (ht : t.IsText ∨ t.IsPlaceholder ∨ t.IsInert)
      (hts : IsBody ts) : IsBody (t :: ts)
  | loop {t u : Token} {body ts : List Token} (ht : t.IsFor) (hbody : IsBody body)
      (hu : u.IsCloser .endfor) (hts : IsBody ts) : IsBody (t :: body ++ u :: ts)
  | conditional {t u : Token} {body ts : List Token} (ht : t.IsIf) (hbody : IsBody body)
      (hu : u.IsCloser .endif) (hts : IsBody ts) : IsBody (t :: body ++ u :: ts)
  | branches {t e u : Token} {body other ts : List Token} (ht : t.IsIf) (hbody : IsBody body)
      (he : e.IsElse) (hother : IsBody other) (hu : u.IsCloser .endif) (hts : IsBody ts) :
      IsBody (t :: body ++ e :: other ++ u :: ts)

theorem IsBody.append {ts us : List Token} (hts : IsBody ts) (hus : IsBody us) :
    IsBody (ts ++ us) := by
  induction hts with
  | nil => exact hus
  | leaf ht _ ih => exact .leaf ht ih
  | loop ht hbody hu _ _ ih =>
    have h := IsBody.loop ht hbody hu ih
    rwa [← List.cons_append, ← List.append_assoc] at h
  | conditional ht hbody hu _ _ ih =>
    have h := IsBody.conditional ht hbody hu ih
    rwa [← List.cons_append, ← List.append_assoc] at h
  | branches ht hbody he hother hu _ _ _ ih =>
    have h := IsBody.branches ht hbody he hother hu ih
    rwa [← List.cons_append, ← List.append_assoc] at h

/-! ## What a tag does to the open blocks -/

/-- `Moves tag before after`: the tag turns the open blocks `before` into
`after`, innermost first. -/
inductive Moves : Tag → List BlockHead → List BlockHead → Prop where
  | text (heads : List BlockHead) : Moves .text heads heads
  | placeholder (path : Path) (heads : List BlockHead) : Moves (.placeholder path) heads heads
  | inert (heads : List BlockHead) : Moves .inert heads heads
  | forLoop (name : String) (iterable : Expr) (heads : List BlockHead) :
      Moves (.forLoop name iterable) heads (.forLoop name iterable :: heads)
  | conditional (test : Condition) (heads : List BlockHead) :
      Moves (.conditional test) heads (.conditional test :: heads)
  | otherwise (test : Condition) (heads : List BlockHead) :
      Moves .otherwise (.conditional test :: heads) (.elseBranch :: .conditional test :: heads)
  | endfor (name : String) (iterable : Expr) (heads : List BlockHead) :
      Moves (.close .endfor) (.forLoop name iterable :: heads) heads
  | endif (test : Condition) (heads : List BlockHead) :
      Moves (.close .endif) (.conditional test :: heads) heads
  /-- An else branch closes together with the block around it. -/
  | endifElse (heads : List BlockHead) : Moves (.close .endif) (.elseBranch :: heads) heads.tail

namespace Outline

variable {o o' : Outline} {t : Token} {tag : Tag}

/-- What opened the blocks that are still open, innermost first. -/
def heads (o : Outline) : List BlockHead := o.blocks.map (·.head)

@[simp] theorem heads_add (o : Outline) (node : Node) : (o.add node).heads = o.heads := by
  unfold add heads
  split
  · next h => rw [h]
  · next h => rw [h]; rfl

@[simp] theorem heads_push (o : Outline) (head : BlockHead) (t : Token) :
    (o.push head t).heads = head :: o.heads := rfl

@[simp] theorem heads_pop (o : Outline) : o.pop.heads = o.heads.tail := by
  unfold pop
  split
  · next h => simp [heads, h]
  · next h =>
    rw [heads_add]
    simp [heads, h]

theorem moves_of_take (h : o.take t tag = .ok o') : Moves tag o.heads o'.heads := by
  cases tag with
  | text =>
    cases h
    rw [heads_add]
    exact .text _
  | placeholder path =>
    cases h
    rw [heads_add]
    exact .placeholder _ _
  | inert =>
    cases h
    exact .inert _
  | forLoop name iterable =>
    cases h
    exact .forLoop _ _ _
  | conditional test =>
    cases h
    exact .conditional _ _
  | otherwise =>
    simp only [take, startElse] at h
    split at h
    · cases h
    · next b rest hblocks =>
      split at h
      · next test hhead =>
        cases h
        have hheads : o.heads = .conditional test :: rest.map (·.head) := by
          simp [heads, hblocks, hhead]
        rw [heads_push, hheads]
        exact .otherwise _ _
      · cases h
      · cases h
  | close closer =>
    simp only [take, close] at h
    split at h
    · cases h
    · next b rest hblocks =>
      have hheads : o.heads = b.head :: rest.map (·.head) := by simp [heads, hblocks]
      split at h
      · next hcloser =>
        subst hcloser
        rw [hheads]
        cases hhead : b.head with
        | forLoop name iterable =>
          simp only [hhead] at h
          cases h
          rw [heads_pop, hheads]
          exact .endfor _ _ _
        | conditional test =>
          simp only [hhead] at h
          cases h
          rw [heads_pop, hheads]
          exact .endif _ _
        | elseBranch =>
          simp only [hhead] at h
          cases h
          rw [heads_pop, heads_pop, hheads]
          exact .endifElse _
      · cases h

theorem exists_take_of_moves {after : List BlockHead} (t : Token)
    (h : Moves tag o.heads after) : ∃ o', o.take t tag = .ok o' ∧ o'.heads = after := by
  rcases o with ⟨blocks, finished⟩
  generalize hbefore : heads ⟨blocks, finished⟩ = before at h
  have hcons {head : BlockHead} {rest : List BlockHead} (h : before = head :: rest) :
      ∃ b more, blocks = b :: more ∧ b.head = head := by
    obtain ⟨b, more, hblocks, hhead, -⟩ := List.map_eq_cons_iff.1 (hbefore.trans h)
    exact ⟨b, more, hblocks, hhead⟩
  cases h with
  | text => exact ⟨_, rfl, by rw [heads_add, hbefore]⟩
  | placeholder => exact ⟨_, rfl, by rw [heads_add, hbefore]⟩
  | inert => exact ⟨_, rfl, hbefore⟩
  | forLoop => exact ⟨_, rfl, by rw [heads_push, hbefore]⟩
  | conditional => exact ⟨_, rfl, by rw [heads_push, hbefore]⟩
  | otherwise =>
    obtain ⟨b, more, rfl, hhead⟩ := hcons rfl
    simp only [take, startElse, hhead]
    exact ⟨_, rfl, by rw [heads_push, hbefore]⟩
  | endfor =>
    obtain ⟨b, more, rfl, hhead⟩ := hcons rfl
    simp only [take, close, hhead]
    exact ⟨_, rfl, by rw [heads_pop, hbefore]; rfl⟩
  | endif =>
    obtain ⟨b, more, rfl, hhead⟩ := hcons rfl
    simp only [take, close, hhead]
    exact ⟨_, rfl, by rw [heads_pop, hbefore]; rfl⟩
  | endifElse =>
    obtain ⟨b, more, rfl, hhead⟩ := hcons rfl
    simp only [take, close, hhead]
    exact ⟨_, rfl, by rw [heads_pop, heads_pop, hbefore]; rfl⟩

/-! ## Steps and runs -/

theorem mapError_eq_ok_iff {α ε ε' : Type} {x : Except ε α} {f : ε → ε'} {a : α} :
    x.mapError f = .ok a ↔ x = .ok a := by
  cases x with
  | error e => exact ⟨nofun, nofun⟩
  | ok b =>
    constructor
    · intro h
      cases h
      rfl
    · intro h
      cases h
      rfl

theorem step_eq_ok_iff :
    o.step t = .ok o' ↔ ∃ tag, Tag.ofToken t = .ok tag ∧ o.take t tag = .ok o' := by
  unfold step
  rw [mapError_eq_ok_iff]
  cases Tag.ofToken t with
  | error fault => simp [Except.bind]
  | ok tag => simp only [Except.bind, Except.ok.injEq, exists_eq_left']

theorem exists_step_of_moves {after : List BlockHead} (ht : Tag.ofToken t = .ok tag)
    (h : Moves tag o.heads after) : ∃ o', o.step t = .ok o' ∧ o'.heads = after := by
  obtain ⟨o', htake, hheads⟩ := exists_take_of_moves t h
  exact ⟨o', step_eq_ok_iff.2 ⟨tag, ht, htake⟩, hheads⟩

/-- The tokens `ts` lead from one outline to another. -/
def Runs (o : Outline) (ts : List Token) (o' : Outline) : Prop := ts.foldlM step o = .ok o'

namespace Runs

variable {o₁ o₂ o₃ : Outline} {ts us : List Token}

theorem nil (o : Outline) : Runs o [] o := rfl

theorem cons (ht : o₁.step t = .ok o₂) (h : Runs o₂ ts o₃) : Runs o₁ (t :: ts) o₃ := by
  unfold Runs
  rw [List.foldlM_cons, ht]
  exact h

theorem append (h : Runs o₁ ts o₂) (h' : Runs o₂ us o₃) : Runs o₁ (ts ++ us) o₃ := by
  unfold Runs
  rw [List.foldlM_append, show ts.foldlM step o₁ = .ok o₂ from h]
  exact h'

theorem exists_of_cons (h : Runs o₁ (t :: ts) o₃) :
    ∃ o₂, o₁.step t = .ok o₂ ∧ Runs o₂ ts o₃ := by
  unfold Runs at h
  rw [List.foldlM_cons] at h
  cases hstep : o₁.step t with
  | error e =>
    rw [hstep] at h
    cases h
  | ok o₂ =>
    rw [hstep] at h
    exact ⟨o₂, rfl, h⟩

end Runs

end Outline

open Outline

/-! ## A body leaves the open blocks as they are -/

/-- The tokens can be taken anywhere, and leave the open blocks as they are. -/
def Balanced (ts : List Token) : Prop := ∀ o : Outline, ∃ o', Runs o ts o' ∧ o'.heads = o.heads

namespace Balanced

variable {t u : Token} {ts us body other : List Token} {tag : Tag}

theorem nil : Balanced [] := fun o => ⟨o, .nil o, rfl⟩

theorem append (hts : Balanced ts) (hus : Balanced us) : Balanced (ts ++ us) := by
  intro o
  obtain ⟨o₁, hruns₁, hheads₁⟩ := hts o
  obtain ⟨o₂, hruns₂, hheads₂⟩ := hus o₁
  exact ⟨o₂, hruns₁.append hruns₂, hheads₂.trans hheads₁⟩

theorem single (ht : Tag.ofToken t = .ok tag) (hmoves : ∀ heads, Moves tag heads heads) :
    Balanced [t] := by
  intro o
  obtain ⟨o', hstep, hheads⟩ := exists_step_of_moves ht (hmoves o.heads)
  exact ⟨o', .cons hstep (.nil o'), hheads⟩

/-- A block whose closing tag takes away what its opening tag put there. -/
theorem block {closing : Tag} {head : BlockHead} (ht : Tag.ofToken t = .ok tag)
    (hopen : ∀ heads, Moves tag heads (head :: heads)) (hbody : Balanced body)
    (hu : Tag.ofToken u = .ok closing) (hclose : ∀ heads, Moves closing (head :: heads) heads) :
    Balanced (t :: body ++ [u]) := by
  intro o
  obtain ⟨o₁, hstep, hheads₁⟩ := exists_step_of_moves ht (hopen o.heads)
  obtain ⟨o₂, hruns, hheads₂⟩ := hbody o₁
  have hmoves : Moves closing o₂.heads o.heads := by
    rw [hheads₂, hheads₁]
    exact hclose o.heads
  obtain ⟨o₃, hlast, hheads₃⟩ := exists_step_of_moves hu hmoves
  exact ⟨o₃, (Runs.cons hstep hruns).append (.cons hlast (.nil o₃)), hheads₃⟩

/-- A conditional with an else branch. One closing tag takes both away. -/
theorem branches {e : Token} {test : Condition} (ht : Tag.ofToken t = .ok (.conditional test))
    (hbody : Balanced body) (he : e.IsElse) (hother : Balanced other) (hu : u.IsCloser .endif) :
    Balanced (t :: body ++ e :: other ++ [u]) := by
  intro o
  obtain ⟨o₁, hstep, hheads₁⟩ := exists_step_of_moves (o := o) ht (.conditional _ _)
  obtain ⟨o₂, hruns, hheads₂⟩ := hbody o₁
  have hheads : o₂.heads = .conditional test :: o.heads := hheads₂.trans hheads₁
  have hbranch : Moves .otherwise o₂.heads (.elseBranch :: o₂.heads) := by
    rw [hheads]
    exact .otherwise _ _
  obtain ⟨o₃, helse, hheads₃⟩ := exists_step_of_moves he.ofToken hbranch
  obtain ⟨o₄, hruns', hheads₄⟩ := hother o₃
  have hmoves : Moves (.close .endif) o₄.heads o.heads := by
    rw [hheads₄, hheads₃, hheads]
    exact .endifElse _
  obtain ⟨o₅, hlast, hheads₅⟩ := exists_step_of_moves hu.ofToken hmoves
  have hinner := (Runs.cons hstep hruns).append (.cons helse hruns')
  exact ⟨o₅, hinner.append (.cons hlast (.nil o₅)), hheads₅⟩

end Balanced

theorem IsBody.balanced {ts : List Token} (h : IsBody ts) : Balanced ts := by
  induction h with
  | nil => exact .nil
  | @leaf t ts ht _ ih =>
    have hleaf : Balanced [t] := by
      rcases ht with ht | ht | ht
      · exact .single ht.ofToken .text
      · obtain ⟨path, htag⟩ := ht.ofToken
        exact .single htag (.placeholder path)
      · exact .single ht.ofToken .inert
    exact hleaf.append ih
  | loop ht _ hu _ ihbody ih =>
    obtain ⟨name, iterable, htag⟩ := ht.ofToken
    rw [List.append_cons]
    refine Balanced.append ?_ ih
    exact .block htag (.forLoop name iterable) ihbody hu.ofToken (.endfor name iterable)
  | conditional ht _ hu _ ihbody ih =>
    obtain ⟨test, htag⟩ := ht.ofToken
    rw [List.append_cons]
    refine Balanced.append ?_ ih
    exact .block htag (.conditional test) ihbody hu.ofToken (.endif test)
  | branches ht _ he _ hu _ ihbody ihother ih =>
    obtain ⟨test, htag⟩ := ht.ofToken
    rw [List.append_cons]
    refine Balanced.append ?_ ih
    exact .branches htag ihbody he ihother hu

/-! ## What the open blocks say about the tokens so far -/

/-- `Opens heads ts`: the tokens `ts` are a body but for the blocks `heads`,
innermost first, which they open and do not close. -/
inductive Opens : List BlockHead → List Token → Prop where
  | body {ts : List Token} (hts : IsBody ts) : Opens [] ts
  | loop {name : String} {iterable : Expr} {heads : List BlockHead} {t : Token}
      {ts body : List Token} (h : Opens heads ts) (ht : t.IsFor) (hbody : IsBody body) :
      Opens (.forLoop name iterable :: heads) (ts ++ t :: body)
  | conditional {test : Condition} {heads : List BlockHead} {t : Token} {ts body : List Token}
      (h : Opens heads ts) (ht : t.IsIf) (hbody : IsBody body) :
      Opens (.conditional test :: heads) (ts ++ t :: body)
  /-- An else branch stands right inside its conditional. -/
  | branch {test : Condition} {heads : List BlockHead} {t : Token} {ts body : List Token}
      (h : Opens (.conditional test :: heads) ts) (ht : t.IsElse) (hbody : IsBody body) :
      Opens (.elseBranch :: .conditional test :: heads) (ts ++ t :: body)

namespace Opens

variable {before after : List BlockHead} {ts us : List Token} {t : Token} {tag : Tag}

theorem append (h : Opens before ts) (hus : IsBody us) : Opens before (ts ++ us) := by
  cases h with
  | body hts => exact .body (hts.append hus)
  | loop h ht hbody =>
    rw [List.append_assoc, List.cons_append]
    exact .loop h ht (hbody.append hus)
  | conditional h ht hbody =>
    rw [List.append_assoc, List.cons_append]
    exact .conditional h ht (hbody.append hus)
  | branch h ht hbody =>
    rw [List.append_assoc, List.cons_append]
    exact .branch h ht (hbody.append hus)

theorem moves (h : Opens before ts) (hmoves : Moves tag before after) (ht : t.InClass tag) :
    Opens after (ts ++ [t]) := by
  cases hmoves with
  | text => exact h.append (.leaf (.inl ht) .nil)
  | placeholder => exact h.append (.leaf (.inr (.inl ht)) .nil)
  | inert => exact h.append (.leaf (.inr (.inr ht)) .nil)
  | forLoop => exact .loop h ht .nil
  | conditional => exact .conditional h ht .nil
  | otherwise => exact .branch h ht .nil
  | endfor =>
    cases h with
    | loop h hopen hbody =>
      rw [List.append_assoc]
      exact h.append (.loop hopen hbody ht .nil)
  | endif =>
    cases h with
    | conditional h hopen hbody =>
      rw [List.append_assoc]
      exact h.append (.conditional hopen hbody ht .nil)
  | endifElse =>
    cases h with
    | branch h helse hother =>
      cases h with
      | conditional h hopen hbody =>
        have hblock := h.append (.branches hopen hbody helse hother ht .nil)
        simpa using hblock

theorem step {o o' : Outline} (h : Opens o.heads ts) (hstep : o.step t = .ok o') :
    Opens o'.heads (ts ++ [t]) := by
  obtain ⟨tag, htag, htake⟩ := step_eq_ok_iff.1 hstep
  exact h.moves (moves_of_take htake) (Token.inClass_of_ofToken htag)

theorem runs {o o' : Outline} (h : Opens o.heads ts) (hruns : Runs o us o') :
    Opens o'.heads (ts ++ us) := by
  induction us generalizing o ts with
  | nil =>
    cases hruns
    rwa [List.append_nil]
  | cons u us ih =>
    obtain ⟨o₁, hstep, hrest⟩ := hruns.exists_of_cons
    have h' := ih (h.step hstep) hrest
    rwa [List.append_assoc, List.singleton_append] at h'

end Opens

/-! ## Acceptance -/

theorem Outline.finish_eq_ok_iff {o : Outline} {root : Node} :
    o.finish = .ok root ↔ o.heads = [] ∧ root = .root o.finished := by
  unfold finish heads
  cases o.blocks with
  | nil => simp [eq_comm]
  | cons b rest => simp

theorem Node.ofTokens_eq_ok_iff {ts : List Token} {root : Node} :
    Node.ofTokens ts = .ok root ↔ ∃ o, Runs .start ts o ∧ o.finish = .ok root := by
  unfold Node.ofTokens Runs
  cases ts.foldlM Outline.step Outline.start with
  | error e => simp [Except.bind]
  | ok o => simp [Except.bind]

/-- Exactly the token lists of the block grammar have a tree. -/
theorem exists_tree_iff_isBody (ts : List Token) :
    (∃ root, Node.ofTokens ts = .ok root) ↔ IsBody ts := by
  constructor
  · rintro ⟨root, h⟩
    obtain ⟨o, hruns, hfinish⟩ := Node.ofTokens_eq_ok_iff.1 h
    obtain ⟨hheads, -⟩ := finish_eq_ok_iff.1 hfinish
    have hstart : Opens Outline.start.heads [] := .body .nil
    have hopens := hstart.runs hruns
    rw [hheads, List.nil_append] at hopens
    cases hopens with
    | body hbody => exact hbody
  · intro h
    obtain ⟨o, hruns, hheads⟩ := h.balanced .start
    have hfinish := finish_eq_ok_iff.2 ⟨hheads, rfl⟩
    exact ⟨.root o.finished, Node.ofTokens_eq_ok_iff.2 ⟨o, hruns, hfinish⟩⟩

end Stencil
