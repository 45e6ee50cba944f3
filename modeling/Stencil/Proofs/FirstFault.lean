-- SUMMARY: Errors in token lists: at the first token that cannot be taken, whatever follows it, or at the block that is left open.
import Stencil.Proofs.OpenBlocks

/-!
# The First Fault

Tokens are taken from left to right, and the first one that fits nowhere decides the
error: no token behind it is looked at, and all tokens before it are the beginning of
a list with a tree. If every token fits, the only error is that a block is still open,
which more tokens can mend. So no token of a list that leaves a block open decides
its error.
-/

namespace Stencil

open Outline (Runs)

namespace Outline

variable {o : Outline} {t : Token} {ts : List Token} {e : TemplateError}

/-- A step fails at its own token. -/
theorem exists_fault_of_step (h : o.step t = .error e) : ∃ fault, e = t.error fault := by
  unfold step at h
  cases htake : (Tag.ofToken t).bind (o.take t) with
  | error fault =>
    rw [htake] at h
    cases h
    exact ⟨fault, rfl⟩
  | ok o' =>
    rw [htake] at h
    cases h

/-- Text can be taken anywhere. -/
theorem kind_ne_text_of_step (h : o.step t = .error e) : t.kind ≠ .text := by
  intro htext
  have hstep : o.step t = .ok (o.add (.text t.raw t.location)) :=
    step_eq_ok_iff.2 ⟨.text, Token.IsText.ofToken htext, rfl⟩
  rw [hstep] at h
  cases h

/-- If not all tokens can be taken, there is a first one that cannot. -/
theorem exists_step_of_foldlM (h : ts.foldlM step o = .error e) :
    ∃ before t after m, ts = before ++ t :: after ∧ Runs o before m ∧ m.step t = .error e := by
  induction ts generalizing o with
  | nil => cases h
  | cons t ts ih =>
    rw [List.foldlM_cons] at h
    cases hstep : o.step t with
    | error e' =>
      rw [hstep] at h
      cases h
      exact ⟨[], t, ts, o, rfl, .nil o, hstep⟩
    | ok o' =>
      rw [hstep] at h
      obtain ⟨before, u, after, m, rfl, hruns, hfails⟩ := ih h
      exact ⟨t :: before, u, after, m, rfl, .cons hstep hruns, hfails⟩

end Outline

/-! ## Where errors come from -/

/-- An error comes from a token that cannot be taken, or from a block that is open at the
end. -/
theorem Node.ofTokens_error_cases {ts : List Token} {e : TemplateError}
    (h : Node.ofTokens ts = .error e) :
    (∃ before t after o, ts = before ++ t :: after ∧ Runs .start before o ∧ o.step t = .error e)
      ∨ ∃ opener closer, UnclosedAt ts opener closer
          ∧ e = opener.error (.unclosed opener.raw closer) := by
  cases hfold : ts.foldlM Outline.step .start with
  | error e' =>
    unfold Node.ofTokens at h
    rw [hfold] at h
    cases h
    exact .inl (Outline.exists_step_of_foldlM hfold)
  | ok o =>
    have hruns : Runs .start ts o := hfold
    cases hopeners : o.openers with
    | nil =>
      rw [hruns.ofTokens_of_closed hopeners] at h
      cases h
    | cons opening rest =>
      obtain ⟨head, opener⟩ := opening
      have hunclosed := hruns.unclosedAt hopeners
      rw [hunclosed.error] at h
      cases h
      exact .inr ⟨opener, head.closer, hunclosed, rfl⟩

/-- Every error is at a tag. -/
theorem Node.exists_tag_of_ofTokens_error {ts : List Token} {e : TemplateError}
    (h : Node.ofTokens ts = .error e) :
    ∃ before t after fault, ts = before ++ t :: after ∧ t.kind ≠ .text ∧ e = t.error fault := by
  rcases ofTokens_error_cases h with
    ⟨before, t, after, o, hts, -, hstep⟩ | ⟨opener, closer, hunclosed, he⟩
  · obtain ⟨fault, he⟩ := Outline.exists_fault_of_step hstep
    exact ⟨before, t, after, fault, hts, Outline.kind_ne_text_of_step hstep, he⟩
  · obtain ⟨before, body, hts, -, hclass⟩ := hunclosed.leftOpen
    have hkind : opener.kind = .block := by
      rcases hclass with ⟨hfor, -⟩ | ⟨hif | helse, -⟩
      · exact hfor.1
      · exact hif.1
      · exact helse.1
    exact ⟨before, opener, body, _, hts, by rw [hkind]; exact nofun, he⟩

/-! ## Errors that nothing behind them changes -/

/-- `FailsAt ts k e`: the error `e` is at the token number `k`, counted from zero, and it
stays the error whatever follows that token. -/
def FailsAt (ts : List Token) (k : Nat) (e : TemplateError) : Prop :=
  ∃ t fault, ts[k]? = some t ∧ e = t.error fault
    ∧ ∀ us, Node.ofTokens (ts.take (k + 1) ++ us) = .error e

/-- A list that goes on to a list with a tree fails at none of its tokens. -/
theorem not_failsAt {ts us : List Token} {root : Node} {k : Nat} {e : TemplateError}
    (h : Node.ofTokens (ts ++ us) = .ok root) : ¬FailsAt ts k e := by
  rintro ⟨t, fault, -, -, hfails⟩
  have hrest := hfails (ts.drop (k + 1) ++ us)
  rw [← List.append_assoc, List.take_append_drop, h] at hrest
  cases hrest

/-- Tokens that are all taken fail nowhere, since more tokens lead on to a tree. -/
theorem Outline.Runs.not_failsAt {ts : List Token} {o : Outline} {k : Nat} {e : TemplateError}
    (h : Runs .start ts o) : ¬FailsAt ts k e := by
  obtain ⟨us, root, htree⟩ := h.exists_tree_append
  exact Stencil.not_failsAt htree

theorem failsAt_of_step {o : Outline} {before after : List Token} {t : Token} {e : TemplateError}
    (hruns : Runs .start before o) (hstep : o.step t = .error e) :
    FailsAt (before ++ t :: after) before.length e := by
  obtain ⟨fault, rfl⟩ := Outline.exists_fault_of_step hstep
  refine ⟨t, fault, by simp, rfl, fun us => ?_⟩
  have htake : (before ++ t :: after).take (before.length + 1) = before ++ [t] := by
    rw [List.append_cons]
    exact List.take_left' List.length_append
  rw [htake, List.append_assoc]
  exact hruns.ofTokens_of_step hstep us

/-- Tokens that are all taken go on to a list with a tree, wherever they are cut. -/
theorem Outline.Runs.exists_tree_take {o : Outline} {before after : List Token}
    (h : Runs .start before o) {j : Nat} (hj : j ≤ before.length) :
    ∃ us root, Node.ofTokens ((before ++ after).take j ++ us) = .ok root := by
  rw [List.take_append_of_le_length hj]
  rw [← List.take_append_drop j before] at h
  obtain ⟨m, hruns, -⟩ := h.exists_of_append
  exact hruns.exists_tree_append

/-- A token list without a tree either fails at a token, whatever follows that token,
while all shorter beginnings of it can go on to lists with a tree; or all its tokens
are taken, and the error is at the tag of the innermost block that they leave open.
A list that leaves a block open fails at none of its tokens, with whatever error. -/
theorem fails_first_or_unclosed {ts : List Token} {e : TemplateError}
    (h : Node.ofTokens ts = .error e) :
    let atToken := ∃ k, FailsAt ts k e ∧ (∀ j ≤ k, ∀ i e', ¬FailsAt (ts.take j) i e')
      ∧ ∀ j ≤ k, ∃ us root, Node.ofTokens (ts.take j ++ us) = .ok root
    let atEnd := ∃ opener closer, UnclosedAt ts opener closer
      ∧ e = opener.error (.unclosed opener.raw closer)
    (atToken ∨ atEnd) ∧ (atEnd → ∀ k e', ¬FailsAt ts k e') := by
  intro atToken atEnd
  constructor
  · refine (Node.ofTokens_error_cases h).imp_left ?_
    rintro ⟨before, t, after, o, rfl, hruns, hstep⟩
    have hviable (j : Nat) (hj : j ≤ before.length) :
        ∃ us root, Node.ofTokens ((before ++ t :: after).take j ++ us) = .ok root :=
      hruns.exists_tree_take hj
    refine ⟨before.length, failsAt_of_step hruns hstep, fun j hj i e' => ?_, hviable⟩
    obtain ⟨us, root, htree⟩ := hviable j hj
    exact not_failsAt htree
  · rintro ⟨opener, closer, hunclosed, -⟩ k e'
    obtain ⟨o, hruns⟩ := hunclosed.taken
    exact hruns.not_failsAt

/-- A second else tag in a conditional, and a loop after it. -/
def Token.twiceElse : List Token :=
  [⟨.block, "", "if x", ⟨0, 0, 0⟩⟩, ⟨.block, "", "else", ⟨1, 0, 1⟩⟩,
    ⟨.block, "", "else", ⟨2, 0, 2⟩⟩, ⟨.block, "", "for", ⟨3, 0, 3⟩⟩]

theorem fails_first_or_unclosed_else :
    let fault : TemplateError := .malformed .duplicateElse ⟨2, 0, 2⟩ 0
    let unclosed : TemplateError := .malformed (.unclosed "" .endif) ⟨1, 0, 1⟩ 0
    Node.ofTokens Token.twiceElse = .error fault
      ∧ (∃ k, FailsAt Token.twiceElse k fault)
      ∧ Node.ofTokens (Token.twiceElse.take 2) = .error unclosed
      ∧ (∃ opener closer, UnclosedAt (Token.twiceElse.take 2) opener closer
          ∧ unclosed = opener.error (.unclosed opener.raw closer))
      ∧ ∀ k e', ¬FailsAt (Token.twiceElse.take 2) k e' := by
  intro fault unclosed
  have hfault : Node.ofTokens Token.twiceElse = .error fault := by cbv
  have hunclosed : Node.ofTokens (Token.twiceElse.take 2) = .error unclosed := by rfl
  have hfails : ∃ k, FailsAt Token.twiceElse k fault := by
    rcases (fails_first_or_unclosed hfault).1 with ⟨k, hfails, -⟩ | ⟨opener, closer, -, heq⟩
    · exact ⟨k, hfails⟩
    · cases (TemplateError.malformed.inj heq).1
  have htaken : ∃ o, Runs .start (Token.twiceElse.take 2) o := ⟨_, rfl⟩
  obtain ⟨o, hruns⟩ := htaken
  obtain ⟨⟨k, hfailsAt, -⟩ | hend, hnowhere⟩ := fails_first_or_unclosed hunclosed
  · exact absurd hfailsAt hruns.not_failsAt
  · exact ⟨hfault, hfails, hunclosed, hend, hnowhere hend⟩

end Stencil
