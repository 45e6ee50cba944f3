-- SUMMARY: Resolving a path and then more segments from its value is the same as resolving them all in one.
import Stencil.Context
import Stencil.Resolve

/-!
# Composing Paths

What a segment leads to depends on the value that it starts from, and not on whether that
value is still in its slot or a copy. So a path can be cut anywhere: the segments after the
cut lead from the value before it to the same value as from a copy of it under another name.
A failure anywhere is the failure of the whole path.
-/

namespace Stencil

/-! ## Lawful scopes -/

/-- In a lawful scope a bound name has its value, and binding it changes no other name. -/
class LawfulScope (σ : Type) [Scope σ] : Prop where
  lookup_bind : ∀ (s : σ) (name other : String) (v : Value),
    Scope.lookup (Scope.bind s name v) other
      = if other = name then some v else Scope.lookup s other

instance : LawfulScope Context := ⟨Dictionary.get?_insert⟩

instance : LawfulScope Layered where
  lookup_bind l name other v := by
    show ((l.locals.insert name v).get? other).or (l.base.get? other) = _
    rw [Dictionary.get?_insert]
    split
    · rfl
    · rfl

/-! ## Values and slots -/

namespace Resolved

variable {a b : Resolved}

theorem value_part? (h : a.value = b.value) (segment : String) :
    (a.part? segment).map (·.value) = (b.part? segment).map (·.value) := by
  unfold part?
  rw [h]
  cases b.value.attribute? segment with
  | some v => rfl
  | none =>
    cases b.value.locate? segment with
    | some located => rfl
    | none => rfl

theorem value_call (h : a.value = b.value) : a.call.value = b.call.value := by
  unfold call
  rw [← h]
  cases ha : a.value with
  | function => rfl
  | _ => simp [← h, ha]

theorem value_step? (h : a.value = b.value) (segment : String) :
    (a.step? segment).map (·.value) = (b.step? segment).map (·.value) := by
  have hpart := value_part? h segment
  unfold step?
  cases ha : a.part? segment with
  | none =>
    rw [ha] at hpart
    rw [Option.map_eq_none_iff.1 hpart.symm]
  | some x =>
    rw [ha] at hpart
    obtain ⟨y, hy, hvalue⟩ := Option.map_eq_some_iff.1 hpart.symm
    rw [hy]
    exact congrArg some (value_call hvalue.symm)

theorem follow?_cons (r : Resolved) (segment : String) (segments : List String) :
    r.follow? (segment :: segments) = (r.step? segment).bind (·.follow? segments) := rfl

theorem follow?_append (r : Resolved) (segments more : List String) :
    r.follow? (segments ++ more) = (r.follow? segments).bind (·.follow? more) :=
  List.foldlM_append

/-- Segments lead from equal values to equal values, whichever slots these are in. -/
theorem value_follow? (h : a.value = b.value) (segments : List String) :
    (a.follow? segments).map (·.value) = (b.follow? segments).map (·.value) := by
  induction segments generalizing a b with
  | nil => exact congrArg some h
  | cons segment segments ih =>
    have hstep := value_step? h segment
    rw [follow?_cons, follow?_cons]
    cases ha : a.step? segment with
    | none =>
      rw [ha] at hstep
      rw [Option.map_eq_none_iff.1 hstep.symm]
    | some x =>
      rw [ha] at hstep
      obtain ⟨y, hy, hvalue⟩ := Option.map_eq_some_iff.1 hstep.symm
      rw [hy]
      exact ih hvalue.symm

end Resolved

/-! ## Resolving -/

namespace Path

/-- The path with more segments after its own. -/
def extend (p : Path) (more : List String) : Path := ⟨p.root, p.rest ++ more⟩

theorem text_eq_intercalate (p : Path) : p.text = ".".intercalate p.segments := by
  have hjoin : ∀ fields : List (List Char), Text.joinFields '.' fields = ['.'].intercalate fields := by
    intro fields
    fun_induction Text.joinFields '.' fields with
    | case1 => rfl
    | case2 field => simp
    | case3 field next rest ih => rw [ih, List.intercalate_cons_cons, List.append_assoc]; rfl
  rw [← String.toList_inj, String.toList_intercalate, text, String.toList_ofList, hjoin]
  rfl

/-- Segments without dots are told apart again when they are joined with dots. -/
theorem ofString_intercalate {root : String} {rest : List String}
    (h : ∀ segment ∈ root :: rest, '.' ∉ segment.toList) :
    ofString (".".intercalate (root :: rest)) = ⟨root, rest⟩ := by
  have hpath : ofString (Path.mk root rest).text = ⟨root, rest⟩ := ofString_text h
  rwa [text_eq_intercalate] at hpath

section

variable {σ : Type} [Scope σ] {s : σ} {p : Path}

theorem toOption_resolve (s : σ) (p : Path) :
    (p.resolve s).toOption
      = (Scope.lookup s p.root).bind fun v => (Resolved.ofRoot p.root v).follow? p.rest := by
  unfold resolve
  split
  · next h => exact h.symm
  · next h => exact h.symm

theorem resolve_eq_error {e : TemplateError} (h : p.resolve s = .error e) : e = .unresolved p := by
  unfold resolve at h
  split at h
  · cases h
  · exact (Except.error.inj h).symm

theorem toOption_resolve_extend (s : σ) (p : Path) (more : List String) :
    ((p.extend more).resolve s).toOption = (p.resolve s).toOption.bind (·.follow? more) := by
  rw [toOption_resolve, toOption_resolve, Option.bind_assoc]
  simp only [extend, Resolved.follow?_append]

/-- Both give the same value, or both fail. -/
def GiveSame (x y : Except TemplateError Resolved) : Prop :=
  (∃ a b, x = .ok a ∧ y = .ok b ∧ a.value = b.value) ∨ ((∃ e, x = .error e) ∧ ∃ e, y = .error e)

theorem giveSame_of_toOption {x y : Except TemplateError Resolved}
    (h : x.toOption.map (·.value) = y.toOption.map (·.value)) : GiveSame x y := by
  cases x with
  | error e =>
    cases y with
    | error f => exact .inr ⟨⟨e, rfl⟩, f, rfl⟩
    | ok b => cases h
  | ok a =>
    cases y with
    | error f => cases h
    | ok b => exact .inl ⟨a, b, rfl, rfl, Option.some.inj h⟩

theorem resolve_extend_of_error {e : TemplateError} (h : p.resolve s = .error e)
    (more : List String) :
    (p.extend more).resolve s = .error (.unresolved (p.extend more)) := by
  have hnone := toOption_resolve_extend s p more
  rw [h] at hnone
  cases hextend : (p.extend more).resolve s with
  | error f => rw [resolve_eq_error hextend]
  | ok r =>
    rw [hextend] at hnone
    cases hnone

end

/-- A path can be cut anywhere: the segments after the cut give the same as from a copy of
the value before it. Where a beginning of a path fails, the path fails, and every failure
names the whole path as it is written. What segments lead to does not depend on the slot of
the value that they start from. -/
theorem resolve_composes {σ : Type} [Scope σ] [LawfulScope σ] (s : σ) (p : Path)
    (more : List String) :
    (∀ r, p.resolve s = .ok r → ∀ name,
        GiveSame ((p.extend more).resolve s)
          ((Path.mk name more).resolve (Scope.bind s name r.value)))
      ∧ (∀ e, p.resolve s = .error e → ∃ f, (p.extend more).resolve s = .error f)
      ∧ (∀ e, p.resolve s = .error e →
        e = .unresolved p ∧ p.text = ".".intercalate p.segments)
      ∧ (∀ source e, (ofString source).resolve s = .error e →
        ∃ q, e = .unresolved q ∧ q.text = source)
      ∧ ∀ v slot other, (Resolved.follow? ⟨v, slot⟩ more).map (·.value)
        = (Resolved.follow? ⟨v, other⟩ more).map (·.value) := by
  refine ⟨?_, ?_, ?_, ?_, ?_⟩
  · intro r hr name
    apply giveSame_of_toOption
    rw [toOption_resolve_extend, hr, toOption_resolve, LawfulScope.lookup_bind, if_pos rfl]
    have hvalue : r.value = (Resolved.ofRoot name r.value).value := rfl
    exact Resolved.value_follow? hvalue more
  · intro e he
    exact ⟨_, resolve_extend_of_error he more⟩
  · intro e he
    exact ⟨resolve_eq_error he, text_eq_intercalate p⟩
  · intro source e he
    exact ⟨_, resolve_eq_error he, text_ofString source⟩
  · intro v slot other
    have hvalue : (Resolved.mk v slot).value = (Resolved.mk v other).value := rfl
    exact Resolved.value_follow? hvalue more

/-- An object with an attribute that is a function. -/
def withMethod : Context :=
  .ofList [("o", .object 0 "o" [("words", .function 1 (.list [.string "hey"]))])]

theorem resolve_composes_through_call :
    (Path.mk "o" ["words"]).resolve withMethod = .ok (.copy (.list [.string "hey"]))
      ∧ GiveSame ((Path.mk "o" ["words", "+0", "-1"]).resolve withMethod)
        ((Path.mk "o" ["+0", "-1"]).resolve
          (Scope.bind withMethod "o" (.list [.string "hey"])))
      ∧ (Path.mk "o" ["words", "1"]).resolve withMethod = .error (.unresolved ⟨"o", ["words", "1"]⟩)
      ∧ ∃ f, (Path.mk "o" ["words", "1", "0"]).resolve withMethod = .error f := by
  have hvalue : (Path.mk "o" ["words"]).resolve withMethod = .ok (.copy (.list [.string "hey"])) := by
    rfl
  have hfails : (Path.mk "o" ["words", "1"]).resolve withMethod
      = .error (.unresolved ⟨"o", ["words", "1"]⟩) := by
    rfl
  obtain ⟨hsame, -⟩ := resolve_composes withMethod ⟨"o", ["words"]⟩ ["+0", "-1"]
  obtain ⟨-, herror, -⟩ := resolve_composes withMethod ⟨"o", ["words", "1"]⟩ ["0"]
  exact ⟨hvalue, hsame _ hvalue "o", hfails, herror _ hfails⟩

end Path

end Stencil
