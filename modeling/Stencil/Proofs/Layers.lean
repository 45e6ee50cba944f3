-- SUMMARY: A layer of local bindings over a context behaves like a copy of that context with the bindings written into it.
import Stencil.Proofs.Bisimulation
import Stencil.Template

/-!
# Layers and Copies

A layered scope keeps its bindings apart from the context below it. Nobody who
uses it as a scope can notice: the same uses of a copy of the context, with the
bindings written into the copy, get the same answers. What relates the two is
`Layered.flatten`, and binding a name keeps it, so it is a bisimulation.
-/

namespace Stencil

/-! ## Flattening -/

theorem Dictionary.get?_insertAll {α : Type} {entries : Entries α} (d : Dictionary α)
    (h : entries.Ascending) (name : String) :
    (d.insertAll entries).get? name = (entries.find? name).or (d.get? name) := by
  induction entries generalizing d with
  | nil => rfl
  | cons entry entries ih =>
    obtain ⟨key, value⟩ := entry
    obtain ⟨hlt, hrest⟩ := List.pairwise_cons.1 h
    have hstep : (d.insertAll ((key, value) :: entries)).get? name
        = ((d.insert key value).insertAll entries).get? name := rfl
    rw [hstep, ih _ hrest, get?_insert]
    simp only [Entries.find?]
    by_cases hname : name = key
    · -- Names ascend, so no later entry overwrites this one.
      subst hname
      rw [Entries.find?_eq_none_of_lt hlt, if_pos rfl, if_pos rfl]
      rfl
    · rw [if_neg hname, if_neg (Ne.symm hname)]

namespace Layered

theorem get?_flatten (l : Layered) (name : String) :
    l.flatten.get? name = Scope.lookup l name :=
  Dictionary.get?_insertAll l.base l.locals.ascending name

theorem flatten_ofContext (c : Context) : (ofContext c).flatten = c := rfl

theorem flatten_bind (l : Layered) (name : String) (v : Value) :
    (Scope.bind l name v).flatten = l.flatten.insert name v := by
  apply Dictionary.eq_of_get?_eq
  intro other
  have hlocals : (l.locals.insert name v).get? other
      = if other = name then some v else l.locals.get? other := Dictionary.get?_insert ..
  rw [get?_flatten, Dictionary.get?_insert, get?_flatten]
  show ((l.locals.insert name v).get? other).or (l.base.get? other) = _
  rw [hlocals]
  split
  · rfl
  · rfl

/-- The context on the right is the layered scope with its bindings written into
the base, which is `base` still. -/
def Over (base : Context) (l : Layered) (c : Context) : Prop := l.base = base ∧ l.flatten = c

theorem over_ofContext (c : Context) : Over c (ofContext c) c := ⟨rfl, flatten_ofContext c⟩

theorem bisimulation_over (base : Context) : Bisimulation (fun _ => True) (Over base) where
  lookup := by
    rintro l c ⟨-, rfl⟩ name -
    exact (get?_flatten l name).symm
  bind := by
    rintro l c ⟨hbase, rfl⟩ name v
    exact ⟨hbase, flatten_bind l name v⟩

end Layered

/-! ## Using a scope -/

/-- One use of a scope. -/
inductive ScopeUse where
  | bind (name : String) (v : Value)
  | lookup (name : String)
  | resolve (path : Path)
  | render (template : Template)

/-- What a use of a scope shows. -/
inductive Answer where
  | bound
  | found (v : Option Value)
  /-- The value of a path and its slot, or the error. -/
  | resolved (r : Except TemplateError Resolved)
  /-- The output or the error, and the conditions that were tested. -/
  | rendered (output : Except TemplateError String) (trials : List Trial)

section

variable {σ τ : Type} [Scope σ] [Scope τ]

/-- What a use shows, and the scope after it. -/
def ScopeUse.run (s : σ) : ScopeUse → Answer × σ
  | .bind name v => (.bound, Scope.bind s name v)
  | .lookup name => (.found (Scope.lookup s name), s)
  | .resolve path => (.resolved (path.resolve s), s)
  | .render template =>
    let outcome := template.renderWith s
    (.rendered outcome.output (template.root.trials s), outcome.scope)

/-- The answers to uses one after another, and the scope after the last one. -/
def ScopeUse.runAll (s : σ) : List ScopeUse → List Answer × σ
  | [] => ([], s)
  | use :: uses =>
    let first := use.run s
    let others := runAll first.2 uses
    (first.1 :: others.1, others.2)

variable {R : σ → τ → Prop} {s : σ} {t : τ}

theorem Bisimulation.run_eq (hR : Bisimulation (fun _ => True) R) (h : R s t) (use : ScopeUse) :
    (use.run s).1 = (use.run t).1 ∧ R (use.run s).2 (use.run t).2 := by
  cases use with
  | bind name v => exact ⟨rfl, hR.bind h name v⟩
  | lookup name => exact ⟨congrArg Answer.found (hR.lookup h name trivial), h⟩
  | resolve path => exact ⟨congrArg Answer.resolved (hR.resolve_path h trivial), h⟩
  | render template =>
    obtain ⟨hout, hscope⟩ := hR.simulates_render template.root (fun _ _ => trivial) s t h
    have htrials := hR.trials_eq template.root (fun _ _ => trivial) s t h
    refine ⟨?_, hscope⟩
    show Answer.rendered (template.root.render s).output _ = _
    rw [hout, htrials]
    rfl

theorem Bisimulation.runAll_eq (hR : Bisimulation (fun _ => True) R) (h : R s t)
    (uses : List ScopeUse) :
    (ScopeUse.runAll s uses).1 = (ScopeUse.runAll t uses).1
      ∧ R (ScopeUse.runAll s uses).2 (ScopeUse.runAll t uses).2 := by
  induction uses generalizing s t with
  | nil => exact ⟨rfl, h⟩
  | cons use uses ih =>
    obtain ⟨hanswer, hnext⟩ := hR.run_eq h use
    obtain ⟨hanswers, hlast⟩ := ih hnext
    refine ⟨?_, hlast⟩
    simp only [ScopeUse.runAll, hanswer, hanswers]

end

/-- Every sequence of uses gets the same answers from a layer over a context as
from a copy of that context. In the end the copy is the context with the local
bindings written into it, and the context below the layer is as it was. -/
theorem layered_indistinguishable_from_copy (c : Context) (uses : List ScopeUse) :
    let layered := ScopeUse.runAll (Layered.ofContext c) uses
    let copied := ScopeUse.runAll c uses
    layered.1 = copied.1
      ∧ copied.2 = layered.2.flatten
      ∧ (∀ name, copied.2.get? name = (layered.2.locals.get? name).or (c.get? name))
      ∧ layered.2.base = c
      ∧ ∀ t : Template, t.render c = (t.renderInPlace c).output := by
  intro layered copied
  have hR := Layered.bisimulation_over c
  obtain ⟨hanswers, hbase, hflat⟩ := hR.runAll_eq (Layered.over_ofContext c) uses
  refine ⟨hanswers, hflat.symm, fun name => ?_, hbase, fun t => ?_⟩
  · have hget := Layered.get?_flatten layered.2 name
    rw [hflat] at hget
    rw [hget, ← hbase]
    rfl
  · exact (hR.simulates_render t.root (fun _ _ => trivial) _ c (Layered.over_ofContext c)).1

end Stencil
