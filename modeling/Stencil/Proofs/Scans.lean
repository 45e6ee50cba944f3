-- SUMMARY: Laws of scans: what each step takes off the characters ahead, without overrunning.
import Stencil.Literal.Scan
import Stencil.Proofs.TagPlaces

/-!
# Laws of Scans

What a scan reads at a place depends on the characters from there on. `Reads`
compares a scan with what is to be taken off these characters, and says that the
scan does not overrun. Later files know scans by these laws only.
-/

namespace Stencil.Literal

open Text (byteSize)

variable {α β σ : Type} {s : String} {p q : String.Pos.Raw} {c : Char} {cs rest : List Char}

/-! ## Places of a source -/

/-- The place where some last characters of a source begin. -/
def IsBefore (s : String) (p : String.Pos.Raw) (cs : List Char) : Prop :=
  ∃ front, s.toList = front ++ cs ∧ p.byteIdx = byteSize front

theorem isBefore_zero (s : String) : IsBefore s 0 s.toList := ⟨[], rfl, rfl⟩

theorem isBefore_charsFrom (h : p.IsValid s) : IsBefore s p (charsFrom s p) := by
  have hsplit := (s.pos p h).splits
  refine ⟨(s.sliceTo (s.pos p h)).copy.toList, ?_, ?_⟩
  · rw [charsFrom, dif_pos h, ← String.toList_append, ← hsplit.eq_append]
  · have hoffset := congrArg String.Pos.Raw.byteIdx hsplit.offset_eq_rawEndPos
    rw [String.offset_pos, String.byteIdx_rawEndPos] at hoffset
    rw [hoffset, byteSize, String.ofList_toList]

namespace IsBefore

theorem isValid (h : IsBefore s p cs) : p.IsValid s := by
  obtain ⟨front, hs, hp⟩ := h
  refine String.Pos.Raw.isValid_iff_exists_append.2
    ⟨String.ofList front, String.ofList cs, ?_, String.Pos.Raw.ext hp⟩
  rw [← String.ofList_append, ← hs, String.ofList_toList]

theorem charsFrom_eq (h : IsBefore s p cs) : charsFrom s p = cs := by
  obtain ⟨front, hs, hp⟩ := h
  obtain ⟨other, hs', hp'⟩ := isBefore_charsFrom (isValid ⟨front, hs, hp⟩)
  have hfront : other = front := Text.eq_of_byteSize_eq (hs'.symm.trans hs) (hp'.symm.trans hp)
  rw [hfront, hs] at hs'
  exact (List.append_cancel_left hs').symm

theorem move {front : List Char} (h : IsBefore s p (front ++ rest)) :
    IsBefore s ⟨p.byteIdx + byteSize front⟩ rest := by
  obtain ⟨before, hs, hp⟩ := h
  refine ⟨before ++ front, ?_, ?_⟩
  · rw [hs, List.append_assoc]
  · rw [Text.byteSize_append, hp]

/-- A place with fewer characters ahead comes after some more of them. -/
theorem exists_between (hp : IsBefore s p cs) (hq : IsBefore s q rest)
    (h : rest.length ≤ cs.length) :
    ∃ between, cs = between ++ rest ∧ q.byteIdx = p.byteIdx + byteSize between := by
  obtain ⟨front, hs, hp⟩ := hp
  obtain ⟨other, hs', hq⟩ := hq
  rcases List.append_eq_append_iff.1 (hs.symm.trans hs') with
    ⟨between, rfl, hcs⟩ | ⟨between, rfl, rfl⟩
  · exact ⟨between, hcs, by rw [hq, hp, Text.byteSize_append]⟩
  · rw [List.length_append] at h
    obtain rfl : between = [] := List.eq_nil_of_length_eq_zero (by omega)
    exact ⟨[], rfl, by rw [hq, hp, List.append_nil, Text.byteSize_nil, Nat.add_zero]⟩

theorem le_of_length_le (hp : IsBefore s p cs) (hq : IsBefore s q rest)
    (h : rest.length ≤ cs.length) : p ≤ q := by
  obtain ⟨between, -, hbytes⟩ := hp.exists_between hq h
  rw [String.Pos.Raw.le_iff, hbytes]
  exact Nat.le_add_right _ _

theorem lt_of_length_lt (hp : IsBefore s p cs) (hq : IsBefore s q rest)
    (h : rest.length < cs.length) : p < q := by
  obtain ⟨between, rfl, hbytes⟩ := hp.exists_between hq (Nat.le_of_lt h)
  have hne : between ≠ [] := by
    rintro rfl
    exact Nat.lt_irrefl _ h
  rw [String.Pos.Raw.lt_iff, hbytes]
  exact Nat.lt_add_of_pos_right (Text.byteSize_pos hne)

theorem place_eq (hp : IsBefore s p cs) (hq : IsBefore s q cs) : p = q := by
  have hpq := String.Pos.Raw.le_iff.1 (hp.le_of_length_le hq (Nat.le_refl _))
  have hqp := String.Pos.Raw.le_iff.1 (hq.le_of_length_le hp (Nat.le_refl _))
  exact String.Pos.Raw.ext (Nat.le_antisymm hpq hqp)

theorem rawEndPos_le_iff (h : IsBefore s p cs) : s.rawEndPos ≤ p ↔ cs = [] := by
  obtain ⟨front, hs, hp⟩ := h
  have hsize : s.utf8ByteSize = byteSize front + byteSize cs := by
    rw [← Text.byteSize_append, ← hs, byteSize, String.ofList_toList]
  rw [String.Pos.Raw.le_iff, String.byteIdx_rawEndPos, hp, hsize]
  constructor
  · intro hle
    have happend : byteSize front = byteSize (front ++ cs) := by
      rw [Text.byteSize_append]
      omega
    exact Text.eq_nil_of_byteSize_append happend
  · intro hnil
    rw [hnil, Text.byteSize_nil]
    exact Nat.le_refl _

end IsBefore

/-! ## What a scan reads -/

/-- A scan that ends at a place, or fails, as something taken off the characters
ahead leaves the characters from that place on, or cannot be taken. -/
inductive Leaves (s : String) : Option (α × String.Pos.Raw) → Option (α × List Char) → Prop where
  | failed : Leaves s none none
  | ended {a : α} {q : String.Pos.Raw} {rest : List Char} (h : IsBefore s q rest) :
      Leaves s (some (a, q)) (some (a, rest))

namespace Leaves

variable {result other : Option (α × String.Pos.Raw)} {taken : Option (α × List Char)}

theorem taken_eq (h : Leaves s result taken) :
    taken = result.map fun r => (r.1, charsFrom s r.2) := by
  cases h with
  | failed => rfl
  | ended hq => rw [Option.map_some, hq.charsFrom_eq]

theorem map_fst (h : Leaves s result taken) : result.map (·.1) = taken.map (·.1) := by
  cases h <;> rfl

theorem result_eq (h : Leaves s result taken) (hother : Leaves s other taken) : other = result := by
  cases h with
  | failed =>
    cases hother
    rfl
  | ended hq =>
    cases hother with
    | ended hq' => rw [hq'.place_eq hq]

end Leaves

namespace Scan

/-- Before these characters the scan reads what is taken off them, in every source. -/
def Reads (scan : Scan α) (cs : List Char) (taken : Option (α × List Char)) : Prop :=
  ∀ ⦃s p⦄, IsBefore s p cs → ∃ result, scan.runAt s p = .ok result ∧ Leaves s result taken

theorem runAt_bind (scan : Scan α) (next : α → Scan β) (s : String) (p : String.Pos.Raw) :
    (scan >>= next).runAt s p = match scan.runAt s p with
      | .error e => .error e
      | .ok none => .ok none
      | .ok (some (a, q)) => (next a).runAt s q := by
  have hbind : (scan >>= next).runAt s p = (scan.runAt s p).bind fun
      | none => .ok none
      | some (a, q) => (next a).runAt s q := by
    refine congrArg (Except.bind _) (funext fun result => ?_)
    cases result <;> rfl
  rw [hbind]
  rcases scan.runAt s p with e | _ | ⟨a, q⟩ <;> rfl

namespace Reads

variable {scan : Scan α} {next : α → Scan β} {a : α} {taken : Option (β × List Char)}

theorem unique {read other : Option (α × List Char)} (h : scan.Reads cs read)
    (hother : scan.Reads cs other) : read = other := by
  have hstart := isBefore_zero (String.ofList cs)
  rw [String.toList_ofList] at hstart
  obtain ⟨result, hrun, hresult⟩ := h hstart
  obtain ⟨_, hrun', hresult'⟩ := hother hstart
  rw [hrun] at hrun'
  cases hrun'
  exact hresult.taken_eq.trans hresult'.taken_eq.symm

protected theorem pure (a : α) (cs : List Char) : (pure a : Scan α).Reads cs (some (a, cs)) :=
  fun _ _ h => ⟨_, rfl, .ended h⟩

protected theorem failure (cs : List Char) : (failure : Scan α).Reads cs none :=
  fun _ _ _ => ⟨_, rfl, .failed⟩

theorem bind_none (h : scan.Reads cs none) : (scan >>= next).Reads cs none := by
  intro s p hp
  obtain ⟨_, hrun, hleaves⟩ := h hp
  cases hleaves
  exact ⟨none, by rw [runAt_bind, hrun], .failed⟩

theorem bind_some (h : scan.Reads cs (some (a, rest))) (hnext : (next a).Reads rest taken) :
    (scan >>= next).Reads cs taken := by
  intro s p hp
  obtain ⟨_, hrun, hleaves⟩ := h hp
  cases hleaves with
  | ended hq =>
    obtain ⟨result, hrun', hresult⟩ := hnext hq
    exact ⟨result, by rw [runAt_bind, hrun]; exact hrun', hresult⟩

protected theorem bind {read : Option (α × List Char)} {f : α × List Char → Option (β × List Char)}
    (h : scan.Reads cs read)
    (hnext : ∀ a rest, read = some (a, rest) → (next a).Reads rest (f (a, rest))) :
    (scan >>= next).Reads cs (read.bind f) := by
  rcases read with _ | ⟨a, rest⟩
  · exact h.bind_none
  · exact h.bind_some (hnext a rest rfl)

protected theorem map {read : Option (α × List Char)} (h : scan.Reads cs read) (f : α → β) :
    (scan >>= fun a => pure (f a)).Reads cs (read.map fun r => (f r.1, r.2)) := by
  rw [Option.map_eq_bind]
  exact h.bind fun a rest _ => .pure (f a) rest

end Reads

/-! ## The cursor -/

theorem reads_ahead (cs : List Char) : ahead.Reads cs (some (cs, cs)) := by
  intro s p hp
  refine ⟨some (cs, p), ?_, .ended hp⟩
  have hrun : ahead.runAt s p
      = (if p.IsValid s then pure (charsFrom s p)
        else throwThe Overrun .place : Scan (List Char)).runAt s p :=
    rfl
  rw [hrun, if_pos hp.isValid, hp.charsFrom_eq]
  rfl

theorem reads_advance (front rest : List Char) :
    (advance (byteSize front)).Reads (front ++ rest) (some ((), rest)) := by
  intro s p hp
  refine ⟨some ((), ⟨p.byteIdx + byteSize front⟩), ?_, .ended hp.move⟩
  have hrun : (advance (byteSize front)).runAt s p
      = (if (⟨p.byteIdx + byteSize front⟩ : String.Pos.Raw).IsValid s then
          set (⟨p.byteIdx + byteSize front⟩ : String.Pos.Raw)
        else throwThe Overrun .place : Scan Unit).runAt s p :=
    rfl
  rw [hrun, if_pos hp.move.isValid]
  rfl

theorem reads_advance_char (c : Char) (cs : List Char) :
    (advance c.utf8Size).Reads (c :: cs) (some ((), cs)) := by
  have h := reads_advance [c] cs
  rwa [Text.byteSize_cons, Text.byteSize_nil] at h

theorem reads_peek (cs : List Char) : peek.Reads cs (some (cs.head?, cs)) :=
  (reads_ahead cs).map List.head?

theorem reads_take (cs : List Char) : take.Reads cs (cs.head?.map fun c => (c, cs.tail)) := by
  refine (reads_peek cs).bind_some ?_
  cases cs with
  | nil => exact .failure []
  | cons c cs => exact (reads_advance_char c cs).bind_some (.pure c cs)

theorem reads_accept_cons (c : Char) (cs : List Char) :
    (accept c).Reads (c :: cs) (some (true, cs)) := by
  refine (reads_peek (c :: cs)).bind_some ?_
  rw [if_pos List.head?_cons]
  exact (reads_advance_char c cs).bind_some (.pure true cs)

theorem reads_accept_other (h : cs.head? ≠ some c) : (accept c).Reads cs (some (false, cs)) := by
  refine (reads_peek cs).bind_some ?_
  rw [if_neg h]
  exact .pure false cs

theorem reads_atEnd (cs : List Char) : atEnd.Reads cs (some (decide (cs = []), cs)) := by
  intro s p hp
  refine ⟨some (decide (cs = []), p), ?_, .ended hp⟩
  have hrun : atEnd.runAt s p = .ok (some (decide (s.rawEndPos ≤ p), p)) := rfl
  rw [hrun, decide_eq_decide.2 hp.rawEndPos_le_iff]

/-! ## Loops -/

section

variable {pass : σ → Scan (Pass σ β)} {state next : σ} {b : β} {bound passes : Nat}
  {taken : Option (β × List Char)}

theorem reads_loop_done (hpasses : bound < passes)
    (h : (pass state).Reads cs (some (.done b, rest))) :
    (loop pass passes state).Reads cs (some (b, rest)) := by
  cases passes with
  | zero => exact absurd hpasses (Nat.not_lt_zero _)
  | succ passes => exact h.bind_some (.pure b rest)

theorem reads_loop_failed (hpasses : bound < passes) (h : (pass state).Reads cs none) :
    (loop pass passes state).Reads cs none := by
  cases passes with
  | zero => exact absurd hpasses (Nat.not_lt_zero _)
  | succ passes => exact h.bind_none

/-- A pass that goes on takes at least one character, so one pass less is enough
for what is then ahead. -/
theorem reads_loop_again (hpasses : cs.length < passes)
    (h : (pass state).Reads cs (some (.again next, rest))) (hlt : rest.length < cs.length)
    (hrest : ∀ {passes}, rest.length < passes → (loop pass passes next).Reads rest taken) :
    (loop pass passes state).Reads cs taken := by
  cases passes with
  | zero => exact absurd hpasses (Nat.not_lt_zero _)
  | succ passes => exact h.bind_some (hrest (by omega))

end

/-! ## Passes that go on -/

/-- A pass does not overrun and stays in the source. If another pass follows, the
cursor has moved on. -/
def Advances (pass : Scan (Pass σ β)) (s : String) (p : String.Pos.Raw) : Prop :=
  ∃ result, pass.runAt s p = .ok result ∧ ∀ {r q}, result = some (r, q) →
    q.IsValid s ∧ p ≤ q ∧ ∀ {state}, r = .again state → p < q

section

variable {pass : Scan (Pass σ β)}

theorem Reads.advances {taken : Option (Pass σ β × List Char)} (h : pass.Reads cs taken)
    (hlt : ∀ {r rest}, taken = some (r, rest) → rest.length < cs.length) (hp : IsBefore s p cs) :
    pass.Advances s p := by
  obtain ⟨result, hrun, hleaves⟩ := h hp
  refine ⟨result, hrun, fun {r q} hresult => ?_⟩
  cases hleaves with
  | failed => cases hresult
  | ended hq =>
    cases hresult
    have hlater := hp.lt_of_length_lt hq (hlt rfl)
    exact ⟨hq.isValid, Nat.le_of_lt hlater, fun _ => hlater⟩

theorem Reads.advances_of_done {b : β} (h : pass.Reads cs (some (.done b, rest)))
    (hle : rest.length ≤ cs.length) (hp : IsBefore s p cs) : pass.Advances s p := by
  obtain ⟨result, hrun, hleaves⟩ := h hp
  cases hleaves with
  | ended hq =>
    refine ⟨_, hrun, fun hresult => ?_⟩
    cases hresult
    exact ⟨hq.isValid, hp.le_of_length_le hq hle, nofun⟩

end

end Scan

end Stencil.Literal
