-- SUMMARY: Scanning for a literal ends within the source, and every loop on the way moves on.
import Mathlib
import Stencil.Proofs.ScanReaders

/-!
# Progress of Scans

From wherever a character of a source starts, scanning for a literal comes to an
end if loops may take one pass more, and literals nest one level deeper, than
there are characters ahead. It never looks or moves out of the source. If it finds
a literal, the cursor has moved on to a later character or to the end; and each
pass of each loop is the last one or moves the cursor on.
-/

namespace Stencil.Literal

namespace Scan

variable {α σ : Type} {s : String} {p : String.Pos.Raw} {cs : List Char} {passes depth : Nat}

/-! ## Every pass that goes on moves on -/

theorem advances_blanksPass (hp : IsBefore s p cs) : (blanksPass ()).Advances s p := by
  cases cs with
  | nil => exact reads_blanksPass_nil.advances_of_done (Nat.le_refl _) hp
  | cons c cs =>
    have hpass := reads_blanksPass_cons c cs
    split at hpass
    · refine hpass.advances (fun h => ?_) hp
      cases h
      exact Nat.lt_succ_self _
    · exact hpass.advances_of_done (Nat.le_refl _) hp

theorem advances_digitsPass (digits : List Char) (hp : IsBefore s p cs) :
    (digitsPass digits).Advances s p := by
  cases cs with
  | nil => exact (reads_digitsPass_nil digits).advances_of_done (Nat.le_refl _) hp
  | cons c cs =>
    have hpass := reads_digitsPass_cons digits c cs
    split at hpass
    · refine hpass.advances (fun h => ?_) hp
      cases h
      exact Nat.lt_succ_self _
    split at hpass
    · refine hpass.advances (fun h => ?_) hp
      obtain ⟨-, heq⟩ := Option.ite_none_right_eq_some.1 h
      cases heq
      exact Nat.lt_succ_self _
    · exact hpass.advances_of_done (Nat.le_refl _) hp

theorem advances_stringPass (mark : Char) (text : List Char) (hp : IsBefore s p cs) :
    (stringPass mark text).Advances s p := by
  cases cs with
  | nil => exact (reads_stringPass_nil mark text).advances nofun hp
  | cons c cs =>
    refine (reads_stringPass_cons mark text c cs).advances (fun h => ?_) hp
    split at h
    · cases h
      exact Nat.lt_succ_self _
    split at h
    · cases h
    split at h
    · obtain ⟨d, -, heq⟩ := Option.map_eq_some_iff.1 h
      cases heq
      rw [List.length_tail, List.length_cons]
      omega
    · cases h
      exact Nat.lt_succ_self _

theorem advances_listedPass {item : Scan α} {reader : Reader α} {close : Char}
    {goesOn : σ × Bool → Bool} {add : σ → α → σ}
    (hitem : ∀ ds : List Char, ds.length ≤ cs.length → item.Reads ds (outcome (reader ds)))
    (hpasses : cs.length < passes) (state : σ × Bool) (hp : IsBefore s p cs) :
    (listedPass passes item close goesOn add state).Advances s p := by
  have hskip := length_skipBlanks_le cs
  by_cases hclose : (Text.skipBlanks cs).head? = some close
  · obtain ⟨rest, hrest⟩ := List.head?_eq_some_iff.1 hclose
    rw [hrest, List.length_cons] at hskip
    exact (reads_listedPass_close hpasses hrest).advances_of_done (by omega) hp
  by_cases hstate : goesOn state = true
  · have hread {a : α} {rest : List Char}
        (h : outcome (reader (Text.skipBlanks cs)) = some (a, rest)) : rest.length < cs.length :=
      Nat.lt_of_lt_of_le (length_lt_of_outcome h) hskip
    refine (reads_listedPass_item hpasses hclose hstate (hitem _ hskip)
      fun a rest => hread).advances (fun h => ?_) hp
    obtain ⟨⟨a, rest⟩, hitem', heq⟩ := Option.map_eq_some_iff.1 h
    have hrest := hread hitem'
    have hafter := length_skipBlanks_le rest
    dsimp only at heq
    split at heq
    · cases heq
      rw [List.length_tail]
      omega
    · cases heq
      omega
  · exact (reads_listedPass_stuck hpasses hclose (Bool.eq_false_iff.2 hstate)).advances
      nofun hp

/-- Each pass of each loop that scanning for a literal takes, started at a place
of a source. -/
structure PassesAdvance (passes depth : Nat) (s : String) (p : String.Pos.Raw) : Prop where
  blanks : (blanksPass ()).Advances s p
  digits : ∀ digits, (digitsPass digits).Advances s p
  string : ∀ mark text, (stringPass mark text).Advances s p
  items : ∀ close state, (itemsPass passes (value passes depth) close state).Advances s p
  entries : ∀ state, (entriesPass passes (value passes depth) state).Advances s p

theorem passesAdvance (hpasses : cs.length < passes) (hdepth : cs.length < depth)
    (hp : IsBefore s p cs) : PassesAdvance passes depth s p := by
  have hitem (ds : List Char) (hds : ds.length ≤ cs.length) :
      (value passes depth).Reads ds (outcome (Literal.value depth ds)) :=
    reads_value (by omega) (by omega) (by omega)
  exact {
    blanks := advances_blanksPass hp
    digits := fun digits => advances_digitsPass digits hp
    string := fun mark text => advances_stringPass mark text hp
    items := fun _ state => advances_listedPass hitem hpasses state hp
    entries := fun state =>
      advances_listedPass (fun ds hds => reads_entry hitem hpasses hds) hpasses state hp
  }

/-! ## Whole sources -/

theorem reads_whole (hpasses : cs.length < passes) (hdepth : cs.length < depth) {depth' : Nat}
    (hdepth' : (Text.skipBlanks cs).length < depth') :
    (whole passes depth).Reads cs
      ((outcome (Literal.value depth' (Text.skipBlanks cs))).bind fun r =>
        if Text.skipBlanks r.2 = [] then some (r.1, []) else none) := by
  have hskip := length_skipBlanks_le cs
  refine (reads_blanks hpasses).bind_some ?_
  refine (reads_value (by omega) (by omega) (by omega)).bind fun v rest hread => ?_
  have hrest := length_lt_of_outcome hread
  refine (reads_blanks (by omega)).bind_some ((reads_atEnd _).bind_some ?_)
  dsimp only
  split
  · next hend =>
    have hnil := of_decide_eq_true hend
    rw [hnil, if_pos rfl]
    exact .pure v []
  · next hend =>
    rw [if_neg fun hnil => hend (decide_eq_true hnil)]
    exact .failure _

theorem runAt_whole (hpasses : s.length < passes) (hdepth : s.length < depth) :
    ∃ result, (whole passes depth).runAt s 0 = .ok result ∧ result.map (·.1) = read? s := by
  rw [← String.length_toList] at hpasses hdepth
  obtain ⟨result, hrun, hresult⟩ :=
    reads_whole hpasses hdepth (Nat.lt_succ_self _) (isBefore_zero s)
  refine ⟨result, hrun, ?_⟩
  rw [hresult.map_fst, read?_eq, Option.map_bind]
  refine congrArg (Option.bind _) (funext fun r => ?_)
  dsimp only [Function.comp]
  split <;> rfl

theorem runAt_value (hp : IsBefore s p cs) : ∃ result : Option (Value × String.Pos.Raw),
    (∀ {v q}, result = some (v, q) → p < q ∧ q.IsValid s)
    ∧ ∀ {passes depth}, cs.length < passes → cs.length < depth →
      (value passes depth).runAt s p = .ok result
      ∧ outcome (Literal.value depth cs) = result.map fun r => (r.1, charsFrom s r.2) := by
  have hlast := Nat.lt_succ_self cs.length
  obtain ⟨result, -, hresult⟩ := reads_value hlast hlast hlast hp
  refine ⟨result, fun {v q} heq => ?_, fun {passes depth} hpasses hdepth => ?_⟩
  · subst heq
    generalize htaken : outcome (Literal.value (cs.length + 1) cs) = taken at hresult
    cases hresult with
    | ended hq => exact ⟨hp.lt_of_length_lt hq (length_lt_of_outcome htaken), hq.isValid⟩
  · obtain ⟨other, hrun, hother⟩ := reads_value hpasses hdepth hlast hp
    rw [hresult.result_eq hother] at hrun
    rw [outcome_value_eq_of_lt hdepth hlast]
    exact ⟨hrun, hresult.taken_eq⟩

end Scan

/-! ## Literals in a source -/

/-- A source that is no literal, with a literal from its third byte on. -/
def literalInside : String := "é[1_0,'ü'] x"

/-- Passes and levels of nesting do not run out if there is one more of each than
there are characters ahead. Then a scan of the whole source reads what `read?`
reads. From any place on, a scan for a literal comes to one result whatever more
it is allowed, without overrunning. If it finds a literal it ends further on,
where a character starts or the source ends. -/
theorem scan_makes_progress (s : String) :
    (∀ {passes depth}, s.length < passes → s.length < depth →
      ∃ result, (Scan.whole passes depth).runAt s 0 = .ok result ∧ result.map (·.1) = read? s)
    ∧ ∀ {p : String.Pos.Raw}, p.IsValid s → ∃ result : Option (Value × String.Pos.Raw),
      (∀ {v q}, result = some (v, q) → p < q ∧ q ≤ s.rawEndPos ∧ q.IsValid s)
      ∧ ∀ {passes depth}, (charsFrom s p).length < passes → (charsFrom s p).length < depth →
        (Scan.value passes depth).runAt s p = .ok result
        ∧ outcome (value depth (charsFrom s p)) = result.map (fun r => (r.1, charsFrom s r.2))
        ∧ Scan.PassesAdvance passes depth s p := by
  refine ⟨Scan.runAt_whole, fun {p} hvalid => ?_⟩
  have hp := isBefore_charsFrom hvalid
  obtain ⟨result, hplace, hrun⟩ := Scan.runAt_value hp
  refine ⟨result, fun {v q} heq => ?_, fun {passes depth} hpasses hdepth => ?_⟩
  · obtain ⟨hlater, hvalid'⟩ := hplace heq
    exact ⟨hlater, hvalid'.le_rawEndPos, hvalid'⟩
  · obtain ⟨hrun', houtcome⟩ := hrun hpasses hdepth
    exact ⟨hrun', houtcome, Scan.passesAdvance hpasses hdepth hp⟩

theorem scan_makes_progress_inside :
    literalInside.length < 13 ∧ (⟨2⟩ : String.Pos.Raw).IsValid literalInside
    ∧ (charsFrom literalInside ⟨2⟩).length < 13
    ∧ (∃ result, (Scan.whole 13 13).runAt literalInside 0 = .ok result
      ∧ result.map (·.1) = read? literalInside)
    ∧ (Scan.value 13 13).runAt literalInside ⟨2⟩ = .ok (some (.list [.int 10, .string "ü"], ⟨12⟩))
    ∧ outcome (value 13 (charsFrom literalInside ⟨2⟩))
      = some (.list [.int 10, .string "ü"], charsFrom literalInside ⟨12⟩)
    ∧ (⟨2⟩ : String.Pos.Raw) < ⟨12⟩ ∧ (⟨12⟩ : String.Pos.Raw) ≤ literalInside.rawEndPos
    ∧ (⟨12⟩ : String.Pos.Raw).IsValid literalInside
    ∧ Scan.PassesAdvance 13 13 literalInside ⟨2⟩ := by
  have hlength : literalInside.length < 13 := by decide +kernel
  have hvalid : (⟨2⟩ : String.Pos.Raw).IsValid literalInside := by decide +kernel
  have hahead : (charsFrom literalInside ⟨2⟩).length < 13 := by decide +kernel
  have hvalue : (Scan.value 13 13).runAt literalInside ⟨2⟩
      = .ok (some (.list [.int 10, .string "ü"], ⟨12⟩)) := by
    cbv
  obtain ⟨hwhole, hplaces⟩ := scan_makes_progress literalInside
  obtain ⟨result, hplace, hruns⟩ := hplaces hvalid
  obtain ⟨hrun, houtcome, hpasses⟩ := hruns hahead hahead
  obtain rfl := Except.ok.inj (hrun.symm.trans hvalue)
  obtain ⟨hlater, hend, hvalid'⟩ := hplace rfl
  exact ⟨hlength, hvalid, hahead, hwhole hlength hlength, hvalue, houtcome, hlater, hend, hvalid',
    hpasses⟩

/-- Scanning four brackets is five levels deep when it comes to the end. -/
example : (Scan.value 5 4).runAt "[[[[" 0 = .error .depth := by cbv

end Stencil.Literal
