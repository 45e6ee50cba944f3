-- SUMMARY: Each scan reads what the reader of the same name reads, without overrunning.
import Stencil.Proofs.LiteralReaders
import Stencil.Proofs.Scans
import Stencil.Proofs.Words

/-!
# Scans Read What the Readers Read

A scan moves a cursor pass by pass, a reader recurses on the characters. Both
take the same off the same characters if loops may take more passes, and literals
nest deeper, than there are characters ahead: a loop takes a character in each
pass but the last, and so does a literal before each literal in it.
-/

namespace Stencil.Literal.Scan

variable {α σ : Type} {c : Char} {cs rest : List Char} {passes : Nat}

/-! ## Blanks -/

theorem reads_blanksPass_nil : (blanksPass ()).Reads [] (some (.done (), [])) :=
  (reads_peek []).bind_some (.pure _ _)

theorem reads_blanksPass_cons (c : Char) (cs : List Char) :
    (blanksPass ()).Reads (c :: cs)
      (if Text.isBlank c then some (.again (), cs) else some (.done (), c :: cs)) := by
  refine (reads_peek (c :: cs)).bind_some ?_
  dsimp only [List.head?_cons]
  split
  · exact (reads_take (c :: cs)).bind_some (.pure _ _)
  · exact .pure _ _

theorem reads_blanks (h : cs.length < passes) :
    (blanks passes).Reads cs (some ((), Text.skipBlanks cs)) := by
  unfold blanks
  induction cs generalizing passes with
  | nil => exact reads_loop_done h reads_blanksPass_nil
  | cons c cs ih =>
    have hpass := reads_blanksPass_cons c cs
    by_cases hblank : Text.isBlank c = true
    · rw [if_pos hblank] at hpass
      rw [Text.skipBlanks, List.dropWhile_cons_of_pos hblank]
      exact reads_loop_again h hpass (Nat.lt_succ_self _) ih
    · rw [if_neg hblank] at hpass
      rw [Text.skipBlanks, List.dropWhile_cons_of_neg hblank]
      exact reads_loop_done h hpass

/-! ## Numbers -/

theorem reads_digitsPass_nil (ds : List Char) :
    (digitsPass ds).Reads [] (some (.done ds, [])) :=
  (reads_peek []).bind_some (.pure _ _)

theorem reads_digitsPass_cons (ds : List Char) (c : Char) (cs : List Char) :
    (digitsPass ds).Reads (c :: cs)
      (if c.isDigit then some (.again (ds ++ [c]), cs)
      else if c = '_' ∧ ds ≠ [] then
        if cs.head?.any Char.isDigit then some (.again ds, cs) else none
      else some (.done ds, c :: cs)) := by
  refine (reads_peek (c :: cs)).bind_some ?_
  dsimp only [List.head?_cons]
  split
  · exact (reads_take (c :: cs)).bind_some (.pure _ _)
  split
  · refine (reads_take (c :: cs)).bind_some ((reads_peek cs).bind_some ?_)
    split
    · exact .pure _ _
    · exact .failure _
  · exact .pure _ _

theorem reads_digitsPass_underscore {ds : List Char} (hds : ds ≠ []) (cs : List Char) :
    (digitsPass ds).Reads ('_' :: cs)
      (if cs.head?.any Char.isDigit then some (.again ds, cs) else none) := by
  have hpass := reads_digitsPass_cons ds '_' cs
  rwa [if_neg (by decide), if_pos ⟨rfl, hds⟩] at hpass

theorem reads_loop_digit {ds : List Char} {taken : Option (List Char × List Char)}
    (hdigit : c.isDigit = true) (h : (c :: cs).length < passes)
    (hrest : ∀ {passes}, cs.length < passes →
      (loop digitsPass passes (ds ++ [c])).Reads cs taken) :
    (loop digitsPass passes ds).Reads (c :: cs) taken := by
  have hpass := reads_digitsPass_cons ds c cs
  rw [if_pos hdigit] at hpass
  exact reads_loop_again h hpass (Nat.lt_succ_self _) hrest

theorem map_cons_append {ds : List Char} (read : Option (List Char × List Char)) :
    (read.map fun r => (c :: r.1, r.2)).map (fun r => (ds ++ r.1, r.2))
      = read.map fun r => (ds ++ [c] ++ r.1, r.2) := by
  rw [Option.map_map]
  exact congrArg (read.map ·) (funext fun r => by simp)

theorem reads_moreDigits {ds : List Char} (hds : ds ≠ []) (h : cs.length < passes) :
    (loop digitsPass passes ds).Reads cs
      ((Text.moreDigits cs).map fun r => (ds ++ r.1, r.2)) := by
  fun_induction Text.moreDigits cs generalizing ds passes with
  | case1 =>
    rw [Option.map_some, List.append_nil]
    exact reads_loop_done h (reads_digitsPass_nil ds)
  | case2 c cs hdigit ih =>
    rw [map_cons_append]
    exact reads_loop_digit hdigit h fun hpasses => ih (by simp) hpasses
  | case3 => exact reads_loop_failed h (reads_digitsPass_underscore hds [])
  | case4 d rest hd _ ih =>
    have hpass := reads_digitsPass_underscore hds (d :: rest)
    rw [List.head?_cons, Option.any_some, if_pos hd] at hpass
    refine reads_loop_again h hpass (Nat.lt_succ_self _) fun hpasses => ?_
    rw [map_cons_append]
    exact reads_loop_digit hd hpasses fun hpasses' => ih (by simp) hpasses'
  | case5 d rest hd =>
    have hpass := reads_digitsPass_underscore hds (d :: rest)
    rw [List.head?_cons, Option.any_some, if_neg hd] at hpass
    exact reads_loop_failed h hpass
  | case6 c cs hdigit hunderscore =>
    have hpass := reads_digitsPass_cons ds c cs
    rw [if_neg hdigit, if_neg fun h => hunderscore h.1] at hpass
    rw [Option.map_some, List.append_nil]
    exact reads_loop_done h hpass

theorem reads_digits (h : cs.length < passes) : (digits passes).Reads cs (Text.digits cs) := by
  cases cs with
  | nil => exact reads_loop_done h (reads_digitsPass_nil [])
  | cons c cs =>
    unfold digits Text.digits
    dsimp only
    split
    · next hdigit =>
      exact reads_loop_digit hdigit h fun hpasses =>
        reads_moreDigits (List.cons_ne_nil c []) hpasses
    · next hdigit =>
      have hpass := reads_digitsPass_cons [] c cs
      rw [if_neg hdigit, if_neg fun h => h.2 rfl] at hpass
      exact reads_loop_done h hpass

theorem reads_sign (cs : List Char) :
    sign.Reads cs (some ((Text.sign cs).1, (Text.sign cs).2)) := by
  refine (reads_peek cs).bind_some ?_
  cases cs with
  | nil => exact .pure _ _
  | cons c cs =>
    dsimp only [List.head?_cons]
    split
    · next hsign =>
      have hrest : Text.sign (c :: cs) = (decide (c = '-'), cs) := by
        rcases hsign with rfl | rfl <;> rfl
      rw [hrest]
      exact (reads_take (c :: cs)).bind_some (.pure _ _)
    · next hsign =>
      have hrest : Text.sign (c :: cs) = (false, c :: cs) := by
        rw [Text.sign, if_neg fun h => hsign (.inl h), if_neg fun h => hsign (.inr h)]
      rw [hrest]
      exact .pure _ _

theorem reads_fraction (h : cs.length < passes) :
    (fraction passes).Reads cs (Text.fraction cs) := by
  cases cs with
  | nil => exact (reads_accept_other (by decide)).bind_some (.pure _ _)
  | cons c cs =>
    unfold Text.fraction
    dsimp only
    split
    · next hpoint =>
      rw [hpoint]
      exact (reads_accept_cons '.' cs).bind_some ((reads_digits (Nat.lt_of_succ_lt h)).map some)
    · next hpoint =>
      have hhead : (c :: cs).head? ≠ some '.' := fun heq => hpoint (Option.some.inj heq)
      exact (reads_accept_other hhead).bind_some (.pure _ _)

theorem reads_exponent (h : cs.length < passes) :
    (exponent passes).Reads cs (Text.exponent cs) := by
  refine (reads_peek cs).bind_some ?_
  cases cs with
  | nil => exact .pure _ _
  | cons c cs =>
    unfold Text.exponent
    dsimp only [List.head?_cons]
    split
    · have hlength := Text.length_sign_le cs
      rw [List.length_cons] at h
      refine (reads_take (c :: cs)).bind_some ((reads_sign cs).bind_some ?_)
      refine (reads_digits (by omega)).bind fun ds rest _ => ?_
      split
      · exact .failure _
      · exact .pure _ _
    · exact .pure _ _

theorem any_head?_eq_continuesWord (cs : List Char) :
    cs.head?.any Text.isWordChar = Text.continuesWord cs := by
  cases cs <;> rfl

theorem reads_number (h : cs.length < passes) :
    (number passes).Reads cs (outcome (Literal.number cs)) := by
  rw [outcome_number]
  unfold Text.numeral
  have hsign := Text.length_sign_le cs
  refine (reads_sign cs).bind_some ?_
  rw [Option.map_bind]
  refine (reads_digits (by omega)).bind fun whole rest hwhole => ?_
  have := Text.length_le_of_digits hwhole
  dsimp only [Function.comp]
  rw [Option.map_bind]
  refine (reads_fraction (by omega)).bind fun fraction rest' hfraction => ?_
  have := Text.length_le_of_fraction hfraction
  dsimp only [Function.comp]
  split
  · exact .failure _
  · rw [Option.map_bind]
    refine (reads_exponent (by omega)).bind fun exponent rest'' _ => ?_
    refine (reads_peek rest'').bind_some ?_
    dsimp only [Function.comp]
    rw [any_head?_eq_continuesWord]
    split
    · exact .failure _
    · exact .pure _ _

/-! ## Strings and keywords -/

theorem reads_stringPass_nil (mark : Char) (text : List Char) :
    (stringPass mark text).Reads [] none :=
  (reads_take []).bind_none

theorem reads_stringPass_cons (mark : Char) (text : List Char) (c : Char) (cs : List Char) :
    (stringPass mark text).Reads (c :: cs)
      (if c = mark then some (.done text, cs)
      else if c = '\n' then none
      else if c = '\\' then cs.head?.map fun d => (.again (text ++ Text.unescape d), cs.tail)
      else some (.again (text ++ [c]), cs)) := by
  refine (reads_take (c :: cs)).bind_some ?_
  dsimp only [List.tail_cons]
  split
  · exact .pure _ _
  split
  · exact .failure _
  split
  · cases cs with
    | nil => exact (reads_take []).bind_none
    | cons d cs => exact (reads_take (d :: cs)).bind_some (.pure _ _)
  · exact .pure _ _

theorem reads_loop_string {mark : Char} {text : List Char} (h : cs.length < passes) :
    (loop (stringPass mark) passes text).Reads cs
      ((Text.unquote mark cs).map fun r => (text ++ r.1, r.2)) := by
  fun_induction Text.unquote mark cs generalizing text passes with
  | case1 => exact reads_loop_failed h (reads_stringPass_nil mark text)
  | case2 cs =>
    have hpass := reads_stringPass_cons mark text mark cs
    rw [if_pos rfl] at hpass
    rw [Option.map_some, List.append_nil]
    exact reads_loop_done h hpass
  | case3 cs hmark =>
    have hpass := reads_stringPass_cons mark text '\n' cs
    rw [if_neg hmark, if_pos rfl] at hpass
    exact reads_loop_failed h hpass
  | case4 hmark hfeed =>
    have hpass := reads_stringPass_cons mark text '\\' []
    rw [if_neg hmark, if_neg hfeed, if_pos rfl] at hpass
    exact reads_loop_failed h hpass
  | case5 d rest hmark hfeed ih =>
    have hpass := reads_stringPass_cons mark text '\\' (d :: rest)
    rw [if_neg hmark, if_neg hfeed, if_pos rfl] at hpass
    simp only [Option.map_map, Function.comp_def, ← List.append_assoc]
    have hshorter : rest.length < ('\\' :: d :: rest).length := by
      rw [List.length_cons, List.length_cons]
      omega
    exact reads_loop_again h hpass hshorter ih
  | case6 c cs hmark hfeed hescape ih =>
    have hpass := reads_stringPass_cons mark text c cs
    rw [if_neg hmark, if_neg hfeed, if_neg hescape] at hpass
    rw [map_cons_append]
    exact reads_loop_again h hpass (Nat.lt_succ_self _) ih

theorem reads_string {mark : Char} (h : cs.length < passes) :
    (string passes).Reads (mark :: cs) (outcome (Literal.string mark cs)) := by
  rw [outcome_string]
  have hloop : (loop (stringPass mark) passes []).Reads cs _ := reads_loop_string h
  simp only [List.nil_append, Option.map_id'] at hloop
  exact (reads_take (mark :: cs)).bind_some
    (hloop.map fun text => Value.string (String.ofList text))

theorem reads_keyword (hc : Text.isAlphabetic c = true) (cs : List Char) :
    keyword.Reads (c :: cs) (outcome (Literal.keyword c cs)) := by
  have hword : Text.isWordChar c = true := by
    simp [Text.isWordChar, Text.isAlphanumeric, hc]
  rw [outcome_keyword]
  refine (reads_ahead (c :: cs)).bind_some ?_
  rw [List.takeWhile_cons_of_pos hword]
  dsimp only
  split
  · next h =>
    rw [h]
    exact .failure _
  · next v h =>
    rw [h]
    have hsplit := reads_advance (c :: cs.takeWhile Text.isWordChar) (cs.dropWhile Text.isWordChar)
    rw [List.cons_append, List.takeWhile_append_dropWhile] at hsplit
    exact hsplit.bind_some (.pure _ _)

/-! ## Sequences -/

section

variable {item : Scan α} {close : Char} {goesOn : σ × Bool → Bool} {add : σ → α → σ}
  {state : σ × Bool} {read : Option (α × List Char)}

theorem reads_listedPass_close (h : cs.length < passes) (hcs : Text.skipBlanks cs = close :: rest) :
    (listedPass passes item close goesOn add state).Reads cs (some (.done state, rest)) := by
  refine (reads_blanks h).bind_some ?_
  rw [hcs]
  exact (reads_accept_cons close rest).bind_some (.pure _ _)

theorem reads_listedPass_stuck (h : cs.length < passes)
    (hcs : (Text.skipBlanks cs).head? ≠ some close) (hstate : goesOn state = false) :
    (listedPass passes item close goesOn add state).Reads cs none := by
  refine (reads_blanks h).bind_some ((reads_accept_other hcs).bind_some ?_)
  simp only [hstate, Bool.false_eq_true, if_false]
  exact .failure _

theorem reads_listedPass_item (h : cs.length < passes)
    (hcs : (Text.skipBlanks cs).head? ≠ some close) (hstate : goesOn state = true)
    (hitem : item.Reads (Text.skipBlanks cs) read)
    (hread : ∀ a rest, read = some (a, rest) → rest.length < cs.length) :
    (listedPass passes item close goesOn add state).Reads cs (read.map fun r =>
      if (Text.skipBlanks r.2).head? = some ',' then
        (.again (add state.1 r.1, true), (Text.skipBlanks r.2).tail)
      else (.again (add state.1 r.1, false), Text.skipBlanks r.2)) := by
  refine (reads_blanks h).bind_some ((reads_accept_other hcs).bind_some ?_)
  simp only [hstate, Bool.false_eq_true, if_false, if_true]
  rw [Option.map_eq_bind]
  refine hitem.bind fun a rest hrest => ?_
  refine (reads_blanks (Nat.lt_trans (hread a rest hrest) h)).bind_some ?_
  dsimp only [Function.comp]
  split
  · next hcomma =>
    obtain ⟨more, hmore⟩ := List.head?_eq_some_iff.1 hcomma
    rw [hmore]
    exact (reads_accept_cons ',' more).bind_some (.pure _ _)
  · next hcomma => exact (reads_accept_other hcomma).bind_some (.pure _ _)

/-- Where no item may come, only the closing character may. -/
theorem reads_loop_close {left : Nat} (h : cs.length < passes) (hleft : cs.length < left)
    (hstate : goesOn state = false) :
    (loop (listedPass passes item close goesOn add) left state).Reads cs
      (if (Text.skipBlanks cs).head? = some close then some (state, (Text.skipBlanks cs).tail)
      else none) := by
  split
  · next hclose =>
    obtain ⟨rest, hrest⟩ := List.head?_eq_some_iff.1 hclose
    rw [hrest]
    exact reads_loop_done hleft (reads_listedPass_close h hrest)
  · next hclose => exact reads_loop_failed hleft (reads_listedPass_stuck h hclose hstate)

end

/-! ## Loops over items -/

theorem length_lt_of_outcome {read : Reader α} {a : α} (h : outcome (read cs) = some (a, rest)) :
    rest.length < cs.length := by
  obtain ⟨⟨_, shorter⟩, _, heq⟩ := Option.map_eq_some_iff.1 h
  cases heq
  exact shorter.2

theorem outcome_nil (read : Reader α) : outcome (read []) = none := by
  refine Option.eq_none_iff_forall_ne_some.2 fun r h => ?_
  exact Nat.not_lt_zero _ (length_lt_of_outcome h)

theorem outcome_items_eq (read : Reader α) (close : Char) (cs : List Char) :
    outcome (Literal.items read close cs) =
      if (Text.skipBlanks cs).head? = some close then
        some (([], true), (Text.skipBlanks cs).tail)
      else (outcome (read (Text.skipBlanks cs))).bind fun r => afterItem read close r.1 r.2 := by
  rw [outcome_items]
  cases Text.skipBlanks cs with
  | nil =>
    rw [outcome_nil]
    rfl
  | cons c rest => simp only [List.head?_cons, Option.some.injEq, List.tail_cons]

theorem afterItem_eq (read : Reader α) (close : Char) (a : α) (cs : List Char) :
    afterItem read close a cs =
      if (Text.skipBlanks cs).head? = some ',' then
        (outcome (Literal.items read close (Text.skipBlanks cs).tail)).map
          fun r => ((a :: r.1.1, r.1.2), r.2)
      else if (Text.skipBlanks cs).head? = some close then
        some (([a], false), (Text.skipBlanks cs).tail)
      else none := by
  unfold afterItem
  cases Text.skipBlanks cs with
  | nil => rfl
  | cons d more => simp only [List.head?_cons, Option.some.injEq, List.tail_cons]

/-- Without any item there is no comma to follow it, which counts as if there was one. -/
theorem comma_of_items_nil {read : Reader α} {close : Char} {comma : Bool}
    (h : outcome (Literal.items read close cs) = some (([], comma), rest)) : comma = true := by
  rw [outcome_items_eq] at h
  split at h
  · cases h
    rfl
  · obtain ⟨_, _, hafter⟩ := Option.bind_eq_some_iff.1 h
    rw [afterItem_eq] at hafter
    split at hafter
    · obtain ⟨_, _, heq⟩ := Option.map_eq_some_iff.1 hafter
      cases heq
    split at hafter <;> cases hafter

/-- What a loop over items comes to, from what the reader of the items reads. -/
def addUp (add : σ → α → σ) (state : σ × Bool) (read : List α × Bool) : σ × Bool :=
  (read.1.foldl add state.1, if read.1 = [] then state.2 else read.2)

theorem addUp_cons {add : σ → α → σ} {state : σ × Bool} {a : α} {as : List α} {comma : Bool}
    (h : as = [] → comma = true) :
    addUp add (add state.1 a, true) (as, comma) = addUp add state (a :: as, comma) := by
  cases as with
  | nil => rw [h rfl]; rfl
  | cons b as => rfl

theorem map_addUp_items (add : σ → α → σ) (state : σ × Bool) (a : α) (reader : Reader α)
    (close : Char) (cs : List Char) :
    (outcome (Literal.items reader close cs)).map
        (fun r => (addUp add (add state.1 a, true) r.1, r.2))
      = (outcome (Literal.items reader close cs)).map
        fun r => (addUp add state (a :: r.1.1, r.1.2), r.2) := by
  rcases hitems : outcome (Literal.items reader close cs) with _ | ⟨⟨as, comma⟩, rest⟩
  · rfl
  · have hcomma (hnil : as = []) : comma = true := comma_of_items_nil (hnil ▸ hitems)
    rw [Option.map_some, Option.map_some, addUp_cons hcomma]

section

variable {item : Scan α} {reader : Reader α} {close : Char} {goesOn : σ × Bool → Bool}
  {add : σ → α → σ} {bound : Nat}

/-- A loop over items adds up what the reader of items reads. -/
theorem reads_loop_listed
    (hitem : ∀ cs : List Char, cs.length ≤ bound → item.Reads cs (outcome (reader cs)))
    (hcomma : ∀ acc, goesOn (acc, true) = true)
    (hplain : ∀ acc a, goesOn (add acc a, false) = false)
    (hbound : bound < passes)
    {state : σ × Bool} (hstate : goesOn state = true) (hcs : cs.length ≤ bound)
    {left : Nat} (h : cs.length < left) :
    (loop (listedPass passes item close goesOn add) left state).Reads cs
      ((outcome (Literal.items reader close cs)).map fun r => (addUp add state r.1, r.2)) := by
  -- By induction on the characters ahead: after a comma the loop starts over with fewer.
  induction hn : cs.length using Nat.strongRecOn generalizing cs state left with
  | ind n ih =>
    subst hn
    have hskip := length_skipBlanks_le cs
    rw [outcome_items_eq]
    by_cases hclose : (Text.skipBlanks cs).head? = some close
    · obtain ⟨rest, hrest⟩ := List.head?_eq_some_iff.1 hclose
      rw [if_pos hclose, hrest]
      exact reads_loop_done h (reads_listedPass_close (by omega) hrest)
    have hpass : (listedPass passes item close goesOn add state).Reads cs _ :=
      reads_listedPass_item (by omega) hclose hstate (hitem _ (by omega)) fun a rest hread =>
        Nat.lt_of_lt_of_le (length_lt_of_outcome hread) hskip
    rw [if_neg hclose]
    rcases hread : outcome (reader (Text.skipBlanks cs)) with _ | ⟨a, after⟩
    · rw [hread] at hpass
      exact reads_loop_failed h hpass
    have hafter := length_lt_of_outcome hread
    have hmore := length_skipBlanks_le after
    rw [hread, Option.map_some] at hpass
    rw [Option.bind_some, afterItem_eq]
    dsimp only at hpass ⊢
    by_cases hhead : (Text.skipBlanks after).head? = some ','
    · obtain ⟨more, hafter'⟩ := List.head?_eq_some_iff.1 hhead
      rw [if_pos hhead, hafter', List.tail_cons] at hpass
      rw [if_pos hhead, hafter', List.tail_cons, Option.map_map, Function.comp_def,
        ← map_addUp_items]
      rw [hafter', List.length_cons] at hmore
      refine reads_loop_again h hpass (by omega) fun hpasses => ?_
      exact ih more.length (by omega) (hcomma (add state.1 a)) (by omega) hpasses rfl
    · rw [if_neg hhead] at hpass
      rw [if_neg hhead, apply_ite (Option.map _)]
      refine reads_loop_again h hpass (by omega) fun {left} hpasses => ?_
      have hend : (loop (listedPass passes item close goesOn add) left _).Reads _ _ :=
        reads_loop_close (by omega) hpasses (hplain state.1 a)
      rwa [Text.skipBlanks_skipBlanks] at hend

end

/-! ## Values -/

section

variable {item : Scan Value} {reader : Reader Value} {bound : Nat}
  (hitem : ∀ cs : List Char, cs.length ≤ bound → item.Reads cs (outcome (reader cs)))
  (hbound : bound < passes)

include hitem hbound

theorem reads_items (close : Char) (hcs : cs.length ≤ bound) :
    (items passes item close).Reads cs ((outcome (Literal.items reader close cs)).map
      fun r => (addUp (fun vs v => vs ++ [v]) ([], false) r.1, r.2)) :=
  reads_loop_listed hitem (fun _ => Bool.or_true _) (fun acc a => by simp) hbound rfl hcs
    (Nat.lt_of_le_of_lt hcs hbound)

theorem reads_entry (hcs : cs.length ≤ bound) :
    (entry passes item).Reads cs (outcome (Literal.entry reader cs)) := by
  rw [outcome_entry]
  refine (hitem cs hcs).bind fun key rest hread => ?_
  have hrest := length_lt_of_outcome hread
  have hskip := length_skipBlanks_le rest
  refine (reads_blanks (by omega)).bind_some ?_
  unfold afterKey
  dsimp only
  split
  · next hnil =>
    rw [hnil]
    exact (reads_accept_other (by decide)).bind_some (.failure _)
  · next c more hcons =>
    rw [hcons] at hskip ⊢
    rw [List.length_cons] at hskip
    have hskip' := length_skipBlanks_le more
    split
    · next hcolon =>
      subst hcolon
      refine (reads_accept_cons ':' more).bind_some ((reads_blanks (by omega)).bind_some ?_)
      exact (hitem _ (by omega)).map fun v => (key.text, v)
    · next hcolon =>
      have hhead : (c :: more).head? ≠ some ':' := fun heq => hcolon (Option.some.inj heq)
      exact (reads_accept_other hhead).bind_some (.failure _)

theorem reads_entries (hcs : cs.length ≤ bound) :
    (entries passes item).Reads cs
      ((outcome (Literal.items (Literal.entry reader) '}' cs)).map
        fun r => (Entries.ofList r.1.1, r.2)) := by
  have hloop : (loop (entriesPass passes item) passes ([], true)).Reads cs _ :=
    reads_loop_listed (fun cs hcs => reads_entry hitem hbound hcs) (fun _ => rfl) (fun _ _ => rfl)
      hbound rfl hcs (Nat.lt_of_le_of_lt hcs hbound)
  have hmap := hloop.map Prod.fst
  rw [Option.map_map] at hmap
  exact hmap

end

theorem fst_addUp_items (read : List Value × Bool) :
    (addUp (fun vs v => vs ++ [v]) ([], false) read).1 = read.1 := by
  rw [addUp, List.foldl_append_eq_append, List.nil_append, ← List.flatMap_def]
  exact List.flatMap_singleton' read.1

theorem ofParenthesized_addUp (read : List Value × Bool) :
    ofParenthesized (addUp (fun vs v => vs ++ [v]) ([], false) read) = ofParenthesized read := by
  obtain ⟨as, comma⟩ := read
  cases as with
  | nil => rfl
  | cons a as => exact congrArg ofParenthesized (Prod.ext (fst_addUp_items (a :: as, comma)) rfl)

/-- A scan for literals reads what the reader reads, however much deeper than the
characters ahead each of them may go. -/
theorem reads_value {depth depth' : Nat} (hpasses : cs.length < passes) (hdepth : cs.length < depth)
    (hdepth' : cs.length < depth') :
    (value passes depth).Reads cs (outcome (Literal.value depth' cs)) := by
  induction depth generalizing depth' cs with
  | zero => exact absurd hdepth (Nat.not_lt_zero _)
  | succ depth ih =>
    cases depth' with
    | zero => exact absurd hdepth' (Nat.not_lt_zero _)
    | succ depth' =>
      refine (reads_peek cs).bind_some ?_
      cases cs with
      | nil => exact .failure _
      | cons c cs =>
        rw [List.length_cons] at hpasses hdepth hdepth'
        have hbound : cs.length < passes := by omega
        -- Literals inside start after the first character, so one level less is enough.
        have hitem (ds : List Char) (hds : ds.length ≤ cs.length) :
            (value passes depth).Reads ds (outcome (Literal.value depth' ds)) :=
          ih (by omega) (by omega) (by omega)
        have htake := reads_take (c :: cs)
        rw [outcome_value_cons]
        dsimp only [List.head?_cons]
        split
        · exact reads_string hbound
        split
        · have hitems := (reads_items hitem hbound ']' (Nat.le_refl _)).map fun r => Value.list r.1
          simp only [Option.map_map, Function.comp_def, fst_addUp_items] at hitems
          exact htake.bind_some hitems
        split
        · have hitems := (reads_items hitem hbound ')' (Nat.le_refl _)).map ofParenthesized
          simp only [Option.map_map, Function.comp_def, ofParenthesized_addUp] at hitems
          exact htake.bind_some hitems
        split
        · have hentries := (reads_entries hitem hbound (Nat.le_refl _)).map Value.map
          rw [Option.map_map] at hentries
          exact htake.bind_some hentries
        split
        · exact reads_number hpasses
        split
        · next hletter => exact reads_keyword hletter cs
        · exact .failure _

/-- Depth beyond the number of characters changes nothing. -/
theorem outcome_value_eq_of_lt {depth depth' : Nat} (hdepth : cs.length < depth)
    (hdepth' : cs.length < depth') :
    outcome (Literal.value depth cs) = outcome (Literal.value depth' cs) :=
  (reads_value hdepth hdepth hdepth).unique (reads_value hdepth hdepth hdepth')

end Stencil.Literal.Scan
