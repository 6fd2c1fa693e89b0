import EmacsConfig.MoveLine
import Mathlib.Data.List.Infix

/-!
# Runs of the line commands

What a command does to text and point depends on the state through the text,
the point and what `kill-line` appends to: `moveLine_same_iff` says that the
kill ring shows in the result exactly if it has been killed into last. A
sequence of moves that stays on the lines is one move by the sum of the
displacements (`runMoves_eq_one`).
-/

namespace EmacsConfig.MoveLine

open EmacsConfig.Lines

/-! ## The kill ring -/

/-- What the next kill is appended to. -/
def Editor.pending (e : Editor) : List Char :=
  if e.lastCommand = .killRegion then e.killRing.headD [] else []

def column (d : Display) (z : Zipper Char) : Nat :=
  (z.before.takeWhile (· != '\n')).reverse.foldl d.next 0

/-- Where `move-to-column` goes. -/
def atColumn (d : Display) (goal : Nat) (z : Zipper Char) : Zipper Char :=
  toColumn d goal 0 (z.bol '\n').before (z.bol '\n').after

/-- The text a command kills. -/
def Editor.cut (e : Editor) : List Char := ((e.buffer.bol '\n').cutLine '\n').1

theorem moveLineDown_column (d : Display) (p : Int) (e : Editor) :
    moveLineDown d p e = (lineMove p >>= fun _ => putBack d (column d e.buffer)) e.killed := rfl

theorem killRing_killed (e : Editor) :
    ∃ ring, e.killed.killRing = (e.pending ++ e.cut) :: ring := by
  unfold Editor.killed Editor.pending Editor.cut
  dsimp only
  split
  · cases e.killRing with
    | nil => exact ⟨[], rfl⟩
    | cons newest ring => exact ⟨ring, rfl⟩
  · exact ⟨e.killRing, rfl⟩

theorem text_atColumn (d : Display) (goal : Nat) (z : Zipper Char) :
    (atColumn d goal z).text = z.text := by
  unfold atColumn
  rw [toColumn_text]
  exact Zipper.text_bol '\n' z

/-- The second half of both commands, with what it yanks. -/
theorem putBack_eq (d : Display) (c : Nat) {e : Editor} {s : List Char} {ring : List (List Char)}
    (hring : e.killRing = s :: ring) :
    (∀ z, ((e.buffer.bol '\n').insert s).backward '\n' = some z →
      putBack d c e = .ok () { e.at (atColumn d c z) with thisCommand := .yank }) ∧
    (((e.buffer.bol '\n').insert s).backward '\n' = none →
      ∃ sig r, putBack d c e = .error sig r) := by
  let e2 : Editor := { e.at ((e.buffer.bol '\n').insert s) with thisCommand := .yank }
  have hyanked : putBack d c e = (backwardLines 1 >>= fun _ => moveToColumn d c) e2 := by
    obtain ⟨buffer, killRing, lastCommand, thisCommand⟩ := e
    subst hring
    rfl
  have hback := backwardLines_succ e2 0
  rw [hyanked]
  constructor
  · intro z hz
    rw [show e2.buffer.backward '\n' = some z from hz] at hback
    rw [bind_ok hback]
    rfl
  · intro hz
    rw [show e2.buffer.backward '\n' = none from hz] at hback
    rw [bind_error hback]
    exact ⟨_, _, rfl⟩

/-- A motion that completes changes the point only, and depends on nothing else. -/
theorem forwardLines_frame {n : Nat} {e r : Editor} (h : forwardLines n e = .ok () r)
    (e' : Editor) (hbuffer : e'.buffer = e.buffer) :
    forwardLines n e' = .ok () (e'.at r.buffer) := by
  induction n generalizing e e' with
  | zero =>
    cases h
    rw [← hbuffer]
    rfl
  | succ n ih =>
    rw [forwardLines_succ] at h ⊢
    rw [hbuffer]
    cases hz : e.buffer.forward '\n' with
    | none =>
      rw [hz] at h
      cases h
    | some z =>
      rw [hz] at h
      exact ih h (e'.at z) rfl

theorem backwardLines_frame {n : Nat} {e r : Editor} (h : backwardLines n e = .ok () r)
    (e' : Editor) (hbuffer : e'.buffer = e.buffer) :
    backwardLines n e' = .ok () (e'.at r.buffer) := by
  induction n generalizing e e' with
  | zero =>
    cases h
    rw [← hbuffer]
    rfl
  | succ n ih =>
    rw [backwardLines_succ] at h ⊢
    rw [hbuffer]
    cases hz : e.buffer.backward '\n' with
    | none =>
      rw [hz] at h
      cases h
    | some z =>
      rw [hz] at h
      exact ih h (e'.at z) rfl

theorem lineMove_frame {p : Int} {e r : Editor} (h : lineMove p e = .ok () r) (e' : Editor)
    (hbuffer : e'.buffer = e.buffer) : lineMove p e' = .ok () (e'.at r.buffer) := by
  cases p with
  | ofNat n => exact forwardLines_frame h e' hbuffer
  | negSucc n => exact backwardLines_frame h e' hbuffer

/-- What a command that completes leaves: the pending text and the killed line,
inserted where the motion has gone. -/
theorem moveLineDown_ok (d : Display) (p : Int) {e r : Editor} (h : moveLineDown d p e = .ok () r) :
    ∃ zm z, lineMove p e.killed = .ok () (e.killed.at zm) ∧
      ((zm.bol '\n').insert (e.pending ++ e.cut)).backward '\n' = some z ∧
      r.buffer = atColumn d (column d e.buffer) z := by
  obtain ⟨ring, hring⟩ := killRing_killed e
  rw [moveLineDown_column] at h
  cases hm : lineMove p e.killed with
  | error s em =>
    rw [bind_error hm] at h
    cases h
  | ok _ em =>
    have hem := lineMove_frame hm e.killed rfl
    rw [hm] at hem
    rw [bind_ok (hm.trans hem)] at h
    obtain ⟨hok, herr⟩ :=
      putBack_eq d (column d e.buffer) (e := e.killed.at em.buffer) hring
    cases hz : ((em.buffer.bol '\n').insert (e.pending ++ e.cut)).backward '\n' with
    | none =>
      obtain ⟨sig, r', hputBack⟩ := herr hz
      rw [hputBack] at h
      cases h
    | some z =>
      rw [hok z hz] at h
      cases h
      exact ⟨em.buffer, z, hem, hz, rfl⟩

theorem moveLineDown_of_motion (d : Display) (p : Int) {e : Editor} {zm z : Zipper Char}
    (hm : lineMove p e.killed = .ok () (e.killed.at zm))
    (hz : ((zm.bol '\n').insert (e.pending ++ e.cut)).backward '\n' = some z) :
    moveLineDown d p e =
      .ok () { e.killed.at (atColumn d (column d e.buffer) z) with thisCommand := .yank } := by
  obtain ⟨ring, hring⟩ := killRing_killed e
  rw [moveLineDown_column, bind_ok hm]
  exact (putBack_eq d _ (e := e.killed.at zm) hring).1 z hz

theorem moveLineDown_same_iff (d : Display) (p : Int) {e e' r : Editor}
    (hbuffer : e.buffer = e'.buffer) (hr : moveLineDown d p e = .ok () r) :
    (∃ r', moveLineDown d p e' = .ok () r' ∧ r'.buffer = r.buffer) ↔ e.pending = e'.pending := by
  obtain ⟨zm, z, hm, hz, hrz⟩ := moveLineDown_ok d p hr
  have hkilled : e'.killed.buffer = e.killed.buffer := by simp [Editor.killed, hbuffer]
  have hm' := lineMove_frame hm e'.killed hkilled
  have hcut : e.cut = e'.cut := by rw [Editor.cut, Editor.cut, hbuffer]
  constructor
  · rintro ⟨r', hr', hsame⟩
    obtain ⟨zm', z', hmotion, hz', hrz'⟩ := moveLineDown_ok d p hr'
    -- the motion has gone to the same place, so the texts differ by what is inserted
    obtain rfl : zm = zm' := by
      rw [hm'] at hmotion
      injection hmotion with _ hat
      exact congrArg Editor.buffer hat
    have htext : r'.buffer.text = r.buffer.text := by rw [hsame]
    rw [hrz, hrz', text_atColumn, text_atColumn, Zipper.text_backward hz,
      Zipper.text_backward hz'] at htext
    simp only [Zipper.insert, Zipper.text, List.reverse_append, List.reverse_reverse,
      List.append_assoc] at htext
    have htail := List.append_cancel_left htext
    rw [hcut] at htail
    exact (List.append_cancel_right htail).symm
  · intro hpending
    rw [hpending, hcut] at hz
    refine ⟨_, moveLineDown_of_motion d p hm' hz, ?_⟩
    rw [hrz, hbuffer]
    rfl

/-- **When the commands do not show the kill ring**: where a command completes,
it completes in a state with the same text and point with the same result
exactly when the line is appended to the same text in both. -/
theorem moveLine_same_iff (d : Display) (p : Int) {e e' : Editor} (hbuffer : e.buffer = e'.buffer) :
    (∀ r, moveLineUp d p e = .ok () r →
      ((∃ r', moveLineUp d p e' = .ok () r' ∧ r'.buffer = r.buffer) ↔ e.pending = e'.pending)) ∧
    (∀ r, moveLineDown d p e = .ok () r →
      ((∃ r', moveLineDown d p e' = .ok () r' ∧ r'.buffer = r.buffer) ↔
        e.pending = e'.pending)) := by
  refine ⟨fun r hr => ?_, fun r hr => moveLineDown_same_iff d p hbuffer hr⟩
  rw [moveLineUp_eq] at hr ⊢
  exact moveLineDown_same_iff d (-p) hbuffer hr

/-- An editor whose last command has killed `s`. -/
def Editor.afterKill (s before after : String) : Editor :=
  ⟨⟨before.toList.reverse, after.toList⟩, [s.toList], .killRegion, .other⟩

/-- Whatever has been killed before the last command, the second line goes up. -/
theorem moveLine_same_iff_two :
    let e := Editor.fresh "a\nb" "\n"
    let e' := { e with killRing := ["x\n".toList] }
    ∃ r, moveLineUp plainDisplay 1 e = .ok () r ∧
      ∃ r', moveLineUp plainDisplay 1 e' = .ok () r' ∧ r'.buffer = r.buffer := by
  intro e e'
  have hbuffer : e.buffer = e'.buffer := rfl
  exact ⟨_, rfl, ((moveLine_same_iff plainDisplay 1 hbuffer).1 _ rfl).2 rfl⟩

/-- After a kill the killed text comes with the line. -/
theorem not_same_afterKill :
    ¬ (∀ (e e' r r' : Editor), e.buffer = e'.buffer → moveLineUp plainDisplay 1 e = .ok () r →
        moveLineUp plainDisplay 1 e' = .ok () r' → r'.buffer = r.buffer) ∧
    outcome (moveLineUp plainDisplay 1 (.fresh "a\nb" "\n")) = (true, "b\na\n".toList) ∧
    outcome (moveLineUp plainDisplay 1 (.afterKill "x\n" "a\nb" "\n")) =
      (true, "x\nb\na\n".toList) := by
  refine ⟨fun h => ?_, by decide⟩
  have hsame := h (.fresh "a\nb" "\n") (.afterKill "x\n" "a\nb" "\n") _ _ rfl rfl rfl
  exact absurd hsame (by decide)

/-! ## Columns -/

theorem le_next (d : Display) (col : Nat) (c : Char) : col ≤ d.next col c := by
  unfold Display.next
  split
  · have hlt := Nat.lt_mul_div_succ col d.tabWidth_pos
    rw [Nat.mul_comm] at hlt
    omega
  · omega

theorem lt_next (d : Display) (hwidth : ∀ c, 0 < d.charWidth c) (col : Nat) (c : Char) :
    col < d.next col c := by
  unfold Display.next
  split
  · have hlt := Nat.lt_mul_div_succ col d.tabWidth_pos
    rw [Nat.mul_comm] at hlt
    omega
  · have := hwidth c
    omega

theorem le_foldl_next (d : Display) (col : Nat) (s : List Char) : col ≤ s.foldl d.next col := by
  induction s generalizing col with
  | nil => exact le_rfl
  | cons c s ih => exact (le_next d col c).trans (ih _)

/-- How many characters of a line `move-to-column` goes over. -/
def stop (d : Display) (goal : Nat) : Nat → List Char → Nat
  | _, [] => 0
  | col, c :: l => if goal ≤ col then 0 else stop d goal (d.next col c) l + 1

theorem stop_le (d : Display) (goal col : Nat) (l : List Char) :
    stop d goal col l ≤ l.length := by
  induction l generalizing col with
  | nil => exact le_rfl
  | cons c l ih =>
    unfold stop
    split
    · exact Nat.zero_le _
    · exact Nat.succ_le_succ (ih _)

/-- A column that is one of the line's is found again. -/
theorem foldl_take_stop (d : Display) (goal col j : Nat) (l : List Char)
    (hgoal : (l.take j).foldl d.next col = goal) :
    (l.take (stop d goal col l)).foldl d.next col = goal := by
  induction l generalizing col j with
  | nil => simpa using hgoal
  | cons c l ih =>
    unfold stop
    split
    · next h =>
      -- the columns in between do not decrease
      have hle := le_foldl_next d col ((c :: l).take j)
      rw [List.take_zero, List.foldl_nil]
      omega
    · next h =>
      cases j with
      | zero => exact absurd hgoal (by simp; omega)
      | succ j => exact ih (d.next col c) j hgoal

/-- And at the same character, where every character has a width. -/
theorem stop_foldl_take (d : Display) (hwidth : ∀ c, 0 < d.charWidth c) (col j : Nat)
    (l : List Char) (hj : j ≤ l.length) :
    stop d ((l.take j).foldl d.next col) col l = j := by
  induction l generalizing col j with
  | nil => exact (Nat.le_zero.1 hj).symm
  | cons c l ih =>
    unfold stop
    cases j with
    | zero => exact if_pos le_rfl
    | succ j =>
      have hlt := (lt_next d hwidth col c).trans_le (le_foldl_next d (d.next col c) (l.take j))
      rw [List.take_succ_cons, List.foldl_cons, if_neg (by omega), ih _ j (by simpa using hj)]

theorem toColumn_line (d : Display) (goal col : Nat) (before l after : List Char)
    (hl : '\n' ∉ l) :
    toColumn d goal col before (l ++ '\n' :: after) =
      ⟨(l.take (stop d goal col l)).reverse ++ before,
        l.drop (stop d goal col l) ++ '\n' :: after⟩ := by
  induction l generalizing col before with
  | nil =>
    rw [List.nil_append, toColumn, if_pos (Or.inr rfl)]
    rfl
  | cons c l ih =>
    rw [List.mem_cons, not_or] at hl
    rw [List.cons_append, toColumn, stop]
    by_cases hgoal : goal ≤ col
    · rw [if_pos (Or.inl hgoal), if_pos hgoal]
      rfl
    · rw [if_neg (by simp [hgoal, Ne.symm hl.1]), if_neg hgoal, ih _ _ hl.2]
      simp

section
variable {ls : List (Line '\n')} {r : Line '\n'} {k j : Nat} (d : Display)

theorem atColumn_lineAt (hk : k < ls.length) (goal : Nat) :
    atColumn d goal (lineAt ls r k) = inLine ls r k (stop d goal 0 ls[k].1) := by
  unfold atColumn
  rw [bol_lineAt, lineAt_after hk, toColumn_line d _ _ _ _ _ ls[k].2,
    inLine_eq hk (stop_le d goal 0 _)]

theorem column_inLine (hk : k < ls.length) (hj : j ≤ ls[k].1.length) :
    column d (inLine ls r k j) = (ls[k].1.take j).foldl d.next 0 := by
  unfold column
  rw [(bol_inLine hk hj).2, List.reverse_reverse]

end

/-! ## Sequences of moves -/

inductive MoveCommand where
  | up (p : Int)
  | down (p : Int)
  deriving DecidableEq, Repr

def MoveCommand.run (d : Display) : MoveCommand → Edit Unit
  | .up p => moveLineUp d p
  | .down p => moveLineDown d p

/-- How many lines down. -/
def MoveCommand.displacement : MoveCommand → Int
  | .up p => -p
  | .down p => p

def net : List MoveCommand → Int
  | [] => 0
  | m :: ms => m.displacement + net ms

/-- The command loop: the command before becomes `last-command`. -/
def execute (cmd : Edit Unit) : Edit Unit := do
  modify fun e => { e with lastCommand := e.thisCommand, thisCommand := .other }
  cmd

def runMoves (d : Display) : List MoveCommand → Edit Unit
  | [] => pure ()
  | m :: ms => do
    execute (m.run d)
    runMoves d ms

/-- The lines with line `k` put at place `t`. -/
def moveTo {α : Type} (ls : List α) (k t : Nat) : List α :=
  match ls[k]? with
  | none => ls
  | some l => (ls.eraseIdx k).insertIdx t l

section
variable {α : Type} {ls : List α} {k t u : Nat}

theorem moveTo_eq (hk : k < ls.length) : moveTo ls k t = (ls.eraseIdx k).insertIdx t ls[k] := by
  rw [moveTo, List.getElem?_eq_getElem hk]

theorem length_moveTo (hk : k < ls.length) (ht : t < ls.length) :
    (moveTo ls k t).length = ls.length := by
  have herase := List.length_eraseIdx_of_lt hk
  rw [moveTo_eq hk, List.length_insertIdx_of_le_length (by omega)]
  omega

theorem getElem_moveTo (hk : k < ls.length) (ht : t < (moveTo ls k t).length) :
    (moveTo ls k t)[t] = ls[k] := by
  simp only [moveTo_eq hk]
  exact List.getElem_insertIdx_self (by rwa [moveTo_eq hk] at ht)

theorem moveTo_self (hk : k < ls.length) : moveTo ls k k = ls := by
  rw [moveTo_eq hk]
  exact List.insertIdx_eraseIdx_getElem hk

theorem moveTo_moveTo (hk : k < ls.length) (ht : t < ls.length) :
    moveTo (moveTo ls k t) t u = moveTo ls k u := by
  have ht' : t < (moveTo ls k t).length := by rwa [length_moveTo hk ht]
  rw [moveTo_eq ht', getElem_moveTo hk ht', moveTo_eq hk, List.eraseIdx_insertIdx_self, moveTo_eq hk]

end

section
variable {ls : List (Line '\n')} {r : Line '\n'} {e : Editor} {k : Nat} (d : Display)

/-- A terminated line goes to its new place, and the point with it. -/
theorem moveLineDown_line (hk : k < ls.length) (he : e.buffer.bol '\n' = lineAt ls r k)
    (hlast : e.lastCommand ≠ .killRegion) {p : Int} (hp : 0 ≤ k + p ∧ k + p < ls.length) :
    ∃ e', moveLineDown d p e = .ok () e' ∧ e'.thisCommand ≠ .killRegion ∧
      e'.buffer = atColumn d (column d e.buffer)
        (lineAt (moveTo ls k (k + p).toNat) r (k + p).toNat) := by
  obtain ⟨hbuffer, -⟩ := killed_line hk he hlast
  have herase := List.length_eraseIdx_of_lt hk
  have ht : (k + p).toNat ≤ (ls.eraseIdx k).length := by omega
  have hmove := (lineMove_lineAt (by omega) hbuffer p).1 (by omega)
  have hpending : e.pending ++ e.cut = ls[k].1 ++ ['\n'] := by
    rw [Editor.pending, if_neg hlast, Editor.cut, he, cutLine_lineAt hk, List.nil_append]
  have hlen : (k + p).toNat < (moveTo ls k (k + p).toNat).length := by
    rw [length_moveTo hk (by omega)]
    omega
  have hback : (((lineAt (ls.eraseIdx k) r (k + p).toNat).bol '\n').insert
      (e.pending ++ e.cut)).backward '\n' =
        some (lineAt (moveTo ls k (k + p).toNat) r (k + p).toNat) := by
    rw [bol_lineAt, hpending, insert_lineAt ht, ← moveTo_eq hk,
      backward_succ hlen (bol_lineAt _ _ _)]
  exact ⟨_, moveLineDown_of_motion d p hmove hback, Command.noConfusion, rfl⟩

/-- On its line in the old column. -/
theorem atColumn_moveTo (hk : k < ls.length) (he : e.buffer.bol '\n' = lineAt ls r k) {t : Nat}
    (ht : t < ls.length) :
    (atColumn d (column d e.buffer) (lineAt (moveTo ls k t) r t)).bol '\n' =
        lineAt (moveTo ls k t) r t ∧
      column d (atColumn d (column d e.buffer) (lineAt (moveTo ls k t) r t)) =
        column d e.buffer := by
  have ht' : t < (moveTo ls k t).length := by rwa [length_moveTo hk ht]
  obtain ⟨j, hj, hinLine⟩ := inLine_of_bol hk he
  have hcol : (ls[k].1.take j).foldl d.next 0 = column d e.buffer := by
    rw [hinLine, column_inLine d hk hj]
  have hstop := stop_le d (column d e.buffer) 0 (moveTo ls k t)[t].1
  rw [atColumn_lineAt d ht', column_inLine d ht' hstop]
  refine ⟨(bol_inLine ht' hstop).1, ?_⟩
  rw [getElem_moveTo hk ht']
  exact foldl_take_stop d _ 0 j _ hcol

/-- The step: either command moves the line by its displacement. -/
theorem execute_run (hk : k < ls.length) (he : e.buffer.bol '\n' = lineAt ls r k)
    (hlast : e.thisCommand ≠ .killRegion) {m : MoveCommand}
    (hm : 0 ≤ k + m.displacement ∧ k + m.displacement < ls.length) :
    ∃ e', execute (m.run d) e = .ok () e' ∧ e'.thisCommand ≠ .killRegion ∧
      e'.buffer = atColumn d (column d e.buffer)
        (lineAt (moveTo ls k (k + m.displacement).toNat) r (k + m.displacement).toNat) := by
  have hrun : m.run d = moveLineDown d m.displacement := by
    cases m with
    | up p => exact moveLineUp_eq d p
    | down p => rfl
  let e1 : Editor := { e with lastCommand := e.thisCommand, thisCommand := .other }
  have hexecute : execute (m.run d) e = moveLineDown d m.displacement e1 := by
    rw [hrun]
    rfl
  rw [hexecute]
  exact moveLineDown_line d (e := e1) hk he hlast hm

/-- Where a sequence of moves leaves text, line and column, if it stays on the
terminated lines. -/
theorem runMoves_line (ms : List MoveCommand) (hk : k < ls.length)
    (he : e.buffer.bol '\n' = lineAt ls r k) (hlast : e.thisCommand ≠ .killRegion)
    (hrange : ∀ pre, pre <+: ms → 0 ≤ k + net pre ∧ k + net pre < ls.length) :
    ∃ e', runMoves d ms e = .ok () e' ∧
      e'.buffer.bol '\n' = lineAt (moveTo ls k (k + net ms).toNat) r (k + net ms).toNat ∧
      column d e'.buffer = column d e.buffer ∧
      ((ms = [] ∧ e' = e) ∨ e'.buffer = atColumn d (column d e.buffer)
        (lineAt (moveTo ls k (k + net ms).toNat) r (k + net ms).toNat)) := by
  induction ms generalizing e ls k with
  | nil =>
    refine ⟨e, rfl, ?_, rfl, Or.inl ⟨rfl, rfl⟩⟩
    rw [net, show (k + (0 : Int)).toNat = k by omega, moveTo_self hk, he]
  | cons m ms ih =>
    have hm : 0 ≤ k + m.displacement ∧ k + m.displacement < ls.length := by
      simpa [net] using hrange [m] ⟨ms, rfl⟩
    obtain ⟨e1, hexecute, hlast1, hbuffer⟩ := execute_run d hk he hlast hm
    have ht : (k + m.displacement).toNat < ls.length := by omega
    obtain ⟨hbol, hcolumn⟩ := atColumn_moveTo d hk he ht
    rw [← hbuffer] at hbol hcolumn
    have hlen := length_moveTo hk ht
    obtain ⟨e', hrun, hbol', hcolumn', hbuffer'⟩ := ih (by omega) hbol hlast1 (fun pre hpre => by
      have := hrange (m :: pre) ((List.prefix_cons_inj m).2 hpre)
      rw [net] at this
      omega)
    have hnet : ((k + m.displacement).toNat + net ms).toNat = (k + net (m :: ms)).toNat := by
      rw [net]
      omega
    rw [hnet, moveTo_moveTo hk ht] at hbol' hbuffer'
    rw [hcolumn] at hcolumn' hbuffer'
    refine ⟨e', ?_, hbol', hcolumn', Or.inr ?_⟩
    · rw [runMoves, bind_ok hexecute, hrun]
    · rcases hbuffer' with ⟨rfl, rfl⟩ | h
      · rw [hbuffer, net, net, Int.add_zero]
      · exact h

end

/-- What the user sees of a buffer: its text, and the line and the column the
point is on. -/
def view (d : Display) (e : Editor) : List Char × Nat × Nat :=
  (e.buffer.text, e.line, column d e.buffer)

theorem view_of_bol (d : Display) {ls : List (Line '\n')} {r : Line '\n'} {e : Editor} {k : Nat}
    (hk : k < ls.length) (he : e.buffer.bol '\n' = lineAt ls r k) :
    view d e = (ser ls ++ r.1, k, column d e.buffer) := by
  unfold view Editor.line
  rw [text_of_bol he, count_of_bol hk.le he]

/-- **A sequence of moves is one move**: from any line and column, as long as
the line stays among the terminated lines and no kill has come before, the
sequence leaves text, line and column as one `move-line-down` by the net
displacement does. With displacement 0 they are the ones before, and the point is
at the very same character where every character has a width. -/
theorem runMoves_eq_one (d : Display) (ms : List MoveCommand) {e : Editor}
    (hlast : e.thisCommand ≠ .killRegion)
    (hrange : ∀ pre, pre <+: ms →
      0 ≤ e.line + net pre ∧ e.line + net pre < (split '\n' e.buffer.text).1.length) :
    ∃ r r', runMoves d ms e = .ok () r ∧ execute (moveLineDown d (net ms)) e = .ok () r' ∧
      view d r = view d r' ∧
      (net ms = 0 → view d r = view d e ∧ ((∀ c, 0 < d.charWidth c) → r.buffer = e.buffer)) := by
  obtain ⟨he, -⟩ := bol_eq_lineAt '\n' e.buffer
  have hk : e.line < (split '\n' e.buffer.text).1.length := by
    simpa [net] using (hrange [] List.nil_prefix).2
  generalize (split '\n' e.buffer.text).1 = ls at he hk hrange
  generalize (split '\n' e.buffer.text).2 = rest at he
  change e.buffer.bol '\n' = lineAt ls rest e.line at he
  have hms := hrange ms (List.prefix_refl ms)
  have ht : (e.line + net ms).toNat < ls.length := by omega
  have ht' : (e.line + net ms).toNat < (moveTo ls e.line (e.line + net ms).toNat).length := by
    rwa [length_moveTo hk ht]
  obtain ⟨r, hrun, hbol, hcolumn, hbuffer⟩ := runMoves_line d ms hk he hlast hrange
  obtain ⟨r', hone, -, hbuffer'⟩ := execute_run d hk he hlast (m := .down (net ms)) hms
  obtain ⟨hbol', hcolumn'⟩ := atColumn_moveTo d hk he ht
  have hview : view d r = (ser (moveTo ls e.line (e.line + net ms).toNat) ++ rest.1,
      (e.line + net ms).toNat, column d e.buffer) := by
    rw [view_of_bol d ht' hbol, hcolumn]
  refine ⟨r, r', hrun, hone, ?_, fun hnet => ⟨?_, fun hwidth => ?_⟩⟩
  · rw [hview, view_of_bol d ht' (hbuffer' ▸ hbol'), hbuffer']
    exact congrArg (fun c => (_, _, c)) hcolumn'.symm
  · rw [hview, hnet, Int.add_zero, Int.toNat_natCast, moveTo_self hk, view_of_bol d hk he]
  · rcases hbuffer with ⟨-, rfl⟩ | hbuffer
    · rfl
    · rw [hnet, Int.add_zero, Int.toNat_natCast, moveTo_self hk, atColumn_lineAt d hk] at hbuffer
      obtain ⟨j, hj, hinLine⟩ := inLine_of_bol hk he
      rw [hbuffer, hinLine, column_inLine d hk hj, stop_foldl_take d hwidth 0 j _ hj]

/-- Up two, down one and down one, from the end of the last of three lines. -/
theorem runMoves_eq_one_three :
    ∃ r r', runMoves plainDisplay [.up 2, .down 1, .down 1] (.fresh "a\nbc\nde" "\n") = .ok () r ∧
      execute (moveLineDown plainDisplay 0) (.fresh "a\nbc\nde" "\n") = .ok () r' ∧
      view plainDisplay r = view plainDisplay r' ∧
      (net [.up 2, .down 1, .down 1] = 0 →
        view plainDisplay r = view plainDisplay (.fresh "a\nbc\nde" "\n") ∧
        ((∀ c, 0 < plainDisplay.charWidth c) →
          r.buffer = (Editor.fresh "a\nbc\nde" "\n").buffer)) :=
  runMoves_eq_one plainDisplay [.up 2, .down 1, .down 1] (e := .fresh "a\nbc\nde" "\n")
    (by decide) (fun pre hpre => by
      rw [← List.mem_inits] at hpre
      revert pre
      decide)

end EmacsConfig.MoveLine
