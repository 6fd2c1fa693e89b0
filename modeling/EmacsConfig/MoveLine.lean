import EmacsConfig.Lib.Lines

/-!
# Moving the current line

`move-line-up` and `move-line-down` kill the line, move, and yank it back. The
text is only in the kill ring when the motion signals, and an unterminated last
line is yanked into the line it lands on: the commands do what they are for
exactly when the line is terminated and so is the one whose place it takes
(`moveLine_keeps_iff`).
-/

namespace EmacsConfig.MoveLine

open EmacsConfig.Lines

/-! ## The editor -/

inductive Signal where
  | beginningOfBuffer
  | endOfBuffer
  | emptyKillRing
  deriving DecidableEq, Repr

/-- What `last-command` and `this-command` distinguish here. -/
inductive Command where
  | killRegion
  | yank
  | other
  deriving DecidableEq, Repr

structure Editor where
  buffer : Zipper Char
  /-- Newest entry first. -/
  killRing : List (List Char)
  lastCommand : Command
  thisCommand : Command
  deriving DecidableEq, Repr

/-- What happened before a signal stays. -/
abbrev Edit := EStateM Signal Editor

/-- How wide characters are displayed. -/
structure Display where
  charWidth : Char → Nat
  tabWidth : Nat
  tabWidth_pos : 0 < tabWidth

def Display.next (d : Display) (column : Nat) (c : Char) : Nat :=
  if c = '\t' then (column / d.tabWidth + 1) * d.tabWidth else column + d.charWidth c

def currentColumn (d : Display) : Edit Nat := do
  let e ← get
  return (e.buffer.before.takeWhile (· != '\n')).reverse.foldl d.next 0

/-- Right over `after` while the column is less than `goal`. -/
def toColumn (d : Display) (goal : Nat) : Nat → List Char → List Char → Zipper Char
  | _, before, [] => ⟨before, []⟩
  | column, before, c :: after =>
    if goal ≤ column ∨ c = '\n' then ⟨before, c :: after⟩
    else toColumn d goal (d.next column c) (c :: before) after

def moveToColumn (d : Display) (goal : Nat) : Edit Unit :=
  modify fun e =>
    let z := e.buffer.bol '\n'
    { e with buffer := toColumn d goal 0 z.before z.after }

def beginningOfLine : Edit Unit := modify fun e => { e with buffer := e.buffer.bol '\n' }

/-- `kill-append` -/
def killAppend (s : List Char) : List (List Char) → List (List Char)
  | [] => [s]
  | newest :: ring => (newest ++ s) :: ring

/-- `kill-line` with argument 1. -/
def killLine : Edit Unit :=
  modify fun e =>
    let (s, z) := e.buffer.cutLine '\n'
    { e with
      buffer := z
      killRing := if e.lastCommand = .killRegion then killAppend s e.killRing else s :: e.killRing
      thisCommand := .killRegion }

def forwardLines : Nat → Edit Unit
  | 0 => pure ()
  | n + 1 => do
    let e ← get
    match e.buffer.forward '\n' with
    | some z =>
      set { e with buffer := z }
      forwardLines n
    | none =>
      set { e with buffer := e.buffer.eol '\n' }
      throw .endOfBuffer

def backwardLines : Nat → Edit Unit
  | 0 => pure ()
  | n + 1 => do
    let e ← get
    match e.buffer.backward '\n' with
    | some z =>
      set { e with buffer := z }
      backwardLines n
    | none =>
      set { e with buffer := e.buffer.bol '\n' }
      throw .beginningOfBuffer

/-- `line-move` over logical lines. The column it would keep is left out: both
commands set their own afterwards. -/
def lineMove : Int → Edit Unit
  | .ofNat n => forwardLines n
  | .negSucc n => backwardLines (n + 1)

def nextLine (p : Int) : Edit Unit := lineMove p

def previousLine (p : Int) : Edit Unit := lineMove (-p)

def yank : Edit Unit := do
  let e ← get
  match e.killRing with
  | [] => throw .emptyKillRing
  | newest :: _ => set { e with buffer := e.buffer.insert newest, thisCommand := .yank }

/-! ## The commands -/

def moveLineUp (d : Display) (p : Int) : Edit Unit := do
  let c ← currentColumn d
  beginningOfLine
  killLine
  previousLine p
  beginningOfLine
  yank
  previousLine 1
  moveToColumn d c

def moveLineDown (d : Display) (p : Int) : Edit Unit := do
  let c ← currentColumn d
  beginningOfLine
  killLine
  nextLine p
  beginningOfLine
  yank
  previousLine 1
  moveToColumn d c

/-- One command is the other with the opposite argument. -/
theorem moveLineUp_eq (d : Display) (p : Int) : moveLineUp d p = moveLineDown d (-p) := rfl

/-! ## What the commands are for -/

/-- The number of the line the point is on. -/
def Editor.line (e : Editor) : Nat := e.buffer.before.count '\n'

/-- The lines with line `k` put `d` places further down, if there is such a
place. After the last terminator there is no line to move. -/
def movedLine (ls : List (Line '\n')) (k : Nat) (d : Int) : Option (List (Line '\n')) :=
  match ls[k]? with
  | none => some ls
  | some l =>
    if 0 ≤ k + d ∧ k + d < ls.length then some ((ls.eraseIdx k).insertIdx (k + d).toNat l)
    else none

/-- The command completes and has moved the line by `d`, or signals and leaves
the text. -/
def Keeps (cmd : Edit Unit) (d : Int) (e : Editor) : Prop :=
  match cmd e with
  | .ok _ e' =>
    movedLine (lines '\n' e.buffer.text) e.line d = some (lines '\n' e'.buffer.text)
  | .error _ e' => e'.buffer.text = e.buffer.text

instance (cmd : Edit Unit) (d : Int) (e : Editor) : Decidable (Keeps cmd d e) :=
  match h : cmd e with
  | .ok _ e' =>
    decidable_of_iff
      (movedLine (lines '\n' e.buffer.text) e.line d = some (lines '\n' e'.buffer.text))
      (by simp [Keeps, h])
  | .error _ e' => decidable_of_iff (e'.buffer.text = e.buffer.text) (by simp [Keeps, h])

/-- The line the point is on and the one `d` further down are terminated, or the
last line stays where it is, or there is none. -/
def Movable (d : Int) (e : Editor) : Prop :=
  let terminated := (split '\n' e.buffer.text).1.length
  if e.line < terminated then 0 ≤ e.line + d ∧ e.line + d < terminated
  else d = 0 ∨ (split '\n' e.buffer.text).2.1 = []

instance (d : Int) (e : Editor) : Decidable (Movable d e) :=
  inferInstanceAs (Decidable (ite _ _ _))

/-! ## What each step does -/

section
variable {α β : Type} {x : Edit α} {f : α → Edit β} {e e' : Editor}

theorem bind_ok {a : α} (h : x e = .ok a e') : (x >>= f) e = f a e' := by
  simp only [bind, EStateM.bind, h]

theorem bind_error {s : Signal} (h : x e = .error s e') : (x >>= f) e = .error s e' := by
  simp only [bind, EStateM.bind, h]

end

def Editor.at (e : Editor) (z : Zipper Char) : Editor := { e with buffer := z }

@[simp] theorem Editor.at_buffer (e : Editor) (z : Zipper Char) : (e.at z).buffer = z := rfl

@[simp] theorem Editor.at_killRing (e : Editor) (z : Zipper Char) :
    (e.at z).killRing = e.killRing := rfl

@[simp] theorem Editor.at_at (e : Editor) (z z' : Zipper Char) : (e.at z).at z' = e.at z' := rfl

theorem forwardLines_succ (e : Editor) (n : Nat) :
    forwardLines (n + 1) e = match e.buffer.forward '\n' with
      | some z => forwardLines n (e.at z)
      | none => .error .endOfBuffer (e.at (e.buffer.eol '\n')) := by
  refine (bind_ok (x := (get : Edit Editor)) (a := e) rfl).trans ?_
  cases e.buffer.forward '\n' <;> rfl

theorem backwardLines_succ (e : Editor) (n : Nat) :
    backwardLines (n + 1) e = match e.buffer.backward '\n' with
      | some z => backwardLines n (e.at z)
      | none => .error .beginningOfBuffer (e.at (e.buffer.bol '\n')) := by
  refine (bind_ok (x := (get : Edit Editor)) (a := e) rfl).trans ?_
  cases e.buffer.backward '\n' <;> rfl

section
variable {ls : List (Line '\n')} {r : Line '\n'} {e : Editor}

theorem forwardLines_lineAt {n k : Nat} (hk : k ≤ ls.length) (he : e.buffer = lineAt ls r k) :
    (k + n ≤ ls.length → forwardLines n e = .ok () (e.at (lineAt ls r (k + n)))) ∧
    (ls.length < k + n → ∃ s z, forwardLines n e = .error s (e.at z) ∧
      z.text = ser ls ++ r.1) := by
  induction n generalizing e k with
  | zero =>
    refine ⟨fun _ => ?_, fun h => absurd h (by omega)⟩
    rw [Nat.add_zero, ← he]
    rfl
  | succ n ih =>
    rw [forwardLines_succ, he]
    rcases Nat.lt_or_eq_of_le hk with hlt | rfl
    · rw [forward_lineAt hlt]
      obtain ⟨hok, herr⟩ := ih (e := e.at (lineAt ls r (k + 1))) (k := k + 1) hlt rfl
      refine ⟨fun h => ?_, fun h => ?_⟩
      · rw [show k + (n + 1) = k + 1 + n by omega]
        exact hok (by omega)
      · exact herr (by omega)
    · rw [forward_rest]
      refine ⟨fun h => absurd h (by omega), fun _ => ⟨_, _, rfl, ?_⟩⟩
      rw [Zipper.text_eol, text_lineAt]

/-- The first line up may start in mid-line. -/
theorem backwardLines_lineAt {n k : Nat} (hk : k ≤ ls.length)
    (he : e.buffer.bol '\n' = lineAt ls r k) :
    (n < k → backwardLines (n + 1) e = .ok () (e.at (lineAt ls r (k - (n + 1))))) ∧
    (k ≤ n → ∃ s z, backwardLines (n + 1) e = .error s (e.at z) ∧ z.text = ser ls ++ r.1) := by
  induction n generalizing e k with
  | zero =>
    rw [backwardLines_succ]
    cases k with
    | zero =>
      rw [backward_zero he]
      refine ⟨fun h => absurd h (by omega), fun _ => ⟨_, _, rfl, ?_⟩⟩
      rw [he, text_lineAt]
    | succ k =>
      rw [backward_succ hk he]
      exact ⟨fun _ => rfl, fun h => absurd h (by omega)⟩
  | succ n ih =>
    rw [backwardLines_succ]
    cases k with
    | zero =>
      rw [backward_zero he]
      refine ⟨fun h => absurd h (by omega), fun _ => ⟨_, _, rfl, ?_⟩⟩
      rw [he, text_lineAt]
    | succ k =>
      rw [backward_succ hk he]
      obtain ⟨hok, herr⟩ := ih (e := e.at (lineAt ls r k)) (k := k) (by omega) (bol_lineAt ls r k)
      refine ⟨fun h => ?_, fun h => herr (by omega)⟩
      rw [show k + 1 - (n + 1 + 1) = k - (n + 1) by omega]
      exact hok (by omega)

/-- A motion from the beginning of line `k` completes if there is a line `d`
further down, the rest included. -/
theorem lineMove_lineAt {k : Nat} (hk : k ≤ ls.length) (he : e.buffer = lineAt ls r k) (d : Int) :
    (0 ≤ k + d ∧ k + d ≤ ls.length →
      lineMove d e = .ok () (e.at (lineAt ls r (k + d).toNat))) ∧
    (¬ (0 ≤ k + d ∧ k + d ≤ ls.length) → ∃ s z, lineMove d e = .error s (e.at z) ∧
      z.text = ser ls ++ r.1) := by
  cases d with
  | ofNat n =>
    obtain ⟨hok, herr⟩ := forwardLines_lineAt (n := n) hk he
    refine ⟨fun h => ?_, fun h => herr ?_⟩
    · rw [show ((k : Int) + Int.ofNat n).toNat = k + n by simp; omega]
      exact hok (by simp at h; omega)
    · simp at h
      omega
  | negSucc n =>
    have hbol : e.buffer.bol '\n' = lineAt ls r k := by rw [he, bol_lineAt]
    obtain ⟨hok, herr⟩ := backwardLines_lineAt (n := n) hk hbol
    refine ⟨fun h => ?_, fun h => herr (by omega)⟩
    rw [show ((k : Int) + Int.negSucc n).toNat = k - (n + 1) by omega]
    exact hok (by omega)

end

/-! ## A whole command -/

/-- The second half of both commands. -/
def putBack (d : Display) (c : Nat) : Edit Unit := do
  beginningOfLine
  yank
  previousLine 1
  moveToColumn d c

/-- After the line has been killed. -/
def Editor.killed (e : Editor) : Editor :=
  let (s, z) := (e.buffer.bol '\n').cutLine '\n'
  { e with
    buffer := z
    killRing := if e.lastCommand = .killRegion then killAppend s e.killRing else s :: e.killRing
    thisCommand := .killRegion }

theorem moveLineDown_eq (d : Display) (p : Int) (e : Editor) :
    ∃ c, moveLineDown d p e = (lineMove p >>= fun _ => putBack d c) e.killed := ⟨_, rfl⟩

/-- Whether a command has completed, and the text it leaves. -/
def outcome : EStateM.Result Signal Editor Unit → Bool × List Char
  | .ok _ e => (true, e.buffer.text)
  | .error _ e => (false, e.buffer.text)

theorem toColumn_text (d : Display) (goal column : Nat) (before after : List Char) :
    (toColumn d goal column before after).text = before.reverse ++ after := by
  induction after generalizing column before with
  | nil => rfl
  | cons c after ih =>
    rw [toColumn]
    split
    · rfl
    · rw [ih]
      simp

theorem outcome_putBack (d : Display) (c : Nat) {e : Editor} {s : List Char}
    {ring : List (List Char)} (hring : e.killRing = s :: ring) :
    outcome (putBack d c e) =
      ((((e.buffer.bol '\n').insert s).backward '\n').isSome,
        ((e.buffer.bol '\n').insert s).text) := by
  generalize hz : (e.buffer.bol '\n').insert s = z
  let e2 : Editor := { e.at z with thisCommand := .yank }
  have hyanked : putBack d c e = (backwardLines 1 >>= fun _ => moveToColumn d c) e2 := by
    obtain ⟨buffer, killRing, lastCommand, thisCommand⟩ := e
    subst hring hz
    rfl
  have hback := backwardLines_succ e2 0
  rw [hyanked]
  cases hb : z.backward '\n' with
  | none =>
    rw [show e2.buffer.backward '\n' = none from hb] at hback
    rw [bind_error hback]
    exact congrArg (Prod.mk false) (Zipper.text_bol '\n' z)
  | some z' =>
    rw [show e2.buffer.backward '\n' = some z' from hb] at hback
    rw [bind_ok hback]
    have htext : (toColumn d c 0 (z'.bol '\n').before (z'.bol '\n').after).text = z.text := by
      rw [toColumn_text]
      exact (Zipper.text_bol '\n' z').trans (Zipper.text_backward hb)
    exact congrArg (Prod.mk true) htext

section
variable {ls : List (Line '\n')} {r : Line '\n'} {e : Editor} {k : Nat} (d : Display)

theorem killed_line (hk : k < ls.length) (he : e.buffer.bol '\n' = lineAt ls r k)
    (hlast : e.lastCommand ≠ .killRegion) :
    e.killed.buffer = lineAt (ls.eraseIdx k) r k ∧
      e.killed.killRing = (ls[k].1 ++ ['\n']) :: e.killRing := by
  simp [Editor.killed, he, cutLine_lineAt hk, hlast]

theorem killed_rest (he : e.buffer.bol '\n' = lineAt ls r ls.length)
    (hlast : e.lastCommand ≠ .killRegion) :
    e.killed.buffer = lineAt ls .empty ls.length ∧ e.killed.killRing = r.1 :: e.killRing := by
  simp [Editor.killed, he, cutLine_rest, hlast]

/-- A terminated line is moved if there is room for it, else it is lost. -/
theorem outcome_line (hk : k < ls.length) (he : e.buffer.bol '\n' = lineAt ls r k)
    (hlast : e.lastCommand ≠ .killRegion) (p : Int) :
    outcome (moveLineDown d p e) =
      if 0 ≤ k + p ∧ k + p < ls.length then
        (true, ser ((ls.eraseIdx k).insertIdx (k + p).toNat ls[k]) ++ r.1)
      else (false, ser (ls.eraseIdx k) ++ r.1) := by
  obtain ⟨c, hcmd⟩ := moveLineDown_eq d p e
  obtain ⟨hbuffer, hring⟩ := killed_line hk he hlast
  have hlen : (ls.eraseIdx k).length + 1 = ls.length := by
    rw [List.length_eraseIdx_of_lt hk]
    omega
  obtain ⟨hok, herr⟩ := lineMove_lineAt (by omega) hbuffer p
  rw [hcmd]
  split
  · next h =>
    have ht : (k + p).toNat ≤ (ls.eraseIdx k).length := by omega
    have hins : (k + p).toNat < ((ls.eraseIdx k).insertIdx (k + p).toNat ls[k]).length := by
      rw [List.length_insertIdx_of_le_length ht]
      omega
    have hput := outcome_putBack d c
      (e := e.killed.at (lineAt (ls.eraseIdx k) r (k + p).toNat)) hring
    rw [bind_ok (hok (by omega)), hput]
    simp only [Editor.at_buffer, bol_lineAt]
    rw [insert_lineAt ht, backward_succ hins (bol_lineAt _ _ _), text_lineAt]
    rfl
  · next h =>
    obtain ⟨s, z, hmove, htext⟩ := herr (by omega)
    rw [bind_error hmove, ← htext]
    rfl

/-- An unterminated last line is put before the text of the line it lands on. -/
theorem outcome_rest (he : e.buffer.bol '\n' = lineAt ls r ls.length)
    (hlast : e.lastCommand ≠ .killRegion) (p : Int) :
    (outcome (moveLineDown d p e)).2 =
      if 0 ≤ ls.length + p ∧ p ≤ 0 then
        ser (ls.take (ls.length + p).toNat) ++ (r.1 ++ ser (ls.drop (ls.length + p).toNat))
      else ser ls := by
  obtain ⟨c, hcmd⟩ := moveLineDown_eq d p e
  obtain ⟨hbuffer, hring⟩ := killed_rest he hlast
  obtain ⟨hok, herr⟩ := lineMove_lineAt le_rfl hbuffer p
  rw [hcmd]
  split
  · next h =>
    have hput := outcome_putBack d c
      (e := e.killed.at (lineAt ls .empty (ls.length + p).toNat)) hring
    rw [bind_ok (hok (by omega)), hput]
    simp only [Editor.at_buffer, bol_lineAt]
    simp [lineAt, Zipper.insert, Zipper.text, Line.empty]
  · next h =>
    obtain ⟨s, z, hmove, htext⟩ := herr (by omega)
    rw [bind_error hmove]
    exact htext.trans (by simp [Line.empty])

end

/-! ## When the line is kept -/

/-- What `Keeps` asks of an outcome. -/
def Kept (e : Editor) (d : Int) : Bool × List Char → Prop
  | (true, t) => movedLine (lines '\n' e.buffer.text) e.line d = some (lines '\n' t)
  | (false, t) => t = e.buffer.text

theorem keeps_iff_kept (cmd : Edit Unit) (d : Int) (e : Editor) :
    Keeps cmd d e ↔ Kept e d (outcome (cmd e)) := by
  unfold Keeps outcome
  cases cmd e <;> rfl

theorem length_movedLine {ls ls' : List (Line '\n')} {k : Nat} {d : Int}
    (h : movedLine ls k d = some ls') : ls'.length = ls.length := by
  unfold movedLine at h
  split at h
  · cases h
    rfl
  · next l hl =>
    obtain ⟨hk, -⟩ := List.getElem?_eq_some_iff.1 hl
    split at h
    · cases h
      have herase := List.length_eraseIdx_of_lt hk
      rw [List.length_insertIdx_of_le_length (by omega)]
      omega
    · cases h

/-- A kept line is neither lost nor joined to another one. -/
theorem length_of_kept {e : Editor} {d : Int} {o : Bool × List Char} (h : Kept e d o) :
    (lines '\n' o.2).length = (lines '\n' e.buffer.text).length := by
  obtain ⟨ok, t⟩ := o
  cases ok with
  | true => exact length_movedLine h
  | false => rw [show t = e.buffer.text from h]

section
variable {ls : List (Line '\n')} {r : Line '\n'} {e : Editor}

theorem insertIdx_append_left {α : Type} (xs ys : List α) {k : Nat} (hk : k ≤ xs.length) (a : α) :
    (xs ++ ys).insertIdx k a = xs.insertIdx k a ++ ys := by
  induction xs generalizing k with
  | nil =>
    obtain rfl : k = 0 := by simpa using hk
    rfl
  | cons x xs ih =>
    cases k with
    | zero => rfl
    | succ k => simp [ih (k := k) (by simpa using hk)]

theorem kept_line {k : Nat} (hk : k < ls.length) (htext : e.buffer.text = ser ls ++ r.1)
    (hline : e.line = k) {p : Int} (hp : 0 ≤ k + p ∧ k + p < ls.length) :
    Kept e p (true, ser ((ls.eraseIdx k).insertIdx (k + p).toNat ls[k]) ++ r.1) := by
  have herase := List.length_eraseIdx_of_lt hk
  have hget : (ls ++ if r.1 = [] then [] else [r])[k]? = some ls[k] := by
    rw [List.getElem?_append_left hk, List.getElem?_eq_getElem hk]
  have hroom : 0 ≤ k + p ∧ k + p < (ls ++ if r.1 = [] then [] else [r]).length := by
    rw [List.length_append]
    omega
  show movedLine _ _ _ = _
  rw [hline, htext, lines_join, lines_join, movedLine, hget]
  simp only [if_pos hroom]
  rw [List.eraseIdx_append_of_lt_length hk, insertIdx_append_left _ _ (by omega)]

/-- Where there is no line to move, or it is the last one and stays. -/
theorem kept_rest (htext : e.buffer.text = ser ls ++ r.1) (hline : e.line = ls.length) {p : Int}
    (hp : p = 0 ∨ r.1 = []) (ok : Bool) : Kept e p (ok, ser ls ++ r.1) := by
  cases ok with
  | false => exact htext.symm
  | true =>
    show movedLine _ _ _ = _
    rw [hline, htext, lines_join, movedLine]
    by_cases hr : r.1 = []
    · simp [hr]
    · obtain rfl : p = 0 := hp.resolve_right hr
      have hroom : (ls.length : Int) < ls.length + 1 := by omega
      simp [hr, List.eraseIdx_append_of_length_le, hroom]

/-- Text put at the beginning of a line becomes part of it. -/
theorem ser_joined {k : Nat} (hk : k < ls.length) :
    ser (ls.take k) ++ (r.1 ++ ser (ls.drop k)) = ser (ls.set k (r.append ls[k])) := by
  rw [List.set_eq_take_append_cons_drop, if_pos hk, ser_append, List.drop_eq_getElem_cons hk]
  simp [ser, Line.append]

/-- A last line that is not put back where it was is no line any more. -/
theorem length_lines_rest (p : Int) (hp : p ≠ 0) :
    (lines '\n' (if 0 ≤ ls.length + p ∧ p ≤ 0 then
        ser (ls.take (ls.length + p).toNat) ++ (r.1 ++ ser (ls.drop (ls.length + p).toNat))
      else ser ls)).length = ls.length := by
  have hser (ms : List (Line '\n')) : (lines '\n' (ser ms)).length = ms.length := by
    have h := lines_join ms .empty
    rw [show (Line.empty : Line '\n').1 = [] from rfl, List.append_nil] at h
    rw [h]
    simp
  split
  · next h =>
    rw [ser_joined (by omega), hser, List.length_set]
  · rw [hser]

end

theorem moveLineDown_keeps_iff (d : Display) (p : Int) {e : Editor}
    (hlast : e.lastCommand ≠ .killRegion) : Keeps (moveLineDown d p) p e ↔ Movable p e := by
  obtain ⟨he, hk⟩ := bol_eq_lineAt '\n' e.buffer
  have htext := (join_split '\n' e.buffer.text).symm
  rw [keeps_iff_kept]
  unfold Movable
  dsimp only
  generalize (split '\n' e.buffer.text).1 = ls at *
  generalize (split '\n' e.buffer.text).2 = r at *
  change e.buffer.bol '\n' = lineAt ls r e.line at he
  change e.line ≤ ls.length at hk
  rcases Nat.lt_or_eq_of_le hk with hlt | heq
  · rw [outcome_line d hlt he hlast, if_pos hlt]
    split
    · next h => exact iff_of_true (kept_line hlt htext rfl h) h
    · next h =>
      refine iff_of_false (fun hkept => ?_) h
      have := length_of_kept hkept
      have herase := List.length_eraseIdx_of_lt hlt
      rw [htext, lines_join, lines_join, List.length_append, List.length_append] at this
      omega
  · rw [if_neg (by omega)]
    rw [heq] at he
    have hout := outcome_rest d he hlast p
    generalize outcome (moveLineDown d p e) = o at hout ⊢
    obtain ⟨ok, t⟩ := o
    change t = _ at hout
    by_cases hp : p = 0 ∨ r.1 = []
    · have ht : t = ser ls ++ r.1 := by
        rcases hp with rfl | hr
        · simpa [ser] using hout
        · rw [hout, hr, List.nil_append, ← ser_append, List.take_append_drop]
          simp
      exact iff_of_true (ht ▸ kept_rest htext heq hp ok) hp
    · refine iff_of_false (fun hkept => ?_) hp
      rw [not_or] at hp
      have := length_of_kept hkept
      rw [hout, length_lines_rest p hp.1, htext, lines_join, if_neg hp.2] at this
      simp at this

/-- **When the commands keep the lines**: from any text and point, either
command moves the current line and nothing else, or signals and leaves the text,
exactly when the line and the one whose place it takes are terminated (or
nothing is to be moved). -/
theorem moveLine_keeps_iff (d : Display) (p : Int) (e : Editor)
    (hlast : e.lastCommand ≠ .killRegion) :
    (Keeps (moveLineUp d p) (-p) e ↔ Movable (-p) e) ∧
    (Keeps (moveLineDown d p) p e ↔ Movable p e) := by
  refine ⟨?_, moveLineDown_keeps_iff d p hlast⟩
  rw [moveLineUp_eq]
  exact moveLineDown_keeps_iff d (-p) hlast

/-- Every character in one column, tabs in eight. -/
def plainDisplay : Display := ⟨fun _ => 1, 8, by decide⟩

/-- An editor that has just started. -/
def Editor.fresh (before after : String) : Editor :=
  ⟨⟨before.toList.reverse, after.toList⟩, [], .other, .other⟩

/-- The second of three lines can go up by one; the first cannot. -/
theorem moveLine_keeps_iff_three :
    Keeps (moveLineUp plainDisplay 1) (-1) (.fresh "a\nb" "c\nd\n") ∧
    ¬ Keeps (moveLineUp plainDisplay 1) (-1) (.fresh "a" "\nb\n") :=
  ⟨(moveLine_keeps_iff plainDisplay 1 (.fresh "a\nb" "c\nd\n") (by decide)).1.2 (by decide),
    fun h => absurd ((moveLine_keeps_iff plainDisplay 1 (.fresh "a" "\nb\n") (by decide)).1.1 h)
      (by decide)⟩

/-- Up from the first line: the motion signals and the line is only in the kill
ring. Up from an unterminated last line: it is joined to the one before. -/
theorem not_keeps_first_line :
    ¬ Keeps (moveLineUp plainDisplay 1) (-1) (.fresh "a" "\nb\n") ∧
    (outcome (moveLineUp plainDisplay 1 (.fresh "a" "\nb\n")) = (false, "b\n".toList)) ∧
    ¬ Keeps (moveLineUp plainDisplay 1) (-1) (.fresh "a\nb" "") ∧
    (outcome (moveLineUp plainDisplay 1 (.fresh "a\nb" ""))).2 = "ba\n".toList := by
  decide

end EmacsConfig.MoveLine
