import Mathlib.Algebra.GroupWithZero.Nat
import Mathlib.Data.List.Basic
import EmacsConfig.Lib.Runs

/-!
# Words of a POSIX shell command line

Token recognition and quote removal of the POSIX shell, one character at a
time. Expansions are not performed: the character that starts one (a parameter
or command substitution, a pathname pattern, a tilde) stays in its word as an
`active` piece, since the line alone does not fix what it becomes.

A string between single quotes becomes one piece of a word as it stands exactly
if it has no single quote (`single_quoted_iff`): each character of a line
yields at most one piece or word break, so a quote lost on the way cannot be
made up for.
-/

namespace EmacsConfig.Shell

open EmacsConfig.Runs

inductive Piece where
  | lit (c : Char)
  | active (c : Char)
  deriving DecidableEq, Repr

inductive Token where
  | word (w : List Piece)
  | op (c : Char)
  | newline
  deriving DecidableEq, Repr

/-- A word of plain characters. -/
def literal (w : List Char) : Token := .word (w.map .lit)

inductive Mode where
  | unquoted
  | escaped
  | single
  | double
  | doubleEscaped
  | comment
  deriving DecidableEq, Repr

/-- What has been read: the tokens, and the word being read. -/
structure LexState where
  mode : Mode
  word : Option (List Piece)
  tokens : List Token
  deriving DecidableEq, Repr

namespace LexState

def start : LexState := ⟨.unquoted, none, []⟩

def setMode (st : LexState) (m : Mode) : LexState := { st with mode := m }

def openWord (st : LexState) : LexState := { st with word := some (st.word.getD []) }

def push (st : LexState) (p : Piece) : LexState :=
  { st with word := some (st.word.getD [] ++ [p]) }

def flush (st : LexState) : LexState :=
  match st.word with
  | none => st
  | some w => { st with word := none, tokens := st.tokens ++ [.word w] }

def emit (st : LexState) (t : Token) : LexState := { st with tokens := st.tokens ++ [t] }

end LexState

def isOperator (c : Char) : Bool := c ∈ ['|', '&', ';', '<', '>', '(', ')']

/-- Outside quotes: starts an expansion in a word read so far as `word`. -/
def isActive (c : Char) (word : Option (List Piece)) : Bool :=
  c ∈ ['$', '`', '*', '?', '['] || (c = '~' && word.isNone)

def stepUnquoted (st : LexState) (c : Char) : LexState :=
  if c = '\'' then st.openWord.setMode .single
  else if c = '"' then st.openWord.setMode .double
  else if c = '\\' then st.setMode .escaped
  else if c = ' ' ∨ c = '\t' then st.flush
  else if c = '\n' then st.flush.emit .newline
  else if isOperator c then st.flush.emit (.op c)
  else if c = '#' ∧ st.word = none then st.setMode .comment
  else if isActive c st.word then st.push (.active c)
  else st.push (.lit c)

def step (st : LexState) (c : Char) : LexState :=
  match st.mode with
  | .unquoted => stepUnquoted st c
  | .escaped =>
    if c = '\n' then st.setMode .unquoted else (st.push (.lit c)).setMode .unquoted
  | .single => if c = '\'' then st.setMode .unquoted else st.push (.lit c)
  | .double =>
    if c = '"' then st.setMode .unquoted
    else if c = '\\' then st.setMode .doubleEscaped
    else if c = '$' ∨ c = '`' then st.push (.active c)
    else st.push (.lit c)
  | .doubleEscaped =>
    if c = '\n' then st.setMode .double
    else if c ∈ ['$', '`', '"', '\\'] then (st.push (.lit c)).setMode .double
    else ((st.push (.lit '\\')).push (.lit c)).setMode .double
  | .comment => if c = '\n' then (st.emit .newline).setMode .unquoted else st

/-- The tokens at the end of the line; `none` while a quote is open. -/
def finish (st : LexState) : Option (List Token) :=
  match st.mode with
  | .unquoted => some st.flush.tokens
  | .escaped => some (st.push (.lit '\\')).flush.tokens
  | .comment => some st.tokens
  | .single | .double | .doubleEscaped => none

/-- The tokens of a command line. -/
def tokens (line : List Char) : Option (List Token) := finish (run step .start line)

theorem tokens_append (pre rest : List Char) :
    tokens (pre ++ rest) = finish (run step (run step .start pre) rest) := by
  simp [tokens, run]

/-- Tokens already read do not change how the rest is read. -/
def LexState.after (ts : List Token) (st : LexState) : LexState :=
  { st with tokens := ts ++ st.tokens }

section
variable (ts : List Token) (st : LexState)

@[simp] theorem mode_after : (st.after ts).mode = st.mode := rfl

@[simp] theorem word_after : (st.after ts).word = st.word := rfl

theorem flush_after : (st.after ts).flush = st.flush.after ts := by
  unfold LexState.flush
  rw [word_after]
  cases st.word <;> simp [LexState.after]

theorem emit_after (t : Token) : (st.after ts).emit t = (st.emit t).after ts := by
  simp [LexState.after, LexState.emit]

theorem stepUnquoted_after (c : Char) :
    stepUnquoted (st.after ts) c = (stepUnquoted st c).after ts := by
  unfold stepUnquoted
  rw [flush_after, emit_after, emit_after, word_after]
  split_ifs <;> rfl

theorem step_after (c : Char) : step (st.after ts) c = (step st c).after ts := by
  cases h : st.mode with
  | unquoted =>
    simp only [step, mode_after, h]
    exact stepUnquoted_after ts st c
  | comment =>
    simp only [step, mode_after, h]
    rw [emit_after]
    split_ifs <;> rfl
  | _ =>
    simp only [step, mode_after, h]
    split_ifs <;> rfl

theorem finish_after : finish (st.after ts) = (finish st).map (ts ++ ·) := by
  have hpush : (st.after ts).push (.lit '\\') = (st.push (.lit '\\')).after ts := rfl
  simp only [finish, mode_after, flush_after, hpush]
  cases st.mode <;> rfl

end

theorem run_after (ts : List Token) (st : LexState) (u : List Char) :
    run step (st.after ts) u = (run step st u).after ts := by
  induction u generalizing st with
  | nil => rfl
  | cons c u ih =>
    show run step (step (st.after ts) c) u = _
    rw [step_after, ih]
    rfl

/-- A blank ends the word before it. -/
theorem finish_blank (ts : List Token) (p : List Piece) (u : List Char) :
    finish (run step ⟨.unquoted, some p, ts⟩ (' ' :: u)) =
      (tokens u).map (ts ++ .word p :: ·) := by
  have hblank : step ⟨.unquoted, some p, ts⟩ ' ' = LexState.start.after (ts ++ [.word p]) := by
    simp [step, stepUnquoted, LexState.flush, LexState.after, LexState.start]
  show finish (run step (step _ ' ') u) = _
  rw [hblank, run_after, finish_after]
  simp [tokens]

/-! ## How much a character can yield -/

def Token.size : Token → Nat
  | .word w => 1 + w.length
  | .op _ => 0
  | .newline => 0

def size (ts : List Token) : Nat := (ts.map Token.size).sum

/-- A backslash that has been read and has yielded nothing yet. -/
def Mode.pending : Mode → Nat
  | .escaped | .doubleEscaped => 1
  | _ => 0

/-- The pieces and word breaks so far, with a pending backslash. -/
def LexState.weight (st : LexState) : Nat :=
  size st.tokens + 1 + (st.word.getD []).length + st.mode.pending

@[simp] theorem size_append (ts us : List Token) : size (ts ++ us) = size ts + size us := by
  simp [size]

@[simp] theorem size_singleton (t : Token) : size [t] = t.size := by simp [size]

section
variable (st : LexState)

@[simp] theorem mode_push (p : Piece) : (st.push p).mode = st.mode := rfl

@[simp] theorem mode_flush : st.flush.mode = st.mode := by
  unfold LexState.flush
  split <;> rfl

@[simp] theorem mode_emit (t : Token) : (st.emit t).mode = st.mode := rfl

theorem weight_openWord (h : st.mode = .unquoted) {m : Mode} (hm : m.pending = 0) :
    (st.openWord.setMode m).weight = st.weight := by
  have h0 : st.mode.pending = 0 := by rw [h]; rfl
  simp [LexState.weight, LexState.openWord, LexState.setMode, h0, hm]

theorem weight_push (p : Piece) : (st.push p).weight = st.weight + 1 := by
  simp only [LexState.weight, mode_push]
  simp only [LexState.push, Option.getD_some, List.length_append, List.length_singleton]
  omega

theorem weight_setMode (m : Mode) :
    (st.setMode m).weight + st.mode.pending = st.weight + m.pending := by
  simp only [LexState.weight, LexState.setMode]
  omega

theorem size_flush : size st.flush.tokens ≤ size st.tokens + 1 + (st.word.getD []).length := by
  unfold LexState.flush
  cases hw : st.word with
  | none => simp only [Option.getD_none, List.length_nil]; omega
  | some w => simp [Token.size]; omega

theorem weight_flush : st.flush.weight ≤ st.weight + 1 := by
  have hs := size_flush st
  have hw : st.flush.word = none := by
    unfold LexState.flush
    split <;> simp_all
  simp only [LexState.weight, mode_flush, hw, Option.getD_none, List.length_nil]
  omega

theorem weight_emit {t : Token} (ht : t.size = 0) : (st.emit t).weight = st.weight := by
  simp [LexState.weight, LexState.emit, ht]

end

/-- Outside quotes a character yields one piece or word break and leaves the
mode, or yields nothing, or is a backslash. -/
theorem stepUnquoted_weight {st : LexState} (h : st.mode = .unquoted) (c : Char) :
    ((stepUnquoted st c).mode = .unquoted ∧ (stepUnquoted st c).weight ≤ st.weight + 1) ∨
    (stepUnquoted st c).weight ≤ st.weight ∨
    ((stepUnquoted st c).mode = .escaped ∧ (stepUnquoted st c).weight ≤ st.weight + 1) := by
  have hmode (m : Mode) : (st.setMode m).weight = st.weight + m.pending := by
    have := weight_setMode st m
    rw [h] at this
    exact this
  have hflush := weight_flush st
  unfold stepUnquoted
  split_ifs
  · exact .inr (.inl (weight_openWord st h rfl).le)
  · exact .inr (.inl (weight_openWord st h rfl).le)
  · exact .inr (.inr ⟨rfl, (hmode .escaped).le⟩)
  · exact .inl ⟨by simpa using h, hflush⟩
  · exact .inl ⟨by simpa using h, (weight_emit _ (t := .newline) rfl).trans_le hflush⟩
  · exact .inl ⟨by simpa using h, (weight_emit _ (t := .op c) rfl).trans_le hflush⟩
  · exact .inr (.inl (hmode .comment).le)
  · exact .inl ⟨h, (weight_push st _).le⟩
  · exact .inl ⟨h, (weight_push st _).le⟩

/-- The character after a backslash adds nothing to the pending one. -/
theorem step_escaped_weight {st : LexState} (h : st.mode = .escaped) (c : Char) :
    (step st c).weight ≤ st.weight := by
  have hmode := weight_setMode st .unquoted
  have hmode' := weight_setMode (st.push (.lit c)) .unquoted
  have hpush := weight_push st (.lit c)
  rw [mode_push] at hmode'
  rw [h] at hmode hmode'
  simp only [Mode.pending] at hmode hmode'
  simp only [step, h]
  split <;> omega

theorem step_weight (st : LexState) (c : Char) : (step st c).weight ≤ st.weight + 1 := by
  have hmode (st' : LexState) (m : Mode) (h : st'.mode = st.mode) :
      (st'.setMode m).weight + st.mode.pending = st'.weight + m.pending :=
    h ▸ weight_setMode st' m
  have hpush := weight_push st
  cases h : st.mode with
  | unquoted =>
    simp only [step, h]
    rcases stepUnquoted_weight h c with ⟨-, hw⟩ | hw | ⟨-, hw⟩ <;> omega
  | escaped => exact (step_escaped_weight h c).trans (Nat.le_succ _)
  | single =>
    have h1 := hmode st .unquoted rfl
    have h2 := hpush (.lit c)
    simp only [h, Mode.pending] at h1
    simp only [step, h]
    split <;> omega
  | double =>
    have h1 := hmode st .unquoted rfl
    have h2 := hmode st .doubleEscaped rfl
    have h3 := hpush (.lit c)
    have h4 := hpush (.active c)
    simp only [h, Mode.pending] at h1 h2
    simp only [step, h]
    split_ifs <;> omega
  | doubleEscaped =>
    have h1 := hmode st .double rfl
    have h2 := hmode (st.push (.lit c)) .double rfl
    have h3 := hmode ((st.push (.lit '\\')).push (.lit c)) .double rfl
    have h4 := hpush (.lit c)
    have h5 := hpush (.lit '\\')
    have h6 := weight_push (st.push (.lit '\\')) (.lit c)
    simp only [h, Mode.pending] at h1 h2 h3
    simp only [step, h]
    split_ifs <;> omega
  | comment =>
    have h1 := hmode (st.emit .newline) .unquoted rfl
    have h2 := weight_emit st (t := .newline) rfl
    simp only [h, Mode.pending] at h1
    simp only [step, h]
    split <;> omega

theorem run_weight (st : LexState) (s : List Char) :
    (run step st s).weight ≤ st.weight + s.length := by
  induction s generalizing st with
  | nil => exact Nat.le_refl _
  | cons c s ih =>
    have h1 := ih (step st c)
    have h2 := step_weight st c
    rw [List.length_cons]
    exact h1.trans (by omega)

theorem finish_size {st : LexState} {ts : List Token} (h : finish st = some ts) :
    size ts ≤ st.weight := by
  unfold finish at h
  split at h
  · cases h
    exact (size_flush st).trans (by simp [LexState.weight])
  · next hm =>
    cases h
    refine (size_flush _).trans ?_
    simp [LexState.weight, LexState.push, hm, Mode.pending]
    omega
  · cases h
    simp only [LexState.weight]
    omega
  all_goals cases h

/-- Reading on from outside quotes over text with a single quote in it: at
least one character yields nothing. -/
theorem run_weight_quote {st : LexState} (h : st.mode = .unquoted) (s u : List Char) :
    (run step st (s ++ '\'' :: u)).weight ≤ st.weight + s.length + u.length := by
  induction s generalizing st with
  | nil =>
    have hq : step st '\'' = st.openWord.setMode .single := by simp [step, h, stepUnquoted]
    have hr := run_weight (step st '\'') u
    rw [hq, weight_openWord st h rfl] at hr
    simpa [run, hq] using hr
  | cons c s ih =>
    have hstep : step st c = stepUnquoted st c := by simp only [step, h]
    have hrun : run step st (c :: s ++ '\'' :: u) = run step (step st c) (s ++ '\'' :: u) := rfl
    rw [hrun, List.length_cons]
    rcases stepUnquoted_weight h c with ⟨hm, hw⟩ | hw | ⟨hm, hw⟩ <;> rw [← hstep] at hw
    · rw [← hstep] at hm
      have := ih hm
      omega
    · have := run_weight (step st c) (s ++ '\'' :: u)
      simp only [List.length_append, List.length_cons] at this
      omega
    · -- the character after the backslash yields nothing more
      rw [← hstep] at hm
      obtain ⟨d, t, hd⟩ : ∃ d t, s ++ '\'' :: u = d :: t := by cases s <;> simp
      have hlen : s.length + u.length = t.length := by
        have := congrArg List.length hd
        simp at this
        omega
      have h1 := step_escaped_weight hm d
      have h2 := run_weight (step (step st c) d) t
      rw [hd]
      show (run step (step (step st c) d) t).weight ≤ _
      omega

/-! ## Single quotes -/

/-- Between single quotes every character but the quote is a piece of the word. -/
theorem run_single {st : LexState} (h : st.mode = .single) {w : List Piece}
    (hw : st.word = some w) {s : List Char} (hs : '\'' ∉ s) :
    run step st s = { st with word := some (w ++ s.map .lit) } := by
  induction s generalizing st w with
  | nil =>
    rw [List.map_nil, List.append_nil, ← hw]
    rfl
  | cons c s ih =>
    rw [List.mem_cons, not_or] at hs
    have hc : step st c = st.push (.lit c) := by simp [step, h, Ne.symm hs.1]
    show run step (step st c) s = _
    rw [hc, ih (w := w ++ [.lit c]) (by simpa using h) (by simp [LexState.push, hw]) hs.2]
    simp [LexState.push]

/-- The state after a quoted string and its closing quote. -/
def LexState.unquote (st : LexState) (f : List Char) : LexState :=
  { st with mode := .unquoted, word := some (st.word.getD [] ++ f.map .lit) }

theorem run_unquote {st : LexState} (h : st.mode = .single) {w : List Piece}
    (hw : st.word = some w) {f : List Char} (hf : '\'' ∉ f) (u : List Char) :
    run step st (f ++ '\'' :: u) = run step (st.unquote f) u := by
  have hclose : run step st (f ++ '\'' :: u) = run step (step (run step st f) '\'') u := by
    simp [run]
  rw [hclose, run_single h hw hf]
  simp [step, h, LexState.setMode, LexState.unquote, hw]

/-- **Quoting with single quotes.** A line has been read up to an opening quote,
and `u` follows the closing one. The string between the quotes is read as it
stands, so that the line has the tokens `expected`, exactly if it has no single
quote. `hexact` says that each character of `u` yields as much as it can. -/
theorem single_quoted_iff {st : LexState} (h : st.mode = .single) {w : List Piece}
    (hw : st.word = some w) {f u : List Char} {expected : List Token}
    (hexpected : finish (run step (st.unquote f) u) = some expected)
    (hexact : size expected = (st.unquote f).weight + u.length) :
    finish (run step st (f ++ '\'' :: u)) = some expected ↔ '\'' ∉ f := by
  constructor
  · intro hrun hmem
    -- the first quote in `f` ends the string; one of the two that follow is lost
    obtain ⟨a, b, rfl, ha⟩ := List.eq_append_cons_of_mem hmem
    have hsize := finish_size hrun
    rw [List.append_assoc, List.cons_append, run_unquote h hw ha] at hsize
    have hlost := run_weight_quote (rfl : (st.unquote a).mode = .unquoted) b u
    have hweight : (st.unquote (a ++ '\'' :: b)).weight =
        (st.unquote a).weight + 1 + b.length := by
      simp [LexState.weight, LexState.unquote]
      omega
    omega
  · intro hf
    rw [run_unquote h hw hf, hexpected]

/-- Where a quoted word begins, after the tokens `ts`. -/
def quoteOpened (ts : List Token) : LexState := ⟨.single, some [], ts⟩

/-- A word that is one quoted string, in a line that goes on with the tokens
`us`. -/
theorem quoted_word_iff (ts : List Token) (f : List Char) {u : List Char} {us : List Token}
    (hread : ∀ p, finish (run step ⟨.unquoted, some p, ts⟩ u) = some (ts ++ .word p :: us))
    (hsize : size us = u.length) :
    finish (run step (quoteOpened ts) (f ++ '\'' :: u)) = some (ts ++ literal f :: us) ↔
      '\'' ∉ f := by
  apply single_quoted_iff rfl rfl
  · exact hread (f.map .lit)
  · have hus : size (literal f :: us) = 1 + f.length + u.length := by
      rw [← hsize]
      simp [size, literal, Token.size]
    rw [size_append, hus]
    simp [LexState.weight, LexState.unquote, quoteOpened, Mode.pending]
    omega

end EmacsConfig.Shell
