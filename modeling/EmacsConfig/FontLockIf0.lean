import EmacsConfig.Lib.Lines
import Mathlib.Algebra.GroupWithZero.Nat
import Mathlib.Tactic.Tauto

/-!
# Fontifying disabled branches

`my-c-mode-font-lock-if0` scans the text for conditional directives and puts the
comment face on what an `#if 0` disables. After the first region it stores 0
in `start` where nil is meant, so it never looks for another one:
`fontLockIf0_paints_iff` says that a properly nested text is painted right
exactly if at most one `#if 0` in it disables anything.
-/

namespace EmacsConfig.FontLockIf0

open EmacsConfig.Lines

/-- The characters of whitespace syntax. -/
structure SyntaxTable where
  white : Char → Bool
  plain : ∀ c ∈ ['\n', '#', 'i', 'e', '0'], white c = false

/-! ## The search -/

inductive Keyword where
  | «if»
  | «else»
  | endif
  deriving DecidableEq, Repr

def Keyword.chars : Keyword → List Char
  | .if => ['i', 'f']
  | .else => ['e', 'l', 's', 'e']
  | .endif => ['e', 'n', 'd', 'i', 'f']

/-- `\(if\|else\|endif\)` -/
def keywordAt (s : List Char) : Option Keyword :=
  [Keyword.if, .else, .endif].find? fun kw => kw.chars.isPrefixOf s

/-- `\s-*#\s-*\(if\|else\|endif\)`: the keyword and the length of the match. -/
def directiveAt (syn : SyntaxTable) (s : List Char) : Option (Keyword × Nat) :=
  match s.dropWhile syn.white with
  | '#' :: s' =>
    (keywordAt (s'.dropWhile syn.white)).map fun kw =>
      (kw, (s.takeWhile syn.white).length + 1 + (s'.takeWhile syn.white).length + kw.chars.length)
  | _ => none

/-- `\s-+0`: the length of the match. -/
def zeroAt (syn : SyntaxTable) (s : List Char) : Option Nat :=
  if s.takeWhile syn.white ≠ [] ∧ (s.dropWhile syn.white).head? = some '0' then
    some ((s.takeWhile syn.white).length + 1)
  else none

/-- A match, with the text after it. -/
structure Match where
  str : Keyword
  beginning : Nat
  «end» : Nat
  after : List Char
  deriving DecidableEq, Repr

/-- The next match that ends at or before `limit`, from position `pos` on. -/
def reSearchForward (syn : SyntaxTable) (limit pos : Nat) (bol : Bool) :
    List Char → Option Match
  | [] => none
  | c :: s =>
    match if bol then directiveAt syn (c :: s) else none with
    | some (kw, n) =>
      if pos + n ≤ limit then some ⟨kw, pos, pos + n, (c :: s).drop n⟩
      else reSearchForward syn limit (pos + 1) (c == '\n') s
    | none => reSearchForward syn limit (pos + 1) (c == '\n') s

/-- The matches of one search after the other. -/
def searches (syn : SyntaxTable) (limit : Nat) : Nat → Nat → Bool → List Char → List Match
  | 0, _, _, _ => []
  | fuel + 1, pos, bol, s =>
    match reSearchForward syn limit pos bol s with
    | none => []
    | some m => m :: searches syn limit fuel m.end false m.after

/-! ## The loop -/

structure State where
  depth : Int
  start : Option Nat
  startDepth : Int
  /-- What has been passed to `c-put-font-lock-face`, the last call included if
  it signalled. -/
  calls : List (Nat × Nat)
  deriving DecidableEq, Repr

/-- The range `put-text-property` accepts, with `size` characters. -/
def InRange (size : Nat) (r : Nat × Nat) : Prop :=
  r.1 = r.2 ∨ (1 ≤ min r.1 r.2 ∧ max r.1 r.2 ≤ size + 1)

instance (size : Nat) (r : Nat × Nat) : Decidable (InRange size r) :=
  inferInstanceAs (Decidable (_ ∨ _))

/-- `c-put-font-lock-face`; an error is `args-out-of-range`. -/
def cPutFontLockFace (size : Nat) (start stop : Nat) (st : State) : Except State State :=
  let st := { st with calls := st.calls ++ [(start, stop)] }
  if InRange size (start, stop) then .ok st else .error st

/-- At an `#else` or `#endif`: paints the region it ends. -/
def closeRegion (size : Nat) (st : State) (beginning : Nat) : Except State State :=
  match st.start with
  | some start =>
    if st.depth = st.startDepth then
      (cPutFontLockFace size start beginning st).map fun st => { st with start := some 0 }
    else .ok st
  | none => .ok st

/-- One turn of the loop. -/
def body (syn : SyntaxTable) (size : Nat) (st : State) (m : Match) : Except State State :=
  if m.str = .if then
    let st := { st with depth := st.depth + 1 }
    match st.start, zeroAt syn m.after with
    | none, some n => .ok { st with start := some (m.end + n), startDepth := st.depth }
    | _, _ => .ok st
  else
    (closeRegion size st m.beginning).map fun st =>
      if m.str = .endif then { st with depth := st.depth - 1 } else st

def runBody (syn : SyntaxTable) (size : Nat) (st : State) : List Match → Except State State
  | [] => .ok st
  | m :: ms =>
    match body syn size st m with
    | .ok st => runBody syn size st ms
    | .error st => .error st

def State.init : State := ⟨0, none, 0, []⟩

def fontLockIf0 (syn : SyntaxTable) (limit : Nat) (text : List Char) : Except State State :=
  match runBody syn text.length .init (searches syn limit text.length 1 true text) with
  | .error st => .error st
  | .ok st =>
    match st.start with
    | some start =>
      if 0 < st.depth then cPutFontLockFace text.length start limit st else .ok st
    | none => .ok st

/-- The state a run has stopped in. -/
def stateOf : Except State State → State
  | .ok st => st
  | .error st => st

/-- The character at `p` has been given the comment face, in a text of `size`
characters. -/
def Painted (size : Nat) (res : Except State State) (p : Nat) : Prop :=
  ∃ r ∈ (stateOf res).calls, InRange size r ∧ min r.1 r.2 ≤ p ∧ p < max r.1 r.2

instance (size : Nat) (res : Except State State) (p : Nat) : Decidable (Painted size res p) :=
  inferInstanceAs (Decidable (∃ r ∈ (stateOf res).calls, _))

/-! ## The directives of a text -/

inductive Kind where
  | «if»
  /-- An `#if 0` whose `0` ends before position `start`. -/
  | ifZero (start : Nat)
  | «else»
  | endif
  deriving DecidableEq, Repr

/-- A directive line: the line begins at `beginning`, its keyword ends before
`stop`. -/
structure Directive where
  kind : Kind
  beginning : Nat
  stop : Nat
  deriving DecidableEq, Repr

/-- The kind of a keyword that ends before `stop`, given what follows it. -/
def kindOf (syn : SyntaxTable) (stop : Nat) (after : List Char) : Keyword → Kind
  | .if =>
    match zeroAt syn after with
    | some n => .ifZero (stop + n)
    | none => .if
  | .else => .else
  | .endif => .endif

def Match.directive (syn : SyntaxTable) (m : Match) : Directive :=
  ⟨kindOf syn m.end m.after m.str, m.beginning, m.end⟩

/-- The directive on the line `l` that begins at position `p`. -/
def lineDirective (syn : SyntaxTable) (p : Nat) (l : List Char) : Option Directive :=
  (directiveAt syn l).map fun (kw, n) => ⟨kindOf syn (p + n) (l.drop n) kw, p, p + n⟩

def directivesFrom (syn : SyntaxTable) : Nat → List (List Char) → List Directive
  | _, [] => []
  | p, l :: ls => (lineDirective syn p l).toList ++ directivesFrom syn (p + l.length + 1) ls

/-- The directives of a text, line by line. -/
def directives (syn : SyntaxTable) (text : List Char) : List Directive :=
  directivesFrom syn 1 ((split '\n' text).1.map (·.1) ++ [(split '\n' text).2.1])

/-! ## A line is searched on its own -/

section
variable {syn : SyntaxTable}

theorem SyntaxTable.newline (syn : SyntaxTable) : syn.white '\n' = false :=
  syn.plain '\n' (by simp)

theorem span_newline {p : Char → Bool} (hp : p '\n' = false) (l t : List Char) :
    (l ++ '\n' :: t).takeWhile p = l.takeWhile p ∧
      (l ++ '\n' :: t).dropWhile p = l.dropWhile p ++ '\n' :: t := by
  induction l with
  | nil => simp [hp]
  | cons c l ih =>
    rw [List.cons_append, List.takeWhile_cons, List.dropWhile_cons, List.takeWhile_cons,
      List.dropWhile_cons]
    split
    · exact ⟨by rw [ih.1], ih.2⟩
    · exact ⟨rfl, rfl⟩

theorem isPrefixOf_newline {w : List Char} (hw : '\n' ∉ w) (l t : List Char) :
    w.isPrefixOf (l ++ '\n' :: t) = w.isPrefixOf l := by
  induction w generalizing l with
  | nil => simp
  | cons c w ih =>
    rw [List.mem_cons, not_or] at hw
    cases l with
    | nil => simp [List.isPrefixOf, Ne.symm hw.1]
    | cons d l => simp [List.isPrefixOf, ih hw.2]

theorem Keyword.newline (kw : Keyword) : '\n' ∉ kw.chars := by
  cases kw <;> decide

theorem keywordAt_newline (l t : List Char) : keywordAt (l ++ '\n' :: t) = keywordAt l := by
  unfold keywordAt
  congr 1
  funext kw
  exact isPrefixOf_newline kw.newline l t

theorem directiveAt_newline (l t : List Char) :
    directiveAt syn (l ++ '\n' :: t) = directiveAt syn l := by
  obtain ⟨h1, h2⟩ := span_newline syn.newline l t
  unfold directiveAt
  rw [h1, h2]
  cases l.dropWhile syn.white with
  | nil => rfl
  | cons c s =>
    by_cases hc : c = '#'
    · subst hc
      obtain ⟨h3, h4⟩ := span_newline syn.newline s t
      simp only [List.cons_append, h3, h4, keywordAt_newline]
    · simp [hc]

theorem zeroAt_newline (l t : List Char) : zeroAt syn (l ++ '\n' :: t) = zeroAt syn l := by
  obtain ⟨h1, h2⟩ := span_newline syn.newline l t
  unfold zeroAt
  rw [h1, h2]
  cases l.dropWhile syn.white <;> simp

theorem length_span (p : Char → Bool) (s : List Char) :
    (s.takeWhile p).length + (s.dropWhile p).length = s.length := by
  rw [← List.length_append, List.takeWhile_append_dropWhile]

theorem keywordAt_length {s : List Char} {kw : Keyword} (h : keywordAt s = some kw) :
    0 < kw.chars.length ∧ kw.chars.length ≤ s.length := by
  have hprefix := List.find?_some h
  rw [List.isPrefixOf_iff_prefix] at hprefix
  refine ⟨?_, hprefix.length_le⟩
  cases kw <;> decide

/-- A match is in its line, and not empty. -/
theorem directiveAt_length {l : List Char} {kw : Keyword} {n : Nat}
    (h : directiveAt syn l = some (kw, n)) : 0 < n ∧ n ≤ l.length := by
  have hspan := length_span syn.white l
  unfold directiveAt at h
  split at h
  · next s hs =>
    rw [hs, List.length_cons] at hspan
    obtain ⟨kw', hkw, heq⟩ := Option.map_eq_some_iff.1 h
    cases heq
    have hspan' := length_span syn.white s
    have hlen := keywordAt_length hkw
    omega
  · cases h

theorem zeroAt_length {l : List Char} {n : Nat} (h : zeroAt syn l = some n) :
    0 < n ∧ n ≤ l.length := by
  have hspan := length_span syn.white l
  unfold zeroAt at h
  split at h
  · next hzero =>
    cases h
    obtain ⟨s, hs⟩ := List.head?_eq_some_iff.1 hzero.2
    rw [hs, List.length_cons] at hspan
    omega
  · cases h

/-! ## The searches find the directives -/

variable {limit : Nat}

/-- From inside a line the search goes on at the next one. -/
theorem reSearchForward_inside {l : List Char} (hl : '\n' ∉ l) (p : Nat) (t : List Char) :
    reSearchForward syn limit p false (l ++ '\n' :: t) =
      reSearchForward syn limit (p + l.length + 1) true t := by
  induction l generalizing p with
  | nil => rfl
  | cons c l ih =>
    rw [List.mem_cons, not_or] at hl
    have hc : (c == '\n') = false := by simpa using Ne.symm hl.1
    rw [List.cons_append, reSearchForward]
    simp only [Bool.false_eq_true, if_false, hc]
    rw [ih hl.2, List.length_cons]
    congr 1
    omega

theorem reSearchForward_last {l : List Char} (hl : '\n' ∉ l) (p : Nat) :
    reSearchForward syn limit p false l = none := by
  induction l generalizing p with
  | nil => rfl
  | cons c l ih =>
    rw [List.mem_cons, not_or] at hl
    have hc : (c == '\n') = false := by simpa using Ne.symm hl.1
    rw [reSearchForward]
    simp only [Bool.false_eq_true, if_false, hc]
    exact ih hl.2 (p + 1)

theorem searches_congr {p p' : Nat} {b b' : Bool} {s s' : List Char}
    (h : reSearchForward syn limit p b s = reSearchForward syn limit p' b' s') (fuel : Nat) :
    searches syn limit fuel p b s = searches syn limit fuel p' b' s' := by
  cases fuel with
  | zero => rfl
  | succ fuel => simp only [searches, h]

/-- What the search finds at the beginning of a line: the directive of the line,
or what it finds after the first character. -/
theorem reSearchForward_bol (p : Nat) (c : Char) (s : List Char) :
    reSearchForward syn limit p true (c :: s) =
      match directiveAt syn (c :: s) with
      | some (kw, n) =>
        if p + n ≤ limit then some ⟨kw, p, p + n, (c :: s).drop n⟩
        else reSearchForward syn limit (p + 1) (c == '\n') s
      | none => reSearchForward syn limit (p + 1) (c == '\n') s := by
  rw [reSearchForward]
  rfl

theorem reSearchForward_empty (p : Nat) (t : List Char) :
    reSearchForward syn limit p true ('\n' :: t) =
      reSearchForward syn limit (p + 1) true t := by
  have hnone : directiveAt syn ('\n' :: t) = none := directiveAt_newline [] t
  rw [reSearchForward_bol, hnone]
  rfl

/-- `rest` is nothing or begins a new line, and the search from inside the line
before it finds `next`. -/
theorem reSearchForward_line {l rest : List Char} {p : Nat} {next : Option Match}
    (hl : '\n' ∉ l) (hrest : directiveAt syn (l ++ rest) = directiveAt syn l)
    (hin : ∀ q l', '\n' ∉ l' → q + l'.length = p + l.length →
      reSearchForward syn limit q false (l' ++ rest) = next)
    (hnil : l = [] → reSearchForward syn limit p true rest = next) :
    reSearchForward syn limit p true (l ++ rest) =
      match directiveAt syn l with
      | some (kw, n) => if p + n ≤ limit then some ⟨kw, p, p + n, l.drop n ++ rest⟩ else next
      | none => next := by
  cases l with
  | nil => exact hnil rfl
  | cons c l =>
    rw [List.mem_cons, not_or] at hl
    have hc : (c == '\n') = false := by simpa using Ne.symm hl.1
    have hnext := hin (p + 1) l hl.2 (by rw [List.length_cons]; omega)
    rw [List.cons_append] at hrest ⊢
    rw [reSearchForward_bol, hrest, hc, hnext]
    cases h : directiveAt syn (c :: l) with
    | none => rfl
    | some m =>
      obtain ⟨kw, n⟩ := m
      have hlen := (directiveAt_length h).2
      dsimp only
      rw [← List.cons_append, List.drop_append_of_le_length hlen]

variable (syn limit) in
/-- The directive of one line, if it ends in time. -/
theorem searches_line {l : List Char} (p fuel : Nat) (rest : List Char)
    (next : Option Match) (ds : List Directive) (hl : '\n' ∉ l)
    (hrest : directiveAt syn (l ++ rest) = directiveAt syn l)
    (hzero : ∀ n, n ≤ l.length → zeroAt syn (l.drop n ++ rest) = zeroAt syn (l.drop n))
    (hin : ∀ q l', '\n' ∉ l' → q + l'.length = p + l.length →
      reSearchForward syn limit q false (l' ++ rest) = next)
    (hnil : l = [] → reSearchForward syn limit p true rest = next)
    (hfuel : l.length ≤ fuel)
    (hms : ∀ f q b s, fuel ≤ f + l.length → reSearchForward syn limit q b s = next →
      (searches syn limit f q b s).map (Match.directive syn) = ds) :
    (searches syn limit fuel p true (l ++ rest)).map (Match.directive syn) =
      (lineDirective syn p l).toList.filter (·.stop ≤ limit) ++ ds := by
  have hline := reSearchForward_line hl hrest hin hnil
  unfold lineDirective
  cases h : directiveAt syn l with
  | none =>
    rw [h] at hline
    exact hms fuel p true (l ++ rest) (by omega) hline
  | some m =>
    obtain ⟨kw, n⟩ := m
    obtain ⟨hpos, hlen⟩ := directiveAt_length h
    rw [h] at hline
    dsimp only at hline
    by_cases hlimit : p + n ≤ limit
    · rw [if_pos hlimit] at hline
      obtain ⟨f, rfl⟩ : ∃ f, fuel = f + 1 := ⟨fuel - 1, by omega⟩
      have hdrop : '\n' ∉ l.drop n := fun hmem => hl (List.mem_of_mem_drop hmem)
      have hnext := hin (p + n) (l.drop n) hdrop (by rw [List.length_drop]; omega)
      have hds := hms f _ _ _ (by omega) hnext
      simp only [searches, hline, List.map_cons, hds]
      simp [Match.directive, kindOf, hzero n hlen, hlimit]
    · rw [if_neg hlimit] at hline
      rw [hms fuel p true (l ++ rest) (by omega) hline]
      simp [hlimit]

theorem searches_lines (ls : List (Line '\n')) (r : Line '\n') (p : Nat) {fuel : Nat}
    (hfuel : (ser ls ++ r.1).length ≤ fuel) :
    (searches syn limit fuel p true (ser ls ++ r.1)).map (Match.directive syn) =
      (directivesFrom syn p (ls.map (·.1) ++ [r.1])).filter (·.stop ≤ limit) := by
  induction ls generalizing p fuel with
  | nil =>
    have h := searches_line syn limit p fuel [] none [] r.2 (by rw [List.append_nil])
      (fun n _ => by rw [List.append_nil])
      (fun q l' hl' _ => by rw [List.append_nil]; exact reSearchForward_last hl' q)
      (fun _ => rfl) hfuel
      (fun f q b s _ hnone => by cases f <;> simp [searches, hnone])
    rw [List.append_nil] at h
    exact h.trans (by simp [directivesFrom])
  | cons l ls ih =>
    rw [ser, List.append_assoc, List.cons_append] at hfuel ⊢
    rw [List.length_append, List.length_cons] at hfuel
    have h := searches_line syn limit p fuel ('\n' :: (ser ls ++ r.1))
      (reSearchForward syn limit (p + l.1.length + 1) true (ser ls ++ r.1))
      ((directivesFrom syn (p + l.1.length + 1) (ls.map (·.1) ++ [r.1])).filter (·.stop ≤ limit))
      l.2 (directiveAt_newline l.1 _) (fun n _ => zeroAt_newline _ _)
      (fun q l' hl' hq => by rw [reSearchForward_inside hl', hq])
      (fun hnil => by rw [hnil, reSearchForward_empty]; rfl) (by omega)
      (fun f q b s hf heq => by
        rw [searches_congr heq]
        exact ih (p + l.1.length + 1) (by omega))
    rw [h]
    simp [directivesFrom]

/-- The searches find the directives that end at or before the limit. -/
theorem searches_eq_directives (limit : Nat) (text : List Char) :
    (searches syn limit text.length 1 true text).map (Match.directive syn) =
      (directives syn text).filter (·.stop ≤ limit) := by
  have htext := join_split '\n' text
  have hfuel := (congrArg List.length htext).le
  calc (searches syn limit text.length 1 true text).map (Match.directive syn)
    _ = (searches syn limit text.length 1 true
          (ser (split '\n' text).1 ++ (split '\n' text).2.1)).map (Match.directive syn) := by
        rw [htext]
    _ = _ := searches_lines _ _ 1 hfuel

/-! ## The directives in order -/

/-- The last position a directive determines. -/
def Directive.last (d : Directive) : Nat :=
  match d.kind with
  | .ifZero start => start
  | _ => d.stop

/-- A directive is on one line. -/
theorem lineDirective_spec {p : Nat} {l : List Char} {d : Directive}
    (h : lineDirective syn p l = some d) :
    d.beginning = p ∧ p < d.stop ∧ d.stop ≤ d.last ∧ d.last ≤ p + l.length := by
  obtain ⟨⟨kw, n⟩, hn, rfl⟩ := Option.map_eq_some_iff.1 h
  obtain ⟨hpos, hlen⟩ := directiveAt_length hn
  refine ⟨rfl, by dsimp only; omega, ?_⟩
  cases kw with
  | «if» =>
    cases hz : zeroAt syn (l.drop n) with
    | none => simp only [Directive.last, kindOf, hz]; omega
    | some k =>
      have hk := zeroAt_length hz
      rw [List.length_drop] at hk
      simp only [Directive.last, kindOf, hz]
      omega
  | «else» => simp only [Directive.last, kindOf]; omega
  | endif => simp only [Directive.last, kindOf]; omega

/-- Each directive ends in its line, before the next one begins. -/
def InOrder (ds : List Directive) : Prop :=
  ds.Pairwise (fun d d' => d.last < d'.beginning) ∧ ∀ d ∈ ds, 1 ≤ d.beginning ∧ d.beginning < d.last

theorem directivesFrom_bounds {ls : List (List Char)} {p : Nat} :
    ∀ d ∈ directivesFrom syn p ls, p ≤ d.beginning ∧ d.beginning < d.stop ∧ d.stop ≤ d.last ∧
      d.last < p + (ls.map (·.length + 1)).sum := by
  induction ls generalizing p with
  | nil => simp [directivesFrom]
  | cons l ls ih =>
    intro d hd
    rw [List.map_cons, List.sum_cons]
    rcases List.mem_append.1 hd with hd | hd
    · have := lineDirective_spec (Option.mem_toList.1 hd)
      omega
    · have := ih d hd
      omega

theorem directivesFrom_pairwise (ls : List (List Char)) (p : Nat) :
    (directivesFrom syn p ls).Pairwise (fun d d' => d.last < d'.beginning) := by
  induction ls generalizing p with
  | nil => exact List.Pairwise.nil
  | cons l ls ih =>
    refine List.pairwise_append.2 ⟨?_, ih _, ?_⟩
    · cases lineDirective syn p l <;> simp
    · intro d hd d' hd'
      have h1 := lineDirective_spec (Option.mem_toList.1 hd)
      have h2 := directivesFrom_bounds d' hd'
      omega

theorem directives_inOrder (text : List Char) : InOrder (directives syn text) := by
  refine ⟨directivesFrom_pairwise _ 1, fun d hd => ?_⟩
  have := directivesFrom_bounds d hd
  omega

theorem length_lines (ls : List (Line '\n')) (r : Line '\n') :
    ((ls.map (·.1) ++ [r.1]).map (·.length + 1)).sum = (ser ls ++ r.1).length + 1 := by
  induction ls with
  | nil => rfl
  | cons l ls ih =>
    rw [List.map_cons, List.cons_append, List.map_cons, List.sum_cons, ih, ser]
    simp
    omega

theorem directives_stop (text : List Char) :
    ∀ d ∈ directives syn text, d.stop ≤ d.last ∧ d.last ≤ text.length + 1 := by
  intro d hd
  have hbounds := directivesFrom_bounds d hd
  rw [length_lines, join_split] at hbounds
  omega

end

/-! ## Nested blocks -/

inductive Part where
  | text
  | branch
  deriving DecidableEq, Repr

/-- Properly nested directives: of a text, or of what follows a branch, which
begins with an `#else` or the `#endif`. -/
inductive Code : Part → Type where
  | done : Code .text
  | ifBlock (beginning stop : Nat) (first : Code .text) (rest : Code .branch) : Code .text
  | ifZeroBlock (beginning stop start : Nat) (first : Code .text) (rest : Code .branch) : Code .text
  | else (beginning stop : Nat) (branch : Code .text) (rest : Code .branch) : Code .branch
  | endif (beginning stop : Nat) (rest : Code .text) : Code .branch

namespace Code

/-- The directives, in the order of the text. -/
def flatten : {part : Part} → Code part → List Directive
  | _, .done => []
  | _, .ifBlock b e first rest => ⟨.if, b, e⟩ :: (first.flatten ++ rest.flatten)
  | _, .ifZeroBlock b e start first rest => ⟨.ifZero start, b, e⟩ :: (first.flatten ++ rest.flatten)
  | _, .else b e branch rest => ⟨.else, b, e⟩ :: (branch.flatten ++ rest.flatten)
  | _, .endif b e rest => ⟨.endif, b, e⟩ :: rest.flatten

/-- Where the branch before it ends. -/
def branchEnd : Code .branch → Nat
  | .else b _ _ _ => b
  | .endif b _ _ => b

/-- The disabled regions: for each `#if 0` outside of them, from behind the `0`
to the first `#else` or the `#endif` of the block. -/
def disabled : {part : Part} → Code part → List (Nat × Nat)
  | _, .done => []
  | _, .ifBlock _ _ first rest => first.disabled ++ rest.disabled
  | _, .ifZeroBlock _ _ start _ rest => (start, rest.branchEnd) :: rest.disabled
  | _, .else _ _ branch rest => branch.disabled ++ rest.disabled
  | _, .endif _ _ rest => rest.disabled

/-- What `c` does to the depth. -/
def shift : Part → Int
  | .text => 0
  | .branch => -1

end Code

/-- Position `p` is in a disabled region. -/
def Disabled (t : Code .text) (p : Nat) : Prop := ∃ r ∈ t.disabled, r.1 ≤ p ∧ p < r.2

instance (t : Code .text) (p : Nat) : Decidable (Disabled t p) :=
  inferInstanceAs (Decidable (∃ r ∈ t.disabled, _))

/-! ## The loop over directives -/

def stepDirective (size : Nat) (st : State) (d : Directive) : Except State State :=
  match d.kind with
  | .if => .ok { st with depth := st.depth + 1 }
  | .ifZero start =>
    match st.start with
    | none => .ok { st with depth := st.depth + 1, start := some start, startDepth := st.depth + 1 }
    | some _ => .ok { st with depth := st.depth + 1 }
  | .else => closeRegion size st d.beginning
  | .endif =>
    (closeRegion size st d.beginning).map fun st => { st with depth := st.depth - 1 }

/-- Goes on with the directives `ds` unless the loop has signalled. -/
def runDirectives (size : Nat) : Except State State → List Directive → Except State State
  | res, [] => res
  | .error st, _ :: _ => .error st
  | .ok st, d :: ds => runDirectives size (stepDirective size st d) ds

theorem runDirectives_error (size : Nat) (st : State) (ds : List Directive) :
    runDirectives size (.error st) ds = .error st := by
  cases ds <;> rfl

theorem runDirectives_append (size : Nat) (res : Except State State) (ds es : List Directive) :
    runDirectives size res (ds ++ es) = runDirectives size (runDirectives size res ds) es := by
  induction ds generalizing res with
  | nil => rfl
  | cons d ds ih =>
    cases res with
    | error st => simp [runDirectives_error]
    | ok st => exact ih _

theorem body_eq (syn : SyntaxTable) (size : Nat) (st : State) (m : Match) :
    body syn size st m = stepDirective size st (m.directive syn) := by
  obtain ⟨str, beginning, stop, after⟩ := m
  cases str with
  | «if» =>
    simp only [body, stepDirective, Match.directive, kindOf, if_true]
    cases st.start <;> cases zeroAt syn after <;> rfl
  | «else» =>
    simp only [body, stepDirective, Match.directive, kindOf, reduceCtorEq, if_false]
    cases closeRegion size st beginning <;> rfl
  | endif => simp [body, stepDirective, Match.directive, kindOf]

theorem runBody_eq (syn : SyntaxTable) (size : Nat) (st : State) (ms : List Match) :
    runBody syn size st ms = runDirectives size (.ok st) (ms.map (Match.directive syn)) := by
  induction ms generalizing st with
  | nil => rfl
  | cons m ms ih =>
    rw [runBody, body_eq, List.map_cons]
    show _ = runDirectives size (stepDirective size st (m.directive syn)) _
    cases stepDirective size st (m.directive syn) with
    | ok st' => exact ih st'
    | error st' => rw [runDirectives_error]

/-! ## Inside and after a region -/

section
variable {size : Nat}

def State.deepen (st : State) (n : Int) : State := { st with depth := st.depth + n }

@[simp] theorem State.deepen_depth (st : State) (n : Int) :
    (st.deepen n).depth = st.depth + n := rfl

@[simp] theorem State.deepen_start (st : State) (n : Int) : (st.deepen n).start = st.start := rfl

@[simp] theorem State.deepen_startDepth (st : State) (n : Int) :
    (st.deepen n).startDepth = st.startDepth := rfl

@[simp] theorem State.deepen_deepen (st : State) (m n : Int) :
    (st.deepen m).deepen n = st.deepen (m + n) := by
  simp [State.deepen, Int.add_assoc]

@[simp] theorem State.deepen_zero (st : State) : st.deepen 0 = st := by
  simp [State.deepen]

theorem runDirectives_cons {st st' : State} {d : Directive}
    (h : stepDirective size st d = .ok st') (ds : List Directive) :
    runDirectives size (.ok st) (d :: ds) = runDirectives size (.ok st') ds := by
  rw [← h]
  rfl

theorem step_if (st : State) (b e : Nat) :
    stepDirective size st ⟨.if, b, e⟩ = .ok (st.deepen 1) := rfl

theorem step_ifZero {st : State} {s : Nat} (h : st.start = some s) (start b e : Nat) :
    stepDirective size st ⟨.ifZero start, b, e⟩ = .ok (st.deepen 1) := by
  simp only [stepDirective, h, State.deepen]

/-- An `#else` or `#endif` that ends no region. -/
theorem step_branch {st : State} (h : st.start = none ∨ st.depth ≠ st.startDepth) (b e : Nat) :
    stepDirective size st ⟨.else, b, e⟩ = .ok st ∧
      stepDirective size st ⟨.endif, b, e⟩ = .ok (st.deepen (-1)) := by
  have hclose : closeRegion size st b = .ok st := by
    unfold closeRegion
    rcases h with h | h
    · rw [h]
    · cases st.start with
      | none => rfl
      | some s => exact if_neg h
  refine ⟨hclose, ?_⟩
  show (closeRegion size st b).map _ = _
  rw [hclose]
  rfl

/-- Within a disabled region nothing happens but to the depth. -/
theorem runDirectives_inside {part : Part} (t : Code part) (st : State) {s : Nat}
    (hstart : st.start = some s) (hdepth : st.startDepth ≤ st.depth + Code.shift part) :
    runDirectives size (.ok st) t.flatten = .ok (st.deepen (Code.shift part)) := by
  -- a block is entered one level deeper, so its #else and #endif are above `startDepth`
  induction t generalizing st with
  | done => simp [Code.flatten, runDirectives, Code.shift]
  | ifBlock b e first rest ih1 ih2 =>
    simp only [Code.shift] at hdepth ih1 ih2 ⊢
    have h1 := ih1 (st.deepen 1) hstart (by simp; omega)
    have h2 := ih2 ((st.deepen 1).deepen 0) hstart (by simp; omega)
    rw [Code.flatten, runDirectives_cons (step_if st b e), runDirectives_append, h1, h2]
    simp
  | ifZeroBlock b e start first rest ih1 ih2 =>
    simp only [Code.shift] at hdepth ih1 ih2 ⊢
    have h1 := ih1 (st.deepen 1) hstart (by simp; omega)
    have h2 := ih2 ((st.deepen 1).deepen 0) hstart (by simp; omega)
    rw [Code.flatten, runDirectives_cons (step_ifZero hstart start b e), runDirectives_append,
      h1, h2]
    simp
  | «else» b e branch rest ih1 ih2 =>
    simp only [Code.shift] at hdepth ih1 ih2 ⊢
    have hstep : stepDirective size st ⟨.else, b, e⟩ = .ok st :=
      (step_branch (.inr (by omega)) b e).1
    have h1 := ih1 st hstart (by omega)
    have h2 := ih2 (st.deepen 0) hstart (by simp; omega)
    rw [Code.flatten, runDirectives_cons hstep, runDirectives_append, h1, h2]
    simp
  | endif b e rest ih =>
    simp only [Code.shift] at hdepth ih ⊢
    have hstep : stepDirective size st ⟨.endif, b, e⟩ = .ok (st.deepen (-1)) :=
      (step_branch (.inr (by omega)) b e).2
    have h := ih (st.deepen (-1)) hstart (by simp; omega)
    rw [Code.flatten, runDirectives_cons hstep, h]
    simp

/-- The calls that have painted something. -/
def paintedCalls (size : Nat) (res : Except State State) : List (Nat × Nat) :=
  (stateOf res).calls.filter fun r => InRange size r

/-- Once `start` is 0 it stays so, and nothing more is painted. -/
def Spent (size : Nat) (calls : List (Nat × Nat)) (res : Except State State) : Prop :=
  paintedCalls size res = calls ∧ ∀ st, res = .ok st → st.start = some 0

theorem cPutFontLockFace_zero (size : Nat) {stop : Nat} (hstop : 1 ≤ stop) (st : State) :
    cPutFontLockFace size 0 stop st = .error { st with calls := st.calls ++ [(0, stop)] } ∧
      paintedCalls size (cPutFontLockFace size 0 stop st) = paintedCalls size (.ok st) := by
  have hrange : ¬ InRange size (0, stop) := by
    simp only [InRange]
    omega
  have hput : cPutFontLockFace size 0 stop st =
      .error { st with calls := st.calls ++ [(0, stop)] } := if_neg hrange
  refine ⟨hput, ?_⟩
  rw [hput]
  simp [paintedCalls, stateOf, hrange]

theorem spent_stepDirective {calls : List (Nat × Nat)} {st : State} (h : Spent size calls (.ok st))
    {d : Directive} (hd : 1 ≤ d.beginning) : Spent size calls (stepDirective size st d) := by
  obtain ⟨hcalls, hstart⟩ := h
  replace hstart := hstart st rfl
  have hclose : Spent size calls (closeRegion size st d.beginning) := by
    obtain ⟨hput, hpaint⟩ := cPutFontLockFace_zero size hd st
    unfold closeRegion
    rw [hstart]
    dsimp only
    split
    · rw [hput] at hpaint ⊢
      exact ⟨hpaint.trans hcalls, nofun⟩
    · exact ⟨hcalls, fun st' h => by cases h; exact hstart⟩
  unfold stepDirective
  split
  · exact ⟨hcalls, fun st' h => by cases h; exact hstart⟩
  · rw [hstart]
    exact ⟨hcalls, fun st' h => by cases h; rfl⟩
  · exact hclose
  · cases hres : closeRegion size st d.beginning with
    | ok st' =>
      rw [hres] at hclose
      exact ⟨hclose.1, fun st'' h => by cases h; exact hclose.2 st' rfl⟩
    | error st' =>
      rw [hres] at hclose
      exact ⟨hclose.1, nofun⟩

theorem spent_runDirectives {calls : List (Nat × Nat)} {ds : List Directive}
    (hds : ∀ d ∈ ds, 1 ≤ d.beginning) {res : Except State State} (h : Spent size calls res) :
    Spent size calls (runDirectives size res ds) := by
  induction ds generalizing res with
  | nil => exact h
  | cons d ds ih =>
    cases res with
    | error st => exact h
    | ok st =>
      exact ih (fun d' hd' => hds d' (List.mem_cons_of_mem _ hd'))
        (spent_stepDirective h (hds d List.mem_cons_self))

/-- With `start` nil the directives `ds` either disable nothing and move the
depth by `n`, or the first disabled region is painted and no other one is. -/
def Outside (size : Nat) (st : State) (ds : List Directive) (regions : List (Nat × Nat))
    (n : Int) : Prop :=
  (regions = [] → runDirectives size (.ok st) ds = .ok (st.deepen n)) ∧
    ∀ r rs, regions = r :: rs →
      Spent size (paintedCalls size (.ok st) ++ [r]) (runDirectives size (.ok st) ds)

theorem Outside.append {st : State} {ds es : List Directive} {rs ss : List (Nat × Nat)} {m n : Int}
    (hds : Outside size st ds rs m) (hes : Outside size (st.deepen m) es ss n)
    (hbeg : ∀ d ∈ es, 1 ≤ d.beginning) : Outside size st (ds ++ es) (rs ++ ss) (m + n) := by
  unfold Outside
  rw [runDirectives_append]
  cases rs with
  | nil =>
    rw [hds.1 rfl, List.nil_append, ← State.deepen_deepen]
    exact hes
  | cons r rs =>
    refine ⟨nofun, fun r' rs' h => ?_⟩
    cases h
    exact spent_runDirectives hbeg (hds.2 _ _ rfl)

theorem Outside.cons {st : State} {d : Directive} {ds : List Directive}
    {rs : List (Nat × Nat)} {m n : Int} (hd : stepDirective size st d = .ok (st.deepen m))
    (hds : Outside size (st.deepen m) ds rs n) : Outside size st (d :: ds) rs (m + n) := by
  unfold Outside
  rw [runDirectives_cons hd, ← State.deepen_deepen]
  exact hds

/-- The `#else` or `#endif` that ends the open region paints it. -/
theorem spent_branch (t : Code .branch) {st : State} {s : Nat} (hstart : st.start = some s)
    (hdepth : st.depth = st.startDepth) (hbeg : ∀ d ∈ t.flatten, 1 ≤ d.beginning)
    (hrange : InRange size (s, t.branchEnd)) :
    Spent size (paintedCalls size (.ok st) ++ [(s, t.branchEnd)])
      (runDirectives size (.ok st) t.flatten) := by
  let st' : State := { st with start := some 0, calls := st.calls ++ [(s, t.branchEnd)] }
  have hclose : closeRegion size st t.branchEnd = .ok st' := by
    unfold closeRegion cPutFontLockFace
    rw [hstart]
    simp only [hdepth, if_true, if_pos hrange]
    simp [Except.map, st', hdepth]
  have hspent (n : Int) : Spent size (paintedCalls size (.ok st) ++ [(s, t.branchEnd)])
      (.ok (st'.deepen n)) :=
    ⟨by simp [paintedCalls, stateOf, State.deepen, st', hrange], fun _ h => by cases h; rfl⟩
  cases t with
  | «else» b e branch rest =>
    have hstep : stepDirective size st ⟨.else, b, e⟩ = .ok st' := hclose
    rw [Code.flatten, runDirectives_cons hstep]
    refine spent_runDirectives (fun d hd => hbeg d (List.mem_cons_of_mem _ hd)) ?_
    simpa using hspent 0
  | endif b e rest =>
    have hstep : stepDirective size st ⟨.endif, b, e⟩ = .ok (st'.deepen (-1)) := by
      show (closeRegion size st b).map _ = _
      rw [show closeRegion size st b = .ok st' from hclose]
      rfl
    rw [Code.flatten, runDirectives_cons hstep]
    exact spent_runDirectives (fun d hd => hbeg d (List.mem_cons_of_mem _ hd)) (hspent (-1))

theorem runDirectives_outside {part : Part} (t : Code part) (st : State) (hstart : st.start = none)
    (hbeg : ∀ d ∈ t.flatten, 1 ≤ d.beginning) (hrange : ∀ r ∈ t.disabled, InRange size r) :
    Outside size st t.flatten t.disabled (Code.shift part) := by
  induction t generalizing st with
  | done => exact ⟨fun _ => by simp [Code.flatten, runDirectives, Code.shift], nofun⟩
  | ifBlock b e first rest ih1 ih2 =>
    simp only [Code.flatten, Code.disabled, List.forall_mem_cons, List.forall_mem_append]
      at hbeg hrange ⊢
    have h1 := ih1 (st.deepen 1) hstart hbeg.2.1 hrange.1
    have h2 := ih2 ((st.deepen 1).deepen 0) hstart hbeg.2.2 hrange.2
    exact (h1.append h2 hbeg.2.2).cons (step_if st b e)
  | ifZeroBlock b e start first rest ih1 ih2 =>
    simp only [Code.flatten, Code.disabled, List.forall_mem_cons, List.forall_mem_append]
      at hbeg hrange ⊢
    refine ⟨nofun, fun r rs h => ?_⟩
    cases h
    let st' : State := { st.deepen 1 with start := some start, startDepth := st.depth + 1 }
    have hstep : stepDirective size st ⟨.ifZero start, b, e⟩ = .ok st' := by
      simp only [stepDirective, hstart, State.deepen, st']
    have hfirst : runDirectives size (.ok st') first.flatten = .ok (st'.deepen 0) :=
      runDirectives_inside first st' rfl (by simp [st', Code.shift])
    rw [runDirectives_cons hstep, runDirectives_append, hfirst, State.deepen_zero]
    exact spent_branch rest rfl rfl hbeg.2.2 hrange.1
  | «else» b e branch rest ih1 ih2 =>
    simp only [Code.flatten, Code.disabled, List.forall_mem_cons, List.forall_mem_append]
      at hbeg hrange ⊢
    have h1 := ih1 (st.deepen 0) hstart hbeg.2.1 hrange.1
    have h2 := ih2 ((st.deepen 0).deepen 0) hstart hbeg.2.2 hrange.2
    have hstep : stepDirective size st ⟨.else, b, e⟩ = .ok (st.deepen 0) := by
      rw [State.deepen_zero]
      exact (step_branch (.inl hstart) b e).1
    exact (h1.append h2 hbeg.2.2).cons hstep
  | endif b e rest ih =>
    simp only [Code.flatten, Code.disabled, List.forall_mem_cons] at hbeg hrange ⊢
    have hstep : stepDirective size st ⟨.endif, b, e⟩ = .ok (st.deepen (-1)) :=
      (step_branch (.inl hstart) b e).2
    exact (ih (st.deepen (-1)) hstart hbeg.2 hrange).cons hstep

/-! ## The regions in order -/

theorem inOrder_cons {d : Directive} {ds : List Directive} :
    InOrder (d :: ds) ↔ (1 ≤ d.beginning ∧ d.beginning < d.last) ∧
      (∀ d' ∈ ds, d.last < d'.beginning) ∧ InOrder ds := by
  simp only [InOrder, List.pairwise_cons, List.forall_mem_cons]
  tauto

theorem inOrder_append {ds es : List Directive} :
    InOrder (ds ++ es) ↔ InOrder ds ∧ InOrder es ∧ ∀ d ∈ ds, ∀ e ∈ es, d.last < e.beginning := by
  simp only [InOrder, List.pairwise_append, List.forall_mem_append]
  tauto

theorem branchEnd_spec (t : Code .branch) (h : InOrder t.flatten) :
    (∃ d ∈ t.flatten, d.beginning = t.branchEnd) ∧ ∀ d ∈ t.flatten, t.branchEnd ≤ d.beginning := by
  have hfirst (d : Directive) (ds : List Directive) (hds : InOrder (d :: ds)) :
      (∃ d' ∈ d :: ds, d'.beginning = d.beginning) ∧
        ∀ d' ∈ d :: ds, d.beginning ≤ d'.beginning := by
    refine ⟨⟨d, List.mem_cons_self, rfl⟩, fun d' hd' => ?_⟩
    obtain ⟨⟨-, hd⟩, hlt, -⟩ := inOrder_cons.1 hds
    rcases List.mem_cons.1 hd' with rfl | hd'
    · exact le_rfl
    · have := hlt d' hd'
      omega
  cases t with
  | «else» b e branch rest => exact hfirst _ _ h
  | endif b e rest => exact hfirst _ _ h

/-- The regions `rs` are not empty, end before the next one begins, and have
their ends from the directives `ds`. -/
def RegionsOf (ds : List Directive) (rs : List (Nat × Nat)) : Prop :=
  (rs.Pairwise fun r r' => r.2 ≤ r'.1) ∧
    ∀ r ∈ rs, r.1 < r.2 ∧ (∃ d ∈ ds, d.last = r.1) ∧ ∃ d ∈ ds, d.beginning = r.2

theorem RegionsOf.cons {ds : List Directive} {rs : List (Nat × Nat)} (h : RegionsOf ds rs)
    (d : Directive) : RegionsOf (d :: ds) rs := by
  refine ⟨h.1, fun r hr => ?_⟩
  obtain ⟨hlt, ⟨d1, hd1, h1⟩, ⟨d2, hd2, h2⟩⟩ := h.2 r hr
  exact ⟨hlt, ⟨d1, List.mem_cons_of_mem _ hd1, h1⟩, ⟨d2, List.mem_cons_of_mem _ hd2, h2⟩⟩

theorem RegionsOf.append {ds es : List Directive} {rs ss : List (Nat × Nat)}
    (h : RegionsOf ds rs) (h' : RegionsOf es ss) (horder : InOrder (ds ++ es)) :
    RegionsOf (ds ++ es) (rs ++ ss) := by
  obtain ⟨⟨-, hds⟩, ⟨-, hes⟩, hlt⟩ := inOrder_append.1 horder
  refine ⟨List.pairwise_append.2 ⟨h.1, h'.1, fun r hr r' hr' => ?_⟩, fun r hr => ?_⟩
  · obtain ⟨-, -, d, hd, hr2⟩ := h.2 r hr
    obtain ⟨-, ⟨d', hd', hr1⟩, -⟩ := h'.2 r' hr'
    have h1 := hds d hd
    have h2 := hes d' hd'
    have h3 := hlt d hd d' hd'
    omega
  · rcases List.mem_append.1 hr with hr | hr
    · obtain ⟨hlt, ⟨d1, hd1, h1⟩, ⟨d2, hd2, h2⟩⟩ := h.2 r hr
      exact ⟨hlt, ⟨d1, List.mem_append_left _ hd1, h1⟩, ⟨d2, List.mem_append_left _ hd2, h2⟩⟩
    · obtain ⟨hlt, ⟨d1, hd1, h1⟩, ⟨d2, hd2, h2⟩⟩ := h'.2 r hr
      exact ⟨hlt, ⟨d1, List.mem_append_right _ hd1, h1⟩, ⟨d2, List.mem_append_right _ hd2, h2⟩⟩

theorem disabled_regionsOf {part : Part} (t : Code part) (h : InOrder t.flatten) :
    RegionsOf t.flatten t.disabled := by
  induction t with
  | done => exact ⟨List.Pairwise.nil, nofun⟩
  | ifBlock b e first rest ih1 ih2 =>
    obtain ⟨-, -, hrest⟩ := inOrder_cons.1 h
    obtain ⟨h1, h2, -⟩ := inOrder_append.1 hrest
    exact ((ih1 h1).append (ih2 h2) hrest).cons _
  | ifZeroBlock b e start first rest ih1 ih2 =>
    obtain ⟨-, hlast, hrest⟩ := inOrder_cons.1 h
    obtain ⟨-, h2, -⟩ := inOrder_append.1 hrest
    obtain ⟨⟨d, hd, hend⟩, hle⟩ := branchEnd_spec rest h2
    obtain ⟨hpair, hregions⟩ := ih2 h2
    have hstart := hlast d (List.mem_append_right _ hd)
    refine ⟨List.pairwise_cons.2 ⟨fun r hr => ?_, hpair⟩, fun r hr => ?_⟩
    · obtain ⟨-, ⟨d', hd', hr1⟩, -⟩ := hregions r hr
      have h1 := hle d' hd'
      have h2 := h2.2 d' hd'
      dsimp only
      omega
    · rcases List.mem_cons.1 hr with rfl | hr
      · refine ⟨?_, ⟨_, List.mem_cons_self, rfl⟩,
          ⟨d, List.mem_cons_of_mem _ (List.mem_append_right _ hd), hend⟩⟩
        rw [← hend]
        exact hstart
      · obtain ⟨hlt, ⟨d1, hd1, h1⟩, ⟨d2, hd2, h2⟩⟩ := hregions r hr
        exact ⟨hlt, ⟨d1, List.mem_cons_of_mem _ (List.mem_append_right _ hd1), h1⟩,
          ⟨d2, List.mem_cons_of_mem _ (List.mem_append_right _ hd2), h2⟩⟩
  | «else» b e branch rest ih1 ih2 =>
    obtain ⟨-, -, hrest⟩ := inOrder_cons.1 h
    obtain ⟨h1, h2, -⟩ := inOrder_append.1 hrest
    exact ((ih1 h1).append (ih2 h2) hrest).cons _
  | endif b e rest ih =>
    obtain ⟨-, -, hrest⟩ := inOrder_cons.1 h
    exact (ih hrest).cons _

end

/-! ## The whole function -/

/-- In a properly nested text the first disabled region is painted, and no other
one. -/
theorem fontLockIf0_calls (syn : SyntaxTable) {text : List Char} {t : Code .text}
    (ht : directives syn text = t.flatten) :
    paintedCalls text.length (fontLockIf0 syn (text.length + 1) text) = t.disabled.take 1 := by
  have horder : InOrder t.flatten := ht ▸ directives_inOrder text
  have hstop : ∀ d ∈ t.flatten, d.stop ≤ d.last ∧ d.last ≤ text.length + 1 :=
    ht ▸ directives_stop text
  have hrange : ∀ r ∈ t.disabled, InRange text.length r := by
    intro r hr
    obtain ⟨hlt, ⟨d, hd, h1⟩, ⟨d', hd', h2⟩⟩ := (disabled_regionsOf t horder).2 r hr
    have := horder.2 d hd
    have := horder.2 d' hd'
    have := hstop d' hd'
    simp only [InRange]
    omega
  have hsearch : (searches syn (text.length + 1) text.length 1 true text).map
      (Match.directive syn) = t.flatten := by
    rw [searches_eq_directives, ht, List.filter_eq_self]
    intro d hd
    have := hstop d hd
    exact decide_eq_true (by omega)
  have hout := runDirectives_outside t .init rfl (fun d hd => (horder.2 d hd).1) hrange
  unfold fontLockIf0
  rw [runBody_eq, hsearch]
  cases hdis : t.disabled with
  | nil =>
    rw [hout.1 hdis]
    rfl
  | cons r rs =>
    obtain ⟨hcalls, hstart⟩ := hout.2 r rs hdis
    cases hres : runDirectives text.length (.ok .init) t.flatten with
    | error st =>
      rw [hres] at hcalls
      exact hcalls
    | ok st =>
      rw [hres] at hcalls
      have hzero := (cPutFontLockFace_zero text.length (Nat.le_add_left 1 text.length) st).2
      dsimp only
      rw [hstart st hres]
      dsimp only
      split
      · exact hzero.trans hcalls
      · exact hcalls

theorem painted_iff {size : Nat} {res : Except State State} {p : Nat} :
    Painted size res p ↔ ∃ r ∈ paintedCalls size res, min r.1 r.2 ≤ p ∧ p < max r.1 r.2 := by
  simp [Painted, paintedCalls, and_assoc]

/-- **What the function paints** in a properly nested text: the disabled regions,
no more and no less, exactly if there is at most one. -/
theorem fontLockIf0_paints_iff (syn : SyntaxTable) (text : List Char) (t : Code .text)
    (ht : directives syn text = t.flatten) :
    (∀ p, Painted text.length (fontLockIf0 syn (text.length + 1) text) p ↔ Disabled t p) ↔
      t.disabled.length ≤ 1 := by
  have horder : InOrder t.flatten := ht ▸ directives_inOrder text
  obtain ⟨hpair, hregions⟩ := disabled_regionsOf t horder
  simp only [painted_iff, fontLockIf0_calls syn ht, Disabled]
  generalize t.disabled = rs at hpair hregions ⊢
  match rs with
  | [] => simp
  | [r] =>
    have hlt := (hregions r List.mem_cons_self).1
    refine iff_of_true (fun p => ?_) (Nat.le_refl 1)
    simp only [List.take_succ_cons, List.take_zero, List.mem_singleton, exists_eq_left]
    omega
  | r :: r' :: rs =>
    -- where the second region begins nothing is painted
    refine iff_of_false (fun h => ?_) (by simp)
    have hlt := (hregions r' (by simp)).1
    have hr := (hregions r List.mem_cons_self).1
    have hle := (List.pairwise_cons.1 hpair).1 r' List.mem_cons_self
    obtain ⟨q, hq, hpaint⟩ := (h r'.1).2 ⟨r', by simp, le_rfl, hlt⟩
    obtain rfl : q = r := by simpa using hq
    omega

/-- Blanks and tabs are white. -/
def blanks : SyntaxTable := ⟨fun c => c = ' ' ∨ c = '\t', by simp⟩

/-- An `#ifdef` around a disabled block with an `#else`. -/
theorem fontLockIf0_paints_iff_else :
    let text := "#ifdef A\n # if 0\nx\n#if B\n#endif\n#else\ny\n#endif\n#endif\n".toList
    let t : Code .text :=
      .ifBlock 1 4 (.ifZeroBlock 10 15 17 (.ifBlock 20 23 .done (.endif 26 32 .done))
        (.else 33 38 .done (.endif 41 47 .done))) (.endif 48 54 .done)
    ∀ p, Painted text.length (fontLockIf0 blanks (text.length + 1) text) p ↔ Disabled t p :=
  (fontLockIf0_paints_iff blanks _ _ (by decide)).2 (by decide)

/-- Of two disabled blocks one after the other the second is not painted. -/
theorem not_paints_second :
    let text := "#if 0\nx\n#endif\n#if 0\ny\n#endif\n".toList
    let t : Code .text :=
      .ifZeroBlock 1 4 6 .done (.endif 9 15 (.ifZeroBlock 16 19 21 .done (.endif 24 30 .done)))
    directives blanks text = t.flatten ∧
      ¬ ∀ p, Painted text.length (fontLockIf0 blanks (text.length + 1) text) p ↔ Disabled t p := by
  refine ⟨by decide, fun h => ?_⟩
  exact absurd ((h 22).2 (by decide)) (by decide)

end EmacsConfig.FontLockIf0
