import Mathlib.Data.List.Nodup
import EmacsConfig.Lib.Runs

/-!
# `highlight-symbol`

The buffer-local state of `highlight-symbol.el` with the redefinition of
`highlight-symbol-temp-highlight` and the after-advice on
`highlight-symbol-mode`: one temporary symbol, a list of permanent ones, and
the hi-lock patterns they install. `Inv` ties the three together; every command
keeps it (`inv_step`), so it holds after every run.
-/

namespace EmacsConfig.HighlightSymbol

open EmacsConfig.Runs

/-- What a hi-lock pattern paints with. `color` is the attribute list
`((background-color . c) (foreground-color . "black"))`. -/
inductive Face where
  | highlightSymbolFace
  | color (background : Option String)
  deriving DecidableEq, Repr

structure Pattern where
  regexp : String
  face : Face
  deriving DecidableEq, Repr

/-- The buffer-local variables. `interactivePatterns` is
`hi-lock-interactive-patterns`; `postCommandHook` says whether
`highlight-symbol-mode-post-command` is on the local `post-command-hook`. -/
structure Buffer where
  highlightSymbolMode : Bool
  highlightSymbol : Option String
  highlightSymbolList : List String
  highlightSymbolColorIndex : Nat
  hiLockMode : Bool
  interactivePatterns : List Pattern
  postCommandHook : Bool

structure Config where
  emacsMajorVersion : Nat
  highlightSymbolColors : List String :=
    ["yellow", "DeepPink", "cyan", "MediumPurple1", "SpringGreen1", "DarkOrange", "HotPink1",
      "RoyalBlue1", "OliveDrab"]

/-! ## hi-lock -/

def hiLockSetPattern (patterns : List Pattern) (regexp : String) (face : Face) : List Pattern :=
  if ⟨regexp, face⟩ ∈ patterns then patterns else ⟨regexp, face⟩ :: patterns

/-- Removes the first pattern with this regexp, if there is one. -/
def hiLockUnfaceBuffer (patterns : List Pattern) (regexp : String) : List Pattern :=
  patterns.eraseP (·.regexp == regexp)

/-! ## Symbols -/

def regexpQuote (s : String) : String :=
  String.ofList (s.toList.flatMap fun c =>
    if c ∈ ['[', '*', '.', '\\', '?', '+', '^', '$'] then ['\\', c] else [c])

def borderPattern (cfg : Config) : String × String :=
  if 22 ≤ cfg.emacsMajorVersion then ("\\_<", "\\_>") else ("\\<", "\\>")

/-- `highlight-symbol-get-symbol`: the regexp of the symbol at point. -/
def getSymbol (cfg : Config) (symbolAtPoint : Option String) : Option String :=
  symbolAtPoint.map fun s => (borderPattern cfg).1 ++ regexpQuote s ++ (borderPattern cfg).2

/-- `(member symbol list)`, with nil for no symbol. -/
def member (symbol : Option String) (list : List String) : Bool :=
  symbol.any (list.contains ·)

/-! ## Commands -/

/-- `highlight-symbol-mode-remove-temp` -/
def removeTemp (b : Buffer) : Buffer :=
  match b.highlightSymbol with
  | none => b
  | some r =>
    { b with
      interactivePatterns := hiLockUnfaceBuffer b.interactivePatterns r
      highlightSymbol := none }

/-- The face of a temporary pattern; hi-lock takes no face before Emacs 22. -/
def tempFace (cfg : Config) : Face :=
  if cfg.emacsMajorVersion < 22 then .color (some "grey") else .highlightSymbolFace

/-- `highlight-symbol-temp-highlight`, as redefined. -/
def tempHighlight (cfg : Config) (symbolAtPoint : Option String) (b : Buffer) : Buffer :=
  if b.highlightSymbolMode then
    let symbol := getSymbol cfg symbolAtPoint
    if symbol = b.highlightSymbol ∨ member symbol b.highlightSymbolList then b
    else
      let b := removeTemp b
      match symbol with
      | none => b
      | some r =>
        { b with
          highlightSymbol := some r
          interactivePatterns := hiLockSetPattern b.interactivePatterns r (tempFace cfg) }
  else b

/-- The next colour and the colour index after it. Past the last colour the
first one is taken and the index restarts at 1. -/
def nextColor (cfg : Config) (b : Buffer) : Option String × Nat :=
  match cfg.highlightSymbolColors[b.highlightSymbolColorIndex]? with
  | some c => (some c, b.highlightSymbolColorIndex + 1)
  | none => (cfg.highlightSymbolColors.head?, 1)

/-- `highlight-symbol-at-point` -/
def atPoint (cfg : Config) (symbolAtPoint : Option String) (b : Buffer) : Except String Buffer :=
  match getSymbol cfg symbolAtPoint with
  | none => .error "No symbol at point"
  | some r =>
    let b := { b with hiLockMode := true }
    if r ∈ b.highlightSymbolList then
      .ok { b with
        highlightSymbolList := b.highlightSymbolList.filter (· ≠ r)
        interactivePatterns := hiLockUnfaceBuffer b.interactivePatterns r }
    else
      let b := if some r = b.highlightSymbol then removeTemp b else b
      .ok { b with
        highlightSymbolColorIndex := (nextColor cfg b).2
        interactivePatterns := hiLockSetPattern b.interactivePatterns r (.color (nextColor cfg b).1)
        highlightSymbolList := r :: b.highlightSymbolList }

/-- `highlight-symbol-remove-all` -/
def removeAll (b : Buffer) : Buffer :=
  { b with
    interactivePatterns := b.highlightSymbolList.foldl hiLockUnfaceBuffer b.interactivePatterns
    highlightSymbolList := [] }

/-- The body of the minor mode, before the advice. -/
def modeBody (on : Bool) (b : Buffer) : Buffer :=
  let b := { b with highlightSymbolMode := on }
  if on then { b with hiLockMode := true, postCommandHook := true }
  else { removeTemp { b with postCommandHook := false } with highlightSymbol := none }

/-- `highlight-symbol-mode` with its after-advice `disable`. -/
def highlightSymbolMode (on : Bool) (b : Buffer) : Buffer :=
  { modeBody on b with postCommandHook := false }

inductive Command where
  | tempHighlight (symbolAtPoint : Option String)
  | atPoint (symbolAtPoint : Option String)
  | removeAll
  | mode (on : Bool)
  deriving Repr

/-- A command that signals an error leaves the buffer as it was. -/
def step (cfg : Config) (b : Buffer) : Command → Buffer
  | .tempHighlight s => tempHighlight cfg s b
  | .atPoint s => (atPoint cfg s b).toOption.getD b
  | .removeAll => removeAll b
  | .mode on => highlightSymbolMode on b

/-- A buffer without highlighting. -/
def fresh (mode hiLock : Bool) (colorIndex : Nat) : Buffer :=
  ⟨mode, none, [], colorIndex, hiLock, [], false⟩

/-! ## The invariant -/

def regexps (patterns : List Pattern) : List String := patterns.map (·.regexp)

/-- The patterns that belong to no element of `highlight-symbol-list`. -/
def temporaries (b : Buffer) : List Pattern :=
  b.interactivePatterns.filter fun p => p.regexp ∉ b.highlightSymbolList

structure Inv (cfg : Config) (b : Buffer) : Prop where
  /-- One pattern for each regexp. -/
  nodup : (regexps b.interactivePatterns).Nodup
  mem_regexps : ∀ r, r ∈ regexps b.interactivePatterns ↔
    r ∈ b.highlightSymbolList ∨ b.highlightSymbol = some r
  disjoint : ∀ r, b.highlightSymbol = some r → r ∉ b.highlightSymbolList
  off : b.highlightSymbolMode = false → b.highlightSymbol = none
  face : 22 ≤ cfg.emacsMajorVersion → ∀ p ∈ b.interactivePatterns,
    p.face = .highlightSymbolFace ↔ p.regexp ∉ b.highlightSymbolList
  hook : b.postCommandHook = false

theorem mem_regexps_of_mem {ps : List Pattern} {p : Pattern} (h : p ∈ ps) : p.regexp ∈ regexps ps :=
  List.mem_map_of_mem (f := (·.regexp)) h

theorem regexps_unface (ps : List Pattern) (r : String) :
    regexps (hiLockUnfaceBuffer ps r) = (regexps ps).erase r := by
  simp only [regexps, hiLockUnfaceBuffer, List.erase_eq_eraseP', List.eraseP_map]
  rfl

theorem mem_of_mem_unface {ps : List Pattern} {r : String} {p : Pattern}
    (h : p ∈ hiLockUnfaceBuffer ps r) : p ∈ ps :=
  List.mem_of_mem_eraseP h

theorem setPattern_of_notMem {ps : List Pattern} {r : String} (f : Face) (h : r ∉ regexps ps) :
    hiLockSetPattern ps r f = ⟨r, f⟩ :: ps :=
  if_neg fun hp => h (mem_regexps_of_mem hp)

theorem regexps_cons (p : Pattern) (ps : List Pattern) :
    regexps (p :: ps) = p.regexp :: regexps ps := rfl

/-- Removing every pattern of `l`. -/
theorem regexps_unfaceAll {ps : List Pattern} (l : List String) (hnd : (regexps ps).Nodup) :
    (regexps (l.foldl hiLockUnfaceBuffer ps)).Nodup ∧
      ∀ x, x ∈ regexps (l.foldl hiLockUnfaceBuffer ps) ↔ x ∈ regexps ps ∧ x ∉ l := by
  induction l generalizing ps with
  | nil => simp [hnd]
  | cons r l ih =>
    have hnd' : (regexps (hiLockUnfaceBuffer ps r)).Nodup := regexps_unface ps r ▸ hnd.erase r
    obtain ⟨h1, h2⟩ := ih hnd'
    refine ⟨h1, fun x => ?_⟩
    rw [List.foldl_cons, h2, regexps_unface, hnd.mem_erase_iff, List.mem_cons]
    tauto

theorem mem_of_mem_unfaceAll {ps : List Pattern} {l : List String} {p : Pattern}
    (h : p ∈ l.foldl hiLockUnfaceBuffer ps) : p ∈ ps := by
  induction l generalizing ps with
  | nil => exact h
  | cons r l ih => exact mem_of_mem_unface (ih h)

theorem inv_fresh (cfg : Config) (mode hiLock : Bool) (colorIndex : Nat) :
    Inv cfg (fresh mode hiLock colorIndex) := by
  constructor <;> simp [fresh, regexps]

section
variable {cfg : Config} {b : Buffer}

theorem removeTemp_highlightSymbol (b : Buffer) : (removeTemp b).highlightSymbol = none := by
  unfold removeTemp
  split
  · assumption
  · rfl

@[simp] theorem removeTemp_highlightSymbolList (b : Buffer) :
    (removeTemp b).highlightSymbolList = b.highlightSymbolList := by
  unfold removeTemp
  split <;> rfl

@[simp] theorem removeTemp_highlightSymbolMode (b : Buffer) :
    (removeTemp b).highlightSymbolMode = b.highlightSymbolMode := by
  unfold removeTemp
  split <;> rfl

theorem inv_removeTemp (h : Inv cfg b) : Inv cfg (removeTemp b) := by
  unfold removeTemp
  cases ht : b.highlightSymbol with
  | none => exact h
  | some r =>
    have hr := h.disjoint r ht
    refine ⟨?_, fun x => ?_, nofun, fun _ => rfl, fun hv p hp => ?_, h.hook⟩
    · rw [regexps_unface]; exact h.nodup.erase r
    · rw [regexps_unface, h.nodup.mem_erase_iff, h.mem_regexps, ht]
      simp only [Option.some.injEq, reduceCtorEq, or_false]
      constructor
      · rintro ⟨hne, hx | rfl⟩
        · exact hx
        · exact absurd rfl hne
      · exact fun hx => ⟨fun e => hr (e ▸ hx), .inl hx⟩
    · exact h.face hv p (mem_of_mem_unface hp)

/-- Installing a temporary pattern for a symbol that has none. -/
theorem inv_setTemp (h : Inv cfg b) (hnone : b.highlightSymbol = none)
    (hon : b.highlightSymbolMode = true) {r : String} (hr : r ∉ b.highlightSymbolList) :
    Inv cfg { b with
      highlightSymbol := some r
      interactivePatterns := hiLockSetPattern b.interactivePatterns r (tempFace cfg) } := by
  have hnew : r ∉ regexps b.interactivePatterns := by simp [h.mem_regexps, hnone, hr]
  rw [setPattern_of_notMem _ hnew]
  refine ⟨List.nodup_cons.2 ⟨hnew, h.nodup⟩, fun x => ?_, ?_, ?_, fun hv p hp => ?_, h.hook⟩
  · rw [regexps_cons, List.mem_cons, h.mem_regexps, hnone]
    simp only [reduceCtorEq, or_false, Option.some.injEq]
    rw [or_comm, eq_comm]
  · rintro x hx
    cases hx
    exact hr
  · simp [hon]
  · rcases List.mem_cons.1 hp with rfl | hp
    · simp [tempFace, Nat.not_lt.2 hv, hr]
    · exact h.face hv p hp

/-- Unmarking a permanent symbol. -/
theorem inv_unmark (h : Inv cfg b) {r : String} (hr : r ∈ b.highlightSymbolList) :
    Inv cfg { b with
      highlightSymbolList := b.highlightSymbolList.filter (· ≠ r)
      interactivePatterns := hiLockUnfaceBuffer b.interactivePatterns r } := by
  refine ⟨?_, fun x => ?_, fun x hx hmem => ?_, h.off, fun hv p hp => ?_, h.hook⟩
  · rw [regexps_unface]; exact h.nodup.erase r
  · rw [regexps_unface, h.nodup.mem_erase_iff, h.mem_regexps]
    have htemp : b.highlightSymbol = some x → x ≠ r := fun hx e => h.disjoint x hx (e ▸ hr)
    simp only [List.mem_filter, decide_eq_true_eq]
    tauto
  · exact h.disjoint x hx (List.mem_of_mem_filter hmem)
  · have hpr : p.regexp ∈ (regexps b.interactivePatterns).erase r :=
      regexps_unface _ r ▸ mem_regexps_of_mem hp
    have hne : p.regexp ≠ r := (h.nodup.mem_erase_iff.1 hpr).1
    rw [h.face hv p (mem_of_mem_unface hp)]
    simp [hne]

/-- Marking a symbol that has no pattern. -/
theorem inv_mark (h : Inv cfg b) {r : String} (hr : r ∉ regexps b.interactivePatterns)
    (color : Option String) (index : Nat) :
    Inv cfg { b with
      highlightSymbolColorIndex := index
      interactivePatterns := hiLockSetPattern b.interactivePatterns r (.color color)
      highlightSymbolList := r :: b.highlightSymbolList } := by
  have hlist : r ∉ b.highlightSymbolList ∧ b.highlightSymbol ≠ some r := by
    simpa [h.mem_regexps] using hr
  rw [setPattern_of_notMem _ hr]
  refine ⟨List.nodup_cons.2 ⟨hr, h.nodup⟩, fun x => ?_, fun x hx => ?_, h.off, fun hv p hp => ?_,
    h.hook⟩
  · rw [regexps_cons, List.mem_cons, List.mem_cons, h.mem_regexps, or_assoc]
  · have hne : x ≠ r := fun e => hlist.2 (e ▸ hx)
    simpa [hne] using h.disjoint x hx
  · rcases List.mem_cons.1 hp with rfl | hp
    · simp
    · have hne : p.regexp ≠ r := fun e => hr (e ▸ mem_regexps_of_mem hp)
      simpa [hne] using h.face hv p hp

theorem inv_removeAll (h : Inv cfg b) : Inv cfg (removeAll b) := by
  obtain ⟨hnd, hmem⟩ := regexps_unfaceAll b.highlightSymbolList h.nodup
  refine ⟨hnd, fun x => (hmem x).trans ?_, fun _ _ => List.not_mem_nil, h.off, fun hv p hp => ?_,
    h.hook⟩
  · have := h.disjoint x
    rw [h.mem_regexps]
    simp only [removeAll, List.not_mem_nil, false_or]
    tauto
  · have hp' : p.regexp ∉ b.highlightSymbolList := ((hmem _).1 (mem_regexps_of_mem hp)).2
    simpa [removeAll] using (h.face hv p (mem_of_mem_unfaceAll hp)).2 hp'

theorem inv_tempHighlight (h : Inv cfg b) (s : Option String) :
    Inv cfg (tempHighlight cfg s b) := by
  unfold tempHighlight
  split
  · next hon =>
    dsimp only
    split
    · exact h
    · next hs =>
      rw [not_or] at hs
      cases hsym : getSymbol cfg s with
      | none => exact inv_removeTemp h
      | some r =>
        have hr : r ∉ b.highlightSymbolList := by simpa [member, hsym] using hs.2
        exact inv_setTemp (inv_removeTemp h) (removeTemp_highlightSymbol b) (by simpa using hon)
          (by simpa using hr)
  · exact h

theorem inv_atPoint (h : Inv cfg b) (s : Option String) :
    Inv cfg ((atPoint cfg s b).toOption.getD b) := by
  unfold atPoint
  cases getSymbol cfg s with
  | none => exact h
  | some r =>
    have hb : Inv cfg { b with hiLockMode := true } := ⟨h.1, h.2, h.3, h.4, h.5, h.6⟩
    dsimp only
    split
    · next hr => exact inv_unmark hb hr
    · next hr =>
      -- the symbol's temporary pattern, if any, is gone before the permanent one comes
      by_cases htemp : some r = b.highlightSymbol
      · have hrt := inv_removeTemp hb
        rw [if_pos htemp]
        refine inv_mark hrt ?_ _ _
        rw [hrt.mem_regexps, removeTemp_highlightSymbol]
        simpa using hr
      · rw [if_neg htemp]
        refine inv_mark hb ?_ _ _
        rw [hb.mem_regexps]
        rintro (h1 | h1)
        · exact hr h1
        · exact htemp h1.symm

theorem inv_highlightSymbolMode (h : Inv cfg b) (on : Bool) :
    Inv cfg (highlightSymbolMode on b) := by
  cases on with
  | true => exact ⟨h.1, h.2, h.3, nofun, h.5, rfl⟩
  | false =>
    have hrt := inv_removeTemp h
    have hnone := removeTemp_highlightSymbol b
    have hcomm : highlightSymbolMode false b =
        { removeTemp b with highlightSymbolMode := false, highlightSymbol := none,
                            postCommandHook := false } := by
      unfold highlightSymbolMode modeBody removeTemp
      cases b.highlightSymbol <;> rfl
    rw [hcomm]
    refine ⟨hrt.1, fun x => ?_, nofun, fun _ => rfl, hrt.5, rfl⟩
    have := hrt.mem_regexps x
    rwa [hnone] at this

/-- **Every command keeps the invariant.** -/
theorem inv_step (h : Inv cfg b) (c : Command) : Inv cfg (step cfg b c) := by
  cases c with
  | tempHighlight s => exact inv_tempHighlight h s
  | atPoint s => exact inv_atPoint h s
  | removeAll => exact inv_removeAll h
  | mode on => exact inv_highlightSymbolMode h on

theorem temporaries_regexp (h : Inv cfg b) {p : Pattern} (hp : p ∈ temporaries b) :
    b.highlightSymbol = some p.regexp := by
  simp only [temporaries, List.mem_filter, decide_eq_true_eq] at hp
  exact ((h.mem_regexps _).1 (mem_regexps_of_mem hp.1)).resolve_left hp.2

theorem temporaries_length (h : Inv cfg b) : (temporaries b).length ≤ 1 := by
  have hnd : ((temporaries b).map (·.regexp)).Nodup := h.nodup.sublist (List.filter_sublist.map _)
  match ht : temporaries b with
  | [] => simp
  | [p] => simp
  | p :: q :: ps =>
    have hp := temporaries_regexp h (p := p) (by simp [ht])
    have hq := temporaries_regexp h (p := q) (by simp [ht])
    rw [hp, Option.some.injEq] at hq
    simp [ht, hq] at hnd

/-- Right after an idle call with the mode on, the symbol at point has a pattern. -/
theorem mem_regexps_tempHighlight (h : Inv cfg b) (hon : b.highlightSymbolMode = true)
    {s : Option String} {r : String} (hs : getSymbol cfg s = some r) :
    r ∈ regexps (tempHighlight cfg s b).interactivePatterns := by
  have hinv := inv_tempHighlight h s
  rw [hinv.mem_regexps]
  unfold tempHighlight
  rw [if_pos hon]
  dsimp only
  split
  · next hc =>
    rcases hc with hc | hc
    · exact .inr (hc ▸ hs)
    · exact .inl (by simpa [member, hs] using hc)
  · rw [hs]
    exact .inr rfl

end

/-- **The patterns in the buffer are those of the permanent symbols and of the
temporary one, after every run of commands.** -/
theorem highlighting_consistent (cfg : Config) (mode hiLock : Bool) (colorIndex : Nat)
    (cmds : List Command) (symbolAtPoint : Option String) :
    let b := run (step cfg) (fresh mode hiLock colorIndex) cmds
    (∀ r, r ∈ regexps b.interactivePatterns ↔
      r ∈ b.highlightSymbolList ∨ b.highlightSymbol = some r) ∧
    (∀ r, b.highlightSymbol = some r → r ∉ b.highlightSymbolList) ∧
    (temporaries b).length ≤ 1 ∧
    (22 ≤ cfg.emacsMajorVersion →
      temporaries b = b.interactivePatterns.filter (·.face = .highlightSymbolFace)) ∧
    (b.highlightSymbolMode = false → temporaries b = []) ∧
    (b.highlightSymbolMode = true → ∀ r, getSymbol cfg symbolAtPoint = some r →
      r ∈ regexps (step cfg b (.tempHighlight symbolAtPoint)).interactivePatterns) := by
  intro b
  have h : Inv cfg b := run_invariant (inv_fresh cfg mode hiLock colorIndex)
    (fun _ c hb => inv_step hb c) cmds
  refine ⟨h.mem_regexps, h.disjoint, temporaries_length h, fun hv => ?_, fun hoff => ?_,
    fun hon r hr => mem_regexps_tempHighlight h hon hr⟩
  · refine List.filter_congr fun p hp => ?_
    simpa only [decide_eq_decide] using (h.face hv p hp).symm
  · rw [List.eq_nil_iff_forall_not_mem]
    intro p hp
    have := temporaries_regexp h hp
    rw [h.off hoff] at this
    cases this

end EmacsConfig.HighlightSymbol
