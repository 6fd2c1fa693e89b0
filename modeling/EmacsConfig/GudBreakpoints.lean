import EmacsConfig.Lib.Regexp

/-!
# Enabling and disabling breakpoints

`gud-enable-or-disable` sends a command for the breakpoint whose icon is on the
line. For gdb-mi it takes the number from the icon; for gdb-ui it takes group 1
of `\([0-9+]\)*`, which is the last digit of the number:
`gudEnableOrDisable_iff` says that only breakpoints of one digit are the same for
both.
-/

namespace EmacsConfig.GudBreakpoints

open EmacsConfig.Regexp

/-! ## The command -/

/-- A `before-string` with its text properties at position 0. -/
structure Icon where
  gdbBptno : Option (List Char)
  gdbEnabled : Bool
  deriving DecidableEq, Repr

/-- `beforeString` is `none` for what is no string. -/
structure Overlay where
  putBreak : Bool
  beforeString : Option Icon
  deriving DecidableEq, Repr

inductive BackEnd where
  | gdbUi
  | gdbMi
  deriving DecidableEq, Repr

/-- What the command comes to. -/
inductive Outcome where
  /-- `gdb-enqueue-input` -/
  | enqueueInput (text : List Char)
  | gudBasicCall (text : List Char)
  /-- "May be there isn't have a breakpoint." -/
  | message
  /-- "No gud-ui or gui-mi?" -/
  | error
  | wrongTypeArgument
  deriving DecidableEq, Repr

def loopBody (obj : Option Icon) (overlay : Overlay) : Option Icon :=
  if overlay.putBreak then overlay.beforeString else obj

/-- The last put-break overlay of the list sets `obj`. -/
def chosen (overlays : List Overlay) : Option Icon := overlays.foldl loopBody none

/-- `\([0-9+]\)*` -/
def bptnoRegexp : Re Char := .star (.group 1 (.one fun c => c.isDigit || c == '+'))

/-- `(match-string 1 bptno)` after the search; nil is nothing for `concat`. -/
def matchString1 (bptno : List Char) : List Char :=
  ((stringMatch bptnoRegexp bptno).bind (matchString 1 bptno)).getD []

def gudEnableOrDisable (gdbServerPrefix : List Char) (features : List BackEnd)
    (overlays : List Overlay) : Outcome :=
  match chosen overlays with
  | none => .message
  | some obj =>
    if .gdbUi ∈ features then
      match obj.gdbBptno with
      | none => .wrongTypeArgument
      | some bptno =>
        .enqueueInput (gdbServerPrefix ++
          (if obj.gdbEnabled then "disable " else "enable ").toList ++ matchString1 bptno ++ ['\n'])
    else if .gdbMi ∈ features then
      .gudBasicCall ((if obj.gdbEnabled then "-break-disable " else "-break-enable ").toList ++
        obj.gdbBptno.getD [])
    else .error

/-! ## The debugger -/

/-- A breakpoint number. -/
def Decimal (n : List Char) : Prop := n ≠ [] ∧ ∀ c ∈ n, c.isDigit

instance (n : List Char) : Decidable (Decimal n) :=
  @instDecidableAnd _ _ inferInstance (List.decidableBAll (fun c => c.isDigit = true) n)

/-- Which breakpoints there are, and whether they are enabled. -/
abbrev Breakpoints := List Char → Option Bool

/-- Enables or disables breakpoint `n`, if there is one. -/
def setEnabled (on : Bool) (n : List Char) (bps : Breakpoints) : Breakpoints :=
  fun m => if m = n then (bps m).map fun _ => on else bps m

/-- The command for breakpoint `n` of either debugger interface. -/
def command (gdbServerPrefix : List Char) (backEnd : BackEnd) (on : Bool) (n : List Char) : Outcome :=
  match backEnd with
  | .gdbUi =>
    .enqueueInput (gdbServerPrefix ++ (if on then "enable " else "disable ").toList ++ n ++ ['\n'])
  | .gdbMi => .gudBasicCall ((if on then "-break-enable " else "-break-disable ").toList ++ n)

/-- A debugger that does what the commands are documented to do. -/
structure Debugger (gdbServerPrefix : List Char) where
  exec : Outcome → Breakpoints → Breakpoints
  exec_command : ∀ backEnd on n bps, Decimal n →
    exec (command gdbServerPrefix backEnd on n) bps = setEnabled on n bps

/-- The icons show the state of their breakpoints. -/
def Icon.refresh (bps : Breakpoints) (icon : Icon) : Icon :=
  { icon with gdbEnabled := (icon.gdbBptno.bind bps).getD false }

def Overlay.refresh (bps : Breakpoints) (overlay : Overlay) : Overlay :=
  { overlay with beforeString := overlay.beforeString.map (Icon.refresh bps) }

/-- One call of the command on a line with these overlays. -/
def invoke {gdbServerPrefix : List Char} (dbg : Debugger gdbServerPrefix) (backEnd : BackEnd)
    (overlays : List Overlay) (bps : Breakpoints) : Breakpoints :=
  dbg.exec (gudEnableOrDisable gdbServerPrefix [backEnd] (overlays.map (Overlay.refresh bps))) bps

/-- The command is the one for breakpoint `n`, which is enabled or not as `on`
says; on a line with its icon it touches no other one, and twice it leaves all
as they were. -/
def ActsOn {gdbServerPrefix : List Char} (dbg : Debugger gdbServerPrefix) (backEnd : BackEnd)
    (overlays : List Overlay) (on : Bool) (n : List Char) : Prop :=
  gudEnableOrDisable gdbServerPrefix [backEnd] overlays =
      command gdbServerPrefix backEnd (!on) n ∧
    ∀ bps : Breakpoints, bps n ≠ none →
      (∀ m, m ≠ n → invoke dbg backEnd overlays bps m = bps m) ∧
        invoke dbg backEnd overlays (invoke dbg backEnd overlays bps) = bps

/-! ## The number -/

/-- What is left of a number is its last digit. -/
theorem matchString1_concat {w : List Char} {a : Char} (h : Decimal (w ++ [a])) :
    matchString1 (w ++ [a]) = [a] := by
  have hdigits : ∀ c ∈ w ++ [a], (c.isDigit || c == '+') = true := fun c hc => by
    simp [h.2 c hc]
  have hmatch := matchString_star 1 (t := []) hdigits nofun
  rw [List.append_nil] at hmatch
  unfold matchString1 bptnoRegexp
  rw [hmatch]
  rfl

theorem matchString1_eq_iff {n : List Char} (h : Decimal n) : matchString1 n = n ↔ n.length = 1 := by
  obtain ⟨w, a, rfl⟩ := (List.eq_nil_or_concat' n).resolve_left h.1
  rw [matchString1_concat h]
  constructor
  · intro heq
    rw [← heq]
    rfl
  · intro hlen
    have hw : w = [] := by
      rw [List.length_append, List.length_singleton] at hlen
      exact List.eq_nil_of_length_eq_zero (by omega)
    rw [hw]
    rfl

section
variable {gdbServerPrefix : List Char} {overlays : List Overlay} {n : List Char} {on : Bool}

theorem gdbMi_command (hobj : chosen overlays = some ⟨some n, on⟩) :
    gudEnableOrDisable gdbServerPrefix [.gdbMi] overlays =
      command gdbServerPrefix .gdbMi (!on) n := by
  unfold gudEnableOrDisable command
  rw [hobj]
  cases on <;> rfl

theorem gdbUi_command_iff (hobj : chosen overlays = some ⟨some n, on⟩) (hn : Decimal n) :
    gudEnableOrDisable gdbServerPrefix [.gdbUi] overlays =
      command gdbServerPrefix .gdbUi (!on) n ↔ n.length = 1 := by
  have hsent : gudEnableOrDisable gdbServerPrefix [.gdbUi] overlays =
      command gdbServerPrefix .gdbUi (!on) (matchString1 n) := by
    unfold gudEnableOrDisable command
    rw [hobj]
    cases on <;> rfl
  rw [hsent, ← matchString1_eq_iff hn]
  unfold command
  simp

theorem loopBody_refresh (bps : Breakpoints) (obj : Option Icon) (overlay : Overlay) :
    loopBody (obj.map (Icon.refresh bps)) (overlay.refresh bps) =
      (loopBody obj overlay).map (Icon.refresh bps) := by
  unfold loopBody Overlay.refresh
  cases overlay.putBreak <;> rfl

theorem chosen_refresh (bps : Breakpoints) (overlays : List Overlay) :
    chosen (overlays.map (Overlay.refresh bps)) = (chosen overlays).map (Icon.refresh bps) := by
  have hloop (obj : Option Icon) : (overlays.map (Overlay.refresh bps)).foldl loopBody
      (obj.map (Icon.refresh bps)) = (overlays.foldl loopBody obj).map (Icon.refresh bps) := by
    induction overlays generalizing obj with
    | nil => rfl
    | cons overlay overlays ih =>
      rw [List.map_cons, List.foldl_cons, loopBody_refresh, ih, List.foldl_cons]
  exact hloop none

theorem setEnabled_setEnabled {bps : Breakpoints} {on : Bool} (h : bps n = some on) :
    setEnabled on n (setEnabled (!on) n bps) = bps := by
  funext m
  unfold setEnabled
  by_cases hm : m = n
  · simp [hm, h]
  · simp [hm]

/-- Where the right command is sent in either state, the rest follows. -/
theorem actsOn_of_command {dbg : Debugger gdbServerPrefix} {backEnd : BackEnd} (hn : Decimal n)
    (hobj : chosen overlays = some ⟨some n, on⟩)
    (hcommand : ∀ overlays on, chosen overlays = some ⟨some n, on⟩ →
      gudEnableOrDisable gdbServerPrefix [backEnd] overlays =
        command gdbServerPrefix backEnd (!on) n) :
    ActsOn dbg backEnd overlays on n := by
  refine ⟨hcommand overlays on hobj, fun bps hbps => ?_⟩
  have hinvoke (bps : Breakpoints) : invoke dbg backEnd overlays bps =
      setEnabled (!(bps n).getD false) n bps := by
    unfold invoke
    rw [hcommand _ ((bps n).getD false) (by rw [chosen_refresh, hobj]; rfl), dbg.exec_command _ _ _ _ hn]
  obtain ⟨b, hb⟩ := Option.ne_none_iff_exists'.1 hbps
  have hfirst := hinvoke bps
  rw [hb, Option.getD_some] at hfirst
  refine ⟨fun m hm => ?_, ?_⟩
  · rw [hfirst, setEnabled, if_neg hm]
  · have hflip : setEnabled (!b) n bps n = some (!b) := by simp [setEnabled, hb]
    rw [hfirst, hinvoke, hflip, Option.getD_some, Bool.not_not, setEnabled_setEnabled hb]

end

/-- **When the two back ends act on the same breakpoint**: gdb-mi always acts on
the one whose icon the loop has chosen, gdb-ui exactly if its number has one
digit. -/
theorem gudEnableOrDisable_iff {gdbServerPrefix : List Char} (dbg : Debugger gdbServerPrefix)
    {overlays : List Overlay} {n : List Char} {on : Bool}
    (hobj : chosen overlays = some ⟨some n, on⟩) (hn : Decimal n) :
    ActsOn dbg .gdbMi overlays on n ∧ (ActsOn dbg .gdbUi overlays on n ↔ n.length = 1) := by
  refine ⟨actsOn_of_command hn hobj fun _ _ h => gdbMi_command h, fun h => ?_, fun hlen => ?_⟩
  · exact (gdbUi_command_iff hobj hn).1 h.1
  · exact actsOn_of_command hn hobj fun _ _ h => (gdbUi_command_iff h hn).2 hlen

theorem command_inj {gdbServerPrefix : List Char} {backEnd backEnd' : BackEnd} {on on' : Bool}
    {n m : List Char} (h : command gdbServerPrefix backEnd on n =
      command gdbServerPrefix backEnd' on' m) : on = on' ∧ n = m := by
  unfold command at h
  cases backEnd <;> cases backEnd' <;> cases on <;> cases on' <;> simp at h <;> simp [h]

/-- A debugger that knows these commands only. -/
def plainDebugger (gdbServerPrefix : List Char) : Debugger gdbServerPrefix where
  exec sent bps m :=
    if sent = command gdbServerPrefix .gdbUi true m ∨
        sent = command gdbServerPrefix .gdbMi true m then (bps m).map fun _ => true
    else if sent = command gdbServerPrefix .gdbUi false m ∨
        sent = command gdbServerPrefix .gdbMi false m then (bps m).map fun _ => false
    else bps m
  exec_command backEnd on n bps _ := by
    funext m
    have hother (backEnd' : BackEnd) (on' : Bool) (hne : ¬ (on = on' ∧ n = m)) :
        command gdbServerPrefix backEnd on n ≠ command gdbServerPrefix backEnd' on' m :=
      fun h => hne (command_inj h)
    unfold setEnabled
    by_cases hm : m = n
    · subst hm
      cases backEnd <;> cases on <;> simp [hother]
    · simp [hother, Ne.symm hm, hm]

/-- Breakpoint 7, disabled, behind an overlay of another kind. -/
theorem gudEnableOrDisable_iff_seven :
    let overlays : List Overlay := [⟨true, none⟩, ⟨true, some ⟨some ['7'], false⟩⟩, ⟨false, none⟩]
    let dbg := plainDebugger "server ".toList
    ActsOn dbg .gdbMi overlays false ['7'] ∧
      (ActsOn dbg .gdbUi overlays false ['7'] ↔ ['7'].length = 1) :=
  gudEnableOrDisable_iff (plainDebugger "server ".toList) rfl (by decide)

/-- On the line of breakpoint 12 gdb-ui disables breakpoint 2. -/
theorem not_actsOn_twelve :
    let overlays : List Overlay := [⟨true, some ⟨some ['1', '2'], true⟩⟩]
    Decimal ['1', '2'] ∧
      gudEnableOrDisable "server ".toList [.gdbUi] overlays =
        .enqueueInput "server disable 2\n".toList ∧
      gudEnableOrDisable "server ".toList [.gdbMi] overlays =
        .gudBasicCall "-break-disable 12".toList ∧
      ¬ ∀ dbg : Debugger "server ".toList, ActsOn dbg .gdbUi overlays true ['1', '2'] := by
  refine ⟨by decide, by decide, by decide, fun h => ?_⟩
  exact absurd (h (plainDebugger "server ".toList)).1 (by decide)

end EmacsConfig.GudBreakpoints
