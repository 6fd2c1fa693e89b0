import EmacsConfig.FormatCxx
import EmacsConfig.ShellCommands

/-!
# The buffers of a formatting

`format-cxx-file` formats a file in the buffer that `find-file-noselect` gives
it, saves this and kills it. `find-file-noselect` makes a buffer only if none
visits the file, and after a save `chmod+x` kills `*Shell Command Output*`:
`formatCxxDirectory_keeps_iff` says that the buffers of the user are left alone
exactly if none of them visits a file that is formatted, and none of them is
`*Shell Command Output*` when a file becomes a script.
-/

namespace EmacsConfig.FormatBuffers

open EmacsConfig.FileSystem
open EmacsConfig.FormatCxx (FileName cxxFileP startsWithDot fileNameNondirectory directoryFiles
  fileDirectoryP fileRegularP fileSymlinkP location Eligible)

/-! ## The editor -/

/-- A file is visited under the name it has in its directory; `shellOutput` tells the buffer
named `*Shell Command Output*`. -/
structure Buffer (Dir : Type*) where
  id : Nat
  visited : Option (Dir × FileName)
  shellOutput : Bool
  text : List Char
  modified : Bool

/-- The files are known by number: a file can have several names. -/
structure Disk (Number : Type*) where
  contents : Number → List Char
  executable : Number → Bool

inductive Event where
  | opened (id : Nat)
  | saved (id : Nat)
  | killed (id : Nat)
  deriving DecidableEq

def Event.id : Event → Nat
  | .opened id | .saved id | .killed id => id

/-- The live buffers, the files, and what has been done to buffers, newest first. -/
structure Editor (Dir Number : Type*) where
  buffers : List (Buffer Dir)
  disk : Disk Number
  log : List Event
  /-- The next new buffer. -/
  next : Nat
  ids_nodup : (buffers.map Buffer.id).Nodup
  ids_lt : ∀ b ∈ buffers, b.id < next

/-- What a command does to the text of its buffer, before it comes back or
signals an error. -/
structure Edit where
  text : List Char
  modifies : Bool
  signals : Bool

/-- What the model does not compute. -/
structure Env (Dir Number : Type*) where
  number : Dir × FileName → Number
  /-- The file has changed behind the buffer, and the user wants it read again. -/
  reread : Buffer Dir → Bool
  whitespaceCleanup : Option (Buffer Dir → Edit)
  untabify : Buffer Dir → Edit
  indentRegion : Buffer Dir → Edit
  /-- The file cannot be written, or the user does not want it to be. -/
  refuses : Buffer Dir → Bool
  /-- The text with its `time-stamp`, and the final newline that the user wants. -/
  writeFileHooks : Buffer Dir → List Char
  /-- `buffer-file-name` -/
  path : Dir × FileName → List Char
  chmodFound : Bool
  /-- What a shell command does to the files. -/
  shell : List Char → Disk Number → Disk Number

/-- The commands on the whole buffer, in order. -/
def Env.commands {Dir Number : Type*} (env : Env Dir Number) : List (Buffer Dir → Edit) :=
  env.whitespaceCleanup.toList ++ [env.untabify, env.indentRegion]

/-- How a command ends. -/
inductive Outcome (Dir Number : Type*) where
  | done (s : Editor Dir Number)
  | signalled (s : Editor Dir Number)

namespace Outcome

variable {Dir Number : Type*}

def editor : Outcome Dir Number → Editor Dir Number
  | .done s => s
  | .signalled s => s

def andThen : Outcome Dir Number → (Editor Dir Number → Outcome Dir Number) → Outcome Dir Number
  | .done s, f => f s
  | .signalled s, _ => .signalled s

theorem andThen_eq_done {outcome : Outcome Dir Number} {f : Editor Dir Number → Outcome Dir Number}
    {s' : Editor Dir Number} :
    outcome.andThen f = .done s' ↔ ∃ s, outcome = .done s ∧ f s = .done s' := by
  constructor
  · intro h
    cases outcome with
    | done s => exact ⟨s, rfl, h⟩
    | signalled s => cases h
  · rintro ⟨s, rfl, h⟩
    exact h

end Outcome

namespace Editor

variable {Dir Number : Type*}

def setBuffer (s : Editor Dir Number) (b : Buffer Dir) : Editor Dir Number where
  __ := s
  buffers := s.buffers.map fun c => if c.id = b.id then b else c
  ids_nodup := by
    have hids : (Buffer.id ∘ fun c => if c.id = b.id then b else c) = Buffer.id := by
      funext c
      dsimp only [Function.comp_apply]
      split
      · next h => exact h.symm
      · rfl
    rw [List.map_map, hids]
    exact s.ids_nodup
  ids_lt := by
    intro c hc
    obtain ⟨c', hc', rfl⟩ := List.mem_map.1 hc
    split
    · next h => exact h ▸ s.ids_lt c' hc'
    · exact s.ids_lt c' hc'

def openBuffer (s : Editor Dir Number) (visited : Option (Dir × FileName)) (shellOutput : Bool)
    (text : List Char) : Editor Dir Number where
  buffers := ⟨s.next, visited, shellOutput, text, false⟩ :: s.buffers
  disk := s.disk
  log := .opened s.next :: s.log
  next := s.next + 1
  ids_nodup := by
    rw [List.map_cons, List.nodup_cons]
    refine ⟨fun h => ?_, s.ids_nodup⟩
    obtain ⟨b, hb, heq⟩ := List.mem_map.1 h
    exact Nat.lt_irrefl _ (heq ▸ s.ids_lt b hb)
  ids_lt := by
    rw [List.forall_mem_cons]
    exact ⟨Nat.lt_succ_self _, fun b hb => Nat.lt_succ_of_lt (s.ids_lt b hb)⟩

def killBuffer (s : Editor Dir Number) (id : Nat) : Editor Dir Number where
  __ := s
  buffers := s.buffers.filter (·.id ≠ id)
  log := .killed id :: s.log
  ids_nodup := s.ids_nodup.sublist (List.filter_sublist.map _)
  ids_lt b hb := s.ids_lt b (List.mem_of_mem_filter hb)

end Editor

/-! ## Formatting a file -/

section
variable {Dir Number : Type*} [DecidableEq Dir] [DecidableEq Number] (env : Env Dir Number)

/-- By its name, else by its number. -/
def findBufferVisiting (file : Dir × FileName) (buffers : List (Buffer Dir)) :
    Option (Buffer Dir) :=
  (buffers.find? (·.visited = some file)).or
    (buffers.find? (·.visited.map env.number = some (env.number file)))

/-- The name of a new buffer for a C++ file has its extension. -/
def findFileNoselect (file : Dir × FileName) (s : Editor Dir Number) :
    Buffer Dir × Editor Dir Number :=
  let text := s.disk.contents (env.number file)
  match findBufferVisiting env file s.buffers with
  | some b =>
    if env.reread b then
      let b := { b with text := text, modified := false }
      (b, s.setBuffer b)
    else (b, s)
  | none => (⟨s.next, some file, false, text, false⟩, s.openBuffer (some file) false text)

/-- One command after the other, up to one that signals. -/
def formatBuffer : List (Buffer Dir → Edit) → Buffer Dir → Buffer Dir × Bool
  | [], b => (b, false)
  | command :: commands, b =>
    let edit := command b
    let b := { b with text := edit.text, modified := b.modified || edit.modifies }
    if edit.signals then (b, true) else formatBuffer commands b

def Disk.write (disk : Disk Number) (b : Buffer Dir) : Disk Number where
  contents n := if b.visited.map env.number = some n then b.text else disk.contents n
  executable := disk.executable

/-- The buffer as it is written. -/
def Env.written (b : Buffer Dir) : Buffer Dir :=
  { b with text := env.writeFileHooks b, modified := false }

/-- The command that `chmod+x` runs in the buffer after it has been saved, if any. -/
def chmodCommand (b : Buffer Dir) (disk : Disk Number) : Option (List Char) :=
  if env.chmodFound then
    b.visited.bind fun file =>
      ShellCommands.chmodX (fun _ => disk.executable (env.number file)) ⟨env.path file, b.text⟩
  else none

/-- `shell-command` makes `*Shell Command Output*` if it is not live; `chmod+x` kills it, with
what is in it. -/
def shellCommand (command : List Char) (s : Editor Dir Number) : Editor Dir Number :=
  let (id, s) := match s.buffers.find? (·.shellOutput) with
    | some b => (b.id, s)
    | none => (s.next, s.openBuffer none true [])
  { s with disk := env.shell command s.disk }.killBuffer id

/-- `after-save-hook` -/
def afterSave (b : Buffer Dir) (s : Editor Dir Number) : Editor Dir Number :=
  match chmodCommand env b s.disk with
  | some command => shellCommand env command s
  | none => s

def saveBuffer (b : Buffer Dir) (s : Editor Dir Number) : Outcome Dir Number :=
  if b.modified then
    if env.refuses b then .signalled s
    else
      let b := env.written b
      let s := s.setBuffer b
      .done (afterSave env b { s with
        disk := s.disk.write env b
        log := .saved b.id :: s.log })
  else .done s

def formatCxxFile (file : Dir × FileName) (s : Editor Dir Number) : Outcome Dir Number :=
  if cxxFileP file.2.chars then
    let (buffer, s) := findFileNoselect env file s
    let (buffer, signals) := formatBuffer env.commands buffer
    let s := s.setBuffer buffer
    if signals then .signalled s
    else (saveBuffer env buffer s).andThen fun s => .done (s.killBuffer buffer.id)
  else .done s

/-! ## The walk -/

variable (fs : Files FileName Dir) (max : Option Nat) (d : Dir)

/-- `format-cxx-file` on the name of a file. -/
def formatPath (x : List FileName) (s : Editor Dir Number) : Outcome Dir Number :=
  match location fs max d x with
  | some file => formatCxxFile env file s
  | none => .done s

def dolist {α : Type*} (body : α → Editor Dir Number → Option (Outcome Dir Number)) :
    List α → Editor Dir Number → Option (Outcome Dir Number)
  | [], s => some (.done s)
  | x :: xs, s =>
    match body x s with
    | some (.done s) => dolist body xs s
    | outcome => outcome

def formatEntry (walk : List FileName → Editor Dir Number → Option (Outcome Dir Number))
    (x : List FileName) (s : Editor Dir Number) : Option (Outcome Dir Number) :=
  if ¬ startsWithDot (fileNameNondirectory x) then
    if fileDirectoryP fs max d x then walk x s
    else if fileRegularP fs max d x ∧ ¬ fileSymlinkP fs max d x ∧
        cxxFileP (fileNameNondirectory x) then some (formatPath env fs max d x s)
    else some (.done s)
  else some (.done s)

/-- `format-cxx-directory`; `none` is a walk that goes deeper than `fuel`. -/
def formatCxxDirectory : Nat → List FileName → Editor Dir Number → Option (Outcome Dir Number)
  | 0, _, _ => none
  | fuel + 1, dirname, s =>
    (directoryFiles fs max d dirname).bind fun files =>
      dolist (formatEntry env fs max d (formatCxxDirectory fuel)) files s

/-- The files of the walk, one after the other. -/
def formatFiles : List (Dir × FileName) → Editor Dir Number → Outcome Dir Number
  | [], s => .done s
  | file :: files, s => (formatCxxFile env file s).andThen (formatFiles files)

end

/-! ## What is kept -/

section
variable {Dir Number : Type*}

/-- From `s` to `s'`, with the `events` between: what was live still is, only own
buffers are opened and killed, and none with unsaved edits is saved. -/
structure Keeps (s s' : Editor Dir Number) (events : List Event) : Prop where
  log : s'.log = events ++ s.log
  live : ∀ b ∈ s.buffers, ∃ b' ∈ s'.buffers, b'.id = b.id
  opened : ∀ id, .opened id ∈ events → ∀ b ∈ s.buffers, b.id ≠ id
  killed : ∀ id, .killed id ∈ events → .opened id ∈ events
  saved : ∀ id, .saved id ∈ events → ∀ b ∈ s.buffers, b.id = id → b.modified = false

def Visits (env : Env Dir Number) (file : Dir × FileName) (b : Buffer Dir) : Prop :=
  b.visited.map env.number = some (env.number file)

/-- A live buffer visits a file that is to be formatted. -/
def InTheWay (env : Env Dir Number) (fs : Files FileName Dir) (d : Dir)
    (s : Editor Dir Number) : Prop :=
  ∃ b ∈ s.buffers, ∃ file, Eligible fs d file ∧ Visits env file b

/-- What becomes of the files when `file` is formatted in the new buffer `id`, and whether `chmod+x`
runs a command for it: the text has been changed, it begins with `#!`, and the file is not
executable. -/
def turn [DecidableEq Number] (env : Env Dir Number) (file : Dir × FileName) (id : Nat)
    (disk : Disk Number) : Disk Number × Bool :=
  let (b, signals) := formatBuffer env.commands
    ⟨id, some file, false, disk.contents (env.number file), false⟩
  if signals ∨ b.modified = false ∨ env.refuses b then (disk, false)
  else
    let b := env.written b
    match chmodCommand env b (disk.write env b) with
    | some command => (env.shell command (disk.write env b), true)
    | none => (disk.write env b, false)

/-- Of the files, formatted in order, one becomes a script when its turn comes. -/
def scripts [DecidableEq Number] (env : Env Dir Number) :
    List (Dir × FileName) → Nat → Disk Number → Bool
  | [], _, _ => false
  | file :: files, id, disk =>
    (turn env file id disk).2 || scripts env files (id + 1) (turn env file id disk).1

/-- `*Shell Command Output*` is live, and a file becomes a script. -/
def OutputInTheWay [DecidableEq Number] (env : Env Dir Number) (files : List (Dir × FileName))
    (s : Editor Dir Number) : Prop :=
  (∃ b ∈ s.buffers, b.shellOutput) ∧ scripts env files s.next s.disk

end

/-! ## A file -/

section
variable {Dir Number : Type*}

theorem Keeps.refl (s : Editor Dir Number) : Keeps s s [] where
  log := rfl
  live b hb := ⟨b, hb, rfl⟩
  opened _ h := by cases h
  killed _ h := by cases h
  saved _ h := by cases h

/-- One after the other, if the first leaves the buffers as they are. -/
theorem Keeps.trans {s s1 s2 : Editor Dir Number} {events events' : List Event}
    (h : Keeps s s1 events) (heq : s1.buffers = s.buffers) (h' : Keeps s1 s2 events') :
    Keeps s s2 (events' ++ events) where
  log := by rw [h'.log, h.log, List.append_assoc]
  live b hb := h'.live b (heq ▸ hb)
  opened id hid b hb := by
    rcases List.mem_append.1 hid with hid | hid
    · exact h'.opened id hid b (heq ▸ hb)
    · exact h.opened id hid b hb
  killed id hid := by
    rcases List.mem_append.1 hid with hid | hid
    · exact List.mem_append_left _ (h'.killed id hid)
    · exact List.mem_append_right _ (h.killed id hid)
  saved id hid b hb heq' := by
    rcases List.mem_append.1 hid with hid | hid
    · exact h'.saved id hid b (heq ▸ hb) heq'
    · exact h.saved id hid b hb heq'

/-- All that has been done was done to new buffers. -/
theorem keeps_of_new {s s' : Editor Dir Number} {events : List Event}
    (hlog : s'.log = events ++ s.log) (hlive : ∀ b ∈ s.buffers, ∃ b' ∈ s'.buffers, b'.id = b.id)
    (hnew : ∀ e ∈ events, s.next ≤ e.id)
    (hkilled : ∀ id, .killed id ∈ events → .opened id ∈ events) : Keeps s s' events where
  log := hlog
  live := hlive
  opened id hid b hb heq := by
    have hlt := s.ids_lt b hb
    have hle : s.next ≤ id := hnew _ hid
    omega
  killed := hkilled
  saved id hid b hb heq := by
    have hlt := s.ids_lt b hb
    have hle : s.next ≤ id := hnew _ hid
    omega

/-- An error leaves the new buffer. -/
theorem keeps_signalled {s s' : Editor Dir Number} {b : Buffer Dir}
    (hlog : s'.log = .opened s.next :: s.log) (hbuffers : s'.buffers = b :: s.buffers) :
    Keeps s s' [.opened s.next] :=
  keeps_of_new hlog (fun c hc => ⟨c, hbuffers ▸ List.mem_cons_of_mem _ hc, rfl⟩)
    (List.forall_mem_singleton.2 (Nat.le_refl _)) fun id hid => by simp at hid

theorem keeps_done {s s' : Editor Dir Number} {saves : List Event}
    (hlog : s'.log = .killed s.next :: (saves ++ .opened s.next :: s.log))
    (hbuffers : s'.buffers = s.buffers) (hsaves : ∀ e ∈ saves, e = .saved s.next) :
    Keeps s s' (.killed s.next :: (saves ++ [.opened s.next])) := by
  refine keeps_of_new (by simpa using hlog) (fun c hc => ⟨c, hbuffers ▸ hc, rfl⟩) ?_ ?_
  · intro e he
    rcases List.mem_cons.1 he with rfl | he
    · exact Nat.le_refl _
    · rcases List.mem_append.1 he with he | he
      · rw [hsaves e he]
        exact Nat.le_refl _
      · rw [List.mem_singleton.1 he]
        exact Nat.le_refl _
  · intro id hid
    rcases List.mem_cons.1 hid with heq | hid
    · cases heq
      exact List.mem_cons_of_mem _ (List.mem_append_right _ (List.mem_singleton_self _))
    · rcases List.mem_append.1 hid with hid | hid
      · cases hsaves _ hid
      · cases List.mem_singleton.1 hid

/-- A file that becomes a script makes two buffers. -/
theorem keeps_script {s s' : Editor Dir Number}
    (hlog : s'.log = .killed s.next :: .killed (s.next + 1) :: .opened (s.next + 1) ::
      .saved s.next :: .opened s.next :: s.log) (hbuffers : s'.buffers = s.buffers) :
    Keeps s s' [.killed s.next, .killed (s.next + 1), .opened (s.next + 1), .saved s.next,
      .opened s.next] := by
  refine keeps_of_new hlog (fun c hc => ⟨c, hbuffers ▸ hc, rfl⟩) ?_ ?_
  · intro e he
    simp only [List.mem_cons, List.not_mem_nil, or_false] at he
    rcases he with rfl | rfl | rfl | rfl | rfl
    all_goals simp only [Event.id, Nat.le_refl, Nat.le_add_right]
  · intro id hid
    simp only [List.mem_cons, List.not_mem_nil, or_false, Event.killed.injEq, reduceCtorEq] at hid
    rcases hid with rfl | rfl
    · simp
    · simp

/-- What is kept is no less. -/
theorem Keeps.length_le {s s' : Editor Dir Number} {events : List Event} (h : Keeps s s' events) :
    s.buffers.length ≤ s'.buffers.length := by
  have hsub : s.buffers.map Buffer.id ⊆ s'.buffers.map Buffer.id := by
    rintro id hid
    obtain ⟨b, hb, rfl⟩ := List.mem_map.1 hid
    obtain ⟨b', hb', heq⟩ := h.live b hb
    exact List.mem_map.2 ⟨b', hb', heq⟩
  have hle := (s.ids_nodup.subperm hsub).length_le
  rwa [List.length_map, List.length_map] at hle

/-! ## The buffers -/

@[simp] theorem buffers_killBuffer (s : Editor Dir Number) (id : Nat) :
    (s.killBuffer id).buffers = s.buffers.filter (·.id ≠ id) := rfl

/-- To set a buffer that is killed does nothing to the others. -/
theorem filter_setBuffer (s : Editor Dir Number) (b : Buffer Dir) :
    ((s.setBuffer b).buffers.filter (·.id ≠ b.id)) = s.buffers.filter (·.id ≠ b.id) := by
  unfold Editor.setBuffer
  dsimp only
  induction s.buffers with
  | nil => rfl
  | cons c buffers ih =>
    rw [List.map_cons]
    by_cases hc : c.id = b.id
    · rw [if_pos hc, List.filter_cons_of_neg (by simp), List.filter_cons_of_neg (by simp [hc]), ih]
    · rw [if_neg hc, List.filter_cons_of_pos (by simp [hc]), List.filter_cons_of_pos (by simp [hc]),
        ih]

theorem setBuffer_cons {s : Editor Dir Number} {b c : Buffer Dir} {buffers : List (Buffer Dir)}
    (hs : s.buffers = c :: buffers) (hc : c.id = b.id) (hbuffers : ∀ a ∈ buffers, a.id ≠ b.id) :
    (s.setBuffer b).buffers = b :: buffers := by
  unfold Editor.setBuffer
  dsimp only
  rw [hs, List.map_cons, if_pos hc, List.map_congr_left fun a ha => if_neg (hbuffers a ha),
    List.map_id']

/-- To kill a new buffer leaves the others. -/
theorem filter_new {buffers : List (Buffer Dir)} {next : Nat} (hlt : ∀ c ∈ buffers, c.id < next)
    {b : Buffer Dir} (hb : b.id = next) : (b :: buffers).filter (·.id ≠ next) = buffers := by
  rw [List.filter_cons_of_neg (by simp [hb]), List.filter_eq_self]
  exact fun c hc => decide_eq_true (Nat.ne_of_lt (hlt c hc))

theorem formatBuffer_spec (commands : List (Buffer Dir → Edit)) (b : Buffer Dir) :
    (formatBuffer commands b).1.id = b.id ∧
      (formatBuffer commands b).1.shellOutput = b.shellOutput := by
  induction commands generalizing b with
  | nil => exact ⟨rfl, rfl⟩
  | cons command commands ih =>
    unfold formatBuffer
    dsimp only
    split
    · exact ⟨rfl, rfl⟩
    · exact ih _

/-! ## After a save -/

variable {env : Env Dir Number}

section

variable {b : Buffer Dir} {s : Editor Dir Number} {command : List Char}

theorem afterSave_none (h : chmodCommand env b s.disk = none) : afterSave env b s = s := by
  rw [afterSave, h]

/-- `*Shell Command Output*` is made and killed. -/
theorem afterSave_new (h : chmodCommand env b s.disk = some command)
    (hnone : ∀ c ∈ s.buffers, c.shellOutput = false) :
    (afterSave env b s).buffers = s.buffers ∧
      (afterSave env b s).disk = env.shell command s.disk ∧
      (afterSave env b s).log = .killed s.next :: .opened s.next :: s.log := by
  have hfind : s.buffers.find? (·.shellOutput) = none :=
    List.find?_eq_none.2 fun c hc => Bool.eq_false_iff.1 (hnone c hc)
  rw [afterSave, h]
  dsimp only
  rw [shellCommand, hfind]
  exact ⟨filter_new s.ids_lt rfl, rfl, rfl⟩

/-- The live `*Shell Command Output*` is killed. -/
theorem afterSave_kills (h : chmodCommand env b s.disk = some command)
    (hlive : ∃ c ∈ s.buffers, c.shellOutput) : ∃ c ∈ s.buffers, c.shellOutput ∧
      (afterSave env b s).buffers = s.buffers.filter (·.id ≠ c.id) := by
  obtain ⟨c, hfind⟩ := Option.isSome_iff_exists.1
    (List.find?_isSome.2 hlive : (s.buffers.find? (·.shellOutput)).isSome)
  refine ⟨c, List.mem_of_find?_eq_some hfind, List.find?_some hfind, ?_⟩
  rw [afterSave, h]
  dsimp only
  rw [shellCommand, hfind]
  rfl

/-- So one buffer more than the saved one, `own`, is gone when this is killed. -/
theorem length_afterSave_killBuffer {own : Buffer Dir} {buffers : List (Buffer Dir)}
    (h : chmodCommand env b s.disk = some command) (hs : s.buffers = own :: buffers)
    (hout : own.shellOutput = false) (hlt : ∀ c ∈ buffers, c.id < own.id)
    (hlive : ∃ c ∈ buffers, c.shellOutput) :
    ((afterSave env b s).killBuffer own.id).buffers.length < buffers.length := by
  obtain ⟨c, hc, hcout, heq⟩ := afterSave_kills h
    (hlive.imp fun c hc => ⟨hs ▸ List.mem_cons_of_mem _ hc.1, hc.2⟩)
  have hmem : c ∈ buffers := by
    rcases List.mem_cons.1 (hs ▸ hc : c ∈ own :: buffers) with rfl | hc
    · rw [hcout] at hout
      cases hout
    · exact hc
  rw [buffers_killBuffer, heq, List.filter_comm, hs, filter_new hlt rfl]
  exact List.length_filter_lt_length_iff_exists.2 ⟨c, hmem, by simp⟩

theorem afterSave_sublist (b : Buffer Dir) (s : Editor Dir Number) :
    (afterSave env b s).buffers.Sublist s.buffers := by
  cases h : chmodCommand env b s.disk with
  | none => rw [afterSave_none h]
  | some command =>
    by_cases hlive : ∃ c ∈ s.buffers, c.shellOutput
    · obtain ⟨c, -, -, heq⟩ := afterSave_kills h hlive
      rw [heq]
      exact List.filter_sublist
    · rw [(afterSave_new h fun c hc => Bool.eq_false_iff.2 fun hout => hlive ⟨c, hc, hout⟩).1]

theorem saveBuffer_sublist [DecidableEq Number] {s' : Editor Dir Number}
    (h : saveBuffer env b s = .done s') :
    (s'.buffers.filter (·.id ≠ b.id)).Sublist (s.buffers.filter (·.id ≠ b.id)) := by
  unfold saveBuffer at h
  split at h
  · split at h
    · cases h
    · cases h
      have hfilter : (s.setBuffer (env.written b)).buffers.filter (·.id ≠ b.id) =
          s.buffers.filter (·.id ≠ b.id) := filter_setBuffer s (env.written b)
      refine ((afterSave_sublist (env.written b) _).filter _).trans ?_
      rw [hfilter]
  · cases h
    exact List.Sublist.refl _

end

variable [DecidableEq Number] [DecidableEq Dir]

theorem findBufferVisiting_eq_some {file : Dir × FileName} {buffers : List (Buffer Dir)}
    {b : Buffer Dir} (h : findBufferVisiting env file buffers = some b) :
    b ∈ buffers ∧ Visits env file b := by
  unfold findBufferVisiting at h
  rcases Option.or_eq_some_iff.1 h with h | ⟨-, h⟩
  · have hname := List.find?_some h
    refine ⟨List.mem_of_find?_eq_some h, ?_⟩
    rw [Visits, of_decide_eq_true hname, Option.map_some]
  · have hnumber := List.find?_some h
    rw [decide_eq_true_eq] at hnumber
    exact ⟨List.mem_of_find?_eq_some h, hnumber⟩

theorem findBufferVisiting_eq_none {file : Dir × FileName} {buffers : List (Buffer Dir)} :
    findBufferVisiting env file buffers = none ↔ ∀ b ∈ buffers, ¬ Visits env file b := by
  constructor
  · intro h b hb hvisits
    have hnumber := List.find?_eq_none.1 (Option.or_eq_none_iff.1 h).2 b hb
    rw [decide_eq_true_eq] at hnumber
    exact hnumber hvisits
  · intro h
    refine Option.eq_none_iff_forall_ne_some.2 fun b hb => ?_
    obtain ⟨hmem, hvisits⟩ := findBufferVisiting_eq_some hb
    exact h b hmem hvisits

theorem findFileNoselect_of_some {file : Dir × FileName} {s : Editor Dir Number} {b : Buffer Dir}
    (h : findBufferVisiting env file s.buffers = some b) :
    ∃ b1 s1, findFileNoselect env file s = (b1, s1) ∧ b1.id = b.id ∧
      s1.buffers.filter (·.id ≠ b.id) = s.buffers.filter (·.id ≠ b.id) := by
  unfold findFileNoselect
  rw [h]
  dsimp only
  split
  · exact ⟨_, _, rfl, rfl, filter_setBuffer s
      { b with text := s.disk.contents (env.number file), modified := false }⟩
  · exact ⟨_, _, rfl, rfl, rfl⟩

theorem findFileNoselect_of_none {file : Dir × FileName} {s : Editor Dir Number}
    (h : findBufferVisiting env file s.buffers = none) : findFileNoselect env file s =
      (⟨s.next, some file, false, s.disk.contents (env.number file), false⟩,
        s.openBuffer (some file) false (s.disk.contents (env.number file))) := by
  rw [findFileNoselect, h]

/-- A file that is formatted without an error takes its buffer with it. -/
theorem formatCxxFile_buffers {file : Dir × FileName} {s s1 s' : Editor Dir Number} {b : Buffer Dir}
    (hcxx : cxxFileP file.2.chars) (hfind : findFileNoselect env file s = (b, s1))
    (hdone : formatCxxFile env file s = .done s') :
    s'.buffers.Sublist (s1.buffers.filter (·.id ≠ b.id)) := by
  unfold formatCxxFile at hdone
  rw [if_pos hcxx, hfind] at hdone
  dsimp only at hdone
  have hid := (formatBuffer_spec env.commands b).1
  generalize formatBuffer env.commands b = formatted at hid hdone
  obtain ⟨b', signals⟩ := formatted
  dsimp only at hid hdone
  rw [← hid]
  split at hdone
  · cases hdone
  · cases hsave : saveBuffer env b' (s1.setBuffer b') with
    | signalled s2 => rw [hsave] at hdone; cases hdone
    | done s2 =>
      rw [hsave] at hdone
      cases hdone
      refine (saveBuffer_sublist hsave).trans ?_
      rw [filter_setBuffer]

theorem formatCxxFile_sublist {file : Dir × FileName} {s s' : Editor Dir Number}
    (hcxx : cxxFileP file.2.chars) (hdone : formatCxxFile env file s = .done s') :
    s'.buffers.Sublist s.buffers := by
  cases hvisiting : findBufferVisiting env file s.buffers with
  | some b =>
    obtain ⟨b1, s1, hfind, hid, hbuffers⟩ := findFileNoselect_of_some hvisiting
    have hsub := formatCxxFile_buffers hcxx hfind hdone
    rw [hid, hbuffers] at hsub
    exact hsub.trans List.filter_sublist
  | none =>
    have hsub := formatCxxFile_buffers hcxx (findFileNoselect_of_none hvisiting) hdone
    have hbuffers := filter_new s.ids_lt
      (rfl : (⟨s.next, some file, false, s.disk.contents (env.number file), false⟩ :
        Buffer Dir).id = s.next)
    exact hbuffers ▸ hsub

theorem formatCxxFile_visited {file : Dir × FileName} {s s' : Editor Dir Number} {b : Buffer Dir}
    (hcxx : cxxFileP file.2.chars) (hdone : formatCxxFile env file s = .done s')
    (hb : b ∈ s.buffers) (hvisits : Visits env file b) :
    s'.buffers.length < s.buffers.length := by
  cases hvisiting : findBufferVisiting env file s.buffers with
  | none => exact absurd hvisits (findBufferVisiting_eq_none.1 hvisiting b hb)
  | some c =>
    obtain ⟨b1, s1, hfind, hid, hbuffers⟩ := findFileNoselect_of_some hvisiting
    have hsub := formatCxxFile_buffers hcxx hfind hdone
    rw [hid, hbuffers] at hsub
    refine Nat.lt_of_le_of_lt hsub.length_le (List.length_filter_lt_length_iff_exists.2
      ⟨c, (findBufferVisiting_eq_some hvisiting).1, ?_⟩)
    simp

/-- How a file that no live buffer visits is formatted: in a new buffer, and what becomes of
it is its turn. -/
theorem formatCxxFile_new {file : Dir × FileName} {s : Editor Dir Number}
    (hcxx : cxxFileP file.2.chars) (hfree : ∀ b ∈ s.buffers, ¬ Visits env file b) :
    (∃ s' b, formatCxxFile env file s = .signalled s' ∧ s'.log = .opened s.next :: s.log ∧
      s'.buffers = b :: s.buffers) ∨
    (∃ s' saves, formatCxxFile env file s = .done s' ∧
      turn env file s.next s.disk = (s'.disk, false) ∧ s'.buffers = s.buffers ∧
      s'.next = s.next + 1 ∧ s'.log = .killed s.next :: (saves ++ .opened s.next :: s.log) ∧
      ∀ e ∈ saves, e = .saved s.next) ∨
    ∃ s', formatCxxFile env file s = .done s' ∧ (turn env file s.next s.disk).2 = true ∧
      ((∀ c ∈ s.buffers, c.shellOutput = false) → s'.buffers = s.buffers ∧
        s'.log = .killed s.next :: .killed (s.next + 1) :: .opened (s.next + 1) ::
          .saved s.next :: .opened s.next :: s.log) ∧
      ((∃ c ∈ s.buffers, c.shellOutput) → s'.buffers.length < s.buffers.length) := by
  unfold formatCxxFile turn
  rw [if_pos hcxx, findFileNoselect_of_none (findBufferVisiting_eq_none.2 hfree)]
  dsimp only
  obtain ⟨hid, hout⟩ := formatBuffer_spec env.commands
    ⟨s.next, some file, false, s.disk.contents (env.number file), false⟩
  generalize formatBuffer env.commands
    ⟨s.next, some file, false, s.disk.contents (env.number file), false⟩ = formatted at hid hout ⊢
  obtain ⟨b, signals⟩ := formatted
  dsimp only at hid hout ⊢
  have hother : ∀ c ∈ s.buffers, c.id ≠ b.id := fun c hc => hid ▸ Nat.ne_of_lt (s.ids_lt c hc)
  set s1 := (s.openBuffer (some file) false (s.disk.contents (env.number file))).setBuffer b
  have hbuffers : s1.buffers = b :: s.buffers := setBuffer_cons rfl hid.symm hother
  cases signals with
  | true => exact .inl ⟨s1, b, rfl, rfl, hbuffers⟩
  | false =>
    rw [if_neg Bool.false_ne_true, saveBuffer]
    cases hmodified : b.modified with
    | false =>
      refine .inr (.inl ⟨s1.killBuffer b.id, [], rfl, by simp; rfl, ?_, rfl, ?_,
        List.forall_mem_nil _⟩)
      · rw [buffers_killBuffer, hbuffers, hid]
        exact filter_new s.ids_lt hid
      · show Event.killed b.id :: _ = _
        rw [hid]
        rfl
    | true =>
      cases hrefuses : env.refuses b with
      | true => exact .inl ⟨s1, b, rfl, rfl, hbuffers⟩
      | false =>
        have hbuffers2 : (s1.setBuffer (env.written b)).buffers = env.written b :: s.buffers :=
          setBuffer_cons hbuffers rfl hother
        simp only [if_true, Bool.false_eq_true, if_false, or_self, Bool.true_eq_false]
        set s2 : Editor Dir Number := { s1.setBuffer (env.written b) with
          disk := s1.disk.write env (env.written b)
          log := .saved b.id :: s1.log }
        have hnext : s2.next = s.next + 1 := rfl
        cases hcommand : chmodCommand env (env.written b) (s.disk.write env (env.written b)) with
        | none =>
          have hs3 : afterSave env (env.written b) s2 = s2 := afterSave_none hcommand
          refine .inr (.inl ⟨s2.killBuffer b.id, [.saved b.id], ?_, rfl, ?_, rfl, ?_, ?_⟩)
          · exact congrArg (fun s : Editor Dir Number => Outcome.done (s.killBuffer b.id)) hs3
          · rw [buffers_killBuffer, hid]
            exact (congrArg _ hbuffers2).trans (filter_new s.ids_lt hid)
          · show Event.killed b.id :: Event.saved b.id :: _ = _
            rw [hid]
            rfl
          · rw [hid]
            exact List.forall_mem_singleton.2 rfl
        | some command =>
          refine .inr (.inr ⟨(afterSave env (env.written b) s2).killBuffer b.id, rfl, rfl, fun hnone => ?_,
            fun hlive => ?_⟩)
          · have hnone2 : ∀ c ∈ s2.buffers, c.shellOutput = false := fun c hc => by
              rcases List.mem_cons.1 (hbuffers2 ▸ hc : c ∈ _ :: s.buffers) with rfl | hc
              · exact hout
              · exact hnone c hc
            obtain ⟨hbuffers3, -, hlog3⟩ := afterSave_new (s := s2) hcommand hnone2
            constructor
            · rw [buffers_killBuffer, hbuffers3, hid]
              exact (congrArg _ hbuffers2).trans (filter_new s.ids_lt hid)
            · show Event.killed b.id :: (afterSave env (env.written b) s2).log = _
              rw [hlog3, hid, hnext]
              show _ :: _ :: _ :: Event.saved b.id :: _ = _
              rw [hid]
              rfl
          · have hless := length_afterSave_killBuffer (s := s2) hcommand hbuffers2 hout
              (fun c hc => (s.ids_lt c hc).trans_eq hid.symm) hlive
            exact hless

/-! ## All files -/

/-- Files that no live buffer visits leave the buffers alone, if `*Shell Command Output*` is not
live when one becomes a script. -/
theorem formatFiles_keeps (files : List (Dir × FileName)) {s : Editor Dir Number}
    (hcxx : ∀ file ∈ files, cxxFileP file.2.chars)
    (hfree : ∀ file ∈ files, ∀ b ∈ s.buffers, ¬ Visits env file b)
    (hscripts : (∃ b ∈ s.buffers, b.shellOutput) → scripts env files s.next s.disk = false) :
    ∃ events, Keeps s (formatFiles env files s).editor events := by
  induction files generalizing s with
  | nil => exact ⟨[], Keeps.refl s⟩
  | cons file files ih =>
    rw [List.forall_mem_cons] at hcxx hfree
    rw [formatFiles]
    rcases formatCxxFile_new hcxx.1 hfree.1 with ⟨s1, b, heq, hlog, hbuffers⟩ |
      ⟨s1, saves, heq, hturn, hbuffers, hnext, hlog, hsaves⟩ | ⟨s1, heq, hturn, hnone, -⟩
    · rw [heq]
      exact ⟨_, keeps_signalled hlog hbuffers⟩
    · obtain ⟨events, hkeeps⟩ := ih (s := s1) hcxx.2 (hbuffers ▸ hfree.2) fun hlive => by
        have h := hscripts (hbuffers ▸ hlive)
        rw [scripts, hturn, Bool.false_or] at h
        rw [hnext]
        exact h
      rw [heq]
      exact ⟨_, (keeps_done hlog hbuffers hsaves).trans hbuffers hkeeps⟩
    · have hout : ∀ b ∈ s.buffers, b.shellOutput = false := fun b hb => by
        by_contra hlive
        have h := hscripts ⟨b, hb, Bool.eq_true_of_not_eq_false hlive⟩
        rw [scripts, hturn, Bool.true_or] at h
        cases h
      obtain ⟨hbuffers, hlog⟩ := hnone hout
      obtain ⟨events, hkeeps⟩ := ih (s := s1) hcxx.2 (hbuffers ▸ hfree.2) fun ⟨b, hb, hlive⟩ => by
        rw [hout b (hbuffers ▸ hb)] at hlive
        cases hlive
      rw [heq]
      exact ⟨_, (keeps_script hlog hbuffers).trans hbuffers hkeeps⟩

theorem formatFiles_sublist (files : List (Dir × FileName)) {s s' : Editor Dir Number}
    (hcxx : ∀ file ∈ files, cxxFileP file.2.chars) (hdone : formatFiles env files s = .done s') :
    s'.buffers.Sublist s.buffers := by
  induction files generalizing s with
  | nil =>
    cases hdone
    exact List.Sublist.refl _
  | cons file files ih =>
    rw [List.forall_mem_cons] at hcxx
    obtain ⟨s1, heq, hdone⟩ := Outcome.andThen_eq_done.1 hdone
    exact (ih hcxx.2 hdone).trans (formatCxxFile_sublist hcxx.1 heq)

/-- If all files have been formatted and no buffer is gone, none was in the way. -/
theorem formatFiles_same (files : List (Dir × FileName)) {s s' : Editor Dir Number}
    (hcxx : ∀ file ∈ files, cxxFileP file.2.chars) (hdone : formatFiles env files s = .done s')
    (hle : s.buffers.length ≤ s'.buffers.length) :
    (∀ file ∈ files, ∀ b ∈ s.buffers, ¬ Visits env file b) ∧
      ((∃ b ∈ s.buffers, b.shellOutput) → scripts env files s.next s.disk = false) := by
  induction files generalizing s with
  | nil => exact ⟨List.forall_mem_nil _, fun _ => rfl⟩
  | cons file files ih =>
    rw [List.forall_mem_cons] at hcxx
    obtain ⟨s1, heq, hdone⟩ := Outcome.andThen_eq_done.1 hdone
    have hsub1 := formatCxxFile_sublist hcxx.1 heq
    have hle1 := hle.trans (formatFiles_sublist files hcxx.2 hdone).length_le
    have hbuffers : s1.buffers = s.buffers := hsub1.eq_of_length_le hle1
    obtain ⟨hfree, hscripts⟩ := ih hcxx.2 hdone (hbuffers ▸ hle)
    have hfree1 : ∀ b ∈ s.buffers, ¬ Visits env file b := fun b hb hvisits =>
      absurd hle1 (Nat.not_le_of_lt (formatCxxFile_visited hcxx.1 heq hb hvisits))
    refine ⟨List.forall_mem_cons.2 ⟨hfree1, hbuffers ▸ hfree⟩, fun hlive => ?_⟩
    rcases formatCxxFile_new hcxx.1 hfree1 with ⟨s2, b, hsig, -⟩ |
      ⟨s2, saves, heq2, hturn, -, hnext, -⟩ | ⟨s2, heq2, -, -, hless⟩
    · rw [hsig] at heq
      cases heq
    · rw [heq2] at heq
      cases heq
      rw [scripts, hturn, Bool.false_or]
      exact hnext ▸ hscripts (hbuffers ▸ hlive)
    · rw [heq2] at heq
      cases heq
      exact absurd hle1 (Nat.not_le_of_lt (hless hlive))

section
variable {fs : Files FileName Dir} {max : Option Nat} {d : Dir}

theorem formatFiles_append (files files' : List (Dir × FileName)) (s : Editor Dir Number) :
    formatFiles env (files ++ files') s =
      (formatFiles env files s).andThen (formatFiles env files') := by
  induction files generalizing s with
  | nil => rfl
  | cons file files ih =>
    rw [List.cons_append, formatFiles, formatFiles]
    cases formatCxxFile env file s with
    | done s1 => exact ih s1
    | signalled s1 => rfl

theorem formatPath_eq (x : List FileName) (s : Editor Dir Number) :
    formatPath env fs max d x s = formatFiles env ([x].filterMap (location fs max d)) s := by
  unfold formatPath
  cases hx : location fs max d x with
  | none =>
    rw [List.filterMap_cons_none hx]
    rfl
  | some file =>
    rw [List.filterMap_cons_some hx, List.filterMap_nil, formatFiles]
    dsimp only
    cases formatCxxFile env file s <;> rfl

theorem dolist_eq {α : Type*} {body : α → Editor Dir Number → Option (Outcome Dir Number)}
    {calls : α → Option (List (List FileName))} (hbody : ∀ x ys, calls x = some ys → ∀ s,
      body x s = some (formatFiles env (ys.filterMap (location fs max d)) s)) {xs : List α}
    {zs : List (List FileName)} (h : FormatCxx.dolist calls xs = some zs)
    (s : Editor Dir Number) :
    dolist body xs s = some (formatFiles env (zs.filterMap (location fs max d)) s) := by
  induction xs generalizing zs s with
  | nil =>
    cases h
    rfl
  | cons x xs ih =>
    obtain ⟨ys, ys', hx, hxs, rfl⟩ := FormatCxx.dolist_cons.1 h
    rw [dolist, hbody x ys hx s, List.filterMap_append, formatFiles_append]
    cases formatFiles env (ys.filterMap (location fs max d)) s with
    | done s1 => exact ih hxs s1
    | signalled s1 => rfl

/-- The walk formats one after the other the files it comes to. -/
theorem formatCxxDirectory_eq {fuel : Nat} {x : List FileName} {calls : List (List FileName)}
    (h : FormatCxx.formatCxxDirectory fs max d fuel x = some calls) (s : Editor Dir Number) :
    formatCxxDirectory env fs max d fuel x s =
      some (formatFiles env (calls.filterMap (location fs max d)) s) := by
  induction fuel generalizing x calls s with
  | zero => cases h
  | succ fuel ih =>
    obtain ⟨files, hfiles, h⟩ := Option.bind_eq_some_iff.1 h
    rw [formatCxxDirectory, hfiles, Option.bind_some]
    refine dolist_eq (fun y ys hy s => ?_) h s
    unfold FormatCxx.formatEntry at hy
    unfold formatEntry
    split at hy
    · next hvis =>
      rw [if_pos hvis]
      split at hy
      · next hdir =>
        rw [if_pos hdir]
        exact ih hy s
      · next hdir =>
        rw [if_neg hdir]
        split at hy
        · next hfile =>
          cases hy
          rw [if_pos hfile, formatPath_eq]
        · next hfile =>
          cases hy
          rw [if_neg hfile]
          rfl
    · next hvis =>
      cases hy
      rw [if_neg hvis]
      rfl

variable (env max) in
/-- **In a tree without links the walk ends; it leaves the user's buffers alone if none of them
visits a file of the walk or is `*Shell Command Output*` when one becomes a script, and if
it comes to its end, only then.** -/
theorem formatCxxDirectory_keeps_iff (hlinks : NoLinks fs d) (s : Editor Dir Number) :
    ∃ n, ∀ fuel ≥ n, ∃ calls outcome,
      FormatCxx.formatCxxDirectory fs max d fuel [] = some calls ∧
      formatCxxDirectory env fs max d fuel [] s = some outcome ∧
      (¬ InTheWay env fs d s ∧ ¬ OutputInTheWay env (calls.filterMap (location fs max d)) s →
        ∃ events, Keeps s outcome.editor events) ∧
      ∀ s', outcome = .done s' → ((∃ events, Keeps s s' events) ↔
        ¬ InTheWay env fs d s ∧
          ¬ OutputInTheWay env (calls.filterMap (location fs max d)) s) := by
  have hlinked : ¬ FormatCxx.LinkedCxxFile fs max d := by
    rintro ⟨p, e, u, n, -, hres, hu, -⟩
    exact absurd (hlinks.resolve hres) (Nat.ne_of_gt hu)
  obtain ⟨n, hn⟩ : ∃ n, ∀ p, DirPath fs max FormatCxx.Visible d p → p.length < n :=
    bounded_iff.2 fun _ => hlinks.not_cycle
  refine ⟨n, fun fuel hfuel => ?_⟩
  obtain ⟨calls, hcalls⟩ := Option.isSome_iff_exists.1
    ((FormatCxx.formatCxxDirectory_isSome (d := d) (p := []) rfl).2 fun q hq hres =>
      Nat.lt_of_lt_of_le (hn q ⟨hq, hres⟩) hfuel)
  have hmem {file : Dir × FileName} := FormatCxx.mem_locations_iff (f := file) hlinked hcalls
  have hcxx : ∀ file ∈ calls.filterMap (location fs max d), cxxFileP file.2.chars :=
    fun file hfile => (hmem.1 hfile).2.2.2
  have hkeeps (h : ¬ InTheWay env fs d s ∧
      ¬ OutputInTheWay env (calls.filterMap (location fs max d)) s) :
      ∃ events, Keeps s (formatFiles env (calls.filterMap (location fs max d)) s).editor events :=
    formatFiles_keeps _ hcxx
      (fun file hfile b hb hvisits => h.1 ⟨b, hb, file, hmem.1 hfile, hvisits⟩)
      fun hlive => Bool.eq_false_iff.2 fun hscripts => h.2 ⟨hlive, hscripts⟩
  refine ⟨calls, _, hcalls, formatCxxDirectory_eq hcalls s, hkeeps, fun s' hdone =>
    ⟨?_, fun h => ?_⟩⟩
  · rintro ⟨events, hkept⟩
    obtain ⟨hfree, hscripts⟩ := formatFiles_same _ hcxx hdone hkept.length_le
    constructor
    · rintro ⟨b, hb, file, heligible, hvisits⟩
      exact hfree file (hmem.2 heligible) b hb hvisits
    · rintro ⟨hlive, h⟩
      rw [hscripts hlive] at h
      cases h
  · have hkept := hkeeps h
    rwa [hdone] at hkept

end

end

def oneFile : Files FileName Unit where
  entries _ := [(FormatCxx.nameAC, .file)]
  names_nodup := by decide
  height _ := 0
  height_lt h := by simp at h
  parent_unique h := by simp at h
  finite := inferInstance

theorem noLinks_oneFile : NoLinks oneFile () := by
  rintro e - n more target h
  cases List.mem_singleton.1 h

/-- There is nothing to format, and nobody says no. -/
def quiet : Env Unit FileName where
  number := Prod.snd
  reread _ := false
  whitespaceCleanup := none
  untabify b := ⟨b.text, false, false⟩
  indentRegion b := ⟨b.text, false, false⟩
  refuses _ := false
  writeFileHooks b := b.text
  path file := file.2.chars
  chmodFound := true
  shell _ disk := { disk with executable := fun _ => true }

/-- A tab becomes blanks. -/
def untabifying : Env Unit FileName where
  __ := quiet
  untabify b :=
    ⟨b.text.flatMap fun c => if c = '\t' then [' ', ' '] else [c], '\t' ∈ b.text, false⟩

def scriptDisk : Disk FileName where
  contents _ := "#!/bin/tcc -run\n\tint x;".toList
  executable _ := false

def editing (visited : Option (Unit × FileName)) (shellOutput modified : Bool) :
    Editor Unit FileName where
  buffers := [⟨0, visited, shellOutput, "int x;".toList, modified⟩]
  disk := scriptDisk
  log := []
  next := 1
  ids_nodup := List.nodup_singleton _
  ids_lt := by simp

/-- Of a buffer that visits no file, and a file that becomes a script. -/
theorem formatCxxDirectory_keeps_iff_scratch :
    ∃ n, ∀ fuel ≥ n, ∃ outcome,
      formatCxxDirectory untabifying oneFile (some 40) () fuel [] (editing none false true) =
        some outcome ∧
      ∃ events, Keeps (editing none false true) outcome.editor events := by
  obtain ⟨n, hn⟩ := formatCxxDirectory_keeps_iff untabifying (some 40) noLinks_oneFile
    (editing none false true)
  refine ⟨n, fun fuel hfuel => ?_⟩
  obtain ⟨calls, outcome, -, heq, hkeeps, -⟩ := hn fuel hfuel
  refine ⟨outcome, heq, hkeeps ⟨?_, ?_⟩⟩
  · rintro ⟨b, hb, file, -, hvisits⟩
    cases List.mem_singleton.1 hb
    cases hvisits
  · rintro ⟨⟨b, hb, hlive⟩, -⟩
    cases List.mem_singleton.1 hb
    cases hlive

/-- The edit is saved and its buffer is killed. -/
theorem not_keeps_editing : NoLinks oneFile () ∧ ∃ s',
    formatCxxDirectory quiet oneFile (some 40) () 1 []
      (editing (some ((), FormatCxx.nameAC)) false true) = some (.done s') ∧
      s'.disk.contents FormatCxx.nameAC = "int x;".toList ∧
      ¬ ∃ events, Keeps (editing (some ((), FormatCxx.nameAC)) false true) s' events := by
  refine ⟨noLinks_oneFile, _, rfl, by decide, ?_⟩
  rintro ⟨events, hkeeps⟩
  obtain ⟨b, hb, -⟩ := hkeeps.live _ (List.mem_singleton_self _)
  cases hb

/-- The file becomes a script, and `*Shell Command Output*` is killed. -/
example : (formatCxxDirectory untabifying oneFile (some 40) () 1 []
    (editing none true false)).map (fun outcome => outcome.editor.buffers.length) = some 0 := rfl

end EmacsConfig.FormatBuffers
