import Mathlib.Data.Finset.Insert
import Mathlib.Data.Finset.Erase
import EmacsConfig.Lib.Runs

/-!
# Single-buffer Dired

The around-advices on `dired-find-file` and `dired-up-directory` kill the
buffer the command started in. The advised command is given by the buffer it
selects. The first advice kills only a buffer that has been left for a
directory; the second kills unconditionally, which loses the selected buffer
when the command stayed where it was (`keepsShown_iff`).
-/

namespace EmacsConfig.Dired

open EmacsConfig.Runs

/-- The live buffers and the selected one. -/
structure Editor (Buffer : Type*) where
  live : Finset Buffer
  current : Buffer
  current_mem : current ∈ live

/-- `other-buffer`: what is shown once a buffer is gone, `*scratch*` if nothing
else is left. It is never the buffer just killed. -/
structure OtherBuffer (Buffer : Type*) where
  pick : Finset Buffer → Buffer → Buffer
  pick_ne : ∀ live b, pick live b ≠ b

/-- Which file names are directories, and which buffers show one. -/
structure Files (File Buffer : Type*) where
  fileDirectoryP : File → Bool
  showsDirectory : Buffer → Bool

variable {File Buffer : Type*} [DecidableEq Buffer]

/-- Selecting a live or a new buffer. -/
def select (b : Buffer) (e : Editor Buffer) : Editor Buffer :=
  ⟨insert b e.live, b, Finset.mem_insert_self b e.live⟩

def killBuffer (o : OtherBuffer Buffer) (e : Editor Buffer) (b : Buffer) : Editor Buffer :=
  if h : e.current = b then
    let rest := e.live.erase b
    ⟨insert (o.pick rest b) rest, o.pick rest b, Finset.mem_insert_self _ _⟩
  else ⟨e.live.erase b, e.current, Finset.mem_erase.2 ⟨h, e.current_mem⟩⟩

theorem notMem_killBuffer (o : OtherBuffer Buffer) (e : Editor Buffer) (b : Buffer) :
    b ∉ (killBuffer o e b).live := by
  unfold killBuffer
  split
  · simpa using (o.pick_ne _ b).symm
  · simp

theorem killBuffer_of_ne (o : OtherBuffer Buffer) {e : Editor Buffer} {b : Buffer}
    (h : e.current ≠ b) :
    (killBuffer o e b).live = e.live.erase b ∧ (killBuffer o e b).current = e.current := by
  simp [killBuffer, h]

/-! ## The advices -/

/-- `dired-find-file-single-buffer` around `adDoIt`, on the file `filename`. -/
def diredFindFile (w : Files File Buffer) (o : OtherBuffer Buffer) (filename : File)
    (adDoIt : Editor Buffer → Editor Buffer) (e : Editor Buffer) : Editor Buffer :=
  let orig := e.current
  let e := adDoIt e
  if w.fileDirectoryP filename ∧ e.current ≠ orig then killBuffer o e orig else e

/-- `dired-up-directory-single-buffer` around `adDoIt`. -/
def diredUpDirectory (o : OtherBuffer Buffer) (adDoIt : Editor Buffer → Editor Buffer)
    (e : Editor Buffer) : Editor Buffer :=
  let orig := e.current
  killBuffer o (adDoIt e) orig

/-- A command with the buffer its original part selects: a buffer for the file
it visits, or for the parent directory. -/
inductive Command (w : Files File Buffer) where
  | findFile (filename : File) (selected : Buffer)
      (shows : w.showsDirectory selected = w.fileDirectoryP filename)
  | upDirectory (selected : Buffer) (shows : w.showsDirectory selected = true)

def Command.selected {w : Files File Buffer} : Command w → Buffer
  | .findFile _ b _ => b
  | .upDirectory b _ => b

def step (w : Files File Buffer) (o : OtherBuffer Buffer) (e : Editor Buffer) :
    Command w → Editor Buffer
  | .findFile filename b _ => diredFindFile w o filename (select b) e
  | .upDirectory b _ => diredUpDirectory o (select b) e

/-- The selected buffer is live and current, and the one left is killed exactly
when another one showing a directory has been selected. -/
def KeepsShown (w : Files File Buffer) (o : OtherBuffer Buffer) (e : Editor Buffer)
    (c : Command w) : Prop :=
  c.selected ∈ (step w o e c).live ∧ (step w o e c).current = c.selected ∧
    (e.current ∉ (step w o e c).live ↔ c.selected ≠ e.current ∧ w.showsDirectory c.selected = true)

/-- `dired-up-directory` leaves the buffer it started in. -/
def Leaves {w : Files File Buffer} (e : Editor Buffer) : Command w → Prop
  | .findFile .. => True
  | .upDirectory b _ => b ≠ e.current

section
variable (w : Files File Buffer) (o : OtherBuffer Buffer)

theorem current_mem_select (b : Buffer) (e : Editor Buffer) : e.current ∈ (select b e).live :=
  Finset.mem_insert_of_mem e.current_mem

theorem keepsShown_findFile (e : Editor Buffer) (filename : File) (b : Buffer)
    (shows : w.showsDirectory b = w.fileDirectoryP filename) :
    KeepsShown w o e (.findFile filename b shows) := by
  simp only [KeepsShown, step, diredFindFile, Command.selected]
  split
  · next h =>
    obtain ⟨hdir, hne⟩ := h
    obtain ⟨hlive, hcur⟩ := killBuffer_of_ne o hne
    rw [hlive, hcur]
    exact ⟨Finset.mem_erase.2 ⟨hne, (select b e).current_mem⟩, rfl,
      iff_of_true (by simp) ⟨hne, by rw [shows, hdir]⟩⟩
  · next h =>
    refine ⟨(select b e).current_mem, rfl,
      iff_of_false (fun hdead => hdead (current_mem_select b e)) ?_⟩
    rintro ⟨hne, hdir⟩
    exact h ⟨shows ▸ hdir, hne⟩

theorem keepsShown_upDirectory (e : Editor Buffer) (b : Buffer)
    (shows : w.showsDirectory b = true) :
    KeepsShown w o e (.upDirectory b shows) ↔ b ≠ e.current := by
  simp only [KeepsShown, step, diredUpDirectory, Command.selected]
  constructor
  · rintro ⟨hlive, -, -⟩ rfl
    exact notMem_killBuffer o _ _ hlive
  · intro hne
    obtain ⟨hlive, hcur⟩ := killBuffer_of_ne o (e := select b e) hne
    rw [hlive, hcur]
    exact ⟨Finset.mem_erase.2 ⟨hne, (select b e).current_mem⟩, rfl,
      iff_of_true (by simp) ⟨hne, shows⟩⟩

theorem keepsShown_iff (e : Editor Buffer) (c : Command w) :
    KeepsShown w o e c ↔ Leaves e c := by
  cases c with
  | findFile filename b shows =>
    exact iff_of_true (keepsShown_findFile w o e filename b shows) trivial
  | upDirectory b shows => exact keepsShown_upDirectory w o e b shows

/-- **Along a run the buffer just shown is never lost exactly if no
`dired-up-directory` of the run stays in the buffer it started in.** -/
theorem run_keepsShown_iff (e : Editor Buffer) (cmds : List (Command w)) :
    Each (fun pre c => KeepsShown w o (run (step w o) e pre) c) cmds ↔
      Each (fun pre c => Leaves (run (step w o) e pre) c) cmds :=
  each_congr (fun pre c => keepsShown_iff w o (run (step w o) e pre) c) cmds

end

/-- Every buffer shows a directory, `Nat` names them; `b + 1` replaces `b`. -/
def rootFiles : Files Nat Nat := ⟨fun _ => true, fun _ => true⟩

def nextBuffer : OtherBuffer Nat := ⟨fun _ b => b + 1, fun _ b => Nat.succ_ne_self b⟩

/-- `dired-up-directory` at the root directory selects the buffer it is in,
buffer 0, and the advice kills it. -/
theorem not_keepsShown_root :
    ¬ ∀ (w : Files Nat Nat) (o : OtherBuffer Nat) (e : Editor Nat) (cmds : List (Command w)),
      Each (fun pre c => KeepsShown w o (run (step w o) e pre) c) cmds := by
  intro h
  have h0 := h rootFiles nextBuffer ⟨{0}, 0, by decide⟩ [.upDirectory 0 rfl] [] _
    (List.prefix_refl _)
  exact (keepsShown_upDirectory rootFiles nextBuffer _ 0 rfl).1 h0 rfl

end EmacsConfig.Dired
