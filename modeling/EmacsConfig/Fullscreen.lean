import Mathlib.Algebra.Group.Nat.Even
import Mathlib.Data.List.Count
import EmacsConfig.Lib.Runs

/-!
# `toggle-fullscreen`

The `fullscreen` parameter belongs to a frame, `old-fullscreen` is one global
variable. A call saves the selected frame's value when it opens that frame to
`fullboth` and restores the saved value when it closes it. The value restored
is the one of the frame opened last, so a frame gets its own value back exactly
if that frame started with the same one (`restores_iff_openersAgree`).
-/

namespace EmacsConfig.Fullscreen

open EmacsConfig.Runs

/-- The values of a frame's `fullscreen` parameter. -/
inductive Param where
  | nil
  | maximized
  | fullwidth
  | fullheight
  | fullboth
  deriving DecidableEq, Repr

/-- The frames' parameters and the global `old-fullscreen` (`none` while it is
not `boundp`). -/
structure Session (Frame : Type*) where
  fullscreen : Frame → Param
  oldFullscreen : Option Param

variable {Frame : Type*} [DecidableEq Frame]

def Session.setFrameParameter (s : Session Frame) (f : Frame) (v : Param) : Session Frame :=
  { s with fullscreen := Function.update s.fullscreen f v }

@[simp] theorem Session.setFrameParameter_fullscreen (s : Session Frame) (f g : Frame) (v : Param) :
    (s.setFrameParameter f v).fullscreen g = if g = f then v else s.fullscreen g := by
  simp [setFrameParameter, Function.update_apply]

@[simp] theorem Session.setFrameParameter_oldFullscreen (s : Session Frame) (f : Frame)
    (v : Param) : (s.setFrameParameter f v).oldFullscreen = s.oldFullscreen := rfl

/-- `toggle-fullscreen` with `selected` the selected frame. -/
def toggleFullscreen (s : Session Frame) (selected : Frame) : Session Frame :=
  let currentValue := s.fullscreen selected
  if currentValue = .fullboth then
    s.setFrameParameter selected (s.oldFullscreen.getD .nil)
  else
    { s with oldFullscreen := some currentValue }.setFrameParameter selected .fullboth

/-- The session before the first call: `old-fullscreen` may hold anything. -/
def start (init : Frame → Param) (old : Option Param) : Session Frame := ⟨init, old⟩

/-- The session after calls made with the frames `calls` selected, in order. -/
def after (init : Frame → Param) (old : Option Param) (calls : List Frame) : Session Frame :=
  run toggleFullscreen (start init old) calls

@[simp] theorem after_nil (init : Frame → Param) (old : Option Param) :
    after init old [] = start init old := rfl

@[simp] theorem after_concat (init : Frame → Param) (old : Option Param) (calls : List Frame)
    (f : Frame) : after init old (calls ++ [f]) = toggleFullscreen (after init old calls) f :=
  run_concat ..

/-- Every frame has its initial value after an even number of calls made in it
and `fullboth` after an odd number. -/
def Restores (init : Frame → Param) (old : Option Param) (calls : List Frame) : Prop :=
  ∀ f, (after init old calls).fullscreen f = if Even (calls.count f) then init f else .fullboth

/-- The frame of the last call that was an odd-numbered call of its frame;
`earlier` lists the calls latest first. -/
def lastOpened : List Frame → Option Frame
  | [] => none
  | g :: earlier => if Even (earlier.count g) then some g else lastOpened earlier

/-- A call that closes `f` comes after an opening call of a frame whose initial
value is that of `f`, with no opening call between. -/
def OpenerAgrees (init : Frame → Param) (calls : List Frame) (f : Frame) : Prop :=
  ¬ Even (calls.count f) → ∃ g, lastOpened calls.reverse = some g ∧ init g = init f

/-- `OpenerAgrees` at every call of the run. -/
def OpenersAgree (init : Frame → Param) (calls : List Frame) : Prop :=
  Each (OpenerAgrees init) calls

theorem lastOpened_isSome {calls : List Frame} {f : Frame} (h : ¬ Even (calls.count f)) :
    ∃ g, lastOpened calls = some g := by
  induction calls with
  | nil => simp at h
  | cons g earlier ih =>
    simp only [lastOpened]
    split
    · exact ⟨g, rfl⟩
    · next hg =>
      by_cases hf : f = g
      · subst hf; exact ih hg
      · rw [List.count_cons_of_ne (Ne.symm hf)] at h
        exact ih h

section
variable {init : Frame → Param} (hinit : ∀ f, init f ≠ .fullboth) {old : Option Param}
include hinit

/-- While the frames are as they should be, `old-fullscreen` is the initial
value of the frame opened last. -/
theorem oldFullscreen_after {calls : List Frame} (h : Always (Restores init old) calls) :
    (after init old calls).oldFullscreen = ((lastOpened calls.reverse).map init).or old := by
  induction calls using List.reverseRecOn with
  | nil => simp [start, lastOpened]
  | append_singleton calls f ih =>
    obtain ⟨hpre, -⟩ := always_concat.1 h
    have hf := hpre.self f
    rw [after_concat, List.reverse_append, List.reverse_singleton, List.singleton_append,
      lastOpened, List.count_reverse, toggleFullscreen]
    by_cases heven : Even (calls.count f)
    · rw [if_pos heven] at hf
      simp [hf, hinit f, heven]
    · rw [if_neg heven] at hf
      simp [hf, heven, ih hpre]

/-- One more call keeps the frames as they should be exactly if it opens its
frame or the frame opened last had the same initial value. -/
theorem restores_concat {calls : List Frame} {f : Frame} (h : Always (Restores init old) calls) :
    Restores init old (calls ++ [f]) ↔ OpenerAgrees init calls f := by
  have hcalls := h.self
  have hold := oldFullscreen_after hinit h
  have hf := hcalls f
  -- only the selected frame's parameter and call count change
  have hrest : Restores init old (calls ++ [f]) ↔
      (after init old (calls ++ [f])).fullscreen f =
        if Even (calls.count f) then .fullboth else init f := by
    have hcount : (calls ++ [f]).count f = calls.count f + 1 := by simp
    constructor
    · intro hr
      rw [hr f, hcount]
      simp only [Nat.even_add_one, ite_not]
    · intro he g
      by_cases hg : g = f
      · subst hg
        rw [he, hcount]
        simp only [Nat.even_add_one, ite_not]
      · have hc : (calls ++ [f]).count g = calls.count g := by simp [Ne.symm hg]
        rw [hc, ← hcalls g, after_concat, toggleFullscreen]
        split <;> simp [hg]
  rw [hrest, OpenerAgrees, after_concat, toggleFullscreen]
  by_cases heven : Even (calls.count f)
  · rw [if_pos heven] at hf
    simp [hf, hinit f, heven]
  · rw [if_neg heven] at hf
    obtain ⟨g, hg⟩ : ∃ g, lastOpened calls.reverse = some g :=
      lastOpened_isSome (f := f) (by simpa using heven)
    simp [hf, heven, hold, hg]

/-- **`toggle-fullscreen` restores every frame, at every point of a run,
exactly if no frame is closed after the opening of a frame with another initial
value.** -/
theorem restores_iff_openersAgree (calls : List Frame) :
    Always (Restores init old) calls ↔ OpenersAgree init calls :=
  always_iff_each (fun f => by simp [start]) (fun _ _ h => restores_concat hinit h) calls

end

/-- A maximized frame 0 and a plain frame 1: opened in turn, then 0 closed. -/
theorem restores_iff_openersAgree_two :
    Always (Restores (fun f : Nat => if f = 0 then .maximized else .nil) none) [0, 1, 0] ↔
      OpenersAgree (fun f : Nat => if f = 0 then .maximized else .nil) [0, 1, 0] :=
  restores_iff_openersAgree (fun f => by split <;> decide) [0, 1, 0]

/-- Frame 0 ends with the value of frame 1. -/
theorem not_restores_interleaved :
    ¬ ∀ (init : Nat → Param) (_ : ∀ f, init f ≠ .fullboth) (old : Option Param) (calls : List Nat),
      Restores init old calls := by
  intro h
  have h0 := h (fun f => if f = 0 then .maximized else .nil) (fun f => by split <;> decide)
    none [0, 1, 0] 0
  revert h0
  decide

end EmacsConfig.Fullscreen
