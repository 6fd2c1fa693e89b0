import Mathlib.Data.List.Induction
import Mathlib.Data.List.Infix

/-!
# Runs of a step function

`run step s es` is the state after the events `es`. `Always P es` says `P` of
every history the run passes through, `Each Q es` says `Q` of every event at the
history before it; `always_iff_each` turns the first into the second when each
event decides whether `P` survives it.
-/

namespace EmacsConfig.Runs

variable {σ ε : Type*}

/-- The state after the events `es`, in order. -/
def run (step : σ → ε → σ) (s : σ) (es : List ε) : σ := es.foldl step s

theorem run_append (step : σ → ε → σ) (s : σ) (es later : List ε) :
    run step s (es ++ later) = run step (run step s es) later := List.foldl_append

@[simp] theorem run_concat (step : σ → ε → σ) (s : σ) (es : List ε) (e : ε) :
    run step s (es ++ [e]) = step (run step s es) e := by
  simp [run]

/-- **The invariant rule.** -/
theorem run_invariant {step : σ → ε → σ} {P : σ → Prop} {s : σ} (h0 : P s)
    (hstep : ∀ s e, P s → P (step s e)) (es : List ε) : P (run step s es) := by
  induction es generalizing s with
  | nil => exact h0
  | cons e es ih => exact ih (hstep s e h0)

/-- `P` holds of every history on the way to `es`. -/
def Always (P : List ε → Prop) (es : List ε) : Prop := ∀ pre, pre <+: es → P pre

/-- `Q` holds of every event of `es` at the history before it. -/
def Each (Q : List ε → ε → Prop) (es : List ε) : Prop := ∀ pre e, pre ++ [e] <+: es → Q pre e

theorem always_nil {P : List ε → Prop} : Always P [] ↔ P [] := by
  simp [Always]

theorem always_concat {P : List ε → Prop} {es : List ε} {e : ε} :
    Always P (es ++ [e]) ↔ Always P es ∧ P (es ++ [e]) := by
  simp only [Always, List.prefix_concat_iff]
  constructor
  · intro h
    exact ⟨fun pre hp => h pre (.inr hp), h _ (.inl rfl)⟩
  · rintro ⟨h, he⟩ pre (rfl | hp)
    · exact he
    · exact h pre hp

theorem Always.self {P : List ε → Prop} {es : List ε} (h : Always P es) : P es :=
  h es (List.prefix_refl es)

theorem each_nil {Q : List ε → ε → Prop} : Each Q [] := by
  intro pre e h
  simp at h

theorem each_concat {Q : List ε → ε → Prop} {es : List ε} {e : ε} :
    Each Q (es ++ [e]) ↔ Each Q es ∧ Q es e := by
  simp only [Each, List.prefix_concat_iff]
  constructor
  · intro h
    exact ⟨fun pre a hp => h pre a (.inr hp), h es e (.inl rfl)⟩
  · rintro ⟨h, he⟩ pre a (heq | hp)
    · obtain ⟨rfl, rfl⟩ := List.append_inj' heq rfl |>.imp_right List.singleton_inj.mp
      exact he
    · exact h pre a hp

theorem each_congr {Q R : List ε → ε → Prop} (h : ∀ pre e, Q pre e ↔ R pre e) (es : List ε) :
    Each Q es ↔ Each R es :=
  forall_congr' fun pre => forall_congr' fun e => imp_congr_right fun _ => h pre e

/-- **Runs from steps**: when `P` holds at the start and, along histories that
kept `P`, an event keeps it exactly if it satisfies `Q`, then `P` holds
throughout a run exactly if every event of the run satisfies `Q`. -/
theorem always_iff_each {P : List ε → Prop} {Q : List ε → ε → Prop} (h0 : P [])
    (hstep : ∀ es e, Always P es → (P (es ++ [e]) ↔ Q es e)) (es : List ε) :
    Always P es ↔ Each Q es := by
  induction es using List.reverseRecOn with
  | nil => exact ⟨fun _ => each_nil, fun _ => always_nil.2 h0⟩
  | append_singleton es e ih =>
    rw [always_concat, each_concat, ← ih]
    exact and_congr_right fun h => hstep es e h

end EmacsConfig.Runs
