import Mathlib.Data.List.Induction
import Mathlib.Data.List.Infix
import Mathlib.Tactic.Common

/-!
# Refinement of machines that may give up

A machine takes a state and an operation to a new state and an output, or gives up.
`Agree R` says of two results that both gave up, or that the outputs are equal and the
states related by `R`. Machines that agree on one operation agree on a run. `foldlM_spec`
is the rule for a loop whose body may give up.
-/

namespace EmacsConfig.Refinement

variable {σ τ ε ο : Type*}

/-- The outputs of the operations `es` in order, and the last state. -/
def run (step : σ → ε → Option (σ × ο)) : σ → List ε → Option (σ × List ο)
  | s, [] => some (s, [])
  | s, e :: es =>
    (step s e).bind fun now => (run step now.1 es).map fun later => (later.1, now.2 :: later.2)

inductive Agree (R : σ → τ → Prop) : Option (σ × ο) → Option (τ × ο) → Prop
  | none : Agree R none none
  | some {s : σ} {t : τ} (o : ο) : R s t → Agree R (some (s, o)) (some (t, o))

/-- **Refinement of runs.** -/
theorem agree_run {R : σ → τ → Prop} {step : σ → ε → Option (σ × ο)}
    {step' : τ → ε → Option (τ × ο)} (hstep : ∀ s t e, R s t → Agree R (step s e) (step' t e))
    {s : σ} {t : τ} (h : R s t) (es : List ε) : Agree R (run step s es) (run step' t es) := by
  induction es generalizing s t with
  | nil => exact .some [] h
  | cons e es ih =>
    have hnow := hstep s t e h
    rw [run, run]
    generalize step s e = x at hnow ⊢
    generalize step' t e = y at hnow ⊢
    cases hnow with
    | none => exact .none
    | @some s' t' o hrel =>
      have hlater := ih hrel
      simp only [Option.bind_some]
      generalize run step s' es = x at hlater ⊢
      generalize run step' t' es = y at hlater ⊢
      cases hlater with
      | none => exact .none
      | some os hrel' => exact .some (o :: os) hrel'

/-- Machines that agree have the same outputs. -/
theorem Agree.outputs {R : σ → τ → Prop} {x : Option (σ × ο)} {y : Option (τ × ο)}
    (h : Agree R x y) : x.map (·.2) = y.map (·.2) := by
  cases h with
  | none => rfl
  | some => rfl

/-! ## Loops -/

/-- **The loop rule**: a body that does not give up and takes what holds of the elements done
to what holds of one more. -/
theorem foldlM_spec {step : σ → ε → Option σ} {s : σ} {es : List ε} (R : List ε → σ → Prop)
    (h0 : R [] s) (hstep : ∀ pre e s, pre ++ [e] <+: es → R pre s →
      ∃ s', step s e = some s' ∧ R (pre ++ [e]) s') :
    ∃ s', es.foldlM step s = some s' ∧ R es s' := by
  induction es using List.reverseRecOn with
  | nil => exact ⟨s, rfl, h0⟩
  | append_singleton es e ih =>
    obtain ⟨s₁, hrun, h₁⟩ := ih fun pre e' s hpre => hstep pre e' s (hpre.trans ⟨[e], rfl⟩)
    obtain ⟨s₂, hlast, h₂⟩ := hstep es e s₁ (List.prefix_refl _) h₁
    refine ⟨s₂, ?_, h₂⟩
    rw [List.foldlM_append, hrun]
    simp [hlast]

/-- What every step that does not give up keeps. -/
theorem foldlM_invariant {step : σ → ε → Option σ} {es : List ε} (P : σ → Prop)
    (hstep : ∀ s e s', e ∈ es → step s e = some s' → P s → P s') {s s' : σ} (h : P s)
    (hrun : es.foldlM step s = some s') : P s' := by
  induction es generalizing s with
  | nil =>
    obtain rfl := Option.some.inj hrun
    exact h
  | cons e es ih =>
    rw [List.foldlM_cons] at hrun
    obtain ⟨s₁, hnow, hlater⟩ := Option.bind_eq_some_iff.1 hrun
    exact ih (fun s e' s' he' => hstep s e' s' (List.mem_cons_of_mem _ he'))
      (hstep s e s₁ List.mem_cons_self hnow h) hlater

end EmacsConfig.Refinement
