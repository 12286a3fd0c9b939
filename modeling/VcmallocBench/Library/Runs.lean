import Mathlib.Data.List.Basic

/-! # Runs

Sequences of labelled steps from a state, and the rules that carry an invariant
along them.
-/

namespace VcmallocBench

universe u v

variable {α : Type u} {σ : Type v}

/-- The states that steps with the given labels lead to. -/
inductive Run (step : σ → α → σ → Prop) (s₀ : σ) : List α → σ → Prop
  | start : Run step s₀ [] s₀
  | next {labels : List α} {a : α} {s t : σ} (run : Run step s₀ labels s) (hstep : step s a t) :
      Run step s₀ (labels ++ [a]) t

namespace Run

variable {step step' : σ → α → σ → Prop} {s₀ s t : σ} {labels labels' : List α}

theorem indexed {I : List α → σ → Prop} (h₀ : I [] s₀)
    (hs : ∀ labels s a t, I labels s → step s a t → I (labels ++ [a]) t)
    (h : Run step s₀ labels s) : I labels s := by
  induction h with
  | start => exact h₀
  | next run hstep ih => exact hs _ _ _ _ ih hstep

theorem invariant {I : σ → Prop} (h₀ : I s₀) (hs : ∀ s a t, I s → step s a t → I t)
    (h : Run step s₀ labels s) : I s :=
  h.indexed (I := fun _ => I) h₀ fun _ => hs

end Run

end VcmallocBench
