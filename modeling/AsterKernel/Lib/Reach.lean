/-!
# `Lib.Reach` — the states that a transition system reaches
-/

namespace Lib

variable {σ : Type}

/-- The states reached from an initial one. -/
inductive Reach (Init : σ → Prop) (Step : σ → σ → Prop) : σ → Prop where
  | init {s : σ} (h : Init s) : Reach Init Step s
  | step {s t : σ} (run : Reach Init Step s) (h : Step s t) : Reach Init Step t

variable {Init I : σ → Prop} {Step : σ → σ → Prop} {s : σ}

/-- What holds at the start and is kept by every step holds in every reached state. -/
theorem Reach.invariant (hinit : ∀ s, Init s → I s) (hstep : ∀ s t, I s → Step s t → I t)
    (h : Reach Init Step s) : I s := by
  induction h with
  | init h => exact hinit _ h
  | step _ h ih => exact hstep _ _ ih h

end Lib
