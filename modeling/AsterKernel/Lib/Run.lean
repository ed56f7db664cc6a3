/-!
# `Lib.Run` — runs of a system whose steps meet a condition

A system takes one action after the other; an action that is not possible has no result. The condition is on the state
before the action.
-/

namespace Lib

variable {σ α : Type}

/-- The states that actions which meet a condition lead to. -/
inductive Run (step : α → σ → Option σ) (cond : σ → α → Prop) (s₀ : σ) : σ → Prop
  | start : Run step cond s₀ s₀
  | next {s t : σ} (h : Run step cond s₀ s) (a : α) (hcond : cond s a) (hstep : step a s = some t) : Run step cond s₀ t

def steps (step : α → σ → Option σ) : List α → σ → Option σ
  | [], s => some s
  | a :: as, s => (step a s).bind (steps step as)

/-- All actions of a list meet a condition. -/
def AllMeet (step : α → σ → Option σ) (cond : σ → α → Prop) : List α → σ → Prop
  | [], _ => True
  | a :: as, s => cond s a ∧ ∀ t, step a s = some t → AllMeet step cond as t

/-- The state after a list of actions that are checked to meet a condition. -/
def stepsMeeting (step : α → σ → Option σ) (cond : σ → α → Prop) [∀ s a, Decidable (cond s a)] : List α → σ → Option σ
  | [], s => some s
  | a :: as, s => if cond s a then (step a s).bind (stepsMeeting step cond as) else none

/-- A state that is checked to have a property. -/
theorem exists_of_any {o : Option σ} {P : σ → Prop} [DecidablePred P] (h : o.any (fun s => decide (P s)) = true) :
    ∃ s, o = some s ∧ P s := by
  obtain ⟨s, hs, hP⟩ := (Option.any_eq_true ..).mp h
  exact ⟨s, hs, of_decide_eq_true hP⟩

theorem forall_of_others {f g : Nat → α} {P : Nat → α → Prop} {t : Nat} (hothers : ∀ u ≠ t, g u = f u)
    (hself : P t (g t)) (h : ∀ u, P u (f u)) (u : Nat) : P u (g u) := by
  by_cases hu : u = t
  · exact hu ▸ hself
  · rw [hothers u hu]
    exact h u

namespace Run

variable {step : α → σ → Option σ} {cond : σ → α → Prop} {s₀ s t : σ}

/-- What holds at the start and is kept by every action that meets the condition holds in every state that is reached. -/
theorem invariant {I : σ → Prop} (hinit : I s₀) (hkeep : ∀ s a t, I s → cond s a → step a s = some t → I t)
    (h : Run step cond s₀ s) : I s := by
  induction h with
  | start => exact hinit
  | next _ a hcond hstep ih => exact hkeep _ a _ ih hcond hstep

variable {as : List α}

/-- A list of actions that all meet the condition is a run. -/
theorem steps (h : Run step cond s₀ s) (hmeet : AllMeet step cond as s)
    (hsteps : steps step as s = some t) : Run step cond s₀ t := by
  induction as generalizing s with
  | nil =>
    cases hsteps
    exact h
  | cons a as ih =>
    obtain ⟨u, hstep, hrest⟩ := Option.bind_eq_some_iff.mp hsteps
    exact ih (h.next a hmeet.1 hstep) (hmeet.2 u hstep) hrest

theorem stepsMeeting [∀ s a, Decidable (cond s a)] (h : Run step cond s₀ s)
    (hsteps : stepsMeeting step cond as s = some t) : Run step cond s₀ t := by
  induction as generalizing s with
  | nil =>
    cases hsteps
    exact h
  | cons a as ih =>
    unfold Lib.stepsMeeting at hsteps
    split at hsteps
    · rename_i hcond
      obtain ⟨u, hstep, hrest⟩ := Option.bind_eq_some_iff.mp hsteps
      exact ih (h.next a hcond hstep) hrest
    · cases hsteps

section

variable [∀ s a, Decidable (cond s a)] {P Q : σ → Prop} [DecidablePred P] (as : List α)
  (h : (Lib.stepsMeeting step cond as s₀).any (fun s => decide (P s)) = true)
include h

theorem checked : ∃ s, Run step cond s₀ s ∧ P s := by
  obtain ⟨s, hsteps, hs⟩ := exists_of_any h
  exact ⟨s, .stepsMeeting .start hsteps, hs⟩

theorem checked_and (hQ : ∀ s, Run step cond s₀ s → Q s) : ∃ s, Run step cond s₀ s ∧ Q s ∧ P s :=
  (checked as h).imp fun s hs => ⟨hs.1, hQ s hs.1, hs.2⟩

end

theorem stepsAny (h : Run step (fun _ _ => True) s₀ s) (hsteps : Lib.steps step as s = some t) :
    Run step (fun _ _ => True) s₀ t := by
  induction as generalizing s with
  | nil =>
    cases hsteps
    exact h
  | cons a as ih =>
    obtain ⟨u, hstep, hrest⟩ := Option.bind_eq_some_iff.mp hsteps
    exact ih (h.next a trivial hstep) hrest

end Run
end Lib
