import Mathlib

/-!
# `Lib.Threads` — a step of one thread among many, and sums over the threads

A concurrent system is a list of threads of which one makes a step at a time. A quantity of the whole system is
the sum of what each thread contributes, so a step changes it by what the one thread changes.
-/

namespace Lib

open List

variable {τ : Type}

/-- What the threads contribute together. -/
def total (w : τ → Nat) (threads : List τ) : Nat := (threads.map w).sum

@[simp] theorem total_nil (w : τ → Nat) : total w [] = 0 := rfl

@[simp] theorem total_cons (w : τ → Nat) (t : τ) (threads : List τ) :
    total w (t :: threads) = w t + total w threads := sum_cons

theorem total_append (w : τ → Nat) (as bs : List τ) : total w (as ++ bs) = total w as + total w bs := by
  simp [total]

variable {w : τ → Nat} {threads : List τ} {t : τ} {k : Nat}

section

variable {i : Nat} (h : threads[i]? = some t)
include i h

theorem total_set (t' : τ) : total w (threads.set i t') + w t = total w threads + w t' := by
  induction threads generalizing i with
  | nil => cases h
  | cons a threads ih =>
    cases i with
    | zero =>
      cases h
      simp only [set_cons_zero, total_cons]
      omega
    | succ i =>
      have := ih (i := i) (by simpa using h)
      simp only [set_cons_succ, total_cons]
      omega

theorem le_total : w t ≤ total w threads := by
  induction threads generalizing i with
  | nil => cases h
  | cons a threads ih =>
    cases i with
    | zero =>
      cases h
      simp only [total_cons]
      omega
    | succ i =>
      have := ih (i := i) (by simpa using h)
      simp only [total_cons]
      omega

/-- The frame of a step: what the other threads contribute. -/
theorem total_frame (w : τ → Nat) :
    ∃ rest, total w threads = rest + w t ∧ ∀ t', total w (threads.set i t') = rest + w t' := by
  have hle := le_total (w := w) h
  refine ⟨total w threads - w t, by omega, fun t' => ?_⟩
  have := total_set (w := w) h t'
  omega

end

theorem total_add (v w : τ → Nat) (threads : List τ) :
    total (fun t => v t + w t) threads = total v threads + total w threads := by
  induction threads with
  | nil => rfl
  | cons a threads ih =>
    simp only [total_cons, ih]
    omega

theorem total_mul (k : Nat) (w : τ → Nat) (threads : List τ) :
    total (fun t => k * w t) threads = k * total w threads := by
  induction threads with
  | nil => rfl
  | cons a threads ih => simp only [total_cons, ih, Nat.mul_add]

theorem total_le_total {v : τ → Nat} (h : ∀ t, v t ≤ w t) (threads : List τ) : total v threads ≤ total w threads := by
  induction threads with
  | nil => exact le_refl _
  | cons a threads ih =>
    have := h a
    simp only [total_cons]
    omega

theorem total_le_length (h : ∀ t, w t ≤ 1) (threads : List τ) : total w threads ≤ threads.length := by
  induction threads with
  | nil => exact le_refl _
  | cons a threads ih =>
    have := h a
    simp only [total_cons, length_cons]
    omega

theorem total_le_of_forall_le (threads : List τ) (h : ∀ t ∈ threads, w t ≤ k) :
    total w threads ≤ threads.length * k := by
  induction threads with
  | nil => simp
  | cons a threads ih =>
    have ha := h a (by simp)
    have hrest := ih fun t ht => h t (by simp [ht])
    simp only [total_cons, length_cons, Nat.succ_mul]
    omega

theorem total_eq_zero (h : ∀ t ∈ threads, w t = 0) : total w threads = 0 := by
  induction threads with
  | nil => rfl
  | cons a threads ih =>
    simp only [total_cons, h a (by simp), ih fun t ht => h t (by simp [ht])]

/-- A count in what the threads hold is the sum of the counts. -/
theorem count_flatMap {γ : Type} [DecidableEq γ] (f : τ → List γ) (x : γ) (threads : List τ) :
    (threads.flatMap f).count x = total (fun t => (f t).count x) threads := by
  induction threads with
  | nil => rfl
  | cons a threads ih => simp only [flatMap_cons, count_append, total_cons, ih]

theorem count_eraseIdx_add {γ : Type} [DecidableEq γ] {l : List γ} {j : Nat} {g : γ} (h : l[j]? = some g) (x : γ) :
    (l.eraseIdx j).count x + (if g = x then 1 else 0) = l.count x := by
  induction l generalizing j with
  | nil => cases h
  | cons a l ih =>
    cases j with
    | zero =>
      cases h
      simp [count_cons]
    | succ j =>
      have := ih (j := j) (by simpa using h)
      simp only [eraseIdx_cons_succ, count_cons]
      omega

theorem mem_set_cases {u : τ} (t' : τ) (h : threads[k]? = some t) (hu : u ∈ threads) :
    u ∈ threads.set k t' ∨ (u = t ∧ t' ∈ threads.set k t') := by
  obtain ⟨i, hi⟩ := mem_iff_getElem?.mp hu
  by_cases hik : i = k
  · subst hik
    have hlt := (List.getElem?_eq_some_iff.mp h).1
    rw [h] at hi
    exact .inr ⟨(Option.some.inj hi).symm, mem_iff_getElem?.mpr ⟨i, getElem?_set_self hlt⟩⟩
  · refine .inl (mem_iff_getElem?.mpr ⟨i, ?_⟩)
    rw [getElem?_set_ne (Ne.symm hik), hi]

/-! ## At most one thread -/

theorem mem_set_or {t' : τ} (h : t ∈ threads.set k t') : t = t' ∨ ∃ i, i ≠ k ∧ threads[i]? = some t := by
  obtain ⟨i, hi⟩ := mem_iff_getElem?.mp h
  rw [getElem?_set] at hi
  split at hi
  · split at hi
    · exact .inl (Option.some.inj hi).symm
    · cases hi
  · exact .inr ⟨i, Ne.symm ‹_›, hi⟩

/-- No two threads clash. -/
def Lone (clash : τ → τ → Prop) (threads : List τ) : Prop :=
  ∀ (i j : Nat) (t t' : τ), threads[i]? = some t → threads[j]? = some t' → clash t t' → i = j

section Lone

variable {clash : τ → τ → Prop} {threads : List τ} {t' : τ}

section

variable (h : Lone clash threads)
include h

theorem Lone.append (hnew : ∀ t, ¬ clash t' t ∧ ¬ clash t t') : Lone clash (threads ++ [t']) := by
  intro i j t₁ t₂ hi hj hclash
  rw [getElem?_append] at hi hj
  split at hi
  · split at hj
    · exact h i j t₁ t₂ hi hj hclash
    · obtain rfl : t₂ = t' := by simpa using mem_of_getElem? hj
      exact absurd hclash (hnew t₁).2
  · obtain rfl : t₁ = t' := by simpa using mem_of_getElem? hi
    exact absurd hclash (hnew t₂).1

/-- One thread makes a step, after which it clashes with no other. -/
theorem Lone.set {k : Nat}
    (hnew : ∀ i t, i ≠ k → threads[i]? = some t → ¬ clash t' t ∧ ¬ clash t t') : Lone clash (threads.set k t') := by
  intro i j t₁ t₂ hi hj hclash
  rw [getElem?_set] at hi hj
  by_cases hik : k = i
  · by_cases hjk : k = j
    · exact hik.symm.trans hjk
    · rw [if_pos hik] at hi
      rw [if_neg hjk] at hj
      split at hi
      · cases hi
        exact absurd hclash (hnew j t₂ (Ne.symm hjk) hj).1
      · cases hi
  · rw [if_neg hik] at hi
    by_cases hjk : k = j
    · rw [if_pos hjk] at hj
      split at hj
      · cases hj
        exact absurd hclash (hnew i t₁ (Ne.symm hik) hi).2
      · cases hj
    · rw [if_neg hjk] at hj
      exact h i j t₁ t₂ hi hj hclash

theorem Lone.set_of_imp {k : Nat} (hk : threads[k]? = some t)
    (hnew : ∀ u, (clash t' u → clash t u) ∧ (clash u t' → clash u t)) : Lone clash (threads.set k t') := by
  refine h.set fun i u hik hi => ⟨fun hc => ?_, fun hc => ?_⟩
  · exact hik (h k i t u hk hi ((hnew u).1 hc)).symm
  · exact hik (h i k u t hi hk ((hnew u).2 hc))

theorem Lone.map {f : τ → τ} (hf : ∀ t u, clash (f t) (f u) → clash t u) : Lone clash (threads.map f) := by
  intro i j t₁ t₂ hi hj hclash
  rw [getElem?_map] at hi hj
  obtain ⟨u₁, hu₁, rfl⟩ := Option.map_eq_some_iff.mp hi
  obtain ⟨u₂, hu₂, rfl⟩ := Option.map_eq_some_iff.mp hj
  exact h i j u₁ u₂ hu₁ hu₂ (hf u₁ u₂ hclash)

end

end Lone

end Lib
