import Mathlib.Data.List.Perm.Basic
import Mathlib.Data.List.Nodup

/-!
# `Lib.Firsts` — the first elements of a list that pass a test

A loop that counts the elements it handles and leaves the others alone handles the first ones that pass its test.
-/

namespace Lib

open List

variable {α : Type} {p : α → Bool} {n : Nat} {l : List α} {a : α} {f : α → α}

/-- The first `n` elements that pass the test. -/
def takeFirst (p : α → Bool) (n : Nat) (l : List α) : List α := (l.filter p).take n

/-- The elements without the first `n` that pass the test. -/
def dropFirst (p : α → Bool) : Nat → List α → List α
  | 0, l => l
  | _ + 1, [] => []
  | n + 1, a :: l => if p a then dropFirst p n l else a :: dropFirst p (n + 1) l

/-- The elements, the first `n` that pass the test changed. -/
def mapFirst (f : α → α) (p : α → Bool) : Nat → List α → List α
  | 0, l => l
  | _ + 1, [] => []
  | n + 1, a :: l => if p a then f a :: mapFirst f p n l else a :: mapFirst f p (n + 1) l

@[simp] theorem takeFirst_zero : takeFirst p 0 l = [] := take_zero

@[simp] theorem takeFirst_nil : takeFirst p n [] = [] := take_nil

theorem takeFirst_cons_of_pos (h : p a = true) : takeFirst p (n + 1) (a :: l) = a :: takeFirst p n l := by
  unfold takeFirst
  rw [filter_cons_of_pos h, take_succ_cons]

theorem takeFirst_cons_of_neg (h : ¬ p a = true) : takeFirst p n (a :: l) = takeFirst p n l := by
  unfold takeFirst
  rw [filter_cons_of_neg h]

theorem takeFirst_sublist (p : α → Bool) (n : Nat) (l : List α) : (takeFirst p n l).Sublist l :=
  (take_sublist _ _).trans filter_sublist

theorem of_mem_takeFirst (h : a ∈ takeFirst p n l) : p a = true :=
  (mem_filter.mp (mem_of_mem_take h)).2

theorem length_takeFirst : (takeFirst p n l).length = min n (l.filter p).length := length_take

/-- What is taken out and what stays are together what there was. -/
theorem dropFirst_perm (p : α → Bool) (n : Nat) (l : List α) : (takeFirst p n l ++ dropFirst p n l).Perm l := by
  induction l generalizing n with
  | nil => cases n <;> exact .refl _
  | cons a l ih =>
    cases n with
    | zero => rw [takeFirst_zero, nil_append, dropFirst]
    | succ n =>
      by_cases ha : p a = true
      · rw [takeFirst_cons_of_pos ha, dropFirst, if_pos ha, cons_append]
        exact (ih n).cons a
      · rw [takeFirst_cons_of_neg ha, dropFirst, if_neg ha]
        exact perm_middle.trans ((ih (n + 1)).cons a)

theorem mem_mapFirst {b : α} (h : b ∈ mapFirst f p n l) : b ∈ l ∨ ∃ a ∈ l, b = f a := by
  induction l generalizing n with
  | nil =>
    cases n with
    | zero | succ n => cases h
  | cons a l ih =>
    have hrest : ∀ {m : Nat}, b ∈ mapFirst f p m l → b ∈ a :: l ∨ ∃ c ∈ a :: l, b = f c := by
      intro m hb
      rcases ih hb with hb | ⟨c, hc, rfl⟩
      · exact .inl (mem_cons_of_mem _ hb)
      · exact .inr ⟨c, mem_cons_of_mem _ hc, rfl⟩
    cases n with
    | zero => exact .inl h
    | succ n =>
      rw [mapFirst] at h
      split at h
      · rcases mem_cons.mp h with rfl | h
        · exact .inr ⟨a, mem_cons_self, rfl⟩
        · exact hrest h
      · rcases mem_cons.mp h with rfl | h
        · exact .inl mem_cons_self
        · exact hrest h

theorem map_mapFirst {β : Type} {g : α → β} (h : ∀ a, g (f a) = g a) : (mapFirst f p n l).map g = l.map g := by
  induction l generalizing n with
  | nil => cases n <;> rfl
  | cons a l ih =>
    cases n with
    | zero => rfl
    | succ n =>
      rw [mapFirst]
      split
      · rw [map_cons, h, ih, map_cons]
      · rw [map_cons, ih, map_cons]

variable [DecidableEq α]

/-- What stays is in its order. -/
theorem dropFirst_eq_filter (hnodup : l.Nodup) : dropFirst p n l = l.filter (fun a => a ∉ takeFirst p n l) := by
  induction l generalizing n with
  | nil => cases n <;> rfl
  | cons a l ih =>
    obtain ⟨ha, hl⟩ := nodup_cons.mp hnodup
    cases n with
    | zero => rw [dropFirst, takeFirst_zero]; simp
    | succ n =>
      by_cases hpa : p a = true
      · rw [dropFirst, if_pos hpa, takeFirst_cons_of_pos hpa, filter_cons_of_neg (by simp), ih hl]
        refine filter_congr fun b hb => ?_
        have hne : b ≠ a := fun heq => ha (heq ▸ hb)
        simp [hne]
      · have hout : a ∉ takeFirst p (n + 1) l := fun hin => hpa (of_mem_takeFirst hin)
        rw [dropFirst, if_neg hpa, takeFirst_cons_of_neg hpa, filter_cons_of_pos (by simpa using hout), ih hl]

theorem filter_mem_takeFirst (hnodup : l.Nodup) : l.filter (fun a => a ∈ takeFirst p n l) = takeFirst p n l := by
  have htake : takeFirst p n l = (l.filter p).filter (takeFirst p n l).elem := (hnodup.filter p).take_eq_filter_mem
  refine Eq.trans ?_ htake.symm
  rw [filter_filter]
  refine filter_congr fun a _ => ?_
  by_cases ha : a ∈ takeFirst p n l
  · simp [ha, of_mem_takeFirst ha]
  · simp [ha]

/-- A loop that changes the elements in place. -/
theorem mapFirst_eq_map (f : α → α) (hnodup : l.Nodup) :
    mapFirst f p n l = l.map fun a => if a ∈ takeFirst p n l then f a else a := by
  induction l generalizing n with
  | nil => cases n <;> rfl
  | cons a l ih =>
    obtain ⟨ha, hl⟩ := nodup_cons.mp hnodup
    cases n with
    | zero => rw [mapFirst, takeFirst_zero]; simp
    | succ n =>
      by_cases hpa : p a = true
      · rw [mapFirst, if_pos hpa, takeFirst_cons_of_pos hpa, map_cons, if_pos mem_cons_self, ih hl]
        congr 1
        refine map_congr_left fun b hb => ?_
        have hne : b ≠ a := fun heq => ha (heq ▸ hb)
        simp [hne]
      · have hout : a ∉ takeFirst p (n + 1) l := fun hin => hpa (of_mem_takeFirst hin)
        rw [mapFirst, if_neg hpa, takeFirst_cons_of_neg hpa, map_cons, if_neg hout, ih hl]

end Lib
