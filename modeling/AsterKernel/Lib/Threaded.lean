import Mathlib.Data.List.Chain
import Mathlib.Data.List.Iterate
import Mathlib.Logic.Function.Basic

/-!
# `Lib.Threaded` — lists that are threaded through one link per cell

A list of cells is threaded when the link of each cell is the next one; the link of the last cell does not matter.
Several such lists share one table of links, so a write to a link keeps those lists in which that link is not used, or
is used for what is written.
-/

namespace Lib

open List

variable {α : Type} {next : α → α} {l l' : List α} {a d v : α}

/-- The link of each cell is the next one. -/
def Threaded (next : α → α) (l : List α) : Prop := l.IsChain fun a b => next a = b

theorem threaded_iff : Threaded next l ↔ ∀ a b, [a, b] <:+: l → next a = b := by
  unfold Threaded
  rw [isChain_iff_forall_rel_of_append_cons_cons]
  constructor
  · rintro h a b ⟨l₁, l₂, hl⟩
    exact h (by rw [← hl, append_assoc]; rfl)
  · intro h a b l₁ l₂ hl
    exact h a b ⟨l₁, l₂, by rw [hl, append_assoc]; rfl⟩

namespace Threaded

theorem iterate (next : α → α) (a : α) (n : Nat) : Threaded next (iterate next a n) := by
  induction n generalizing a with
  | zero => exact List.IsChain.nil
  | succ n ih =>
    refine List.IsChain.cons (ih (next a)) fun b hb => ?_
    cases n with
    | zero => cases hb
    | succ n => exact Option.some.inj hb

/-- Following the links gives the list. -/
theorem iterate_eq (h : Threaded next (a :: l)) : List.iterate next a (a :: l).length = a :: l := by
  induction l generalizing a with
  | nil => rfl
  | cons b l ih =>
    obtain ⟨hab, hrest⟩ := List.isChain_cons_cons.mp h
    rw [List.length_cons, List.iterate, hab, ih hrest]

theorem update [DecidableEq α] (h : Threaded next l) (hd : ∀ b, [d, b] <:+: l → b = v) :
    Threaded (Function.update next d v) l := by
  rw [threaded_iff] at h ⊢
  intro a b hab
  by_cases ha : a = d
  · subst ha
    rw [Function.update_self, hd b hab]
  · rw [Function.update_of_ne ha, h a b hab]

theorem update_of_notMem [DecidableEq α] (h : Threaded next l) (hd : d ∉ l) : Threaded (Function.update next d v) l :=
  h.update fun _ hb => absurd (hb.subset mem_cons_self) hd

theorem append (h : Threaded next l) (h' : Threaded next l')
    (hlink : ∀ a ∈ l.getLast?, ∀ b ∈ l'.head?, next a = b) : Threaded next (l ++ l') :=
  List.IsChain.append h h' hlink

end Threaded

theorem not_infix_getLast {z b : α} (hnodup : l.Nodup) (hz : l.getLast? = some z) : ¬ [z, b] <:+: l := by
  rintro ⟨l₁, l₂, rfl⟩
  rw [append_assoc, nodup_append] at hnodup
  obtain ⟨-, hnodup, -⟩ := hnodup
  have hlast : (b :: l₂).getLast? = some z := by
    rw [append_assoc, getLast?_append_of_ne_nil _ (by simp)] at hz
    exact hz
  exact (nodup_cons.mp hnodup).1 (mem_of_getLast? hlast)

end Lib
