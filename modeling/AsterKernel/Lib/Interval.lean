import AsterKernel.Lib.BTreeMap

/-!
# `Lib.Interval` — half-open ranges and maps of ranges

A `Range` is the half-open interval `[start, stop)`; `Covered` is the set that an ordered map of values with
ranges stands for.
-/

namespace Lib

/-- The half-open range `[start, stop)`; empty (or reversed) when `stop ≤ start`. -/
structure Range where
  start : Nat
  stop : Nat
deriving DecidableEq, Repr

namespace Range

instance : Membership Nat Range := ⟨fun r a => r.start ≤ a ∧ a < r.stop⟩

@[simp] theorem mem_def (r : Range) (a : Nat) : a ∈ r ↔ r.start ≤ a ∧ a < r.stop := Iff.rfl

instance (r : Range) (a : Nat) : Decidable (a ∈ r) := inferInstanceAs (Decidable (_ ∧ _))

/-- No address lies in both ranges. -/
def Disjoint (r s : Range) : Prop := ∀ a, a ∈ r → a ∉ s

theorem Disjoint.symm {r s : Range} (h : Disjoint r s) : Disjoint s r := fun a hs hr => h a hr hs

theorem disjoint_iff {r s : Range} :
    Disjoint r s ↔ r.stop ≤ s.start ∨ s.stop ≤ r.start ∨ r.stop ≤ r.start ∨ s.stop ≤ s.start := by
  constructor
  · intro h
    by_contra hc
    exact h (max r.start s.start) (by simp only [mem_def]; omega) (by simp only [mem_def]; omega)
  · rintro h a ⟨h1, h2⟩ ⟨h3, h4⟩
    omega

instance (r s : Range) : Decidable (Disjoint r s) := decidable_of_iff _ disjoint_iff.symm

end Range

open BTreeMap

/-- The addresses that the members of a map cover. -/
def Covered {α : Type} (rng : α → Range) (m : BTreeMap α) (a : Nat) : Prop := ∃ k v, m.get? k = some v ∧ a ∈ rng v

/-- Insert every piece under its start. -/
def insertPieces {α : Type} (rng : α → Range) (m : BTreeMap α) (ps : List α) : BTreeMap α :=
  ps.foldl (fun acc p => acc.insert (rng p).start p) m

end Lib
