import Mathlib.Data.List.Sort

/-!
# `Lib.Ordered` — lists that are ordered by a strict relation

The relation need only compare the elements that meet, so it may read them off a state.
-/

namespace Lib

open List

variable {α : Type} {R : α → α → Prop} [DecidableRel R]

/-- An insertion at the right place keeps the order. -/
theorem pairwise_orderedInsert (htrans : ∀ a b c, R a b → R b c → R a c) {a : α} {l : List α}
    (hcompare : ∀ b ∈ l, R a b ∨ R b a) (h : l.Pairwise R) : (l.orderedInsert R a).Pairwise R := by
  induction l with
  | nil => exact pairwise_singleton R a
  | cons b l ih =>
    obtain ⟨hb, hl⟩ := pairwise_cons.mp h
    by_cases hab : R a b
    · rw [orderedInsert_cons_of_le R l hab]
      refine pairwise_cons.mpr ⟨fun c hc => ?_, h⟩
      rcases mem_cons.mp hc with rfl | hc
      · exact hab
      · exact htrans a b c hab (hb c hc)
    · rw [orderedInsert_of_not_le R l hab]
      refine pairwise_cons.mpr ⟨fun c hc => ?_, ih (fun c hc => hcompare c (mem_cons_of_mem b hc)) hl⟩
      rcases (mem_orderedInsert R).mp hc with rfl | hc
      · exact (hcompare b mem_cons_self).resolve_left hab
      · exact hb c hc

omit [DecidableRel R] in
/-- The first element with a property is the least one. -/
theorem least_of_find? {p : α → Bool} {a : α} {l : List α} (h : l.Pairwise R) (hfind : l.find? p = some a) :
    ∀ b ∈ l, p b = true → b = a ∨ R a b := by
  intro b hb hp
  obtain ⟨-, before, after, rfl, hbefore⟩ := find?_eq_some_iff_append.mp hfind
  rcases mem_append.mp hb with hb | hb
  · have := hbefore b hb
    rw [hp] at this
    cases this
  · rcases mem_cons.mp hb with rfl | hb
    · exact .inl rfl
    · exact .inr ((pairwise_cons.mp (pairwise_append.mp h).2.1).1 b hb)

end Lib
