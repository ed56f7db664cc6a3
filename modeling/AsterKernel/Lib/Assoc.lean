import Mathlib.Data.List.Nodup

/-!
# `Lib.Assoc` — association lists with distinct keys

A list of pairs whose keys differ stands for a finite map, in whatever order its pairs are. Putting a pair anywhere
into the list is an update of the map, taking one out is an erasure.
-/

namespace Lib

variable {κ ν : Type}

def keys (l : List (κ × ν)) : List κ := l.map Prod.fst

variable {xs ys : List (κ × ν)} {k n : κ} {v : ν}

@[simp] theorem keys_append : keys (xs ++ ys) = keys xs ++ keys ys := List.map_append

@[simp] theorem keys_cons : keys ((k, v) :: xs) = k :: keys xs := rfl

theorem nodup_keys_insert : (keys (xs ++ (k, v) :: ys)).Nodup ↔ k ∉ keys (xs ++ ys) ∧ (keys (xs ++ ys)).Nodup := by
  rw [keys_append, keys_cons, keys_append, List.nodup_middle, List.nodup_cons]

variable [BEq κ] [LawfulBEq κ]

theorem lookup_eq_none_iff : xs.lookup k = none ↔ k ∉ keys xs := by
  rw [List.lookup_eq_none_iff, keys, List.mem_map]
  constructor
  · rintro h ⟨x, hx, rfl⟩
    simpa using h x hx
  · intro h x hx
    rw [bne_iff_ne]
    rintro rfl
    exact h ⟨x, hx, rfl⟩

/-- A new pair is an update of the map. -/
theorem lookup_insert [DecidableEq κ] (h : k ∉ keys (xs ++ ys)) :
    (xs ++ (k, v) :: ys).lookup n = if n = k then some v else (xs ++ ys).lookup n := by
  rw [keys_append, List.mem_append, not_or] at h
  rw [List.lookup_append, List.lookup_cons, List.lookup_append]
  by_cases hn : n = k
  · subst hn
    rw [lookup_eq_none_iff.mpr h.1]
    simp
  · have hbeq : (n == k) = false := beq_false_of_ne hn
    rw [hbeq, if_neg hn]

end Lib
