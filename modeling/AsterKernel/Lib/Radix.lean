import Mathlib.Data.List.Induction
import Mathlib.Tactic

/-!
# `Lib.Radix` — a tree of tables in a heap

A table is a cell of a heap that has one entry for each index, and an entry may link to another table. A path of
indices leads from the root to a table. The tables of the first `n` levels are separate when no two paths lead to
the same table; then a change to one entry is felt along the paths through that entry only.
-/

namespace Lib
namespace Radix

variable {F I E : Type} {child : E → Option F} {h h' : F → I → E} {root f₀ g : F} {i₀ : I} {n : Nat}

/-- The table at the end of a path. -/
def node (child : E → Option F) (h : F → I → E) : F → List I → Option F
  | f, [] => some f
  | f, i :: p => (child (h f i)).bind fun g => node child h g p

@[simp] theorem node_nil (f : F) : node child h f [] = some f := rfl

theorem node_append (f : F) (p q : List I) :
    node child h f (p ++ q) = (node child h f p).bind fun g => node child h g q := by
  induction p generalizing f with
  | nil => rfl
  | cons i p ih =>
    simp only [List.cons_append, node, Option.bind_assoc]
    congr 1
    funext g
    exact ih g

theorem node_snoc (f : F) (p : List I) (i : I) :
    node child h f (p ++ [i]) = (node child h f p).bind fun g => child (h g i) := by
  rw [node_append]
  congr 1
  funext g
  cases hc : child (h g i) with
  | none | some f => simp [node, hc]

/-- In the first `n` levels, no two paths lead to the same table. -/
def Separate (child : E → Option F) (h : F → I → E) (root : F) (n : Nat) : Prop :=
  ∀ (p q : List I) (f : F), p.length < n → q.length < n →
    node child h root p = some f → node child h root q = some f → p = q

/-- A heap that agrees on the tables that link has the same paths. -/
theorem node_frame (hsame : ∀ (q : List I) (f : F) (j : I), q.length + 1 < n → node child h root q = some f →
    h' f j = h f j) (p : List I) (hp : p.length < n) : node child h' root p = node child h root p := by
  induction p using List.reverseRecOn with
  | nil => rfl
  | append_singleton q j ih =>
    rw [List.length_append, List.length_singleton] at hp
    rw [node_snoc, node_snoc, ih (by omega)]
    cases hq : node child h root q with
    | none => rfl
    | some f =>
      show child (h' f j) = child (h f j)
      rw [hsame q f j hp hq]

/-- The heap `h'` is the heap `h` with the empty table `g` linked to the entry `i₀` of the table `f₀`. -/
structure Links (child : E → Option F) (h h' : F → I → E) (root f₀ g : F) (i₀ : I) (n : Nat) : Prop where
  free : child (h f₀ i₀) = none
  fresh : ∀ p : List I, p.length < n → node child h root p ≠ some g
  linked : child (h' f₀ i₀) = some g
  empty : ∀ j, child (h' g j) = none
  same : ∀ (q : List I) (f : F) (j : I), q.length < n → node child h root q = some f → f ≠ f₀ ∨ j ≠ i₀ →
    h' f j = h f j

variable [DecidableEq I] {p₀ : List I}

section

variable (hsep : Separate child h root n) (hl : Links child h h' root f₀ g i₀ n)
  (hp₀ : node child h root p₀ = some f₀) (hlen : p₀.length + 1 < n)
include hsep hl hp₀ hlen

/-- **Linking a table adds its path and changes no other.** -/
theorem node_link (p : List I) (hp : p.length < n) :
    node child h' root p = if p = p₀ ++ [i₀] then some g else node child h root p := by
  induction p using List.reverseRecOn with
  | nil => simp
  | append_singleton q j ih =>
    rw [List.length_append, List.length_singleton] at hp
    rw [node_snoc, node_snoc, ih (by omega)]
    by_cases hq : q = p₀ ++ [i₀]
    · -- below the new table there is nothing, neither before nor after
      subst hq
      have hbelow : node child h root (p₀ ++ [i₀]) = none := by
        rw [node_snoc, hp₀]
        exact hl.free
      have hne : p₀ ++ [i₀] ++ [j] ≠ p₀ ++ [i₀] := by
        intro heq
        have := congrArg List.length heq
        simp at this
      rw [if_pos rfl, if_neg hne, hbelow]
      exact hl.empty j
    · rw [if_neg hq]
      cases hnode : node child h root q with
      | none =>
        have hne : q ++ [j] ≠ p₀ ++ [i₀] := by
          intro heq
          obtain ⟨rfl, -⟩ := List.append_inj' heq rfl
          rw [hp₀] at hnode
          cases hnode
        rw [if_neg hne]
        rfl
      | some f =>
        show child (h' f j) = if q ++ [j] = p₀ ++ [i₀] then some g else child (h f j)
        by_cases hcell : f = f₀ ∧ j = i₀
        · obtain ⟨rfl, rfl⟩ := hcell
          rw [hsep q p₀ f (by omega) (by omega) hnode hp₀, if_pos rfl]
          exact hl.linked
        · have hne : q ++ [j] ≠ p₀ ++ [i₀] := by
            intro heq
            obtain ⟨rfl, hj⟩ := List.append_inj' heq rfl
            rw [hp₀] at hnode
            exact hcell ⟨(Option.some.inj hnode).symm, List.singleton_inj.mp hj⟩
          rw [if_neg hne, hl.same q f j (by omega) hnode (by tauto)]

/-- **Linking a new table keeps the tables separate.** -/
theorem Separate.link : Separate child h' root n := by
  intro p q f hp hq hnp hnq
  rw [node_link hsep hl hp₀ hlen p hp] at hnp
  rw [node_link hsep hl hp₀ hlen q hq] at hnq
  by_cases hpl : p = p₀ ++ [i₀] <;> by_cases hql : q = p₀ ++ [i₀]
  · rw [hpl, hql]
  · rw [if_pos hpl] at hnp
    rw [if_neg hql, ← hnp] at hnq
    exact absurd hnq (hl.fresh q hq)
  · rw [if_pos hql] at hnq
    rw [if_neg hpl, ← hnq] at hnp
    exact absurd hnp (hl.fresh p hp)
  · rw [if_neg hpl] at hnp
    rw [if_neg hql] at hnq
    exact hsep p q f hp hq hnp hnq

end

end Radix
end Lib
