import Mathlib.Tactic
import Mathlib.Data.Multiset.Count
import Mathlib.Logic.Relation

/-!
# `Lib.Arcs` — graphs of directories, given by their arcs

A graph is the multiset of its arcs `(d, x)`: the directory `d` has an entry for the node `x`. It is for a file system
that does not refuse to use a removed directory: a directory without a name may still get entries, and its counter is
then one or two short.

## Contents
- **`Tallied`.** The counters agree with the arcs; with one lemma for each way in which arcs come and go.
- **`Leads`.** Reachability. `Leads.of_kept`: what stays reachable when arcs are taken away, `Leads.of_moved`: when
  one of them is put elsewhere.
-/

namespace Lib

open Function

variable {ι : Type} [DecidableEq ι] {arcs : Multiset (ι × ι)} {root d t x y : ι}

/-- The arcs that name a node. -/
def named (arcs : Multiset (ι × ι)) (x : ι) : Nat := arcs.countP fun a => a.2 = x

/-- The arcs of a directory to others. -/
def below (dir : ι → Bool) (arcs : Multiset (ι × ι)) (d : ι) : Nat := arcs.countP fun a => a.1 = d ∧ dir a.2 = true

/-- The counters agree with the arcs. A directory may have been removed: nothing names it, and its counter is that of
its own directories alone. -/
structure Tallied (root : ι) (dir : ι → Bool) (arcs : Multiset (ι × ι)) (links : ι → Nat) : Prop where
  top : dir root = true ∧ named arcs root = 0
  source : ∀ a ∈ arcs, dir a.1 = true
  once : ∀ x, dir x = true → named arcs x ≤ 1
  dirs : ∀ x, dir x = true →
    links x = 2 + below dir arcs x ∨ (links x = below dir arcs x ∧ named arcs x = 0 ∧ x ≠ root)
  leaf : ∀ x, dir x = false → links x = named arcs x

variable {dir : ι → Bool} {links : ι → Nat}

@[grind =]
theorem named_cons (arcs : Multiset (ι × ι)) (d x y : ι) :
    named ((d, x) ::ₘ arcs) y = named arcs y + if x = y then 1 else 0 :=
  Multiset.countP_cons _ _ _

@[grind =]
theorem below_cons (dir : ι → Bool) (arcs : Multiset (ι × ι)) (d x e : ι) :
    below dir ((d, x) ::ₘ arcs) e = below dir arcs e + if d = e ∧ dir x = true then 1 else 0 :=
  Multiset.countP_cons _ _ _

theorem below_eq_zero (h : ∀ a ∈ arcs, a.1 ≠ d) : below dir arcs d = 0 :=
  Multiset.countP_eq_zero.mpr fun a ha hd => h a ha hd.1

/-- The counter of directories depends on the types of the nodes that are named only. -/
theorem below_congr {dir' : ι → Bool} (h : ∀ a ∈ arcs, dir' a.2 = dir a.2) (d : ι) :
    below dir' arcs d = below dir arcs d :=
  Multiset.countP_congr rfl fun a ha => by rw [h a ha]

namespace Tallied

theorem addLeaf (h : Tallied root dir arcs links) (hd : dir d = true) (hx : dir x = false) :
    Tallied root dir ((d, x) ::ₘ arcs) (update links x (links x + 1)) where
  top := by grind [h.top]
  source a ha := by grind [h.source a, Multiset.mem_cons]
  once y hy := by grind [h.once y hy]
  dirs y hy := by grind [h.dirs y hy, update_apply]
  leaf y hy := by grind [h.leaf y hy, update_apply]

theorem dropLeaf (h : Tallied root dir ((d, x) ::ₘ arcs) links) (hx : dir x = false) :
    Tallied root dir arcs (update links x (links x - 1)) where
  top := by grind [h.top]
  source a ha := h.source a (Multiset.mem_cons_of_mem ha)
  once y hy := by grind [h.once y hy]
  dirs y hy := by grind [h.dirs y hy, update_apply]
  leaf y hy := by grind [h.leaf y hy, update_apply]

theorem addDir (h : Tallied root dir arcs links) (hd : dir d = true) (hx : dir x = true) (hroot : x ≠ root)
    (hfree : named arcs x = 0) (hused : links x = 2 + below dir arcs x) :
    Tallied root dir ((d, x) ::ₘ arcs) (update links d (links d + 1)) where
  top := by grind [h.top]
  source a ha := by grind [h.source a, Multiset.mem_cons]
  once y hy := by grind [h.once y hy]
  dirs y hy := by grind [h.dirs y hy, update_apply]
  leaf y hy := by grind [h.leaf y hy, update_apply]

section

variable (h : Tallied root dir ((d, x) ::ₘ arcs) links) (hx : dir x = true)
include h hx

theorem dropDir : Tallied root dir arcs (update links d (links d - 1)) where
  top := by grind [h.top]
  source a ha := h.source a (Multiset.mem_cons_of_mem ha)
  once y hy := by grind [h.once y hy]
  dirs y hy := by grind [h.dirs y hy, update_apply]
  leaf y hy := by grind [h.leaf y hy, h.source (d, x) (Multiset.mem_cons_self _ _), update_apply]

theorem dropped (hdx : d ≠ x) : x ≠ root ∧ named arcs x = 0 ∧ links x = 2 + below dir arcs x := by
  grind [h.top, h.once x hx, h.dirs x hx]

theorem pos : 0 < links d := by
  have hd := h.source (d, x) (Multiset.mem_cons_self _ _)
  have hbelow := below_cons dir arcs d x d
  rw [if_pos ⟨rfl, hx⟩] at hbelow
  rcases h.dirs d hd with hlinks | ⟨hlinks, -⟩
  · omega
  · omega

end

theorem retire (h : Tallied root dir arcs links) (hroot : x ≠ root) (hx : dir x = true) (hfree : named arcs x = 0)
    (hused : links x = 2 + below dir arcs x) : Tallied root dir arcs (update links x (links x - 2)) where
  top := h.top
  source := h.source
  once := h.once
  dirs y hy := by grind [h.dirs y hy, update_apply]
  leaf y hy := by grind [h.leaf y hy, update_apply]

theorem found (h : Tallied root dir arcs links) (hx : dir x = false) (hfree : named arcs x = 0) :
    Tallied root (update dir x true) arcs (update links x 2) := by
  have hbelow : ∀ y, below (update dir x true) arcs y = below dir arcs y := by
    refine below_congr fun a ha => update_of_ne (fun hax => ?_) _ _
    exact Multiset.countP_eq_zero.mp hfree a ha hax
  have hself : below dir arcs x = 0 := by
    refine below_eq_zero fun a ha hax => ?_
    have := h.source a ha
    rw [hax, hx] at this
    cases this
  have hdir : ∀ y, y ≠ x → update dir x true y = dir y := fun y hy => update_of_ne hy _ _
  refine ⟨?_, ?_, ?_, ?_, ?_⟩
  · grind [h.top, update_apply]
  · intro a ha
    grind [h.source a ha, update_apply]
  · intro y hy
    by_cases hyx : y = x
    · rw [hyx, hfree]
      exact Nat.zero_le 1
    · exact h.once y (hdir y hyx ▸ hy)
  · intro y hy
    rw [hbelow]
    by_cases hyx : y = x
    · subst hyx
      rw [update_self, hself]
      exact .inl rfl
    · rw [update_of_ne hyx]
      exact h.dirs y (hdir y hyx ▸ hy)
  · intro y hy
    have hyx : y ≠ x := by
      rintro rfl
      rw [update_self] at hy
      cases hy
    rw [update_of_ne hyx]
    exact h.leaf y (hdir y hyx ▸ hy)

end Tallied

/-! ## Reachability -/

def Leads (arcs : Multiset (ι × ι)) : ι → ι → Prop := Relation.ReflTransGen fun u v => (u, v) ∈ arcs

omit [DecidableEq ι] in
/-- A path from a node without arcs goes nowhere. -/
theorem Leads.eq_of_final (h : Leads arcs x t) (hx : ∀ v, (x, v) ∉ arcs) : x = t := by
  rcases Relation.ReflTransGen.cases_head h with rfl | ⟨v, hv, -⟩
  · rfl
  · exact absurd hv (hx v)

variable {arcs' : Multiset (ι × ι)} {gone : ι → Prop} {z : ι}

omit [DecidableEq ι] in
/-- **Arcs are taken away**, to nodes that nothing follows: the others are reached as before. -/
theorem Leads.of_kept (hkeep : ∀ u v, (u, v) ∈ arcs → (u, v) ∈ arcs' ∨ gone v)
    (hgone : ∀ y, gone y → ∀ v, (y, v) ∉ arcs) (h : Leads arcs root z) : Leads arcs' root z ∨ gone z := by
  induction h with
  | refl => exact .inl .refl
  | @tail u v _ huv ih =>
    rcases ih with hu | hu
    · rcases hkeep u v huv with hv | hv
      · exact .inl (hu.tail hv)
      · exact .inr hv
    · exact absurd huv (hgone u hu v)

omit [DecidableEq ι] in
/-- **An arc is moved.** It leads to `x` and now comes from `t`, which is reached without it. -/
theorem Leads.of_moved (hkeep : ∀ u v, (u, v) ∈ arcs → (u, v) ∈ arcs' ∨ v = x ∨ gone v) (hnew : (t, x) ∈ arcs')
    (hgone : ∀ y, gone y → ∀ v, (y, v) ∉ arcs) (hgt : ¬ gone t) (ht : Leads arcs root t) (hxt : ¬ Leads arcs x t)
    (h : Leads arcs root z) : Leads arcs' root z ∨ gone z := by
  -- on the way to `t` there is neither `x` nor a node that is gone
  have hway : ∀ u, Leads arcs root u → Leads arcs u t → Leads arcs' root u := by
    intro u hu
    induction hu with
    | refl => exact fun _ => .refl
    | @tail u v _ huv ih =>
      intro hvt
      rcases hkeep u v huv with hv | rfl | hv
      · exact (ih (.head huv hvt)).tail hv
      · exact absurd hvt hxt
      · exact absurd (hvt.eq_of_final (hgone v hv) ▸ hv) hgt
  induction h with
  | refl => exact .inl .refl
  | @tail u v _ huv ih =>
    rcases ih with hu | hu
    · rcases hkeep u v huv with hv | rfl | hv
      · exact .inl (hu.tail hv)
      · exact .inl ((hway t ht .refl).tail hnew)
      · exact .inr hv
    · exact absurd huv (hgone u hu v)

end Lib
