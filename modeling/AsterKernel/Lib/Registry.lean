import AsterKernel.Lib.BTreeMap

/-!
# `Lib.Registry` — owners, their members, and a table of the owners that have any

Every owner keeps its members in a map, every member links to its owner, and a table holds the owners. All three say
the same as long as a member that leaves is taken out of the map, and an owner whose last member leaves is taken out
of the table. `Sound` says that they do, but for one owner that stays in the table without members.
-/

namespace Lib

open Function

/-! ## A field of one record of many -/

section Field

variable {ι α β : Type} [DecidableEq ι] (f : α → β) {g : ι → α} {i : ι} {v : α}

theorem field_update : (fun x => f (update g i v x)) = update (fun x => f (g x)) i (f v) :=
  Function.comp_update f g i v

theorem field_update_eq (h : f v = f (g i)) : (fun x => f (update g i v x)) = fun x => f (g x) := by
  rw [field_update, h]
  exact update_eq_self i _

end Field

@[ext]
structure Registry (ι π : Type) where
  link : ι → Option π
  members : π → BTreeMap ι
  table : BTreeMap π

namespace Registry

variable {ι π : Type} [DecidableEq ι] [DecidableEq π] {key key' : ι → Nat} {name name' : π → Nat} {kept : Option π}
variable {r : Registry ι π} {x : ι} {y : π}

/-- Maps and table follow the links. -/
structure Sound (key : ι → Nat) (name : π → Nat) (kept : Option π) (r : Registry ι π) : Prop where
  members : ∀ y k x, (r.members y).get? k = some x ↔ key x = k ∧ r.link x = some y
  table : ∀ k y, r.table.get? k = some y ↔ name y = k ∧ ((r.members y).isEmpty = false ∨ kept = some y)

/-- `x` leaves `y`, which stays in the table if it has another member or is to be kept. -/
def leave (key : ι → Nat) (name : π → Nat) (keep : Bool) (x : ι) (y : π) (r : Registry ι π) : Registry ι π where
  link := Function.update r.link x none
  members := Function.update r.members y ((r.members y).remove (key x))
  table := if ((r.members y).remove (key x)).isEmpty && !keep then r.table.remove (name y) else r.table

/-- `x` joins `y`. -/
def enter (key : ι → Nat) (x : ι) (y : π) (r : Registry ι π) : Registry ι π where
  link := Function.update r.link x (some y)
  members := Function.update r.members y ((r.members y).insert (key x) x)
  table := r.table

/-- `x` is the first member of `y`. -/
def found (key : ι → Nat) (name : π → Nat) (x : ι) (y : π) (r : Registry ι π) : Registry ι π :=
  { enter key x y r with table := r.table.insert (name y) y }

/-! ## What the links say -/

omit [DecidableEq ι] [DecidableEq π] in
theorem Sound.get_link (h : Sound key name kept r) (hx : r.link x = some y) : (r.members y).get? (key x) = some x :=
  (h.members y _ x).mpr ⟨rfl, hx⟩

omit [DecidableEq ι] [DecidableEq π] in
theorem Sound.not_empty (h : Sound key name kept r) (hx : r.link x = some y) : (r.members y).isEmpty = false :=
  BTreeMap.isEmpty_eq_false.mpr ⟨_, x, h.get_link hx⟩

omit [DecidableEq ι] [DecidableEq π] in
theorem Sound.mem_table (h : Sound key name kept r) (hx : r.link x = some y) : r.table.get? (name y) = some y :=
  (h.table _ y).mpr ⟨rfl, .inl (h.not_empty hx)⟩

omit [DecidableEq ι] [DecidableEq π] in
/-- Keys and names matter only for those that are registered. -/
theorem Sound.congr (h : Sound key name kept r) (hkey : ∀ x, r.link x ≠ none → key' x = key x)
    (hname : ∀ y, (r.members y).isEmpty = false ∨ kept = some y → name' y = name y) : Sound key' name' kept r where
  members y k x := by
    rw [h.members]
    refine and_congr_left fun hx => ?_
    rw [hkey x (by rw [hx]; exact nofun)]
  table k y := by
    rw [h.table]
    refine and_congr_left fun hy => ?_
    rw [hname y hy]

omit [DecidableEq ι] [DecidableEq π] in
theorem Sound.keep (h : Sound key name none r) (hy : (r.members y).isEmpty = false) : Sound key name (some y) r where
  members := h.members
  table k z := by
    rw [h.table]
    simp only [reduceCtorEq, or_false, Option.some.injEq]
    refine and_congr_right fun _ => ⟨.inl, ?_⟩
    rintro (hz | rfl)
    · exact hz
    · exact hy

/-! ## Steps -/

theorem Sound.members_leave (h : Sound key name none r) (hx : r.link x = some y) (z : π) (k : Nat) (x' : ι) :
    (update r.members y ((r.members y).remove (key x)) z).get? k = some x' ↔
      key x' = k ∧ update r.link x none x' = some z := by
  have hself := h.get_link hx
  have hmem := h.members z k x'
  by_cases hx' : x' = x
  · subst hx'
    rw [update_self]
    simp only [reduceCtorEq, and_false, iff_false]
    by_cases hz : z = y
    · subst hz
      rw [update_self, BTreeMap.get?_remove]
      split
      · exact nofun
      · exact fun hk => absurd (hmem.mp hk).1.symm ‹_›
    · rw [update_of_ne hz, hmem, hx]
      exact fun hk => hz (Option.some.inj hk.2).symm
  · rw [update_of_ne hx', ← hmem]
    by_cases hz : z = y
    · subst hz
      rw [update_self, BTreeMap.get?_remove]
      split
      · -- the key of `x` is that of no other member
        refine ⟨nofun, fun hk => absurd ?_ hx'⟩
        subst k
        exact Option.some.inj (hk.symm.trans hself)
      · rfl
    · rw [update_of_ne hz]

/-- A member leaves; its owner leaves the table with it if it was the last one. -/
theorem Sound.leave (keep : Bool) (h : Sound key name none r) (hx : r.link x = some y) :
    Sound key name (if keep then some y else none) (r.leave key name keep x y) where
  members := h.members_leave hx
  table k z := by
    have htable := h.table k z
    simp only [reduceCtorEq, or_false] at htable
    dsimp only [Registry.leave]
    by_cases hz : z = y
    · subst hz
      rw [update_self]
      have hin := h.not_empty hx
      by_cases hempty : ((r.members z).remove (key x)).isEmpty = true
      · cases keep with
        | true => simp [hempty, htable, hin]
        | false =>
          simp only [hempty, Bool.not_false, Bool.and_self, if_true, BTreeMap.get?_remove]
          split
          · simp
          · rw [htable]
            simp only [Bool.true_eq_false, Bool.false_eq_true, if_false, reduceCtorEq, or_self, and_false, iff_false,
              not_and]
            exact fun hname => absurd hname.symm ‹_›
      · simp only [Bool.not_eq_true] at hempty
        simp [hempty, htable, hin]
    · rw [update_of_ne hz]
      have hkept : (if keep then some y else none) ≠ some z := by
        split
        · exact fun he => hz (Option.some.inj he).symm
        · exact nofun
      simp only [hkept, or_false]
      rw [← htable]
      split
      · rw [BTreeMap.get?_remove]
        split
        · -- the name of `y` is that of no other owner
          refine ⟨nofun, fun hk => absurd ?_ hz⟩
          subst k
          exact Option.some.inj (hk.symm.trans (h.mem_table hx))
        · rfl
      · rfl

theorem Sound.members_enter (h : Sound key name kept r) (hx : r.link x = none)
    (hkey : (r.members y).get? (key x) = none) (z : π) (k : Nat) (x' : ι) :
    (update r.members y ((r.members y).insert (key x) x) z).get? k = some x' ↔
      key x' = k ∧ update r.link x (some y) x' = some z := by
  have hmem := h.members z k x'
  by_cases hx' : x' = x
  · subst hx'
    rw [update_self]
    by_cases hz : z = y
    · subst hz
      rw [update_self, BTreeMap.get?_insert]
      split
      · subst k
        simp
      · rw [hmem, hx]
        simp only [reduceCtorEq, and_false, and_true, false_iff]
        exact fun hk => absurd hk.symm ‹_›
    · rw [update_of_ne hz, hmem, hx]
      simp only [reduceCtorEq, and_false, Option.some.injEq, false_iff, not_and]
      exact fun _ hk => hz hk.symm
  · rw [update_of_ne hx', ← hmem]
    by_cases hz : z = y
    · subst hz
      rw [update_self, BTreeMap.get?_insert]
      split
      · subst k
        rw [hkey]
        simp only [Option.some.injEq, reduceCtorEq, iff_false]
        exact fun hk => hx' hk.symm
      · rfl
    · rw [update_of_ne hz]

omit [DecidableEq ι] in
theorem isEmpty_insert {m : BTreeMap ι} (k : Nat) (v : ι) : (m.insert k v).isEmpty = false :=
  BTreeMap.isEmpty_eq_false.mpr ⟨k, v, by rw [BTreeMap.get?_insert, if_pos rfl]⟩

/-- **A member joins.** An owner that was kept without members has one again. -/
theorem Sound.enter (h : Sound key name kept r) (hx : r.link x = none) (hkept : kept = none ∨ kept = some y)
    (hy : r.table.get? (name y) = some y) (hkey : (r.members y).get? (key x) = none) :
    Sound key name none (r.enter key x y) where
  members := h.members_enter hx hkey
  table k z := by
    have htable := h.table k z
    dsimp only [Registry.enter]
    simp only [reduceCtorEq, or_false]
    by_cases hz : z = y
    · subst hz
      rw [update_self, isEmpty_insert, htable]
      have hin := ((h.table _ z).mp hy).2
      simp only [hin, and_true]
    · rw [update_of_ne hz, htable]
      have hne : kept ≠ some z := by
        rcases hkept with rfl | rfl
        · exact nofun
        · exact fun he => hz (Option.some.inj he).symm
      simp only [hne, or_false]

/-- **A member founds an owner.** -/
theorem Sound.found (h : Sound key name none r) (hx : r.link x = none) (hy : r.table.get? (name y) = none) :
    Sound key name none (r.found key name x y) := by
  have hempty : (r.members y).isEmpty = true := by
    by_contra hne
    rw [(h.table _ y).mpr ⟨rfl, .inl (by simpa using hne)⟩] at hy
    cases hy
  refine ⟨h.members_enter hx (BTreeMap.isEmpty_iff.mp hempty _), ?_⟩
  intro k z
  have htable := h.table k z
  dsimp only [Registry.found, Registry.enter]
  simp only [reduceCtorEq, or_false] at htable ⊢
  rw [BTreeMap.get?_insert]
  by_cases hz : z = y
  · subst hz
    rw [update_self, isEmpty_insert]
    split
    · subst k
      simp
    · rw [htable, hempty]
      simp only [Bool.true_eq_false, and_false, and_true, false_iff]
      exact fun hk => absurd hk.symm ‹_›
  · rw [update_of_ne hz, ← htable]
    split
    · subst k
      rw [hy]
      simp only [Option.some.injEq, reduceCtorEq, iff_false]
      exact fun hk => hz hk.symm
    · rfl

end Registry
end Lib
