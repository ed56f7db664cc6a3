import AsterKernel.Vm.Basic

/-!
# `Vm.Interval` — interval sets and free regions

The lookup of a VMAR: an ordered map from start addresses to values that have a range. `find` walks a map
cursor: it starts at the last entry keyed at or below the queried start, if that one reaches past it, and
collects entries while they start before the queried end.
-/

namespace AsterKernel.Vm

open Lib Lib.Comp Lib.BTreeMap List

/-- `trait Interval`: a value with a range of addresses. -/
class Interval (α : Type) where
  range : α → Range

export Interval (range)

/-- `is_intersected`: false when one of the ranges is empty. -/
def isIntersected (range1 range2 : Range) : Bool :=
  max range1.start range2.start < min range1.stop range2.stop

/-- The common part of two ranges. -/
def intersection (range1 range2 : Range) : Range :=
  ⟨max range1.start range2.start, min range1.stop range2.stop⟩

/-- `get_intersected_range`: the two ranges should be ensured to be intersected. -/
def getIntersectedRange {σ ε : Type} (p : Profile) (range1 range2 : Range) : Comp σ ε Range := do
  debugAssert p (isIntersected range1 range2)
  return intersection range1 range2

section Find

variable {V : Type} [Interval V]

/-- The entries at and after the cursor that both lookups start from. The list is split at the cursor
`lower_bound(Excluded(point))`; the entry before the gap is kept if it reaches past `point`. -/
def cursorAt (m : BTreeMap V) (point : Nat) : List (Nat × V) :=
  let after := m.entries.dropWhile (fun e => e.1 ≤ point)
  match (m.entries.takeWhile (fun e => e.1 ≤ point)).getLast? with
  | none => after
  | some e => if (range e.2).stop ≤ point then after else e :: after

/-- `IntervalSet::find`, with the keys of the values found. -/
def find (m : BTreeMap V) (r : Range) : List (Nat × V) :=
  (cursorAt m r.start).takeWhile (fun e => (range e.2).start < r.stop)

/-- `IntervalSet::find_one`. -/
def findOne (m : BTreeMap V) (point : Nat) : Option (Nat × V) :=
  match cursorAt m point with
  | [] => none
  | e :: _ => if point < (range e.2).start then none else some e

end Find

/-! ## Free regions -/

/-- A range of addresses that nothing occupies. -/
structure FreeRegion where
  range : Range
deriving DecidableEq, Repr

instance : Interval FreeRegion := ⟨FreeRegion.range⟩

namespace FreeRegion

/-- The regions that are left when `allocateRange` is taken out of the region. -/
def allocateRange (self : FreeRegion) (allocated : Range) : List FreeRegion :=
  (if self.range.start < allocated.start then [⟨⟨self.range.start, allocated.start⟩⟩] else []) ++
    (if allocated.stop < self.range.stop then [⟨⟨allocated.stop, self.range.stop⟩⟩] else [])

/-- `merge_other_region`: panics unless the other region starts where this one ends. -/
def mergeOtherRegion {σ ε : Type} (self other : FreeRegion) : Comp σ ε FreeRegion := do
  assert (self.range.stop == other.range.start)
  assert (self.range.start < other.range.stop)
  return ⟨⟨self.range.start, other.range.stop⟩⟩

end FreeRegion

variable {r s : Range}

theorem isIntersected_iff : isIntersected r s = true ↔ ∃ a, a ∈ r ∧ a ∈ s := by
  unfold isIntersected
  rw [decide_eq_true_eq]
  constructor
  · intro h
    exact ⟨max r.start s.start, by simp only [Range.mem_def]; omega, by simp only [Range.mem_def]; omega⟩
  · rintro ⟨a, ⟨h1, h2⟩, ⟨h3, h4⟩⟩
    omega

theorem isIntersected_bounds : isIntersected r s = true ↔
      r.start < r.stop ∧ s.start < s.stop ∧ r.start < s.stop ∧ s.start < r.stop := by
  unfold isIntersected
  rw [decide_eq_true_eq]
  omega

theorem mem_intersection {a : Nat} : a ∈ intersection r s ↔ a ∈ r ∧ a ∈ s := by
  simp only [intersection, Range.mem_def]
  omega

/-! ## What the lookups return -/

section Find

variable {V : Type} {m : BTreeMap V}

/-- The key test that places the cursor can only turn from true to false along the entries. -/
theorem pairwise_le_point (hs : m.Sorted) (point : Nat) :
    m.entries.Pairwise (fun a b => decide (b.1 ≤ point) = true → decide (a.1 ≤ point) = true) :=
  hs.imp fun hab hb => by simp only [decide_eq_true_eq] at hb ⊢; omega

variable [Interval V]

/-- Keyed by start, without the requirement that members be non-empty or disjoint. -/
def Keyed (m : BTreeMap V) : Prop := ∀ k v, m.get? k = some v → (range v).start = k

/-- `k` is the last key at or below `point`. -/
def IsLastKey (m : BTreeMap V) (point k : Nat) : Prop :=
  k ≤ point ∧ ∀ j w, m.get? j = some w → j ≤ point → j ≤ k

/-- The cursor's entries are entries of the map, in order. -/
theorem cursorAt_sublist (m : BTreeMap V) (point : Nat) : (cursorAt m point).Sublist m.entries := by
  have hsplit := takeWhile_append_dropWhile (p := fun e : Nat × V => decide (e.1 ≤ point)) (l := m.entries)
  unfold cursorAt
  simp only
  split
  · exact dropWhile_sublist _
  · rename_i e he
    split
    · exact dropWhile_sublist _
    · conv_rhs => rw [← hsplit]
      obtain ⟨init, hinit⟩ := getLast?_eq_some_iff.mp he
      rw [hinit, append_assoc]
      exact sublist_append_right init _

theorem find_sublist (m : BTreeMap V) (r : Range) : (find m r).Sublist m.entries :=
  (takeWhile_sublist _).trans (cursorAt_sublist m r.start)

theorem mem_cursorAt_iff (hs : m.Sorted) {point k : Nat} {v : V} : (k, v) ∈ cursorAt m point ↔
      m.get? k = some v ∧ (point < k ∨ IsLastKey m point k ∧ point < (range v).stop) := by
  have hbefore : m.entries.takeWhile (fun e => decide (e.1 ≤ point)) = _ :=
    takeWhile_eq_filter (pairwise_le_point hs point)
  have hafter : ∀ j w, (j, w) ∈ m.entries.dropWhile (fun e => decide (e.1 ≤ point)) ↔
      m.get? j = some w ∧ point < j := by
    intro j w
    rw [dropWhile_eq_filter (pairwise_le_point hs point), mem_filter, hs.mem_iff]
    simp
  unfold cursorAt
  simp only
  cases hlast : (m.entries.takeWhile (fun e => decide (e.1 ≤ point))).getLast? with
  | none =>
    -- no entry is keyed at or below the point
    rw [getLast?_eq_none_iff, hbefore, filter_eq_nil_iff] at hlast
    rw [hafter]
    refine and_congr_right fun hk => ⟨Or.inl, ?_⟩
    rintro (h | ⟨⟨hle, -⟩, -⟩)
    · exact h
    · exact absurd (by simpa using hle) (hlast (k, v) (mem_of_get? hk))
  | some e =>
    obtain ⟨init, hinit⟩ := getLast?_eq_some_iff.mp hlast
    rw [hbefore] at hinit
    have he : e ∈ m.entries ∧ e.1 ≤ point := by
      have : e ∈ m.entries.filter (fun e => decide (e.1 ≤ point)) := by rw [hinit]; simp
      simpa using mem_filter.mp this
    have hge : m.get? e.1 = some e.2 := hs.get?_of_mem he.1
    have hlastKey : IsLastKey m point e.1 := by
      refine ⟨he.2, fun j w hj hle => ?_⟩
      have hmem : (j, w) ∈ init ++ [e] := by
        rw [← hinit]
        exact mem_filter.mpr ⟨mem_of_get? hj, by simpa using hle⟩
      have hpw : (init ++ [e]).Pairwise (fun a b => a.1 < b.1) := hinit ▸ hs.filter _
      rcases mem_append.mp hmem with hmem | hmem
      · exact le_of_lt ((pairwise_append.mp hpw).2.2 _ hmem e (by simp))
      · rw [mem_singleton] at hmem
        rw [← hmem]
    have huniq : m.get? k = some v → IsLastKey m point k → (k, v) = e := by
      rintro hk ⟨hle, hmax⟩
      have hkey : k = e.1 := le_antisymm (hlastKey.2 k v hk hle) (hmax e.1 e.2 hge he.2)
      rw [hkey, hge, Option.some.injEq] at hk
      exact Prod.ext hkey hk.symm
    dsimp only
    split
    · rename_i hstop
      rw [hafter]
      refine and_congr_right fun hk => ⟨Or.inl, fun h => h.resolve_right ?_⟩
      rintro ⟨hl, hv⟩
      rw [← huniq hk hl] at hstop
      exact absurd hstop (not_le.mpr hv)
    · rename_i hstop
      rw [mem_cons, hafter]
      constructor
      · rintro (rfl | ⟨hk, h⟩)
        · exact ⟨hge, Or.inr ⟨hlastKey, not_le.mp hstop⟩⟩
        · exact ⟨hk, Or.inl h⟩
      · rintro ⟨hk, h | ⟨hl, -⟩⟩
        · exact Or.inr ⟨hk, h⟩
        · exact Or.inl (huniq hk hl)

/-- **What `find` returns** on a map keyed by start: the entries that start inside the range, and the last
entry keyed at or below its start if that one reaches past it. -/
theorem mem_find_iff (hs : m.Sorted) (hk : Keyed m) {k : Nat} {v : V} : (k, v) ∈ find m r ↔
      m.get? k = some v ∧ k < r.stop ∧ (r.start < k ∨ IsLastKey m r.start k ∧ r.start < (range v).stop) := by
  have hsub := cursorAt_sublist m r.start
  have hpw : (cursorAt m r.start).Pairwise (fun a b => decide ((range b.2).start < r.stop) = true →
        decide ((range a.2).start < r.stop) = true) := by
    refine (hs.sublist hsub).imp_of_mem fun {a b} ha hb hab hlt => ?_
    have hka := hk a.1 a.2 (hs.get?_of_mem (hsub.subset ha))
    have hkb := hk b.1 b.2 (hs.get?_of_mem (hsub.subset hb))
    simp only [decide_eq_true_eq] at hlt ⊢
    omega
  rw [find, takeWhile_eq_filter hpw, mem_filter, mem_cursorAt_iff hs, decide_eq_true_eq]
  constructor
  · rintro ⟨⟨hget, hpos⟩, hlt⟩
    exact ⟨hget, hk k v hget ▸ hlt, hpos⟩
  · rintro ⟨hget, hlt, hpos⟩
    exact ⟨⟨hget, hpos⟩, (hk k v hget).symm ▸ hlt⟩

/-- Non-empty members keyed by their starts, no two of which meet. -/
structure IntervalSet (m : BTreeMap V) : Prop where
  sorted : m.Sorted
  keyed : Keyed m
  nonempty : ∀ k v, m.get? k = some v → k < (range v).stop
  disjoint : ∀ j w k v, m.get? j = some w → m.get? k = some v → j ≠ k → (range w).Disjoint (range v)

/-- A member that reaches past a point starts last before it: a later one would start inside it. -/
theorem IntervalSet.mem_find (h : IntervalSet m) (hr : r.start < r.stop) {k : Nat} {v : V} :
    (k, v) ∈ find m r ↔ (k, v) ∈ m.entries ∧ isIntersected (range v) r = true := by
  rw [mem_find_iff h.sorted h.keyed, h.sorted.mem_iff, isIntersected_bounds]
  refine and_congr_right fun hv => ?_
  have hstart := h.keyed k v hv
  have hne := h.nonempty k v hv
  constructor
  · rintro ⟨hlt, hpos⟩
    refine ⟨by omega, hr, by omega, ?_⟩
    rcases hpos with hlate | ⟨-, hreach⟩ <;> omega
  · rintro ⟨-, -, hlt, hreach⟩
    refine ⟨by omega, or_iff_not_imp_left.mpr fun hearly => ⟨⟨by omega, fun j w hw hj => ?_⟩, hreach⟩⟩
    by_contra hlater
    have hin : j ∈ range v := ⟨by omega, by omega⟩
    exact h.disjoint j w k v hw hv (by omega) j ⟨(h.keyed j w hw).le, h.nonempty j w hw⟩ hin

theorem IntervalSet.find_eq (h : IntervalSet m) (hr : r.start < r.stop) :
    find m r = m.entries.filter (fun e => isIntersected (range e.2) r) := by
  -- both lists are in the order of the keys, so that it is enough that they have the same entries
  have hsub := find_sublist m r
  have hnodup : m.entries.Nodup := h.sorted.imp fun hlt heq => absurd hlt (by rw [heq]; exact lt_irrefl _)
  refine Perm.eq_of_pairwise (fun a b _ _ (hab : a.1 < b.1) hba => absurd hab hba.asymm) (h.sorted.sublist hsub)
    (h.sorted.filter _) ?_
  refine (perm_ext_iff_of_nodup (hnodup.sublist hsub) (hnodup.filter _)).mpr fun ⟨k, v⟩ => ?_
  rw [h.mem_find hr, mem_filter]

theorem findOne_eq_head? (m : BTreeMap V) (point : Nat) : findOne m point = (find m ⟨point, point + 1⟩).head? := by
  unfold findOne find
  cases cursorAt m point with
  | nil => rfl
  | cons e rest =>
    rw [takeWhile_cons]
    by_cases hlt : point < (range e.2).start
    · rw [if_neg (by simpa using hlt)]
      exact if_pos hlt
    · rw [if_pos (by simpa using hlt)]
      exact if_neg hlt

/-- **The lookups are exact.** `find` returns the members that meet the range, in the order of their starts, and
`find_one` the member that contains the point, or `None` if there is no such member. -/
theorem find_exact (h : IntervalSet m) (hr : r.start < r.stop) (point : Nat) :
    find m r = m.entries.filter (fun e => isIntersected (range e.2) r) ∧
      ∀ e, findOne m point = some e ↔ e ∈ m.entries ∧ point ∈ range e.2 := by
  refine ⟨h.find_eq hr, fun e => ?_⟩
  have hmeet : ∀ e : Nat × V, isIntersected (range e.2) ⟨point, point + 1⟩ = true ↔ point ∈ range e.2 := by
    intro e
    rw [isIntersected_bounds, Range.mem_def]
    dsimp only
    omega
  rw [findOne_eq_head?, h.find_eq (Nat.lt_succ_self point), head?_filter]
  constructor
  · intro hfound
    exact ⟨mem_of_find?_eq_some hfound, (hmeet e).mp (find?_some (p := fun e : Nat × V => isIntersected (range e.2) _) hfound)⟩
  · rintro ⟨he, hin⟩
    obtain ⟨f, hf⟩ := Option.isSome_iff_exists.mp
      (find?_isSome (p := fun e : Nat × V => isIntersected (range e.2) _).mpr ⟨e, he, (hmeet e).mpr hin⟩)
    have hfin := (hmeet f).mp (find?_some (p := fun e : Nat × V => isIntersected (range e.2) _) hf)
    have hfm := h.sorted.get?_of_mem (mem_of_find?_eq_some hf)
    have hem := h.sorted.get?_of_mem he
    have hkey : f.1 = e.1 := by
      by_contra hne
      exact h.disjoint f.1 f.2 e.1 e.2 hfm hem hne point hfin hin
    rw [hkey, hem, Option.some.injEq] at hfm
    rw [hf, show f = e from Prod.ext hkey hfm.symm]

def threeFree : BTreeMap FreeRegion := ⟨[(1, ⟨⟨1, 3⟩⟩), (4, ⟨⟨4, 6⟩⟩), (8, ⟨⟨8, 9⟩⟩)]⟩

theorem threeFree_mem {k : Nat} {v : FreeRegion} (hv : threeFree.get? k = some v) :
    k = 1 ∧ v = ⟨⟨1, 3⟩⟩ ∨ k = 4 ∧ v = ⟨⟨4, 6⟩⟩ ∨ k = 8 ∧ v = ⟨⟨8, 9⟩⟩ := by
  simpa [threeFree] using mem_of_get? hv

/-- Of three regions two meet a range, and one has a point. -/
theorem find_exact_three : find threeFree ⟨2, 5⟩ = [(1, ⟨⟨1, 3⟩⟩), (4, ⟨⟨4, 6⟩⟩)] ∧
    findOne threeFree 5 = some (4, ⟨⟨4, 6⟩⟩) := by
  have hset : IntervalSet threeFree := by
    refine ⟨by simp [Sorted, threeFree], ?_, ?_, ?_⟩
    · intro k v hv
      rcases threeFree_mem hv with ⟨rfl, rfl⟩ | ⟨rfl, rfl⟩ | ⟨rfl, rfl⟩ <;> rfl
    · intro k v hv
      rcases threeFree_mem hv with ⟨rfl, rfl⟩ | ⟨rfl, rfl⟩ | ⟨rfl, rfl⟩ <;> decide
    · intro j w k v hw hv hne point hj hk
      rw [Range.mem_def] at hj hk
      rcases threeFree_mem hw with ⟨rfl, rfl⟩ | ⟨rfl, rfl⟩ | ⟨rfl, rfl⟩ <;>
        rcases threeFree_mem hv with ⟨rfl, rfl⟩ | ⟨rfl, rfl⟩ | ⟨rfl, rfl⟩ <;>
        simp [Interval.range] at hj hk hne <;> omega
  obtain ⟨hfind, hone⟩ := find_exact hset (r := ⟨2, 5⟩) (by decide) 5
  exact ⟨hfind.trans (by decide), (hone _).mpr (by decide)⟩

end Find

end AsterKernel.Vm
