import AsterKernel.Vm.Vmar

/-!
# `Vm.Trim` — what a trim does to the ranges of the mappings

`trim_mapping` edits one mapping in place and defers the rest: a key to remove and a clone to append. This
module says what remains of a set of mappings after a trim loop and its deferred edits, up to the record of
mapped pages (`geom`): every key looks up the part of some mapping that was left at that key.
-/

namespace AsterKernel.Vm

open Lib Lib.Comp Lib.BTreeMap List

namespace VmMapping

/-- A mapping up to its record of mapped pages. -/
def geom (m : VmMapping) : VmMapping := { m with mappedPages := BTreeSet.empty }

/-- The part of the mapping below `vaddr`. -/
def leftPiece (m : VmMapping) (vaddr : Nat) : VmMapping := { m with mapSize := vaddr - m.mapToAddr }

/-- The part of the mapping from `vaddr` on. -/
def rightPiece (m : VmMapping) (vaddr : Nat) : VmMapping :=
  { m with
    mapToAddr := vaddr
    vmoOffset := wadd m.vmoOffset (vaddr - m.mapToAddr)
    mapSize := m.mapSize - (vaddr - m.mapToAddr) }

/-- The fields of a mapping are `usize` values. -/
structure Typed (m : VmMapping) : Prop where
  addr : m.mapToAddr < usizeCard
  size : m.mapSize < usizeCard
  offset : m.vmoOffset < usizeCard

/-- A trim that meets the mapping from its start on removes its key. -/
def removesKey (t : Range) (m : VmMapping) : Bool := isIntersected (range m) t && t.start ≤ m.mapToAddr

/-- What stays under the mapping's key, if the key stays. -/
def keptPiece (t : Range) (m : VmMapping) : VmMapping :=
  if isIntersected (range m) t then m.leftPiece t.start else m

/-- What is appended: the part right of the trim, even when it is empty (the trim ends at the mapping's
end, but starts inside it). -/
def appendedPiece (t : Range) (m : VmMapping) : Option (Nat × VmMapping) :=
  if isIntersected (range m) t ∧ (t.stop < (range m).stop ∨ t.stop = (range m).stop ∧ m.mapToAddr < t.start)
  then some (t.stop, m.rightPiece t.stop) else none

variable {m : VmMapping} {α σ ε : Type} {c : Comp VmSpace Error α} {s t : MapState} {p : Profile} {i : Nat}

/-- A mapping whose range is not empty does not wrap around. -/
theorem range_stop_of_lt (hm : m.Typed) (h : (range m).start < (range m).stop) :
    (range m).stop = m.mapToAddr + m.mapSize ∧ m.mapToAddr + m.mapSize < usizeCard := by
  simp only [range_def, wadd] at h ⊢
  by_cases hlt : m.mapToAddr + m.mapSize < usizeCard
  · exact ⟨Nat.mod_eq_of_lt hlt, hlt⟩
  · have h1 := hm.addr
    have h2 := hm.size
    rw [Nat.mod_eq_sub_mod (by omega), Nat.mod_eq_of_lt (by omega)] at h
    omega

/-! ## The methods keep the geometry -/

theorem onSpace_ok {a : α}
    (h : onSpace c s = .ok a t) : ∃ space, c s.space = .ok a space ∧ t = { s with space := space } := by
  unfold onSpace zoom at h
  cases hc : c s.space with
  | ok b space => rw [hc] at h; cases h; exact ⟨space, rfl, rfl⟩
  | err e space | panic => rw [hc] at h; cases h

theorem onSpace_err {e : Error}
    (h : onSpace c s = .err e t) : ∃ space, c s.space = .err e space ∧ t = { s with space := space } := by
  unfold onSpace zoom at h
  cases hc : c s.space with
  | ok b space | panic => rw [hc] at h; cases h
  | err e space => rw [hc] at h; cases h; exact ⟨space, rfl, rfl⟩

/-- The address of a page of the mapping, as the code computes it. -/
def pageAddr (m : VmMapping) (pageIdx : Nat) : Nat :=
  wsub (wadd (pageIdx * PAGE_SIZE % usizeCard) m.mapToAddr) m.vmoOffset

theorem pageMapAddr_ok {a : Nat} {s t : σ}
    (h : (pageMapAddr p m i : Comp σ ε Nat) s = .ok a t) : a = m.pageAddr i ∧ t = s := by
  unfold pageMapAddr at h
  simp only [umul_bind_ok, uadd_bind_ok, usub_ok] at h
  obtain ⟨-, -, rfl, rfl, -⟩ := h
  refine ⟨?_, rfl⟩
  split
  · rename_i hle
    exact (wsub_of_le hle (wadd_lt _ _)).symm
  · rfl

theorem pageMapAddr_not_err {s t : σ} {e : ε} : ¬ (pageMapAddr p m i : Comp σ ε Nat) s = .err e t := by
  unfold pageMapAddr
  simp only [umul_bind_err, uadd_bind_err]
  exact fun h => checked_not_err h.2.2

/-- What unmapping one page does: its index leaves the record, and its entry the page table. -/
theorem unmapOnePage_ok {u : Unit} (h : unmapOnePage p i s = .ok u t) :
    t.self = { s.self with mappedPages := s.self.mappedPages.remove i } ∧ (if s.space.isMapped (s.self.pageAddr i)
        then VmSpace.unmap p ⟨s.self.pageAddr i, wadd (s.self.pageAddr i) PAGE_SIZE⟩ s.space = .ok () t.space
        else t.space = s.space) := by
  unfold unmapOnePage at h
  rw [get_bind] at h
  obtain ⟨_, _, h1, h⟩ := bind_ok.mp h
  obtain ⟨rfl, rfl⟩ := pageMapAddr_ok h1
  simp only [uadd_bind_ok, get_bind] at h
  obtain ⟨_, _, h2, h⟩ := bind_ok.mp h.2
  have ht := modify_ok.mp h
  subst ht
  rcases when_ok.mp h2 with ⟨hmapped, h2⟩ | ⟨hmapped, rfl⟩
  · obtain ⟨space, h3, rfl⟩ := onSpace_ok h2
    rw [if_pos hmapped]
    exact ⟨rfl, h3⟩
  · rw [if_neg (by simp [hmapped])]
    exact ⟨rfl, rfl⟩

theorem unmapOnePage_err {e : Error} (h : unmapOnePage p i s = .err e t) : t.self = s.self ∧
      VmSpace.unmap p ⟨s.self.pageAddr i, wadd (s.self.pageAddr i) PAGE_SIZE⟩ s.space = .err e t.space := by
  unfold unmapOnePage at h
  rw [get_bind] at h
  rcases bind_err.mp h with h | ⟨_, _, h1, h⟩
  · exact absurd h pageMapAddr_not_err
  · obtain ⟨rfl, rfl⟩ := pageMapAddr_ok h1
    simp only [uadd_bind_err, get_bind] at h
    rcases bind_err.mp h.2 with h | ⟨_, _, -, h⟩
    · obtain ⟨space, h2, rfl⟩ := onSpace_err (when_err.mp h).2
      exact ⟨rfl, h2⟩
    · cases h

theorem unmapOnePage_geom (p : Profile) (i : Nat) (g : VmMapping) :
    Triple (fun s => s.self.geom = g) (unmapOnePage p i) (fun _ s => s.self.geom = g) (fun s => s.self.geom = g) := by
  refine Triple.intro (fun s u t hs h => ?_) (fun s e t hs h => ?_)
  · rw [(unmapOnePage_ok h).1]
    exact hs
  · rw [(unmapOnePage_err h).1]
    exact hs

theorem ignoreErr_triple {P : σ → Prop} {c : Comp σ ε α}
    (h : Triple P c (fun _ => P) P) : Triple P (ignoreErr c) (fun _ => P) P := by
  refine Triple.intro (fun s u t hs hc => ?_) (fun s e t hs hc => ?_)
  · rcases ignoreErr_ok hc with ⟨a, hc⟩ | ⟨e, hc⟩
    · exact h.of_ok hs hc
    · exact h.of_err hs hc
  · unfold ignoreErr at hc
    split at hc <;> cases hc

theorem trimLeft_geom {b a : Nat} (hlo : s.self.mapToAddr ≤ b) (hhi : b ≤ s.self.mapToAddr + s.self.mapSize)
    (h : trimLeft p b s = .ok a t) : a = b ∧ t.self.geom = (s.self.rightPiece b).geom := by
  unfold trimLeft at h
  simp only [get_bind, debugAssert_bind_ok, usub_bind_ok, uadd_bind_ok, modifySelf, modify_bind,
    if_pos hlo, if_pos (show b - s.self.mapToAddr ≤ s.self.mapSize by omega)] at h
  obtain ⟨-, -, -, -, -, h⟩ := h
  obtain ⟨_, s', h1, h2⟩ := bind_ok.mp h
  obtain ⟨rfl, rfl⟩ := pure_ok.mp h2
  refine ⟨rfl, (Triple.forEach (P := fun s' => s'.self.geom = (s.self.rightPiece b).geom) fun i _ => ?_).of_ok
    rfl h1⟩
  refine Triple.intro (fun s u t hs h => ?_) (fun s e t hs h => ?_)
  · rw [get_bind] at h
    split at h
    · rw [modify_bind] at h
      refine (ignoreErr_triple (unmapOnePage_geom p i _)).of_ok ?_ h
      exact hs
    · cases h
      exact hs
  · rw [get_bind] at h
    split at h
    · rw [modify_bind] at h
      refine (ignoreErr_triple (unmapOnePage_geom p i _)).of_err ?_ h
      exact hs
    · cases h

theorem trimRight_geom {b a : Nat} (hlo : s.self.mapToAddr ≤ b)
    (h : trimRight p b s = .ok a t) : t.self.geom = (s.self.leftPiece b).geom := by
  unfold trimRight at h
  simp only [get_bind, debugAssert_bind_ok, usub_bind_ok, uadd_bind_ok, if_pos hlo] at h
  obtain ⟨-, -, -, -, -, h⟩ := h
  obtain ⟨_, s', h1, h⟩ := bind_ok.mp h
  simp only [modifySelf, modify_bind] at h
  obtain ⟨rfl, rfl⟩ := pure_ok.mp h
  have hloop : s'.self.geom = s.self.geom :=
    (Triple.forEach fun i _ => ignoreErr_triple (unmapOnePage_geom p i s.self.geom)).of_ok rfl h1
  have hfields := congrArg (fun m : VmMapping => { m with mapSize := b - s.self.mapToAddr }) hloop
  simpa [geom, leftPiece] using hfields

theorem dupVmo_ok {s t : σ} {u : Unit} (h : (dupVmo m : Comp σ Error Unit) s = .ok u t) : t = s := by
  unfold dupVmo at h
  split at h
  · exact (pure_ok.mp h).2.symm
  · cases h

theorem onClone_ok {c : Comp MapState Error α} {a : α} (h : onClone c s = .ok (a, m) t) :
    ∃ t', c s = .ok a t' ∧ m = t'.self ∧ t = { t' with self := s.self } := by
  unfold onClone at h
  cases hc : c s with
  | ok b t' => rw [hc] at h; cases h; exact ⟨t', rfl, rfl, rfl⟩
  | err e t' | panic => rw [hc] at h; cases h

/-- **One trim.** Its key is removed when the trim meets the mapping from its start on; otherwise the part
left of the trim stays. The part right of the trim is appended, even if empty. -/
theorem trimMapping_geom {r : Range} {res : TrimResult} (hm : s.self.Typed) (h : trimMapping p r s = .ok res t) :
    res.toRemove = (if removesKey r s.self then some s.self.mapToAddr else none) ∧
      res.toAppend.map (fun e => (e.1, e.2.geom)) = (appendedPiece r s.self).map (fun e => (e.1, e.2.geom)) ∧
      (removesKey r s.self = false → t.self.geom = (keptPiece r s.self).geom) := by
  unfold trimMapping at h
  rw [get_bind] at h
  split at h
  · -- the trim misses the mapping
    rename_i hmiss
    simp only [Bool.not_eq_true'] at hmiss
    cases h
    simp [removesKey, appendedPiece, keptPiece, hmiss]
  · rename_i hmeet
    simp only [Bool.not_eq_true', Bool.not_eq_false] at hmeet
    have hb := isIntersected_bounds.mp hmeet
    have hend := range_stop_of_lt hm hb.1
    have hstart : (range s.self).start = s.self.mapToAddr := rfl
    split at h
    · -- the whole mapping
      rename_i hcov
      simp only [Bool.and_eq_true, decide_eq_true_eq] at hcov
      obtain ⟨_, s', h1, h2⟩ := bind_ok.mp h
      cases h2
      have hstop : (range s.self).stop ≤ r.stop := hcov.2
      have hnot : ¬ (r.stop < (range s.self).stop ∨ r.stop = (range s.self).stop ∧ s.self.mapToAddr < r.start) := by
        omega
      simp [removesKey, appendedPiece, hmeet, hcov.1, hnot]
    · rename_i hcov
      simp only [Bool.and_eq_true, decide_eq_true_eq, not_and, not_le] at hcov
      split at h
      · -- from the left
        rename_i hleft
        have hlt : r.stop < (range s.self).stop := hcov hleft
        rw [if_pos (le_of_lt hlt)] at h
        obtain ⟨_, s', h1, h2⟩ := bind_ok.mp h
        rw [get_bind] at h2
        cases h2
        obtain ⟨rfl, hgeom⟩ := trimLeft_geom (by omega) (by omega) h1
        have hleft' : r.start ≤ s.self.mapToAddr := hleft
        simp [removesKey, appendedPiece, hmeet, hlt, hleft', hgeom]
      · rename_i hright
        rw [hstart, not_le] at hright
        have hkey : removesKey r s.self = false := by simp [removesKey, hright]
        split at h
        · -- inside
          rename_i hin
          obtain ⟨_, s1, h1, h⟩ := bind_ok.mp h
          rw [dupVmo_ok h1] at h
          obtain ⟨⟨a, m'⟩, s2, h2, h⟩ := bind_ok.mp h
          obtain ⟨t', h3, rfl, rfl⟩ := onClone_ok h2
          obtain ⟨rfl, hgeom⟩ := trimLeft_geom (by omega) (by omega) h3
          obtain ⟨_, s3, h4, h⟩ := bind_ok.mp h
          cases h
          have hgeom' := trimRight_geom (s := ⟨s.self, t'.space⟩) (le_of_lt hright) h4
          have happ : r.stop < (range s.self).stop ∨
              r.stop = (range s.self).stop ∧ s.self.mapToAddr < r.start := by omega
          refine ⟨by simp [hkey], by simp [appendedPiece, hmeet, happ, hgeom], fun _ => ?_⟩
          rw [keptPiece, if_pos hmeet]
          exact hgeom'
        · -- from the right
          rename_i hin
          obtain ⟨_, s3, h3, h⟩ := bind_ok.mp h
          cases h
          have hgeom' := trimRight_geom (le_of_lt hright) h3
          have happ : ¬ (r.stop < (range s.self).stop ∨
              r.stop = (range s.self).stop ∧ s.self.mapToAddr < r.start) := by omega
          refine ⟨by simp [hkey], by simp [appendedPiece, happ], fun _ => ?_⟩
          rw [keptPiece, if_pos hmeet]
          exact hgeom'

end VmMapping

/-! ## The loop -/

namespace Vmar

open VmMapping

variable {s t : NodeState} {acc : TrimAcc} {rangeOf : VmMapping → Comp NodeState Error Range} {tr : VmMapping → Range}
variable {l : List (Nat × VmMapping)} {p : Profile}

theorem onMapping_ok {α : Type} {key : Nat} {m : VmMapping} {c : Comp MapState Error α} {a : α}
    (h : onMapping key m c s = .ok a t) : ∃ t', c ⟨m, s.space⟩ = .ok a t' ∧
      t = ⟨{ s.inner with vmMappings := s.inner.vmMappings.insert key t'.self }, t'.space⟩ := by
  unfold onMapping at h
  cases hc : c ⟨m, s.space⟩ with
  | ok b t' => simp only [hc] at h; cases h; exact ⟨t', rfl, rfl⟩
  | err e t' | panic => simp only [hc] at h; cases h

/-- A computation that leaves the state alone and returns `f` of its argument, if it returns. -/
def Computes {α β σ : Type} (c : α → Comp σ Error β) (f : α → β) : Prop :=
  ∀ a s b t, c a s = .ok b t → b = f a ∧ t = s

/-- What a trim loop over the entries `l` leaves behind, when `tr` is what it takes out of each mapping. -/
structure TrimSpec (tr : VmMapping → Range) (l : List (Nat × VmMapping)) (acc : TrimAcc) (s : NodeState)
    (acc' : TrimAcc) (t : NodeState) : Prop where
  /-- Only the mappings change. -/
  frame : t.inner = { s.inner with vmMappings := t.inner.vmMappings }
  /-- Other keys are left alone. -/
  other : ∀ k, k ∉ l.map Prod.fst → t.inner.vmMappings.get? k = s.inner.vmMappings.get? k
  /-- A key that is not to be removed holds what is kept of its mapping. -/
  kept : ∀ k m, (k, m) ∈ l → ∃ m', t.inner.vmMappings.get? k = some m' ∧
    (removesKey (tr m) m = false → m'.geom = (keptPiece (tr m) m).geom)
  removed : ∀ k, acc'.toRemove.contains k = true ↔
    acc.toRemove.contains k = true ∨ ∃ e ∈ l, e.2.mapToAddr = k ∧ removesKey (tr e.2) e.2 = true
  /-- What is appended comes from a mapping of the list. -/
  fromPiece : ∀ k v, acc'.toAppend.get? k = some v → acc.toAppend.get? k = some v ∨
    ∃ e ∈ l, ∃ w, appendedPiece (tr e.2) e.2 = some (k, w) ∧ v.geom = w.geom
  /-- Every piece is appended, or replaced by a later one with its key. -/
  appended : ∀ k, acc.toAppend.get? k ≠ none ∨ (∃ e ∈ l, ∃ w, appendedPiece (tr e.2) e.2 = some (k, w)) →
    acc'.toAppend.get? k ≠ none
  sorted : s.inner.vmMappings.Sorted → t.inner.vmMappings.Sorted
  sortedRemove : acc.toRemove.Sorted → acc'.toRemove.Sorted
  sortedAppend : acc.toAppend.Sorted → acc'.toAppend.Sorted

theorem record_toRemove (acc : TrimAcc) (res : TrimResult) (k : Nat) :
    (acc.record res).toRemove.contains k = true ↔ acc.toRemove.contains k = true ∨ res.toRemove = some k := by
  unfold TrimAcc.record
  cases h : res.toRemove with
  | none => simp
  | some j =>
    simp only [BTreeSet.contains_insert, Bool.or_eq_true, decide_eq_true_eq, Option.some.injEq]
    constructor
    · rintro (rfl | h) <;> simp [*]
    · rintro (h | rfl) <;> simp [*]

theorem record_toAppend (acc : TrimAcc) (res : TrimResult) (k : Nat) : (acc.record res).toAppend.get? k =
      match res.toAppend with
      | some (j, m) => if k = j then some m else acc.toAppend.get? k
      | none => acc.toAppend.get? k := by
  unfold TrimAcc.record
  cases h : res.toAppend with
  | none => rfl
  | some e => exact get?_insert _ _ _ _

theorem record_sorted (res : TrimResult) : (acc.toRemove.Sorted → (acc.record res).toRemove.Sorted) ∧
      (acc.toAppend.Sorted → (acc.record res).toAppend.Sorted) := by
  unfold TrimAcc.record
  constructor
  · intro h
    cases res.toRemove with
    | none => exact h
    | some j => exact h.insert j
  · intro h
    cases res.toAppend with
    | none => exact h
    | some e => exact h.insert e.1 e.2

/-- **The trim loop**, over entries whose keys differ. -/
theorem trimEach_spec (hr : Computes rangeOf tr) (hkeys : (l.map Prod.fst).Nodup)
    (htyped : ∀ e ∈ l, e.2.Typed) {acc' : TrimAcc}
    (h : trimEach p rangeOf l acc s = .ok acc' t) : TrimSpec tr l acc s acc' t := by
  induction l generalizing acc s with
  | nil =>
    obtain ⟨rfl, rfl⟩ := pure_ok.mp h
    exact ⟨rfl, fun _ _ => rfl, nofun, by simp, fun _ _ h => Or.inl h, by simp, id, id, id⟩
  | cons e rest ih =>
    obtain ⟨key, m⟩ := e
    rw [map_cons, nodup_cons] at hkeys
    unfold trimEach at h
    obtain ⟨_, _, h1, h⟩ := bind_ok.mp h
    rw [(hr _ _ _ _ h1).1, (hr _ _ _ _ h1).2] at h
    obtain ⟨res, s', h2, h⟩ := bind_ok.mp h
    obtain ⟨t', h3, hs'⟩ := onMapping_ok h2
    rw [hs'] at h
    obtain ⟨hrem, happ, hkept⟩ := trimMapping_geom (htyped (key, m) (by simp)) h3
    have htail := ih hkeys.2 (fun e he => htyped e (by simp [he])) h
    have happ' : ∀ k v, res.toAppend = some (k, v) → ∃ w, appendedPiece (tr m) m = some (k, w) ∧ v.geom = w.geom := by
      intro k v hv
      rw [hv] at happ
      cases hw : appendedPiece (tr m) m with
      | none => rw [hw] at happ; cases happ
      | some e =>
        rw [hw] at happ
        simp only [Option.map_some, Option.some.injEq, Prod.mk.injEq] at happ
        exact ⟨e.2, by rw [happ.1], happ.2⟩
    refine ⟨htail.frame, ?_, ?_, ?_, ?_, ?_, ?_, ?_, ?_⟩
    · intro k hk
      rw [map_cons, mem_cons, not_or] at hk
      rw [htail.other k hk.2, get?_insert_ne _ _ hk.1]
    · intro k m' hmem
      rcases mem_cons.mp hmem with heq | hmem
      · cases heq
        refine ⟨t'.self, ?_, hkept⟩
        rw [htail.other key hkeys.1, get?_insert_self]
      · exact htail.kept k m' hmem
    · intro k
      rw [htail.removed k, record_toRemove, hrem]
      simp only [exists_mem_cons_iff, Option.ite_none_right_eq_some, Option.some.injEq]
      constructor
      · rintro ((h | ⟨h1, h2⟩) | h)
        · exact Or.inl h
        · exact Or.inr (Or.inl ⟨h2, h1⟩)
        · exact Or.inr (Or.inr h)
      · rintro (h | ⟨h2, h1⟩ | h)
        · exact Or.inl (Or.inl h)
        · exact Or.inl (Or.inr ⟨h1, h2⟩)
        · exact Or.inr h
    · intro k v hv
      rcases htail.fromPiece k v hv with hacc | ⟨e, he, w, hw⟩
      · rw [record_toAppend] at hacc
        cases hres : res.toAppend with
        | none => rw [hres] at hacc; exact Or.inl hacc
        | some a =>
          rw [hres] at hacc
          dsimp only at hacc
          split at hacc
          · rename_i hka
            cases hacc
            obtain ⟨w, hw, hg⟩ := happ' a.1 a.2 hres
            exact Or.inr ⟨(key, m), by simp, w, hka ▸ hw, hg⟩
          · exact Or.inl hacc
      · exact Or.inr ⟨e, by simp [he], w, hw⟩
    · rintro k hk
      apply htail.appended k
      rw [record_toAppend]
      rcases hk with hk | ⟨e, he, w, hw⟩
      · left
        split
        · split
          · simp
          · exact hk
        · exact hk
      · rcases mem_cons.mp he with rfl | he
        · left
          rw [hw] at happ
          cases hres : res.toAppend with
          | none => rw [hres] at happ; cases happ
          | some a =>
            rw [hres] at happ
            simp only [Option.map_some, Option.some.injEq, Prod.mk.injEq] at happ
            simp [happ.1]
        · exact Or.inr ⟨e, he, w, hw⟩
    · exact fun hs => htail.sorted (hs.insert _ _)
    · exact fun hs => htail.sortedRemove ((record_sorted res).1 hs)
    · exact fun hs => htail.sortedAppend ((record_sorted res).2 hs)

theorem get?_foldl_remove (ks : List Nat) (M : BTreeMap VmMapping) (k : Nat) :
    (ks.foldl BTreeMap.remove M).get? k = if k ∈ ks then none else M.get? k := by
  induction ks generalizing M with
  | nil => simp
  | cons j ks ih =>
    rw [foldl_cons, ih, get?_remove]
    by_cases h1 : k ∈ ks <;> by_cases h2 : k = j <;> simp [h1, h2]

theorem get?_apply (ha : acc.toAppend.Sorted) (M : BTreeMap VmMapping) (k : Nat) :
    (acc.apply M).get? k = (acc.toAppend.get? k).or (if acc.toRemove.contains k then none else M.get? k) := by
  unfold TrimAcc.apply
  rw [get?_append ha, get?_foldl_remove]
  simp only [BTreeSet.mem_toList_iff]

theorem apply_sorted {M : BTreeMap VmMapping} (hM : M.Sorted) : (acc.apply M).Sorted := by
  refine Sorted.append ?_ _
  induction acc.toRemove.toList generalizing M with
  | nil => exact hM
  | cons j ks ih => exact ih (hM.remove j)

/-- Some mapping of the list leaves a piece at key `k`. -/
def AppendsAt (tr : VmMapping → Range) (l : List (Nat × VmMapping)) (k : Nat) (w : VmMapping) : Prop :=
  ∃ e ∈ l, appendedPiece (tr e.2) e.2 = some (k, w)

/-- **What the mappings `M'` are after the entries `l` of `M` were trimmed** by `tr`: at every key either a
piece that was appended there, or what was kept of the mapping at that key. -/
structure Trimmed (tr : VmMapping → Range) (l : List (Nat × VmMapping)) (M M' : BTreeMap VmMapping) : Prop where
  sorted : M'.Sorted
  cases : ∀ k v, M'.get? k = some v → (∃ w, AppendsAt tr l k w ∧ v.geom = w.geom) ∨ (∀ w, ¬ AppendsAt tr l k w) ∧
      ((k ∉ l.map Prod.fst ∧ M.get? k = some v) ∨
        ∃ m, (k, m) ∈ l ∧ removesKey (tr m) m = false ∧ v.geom = (keptPiece (tr m) m).geom)
  appended : ∀ k w, AppendsAt tr l k w → ∃ v w', M'.get? k = some v ∧ AppendsAt tr l k w' ∧ v.geom = w'.geom
  other : ∀ k v, (∀ w, ¬ AppendsAt tr l k w) → k ∉ l.map Prod.fst → M.get? k = some v → M'.get? k = some v
  kept : ∀ k m, (∀ w, ¬ AppendsAt tr l k w) → (k, m) ∈ l → removesKey (tr m) m = false →
    ∃ v, M'.get? k = some v ∧ v.geom = (keptPiece (tr m) m).geom

theorem trimmed_of_trimEach (hr : Computes rangeOf tr) (hs : s.inner.vmMappings.Sorted)
    (hk : Keyed s.inner.vmMappings) (htyped : ∀ e ∈ s.inner.vmMappings.entries, e.2.Typed)
    (hl : l.Sublist s.inner.vmMappings.entries) (h : trimEach p rangeOf l TrimAcc.empty s = .ok acc t) :
    t.inner = { s.inner with vmMappings := t.inner.vmMappings } ∧
      Trimmed tr l s.inner.vmMappings (acc.apply t.inner.vmMappings) := by
  have hkeys : (l.map Prod.fst).Nodup :=
    List.Pairwise.map Prod.fst (fun _ _ hab => ne_of_lt hab) (hs.sublist hl)
  have hspec := trimEach_spec hr hkeys (fun e he => htyped e (hl.subset he)) h
  have hrem := hspec.sortedRemove (sorted_empty : TrimAcc.empty.toRemove.Sorted)
  have happ := hspec.sortedAppend sorted_empty
  have hkey : ∀ e ∈ l, e.2.mapToAddr = e.1 := fun e he => hk e.1 e.2 (hs.get?_of_mem (hl.subset he))
  have hget := get?_apply happ t.inner.vmMappings
  -- without an appended piece, the key holds what the loop left there, unless removed
  have hnone : ∀ k, (∀ w, ¬ AppendsAt tr l k w) → acc.toAppend.get? k = none := by
    intro k hno
    rw [Option.eq_none_iff_forall_ne_some]
    intro v hv
    rcases hspec.fromPiece k v hv with h | ⟨e, he, w, hw, -⟩
    · cases h
    · exact hno w ⟨e, he, hw⟩
  have hremoved : ∀ k, acc.toRemove.contains k = true ↔ ∃ m, (k, m) ∈ l ∧ removesKey (tr m) m = true := by
    intro k
    rw [hspec.removed k]
    constructor
    · rintro (h | ⟨e, he, rfl, hr⟩)
      · cases h
      · exact ⟨e.2, hkey e he ▸ he, hr⟩
    · rintro ⟨m, hm, hr⟩
      exact Or.inr ⟨(k, m), hm, hkey _ hm, hr⟩
  have hpiece : ∀ k v, acc.toAppend.get? k = some v → ∃ w, AppendsAt tr l k w ∧ v.geom = w.geom := by
    intro k v hv
    rcases hspec.fromPiece k v hv with h | ⟨e, he, w, hw, hg⟩
    · cases h
    · exact ⟨w, ⟨e, he, hw⟩, hg⟩
  refine ⟨hspec.frame, apply_sorted (hspec.sorted hs), ?_, ?_, ?_, ?_⟩
  · intro k v hv
    rw [hget] at hv
    cases hp : acc.toAppend.get? k with
    | some v' =>
      rw [hp] at hv
      cases hv
      exact Or.inl (hpiece k v hp)
    | none =>
      rw [hp, Option.none_or] at hv
      refine Or.inr ⟨?_, ?_⟩
      · rintro w ⟨e, he, hw⟩
        exact hspec.appended k (Or.inr ⟨e, he, w, hw⟩) hp
      · split at hv
        · cases hv
        · rename_i hnr
          by_cases hin : k ∈ l.map Prod.fst
          · obtain ⟨⟨k', m⟩, hmem, rfl⟩ := mem_map.mp hin
            obtain ⟨m', hm', hkept⟩ := hspec.kept k' m hmem
            rw [hm', Option.some.injEq] at hv
            subst hv
            have hr : removesKey (tr m) m = false := by
              rw [← Bool.not_eq_true]
              exact fun hr => hnr ((hremoved k').mpr ⟨m, hmem, hr⟩)
            exact Or.inr ⟨m, hmem, hr, hkept hr⟩
          · exact Or.inl ⟨hin, (hspec.other k hin).symm.trans hv⟩
  · rintro k w ⟨e, he, hw⟩
    obtain ⟨v, hv⟩ := Option.ne_none_iff_exists'.mp (hspec.appended k (Or.inr ⟨e, he, w, hw⟩))
    obtain ⟨w', hw', hg⟩ := hpiece k v hv
    exact ⟨v, w', by rw [hget, hv]; rfl, hw', hg⟩
  · intro k v hno hin hv
    have hnr : ¬ acc.toRemove.contains k = true := by
      rw [hremoved]
      rintro ⟨m, hm, -⟩
      exact hin (mem_map.mpr ⟨(k, m), hm, rfl⟩)
    rw [hget, hnone k hno, if_neg hnr, Option.none_or, hspec.other k hin]
    exact hv
  · intro k m hno hmem hr
    obtain ⟨m', hm', hkept⟩ := hspec.kept k m hmem
    have hnr : ¬ acc.toRemove.contains k = true := by
      rw [hremoved]
      rintro ⟨m₂, hm₂, hr₂⟩
      rw [hs.key_inj (hl.subset hm₂) (hl.subset hmem), hr] at hr₂
      cases hr₂
    exact ⟨m', by rw [hget, hnone k hno, if_neg hnr, Option.none_or, hm'], hkept hr⟩

end Vmar
end AsterKernel.Vm
