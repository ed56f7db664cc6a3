import AsterKernel.Vm.Trim

/-!
# `Vm.VmarOps` — what the operations of one VMAR do when they succeed

One inversion lemma for each operation of a VMAR: which checks it passed and how its regions changed. The
invariants are derived from these lemmas, never from the operations themselves.
-/

namespace AsterKernel.Vm
namespace Vmar

open Lib Lib.Comp Lib.BTreeMap VmMapping

variable {p : Profile} {s t : NodeState}

variable {σ ε : Type} {regions : BTreeMap FreeRegion} {u : Unit} {r : Range}

theorem getIntersectedRange_ok {r1 r2 q : Range} {s t : σ}
    (h : (getIntersectedRange p r1 r2 : Comp σ ε Range) s = .ok q t) :
    q = intersection r1 r2 ∧ t = s ∧ (p = .dev → isIntersected r1 r2 = true) := by
  unfold getIntersectedRange at h
  rw [debugAssert_bind_ok] at h
  obtain ⟨hdev, h⟩ := h
  obtain ⟨rfl, rfl⟩ := pure_ok.mp h
  exact ⟨rfl, rfl, hdev⟩

/-! ## Regions -/

theorem mergeFrom_state {fuel : Nat} {region : FreeRegion} {res : FreeRegion × BTreeMap FreeRegion} {s t : σ}
    (h : (mergeFrom fuel region regions : Comp σ ε _) s = .ok res t) : t = s := by
  induction fuel generalizing region regions s with
  | zero => exact (pure_ok.mp h).2.symm
  | succ fuel ih =>
    unfold mergeFrom at h
    cases hget : regions.get? region.range.stop with
    | none => rw [hget] at h; exact (pure_ok.mp h).2.symm
    | some another =>
      rw [hget] at h
      obtain ⟨merged, s', h1, h2⟩ := bind_ok.mp h
      have hs' : s' = s := by
        unfold FreeRegion.mergeOtherRegion at h1
        rw [assert_bind_ok, assert_bind_ok] at h1
        exact (pure_ok.mp h1.2.2).2.symm
      exact (ih h2).trans hs'

theorem mergeKeys_state {keys : List Nat} {merged res : BTreeMap FreeRegion} {s t : σ}
    (h : (mergeKeys keys regions merged : Comp σ ε _) s = .ok res t) : t = s := by
  induction keys generalizing regions merged with
  | nil => exact (pure_ok.mp h).2.symm
  | cons key more ih =>
    unfold mergeKeys at h
    cases hget : regions.get? key with
    | none => rw [hget] at h; exact ih h
    | some region =>
      rw [hget] at h
      obtain ⟨⟨region', rest⟩, s', h1, h2⟩ := bind_ok.mp h
      rw [mergeFrom_state h1] at h2
      exact ih h2

def withFree (s : NodeState) (regions : BTreeMap FreeRegion) : NodeState :=
  ⟨{ s.inner with freeRegions := regions }, s.space⟩

/-- Take `cut` out of the region at `base`. -/
def cutRegion (regions : BTreeMap FreeRegion) (base : Nat) (region : FreeRegion) (cut : Range) :
    BTreeMap FreeRegion :=
  insertPieces range (regions.remove base) (region.allocateRange cut)

/-- A split takes one free region out and puts back what the allocation leaves of it. -/
theorem splitRegion_ok {base : Nat} {alloc : FreeRegion → Comp NodeState Error Range} {f : FreeRegion → Range}
    (halloc : Computes alloc f) (h : splitRegion base alloc s = .ok u t) :
    ∃ region s', s.inner.freeRegions.get? base = some region ∧ alloc region s' = .ok (f region) s' ∧
      t = withFree s (cutRegion s.inner.freeRegions base region (f region)) := by
  unfold splitRegion at h
  rw [get_bind] at h
  cases hget : s.inner.freeRegions.get? base with
  | none => rw [hget] at h; cases h
  | some region =>
    rw [hget] at h
    dsimp only at h
    unfold setFreeRegions modifyInner at h
    rw [modify_bind] at h
    obtain ⟨q, s', h1, h2⟩ := bind_ok.mp h
    obtain ⟨rfl, rfl⟩ := halloc _ _ _ _ h1
    exact ⟨region, _, rfl, h1, (modify_ok.mp h2).symm⟩

/-! ## Overwriting allocations -/

/-- The free regions after a sequence of splits. -/
def splitAll (cut : FreeRegion → Range) : List Nat → BTreeMap FreeRegion → BTreeMap FreeRegion
  | [], regions => regions
  | base :: rest, regions =>
    match regions.get? base with
    | none => regions
    | some region => splitAll cut rest (cutRegion regions base region (cut region))

theorem computes_intersected (f : FreeRegion → Range) (r : Range) :
    Computes (fun region => (getIntersectedRange p (f region) r : Comp NodeState Error Range))
      (fun region => intersection (f region) r) :=
  fun _ _ _ _ h => ⟨(getIntersectedRange_ok h).1, (getIntersectedRange_ok h).2.1⟩

theorem splitIntersected_ok {mapRange : Range} {bases : List Nat} (h : splitIntersected p mapRange bases s = .ok u t) :
    t = withFree s (splitAll (fun region => intersection region.range mapRange) bases s.inner.freeRegions) := by
  induction bases generalizing s with
  | nil => exact (pure_ok.mp h).2.symm
  | cons base rest ih =>
    unfold splitIntersected at h
    obtain ⟨_, s', h1, h2⟩ := bind_ok.mp h
    obtain ⟨region, -, hget, -, rfl⟩ := splitRegion_ok (computes_intersected FreeRegion.range mapRange) h1
    rw [ih h2]
    simp only [splitAll, hget]
    rfl

theorem trimExistingMappings_ok (hs : s.inner.vmMappings.Sorted) (hk : Keyed s.inner.vmMappings)
    (htyped : ∀ e ∈ s.inner.vmMappings.entries, e.2.Typed) (h : trimExistingMappings p r s = .ok u t) :
    t.inner = { s.inner with vmMappings := t.inner.vmMappings } ∧
      Trimmed (fun _ => r) s.inner.vmMappings.entries s.inner.vmMappings t.inner.vmMappings := by
  unfold trimExistingMappings at h
  rw [get_bind] at h
  obtain ⟨acc, s', h1, h2⟩ := bind_ok.mp h
  have hcomp : Computes (fun _ : VmMapping => (pure r : Comp NodeState Error Range)) (fun _ => r) :=
    fun _ _ _ _ hq => ⟨(pure_ok.mp hq).1.symm, (pure_ok.mp hq).2.symm⟩
  obtain ⟨hframe, htr⟩ := trimmed_of_trimEach hcomp hs hk htyped (List.Sublist.refl _) h1
  unfold modifyInner at h2
  have ht := modify_ok.mp h2
  subst ht
  refine ⟨?_, htr⟩
  conv_lhs => rw [hframe]

/-- The bases of the free regions that an overwriting mapping takes from. -/
def splitBases (regions : BTreeMap FreeRegion) (mapRange : Range) : List Nat :=
  ((find regions mapRange).filter fun e => isIntersected e.2.range mapRange).map fun e => e.2.range.start

/-- What an overwriting allocation of `mapRange` leaves of the free regions. -/
def overwritten (regions : BTreeMap FreeRegion) (mapRange : Range) : BTreeMap FreeRegion :=
  splitAll (fun region => intersection region.range mapRange) (splitBases regions mapRange) regions

/-- What an overwriting allocation does: it splits every free region and trims every mapping that meets
the range. -/
theorem allocateFreeRegionForVmo_overwrite {vmoSize size align a : Nat} {offset : Option Nat}
    (h : allocateFreeRegionForVmo p vmoSize size offset align true s = .ok a t) :
    s.inner.isDestroyed = false ∧ offset = some a ∧ (p = .dev → a + max size vmoSize < usizeCard) ∧
      ∃ u, trimExistingMappings p ⟨a, wadd a (max size vmoSize)⟩
        (withFree s (overwritten s.inner.freeRegions ⟨a, wadd a (max size vmoSize)⟩)) = .ok u t := by
  unfold allocateFreeRegionForVmo at h
  rw [get_bind] at h
  split at h
  · cases h
  · rename_i hd
    rw [if_pos rfl] at h
    cases offset with
    | none => cases h
    | some o =>
      dsimp only at h
      rw [uadd_bind_ok] at h
      obtain ⟨hdev, h⟩ := h
      obtain ⟨_, s1, h1, h⟩ := bind_ok.mp h
      obtain ⟨u, s2, h2, h⟩ := bind_ok.mp h
      obtain ⟨rfl, rfl⟩ := pure_ok.mp h
      rw [splitIntersected_ok h1] at h2
      exact ⟨by simpa using hd, rfl, hdev, u, h2⟩

/-! ## Mapping -/

variable {o : MapOptions}

theorem checkAlignments_ok (h : checkAlignments p o s = .ok u t) :
    t = s ∧ o.align % PAGE_SIZE = 0 ∧ isPowerOfTwo o.align = true ∧ o.vmoOffset % o.align = 0 ∧
      ∀ a, o.offset = some a → a % o.align = 0 := by
  unfold checkAlignments at h
  simp only [debugAssert_bind_ok, guard_bind_ok, Bool.or_eq_false_iff, bne_eq_false_iff_eq,
    Bool.not_eq_eq_eq_not, Bool.not_false] at h
  obtain ⟨-, -, ⟨halign, hpow⟩, -, hoff, h⟩ := h
  cases ho : o.offset with
  | none =>
    rw [ho] at h
    exact ⟨(pure_ok.mp h).2.symm, halign, hpow, hoff, nofun⟩
  | some a =>
    rw [ho] at h
    dsimp only at h
    rw [debugAssert_bind_ok, guard_ok] at h
    simp only [bne_eq_false_iff_eq] at h
    refine ⟨h.2.2, halign, hpow, hoff, fun b hb => ?_⟩
    cases hb
    exact h.2.1

theorem checkRights_ok {v : Vmo} {rights : Rights} {s t : σ}
    (h : v.checkRights rights s = .ok u t) : t = s ∧ v.rights.contains rights = true := by
  unfold Vmo.checkRights at h
  split at h
  · rename_i hr
    exact ⟨(pure_ok.mp h).2.symm, hr⟩
  · cases h

/-- The addresses that the checks and the allocation reserve for a mapping at `a`. -/
def MapOptions.reserved (o : MapOptions) (a : Nat) : Range := ⟨a, wadd a (max o.size o.vmoSize)⟩

theorem checkOverwrite_ok (h : checkOverwrite p o s = .ok u t) :
    t = s ∧ ∀ a, o.offset = some a → find s.inner.childVmars (o.reserved a) = [] ∧
      (o.canOverwrite = false → find s.inner.vmMappings (o.reserved a) = []) := by
  unfold checkOverwrite at h
  obtain ⟨_, s1, h1, h2⟩ := bind_ok.mp h
  have hs1 : s1 = s := by
    rcases when_ok.mp h1 with ⟨-, h1⟩ | ⟨-, h1⟩
    · exact (debugAssert_ok.mp h1).1
    · exact h1
  rw [hs1, guard_bind_ok] at h2
  have h3 := h2.2
  cases ho : o.offset with
  | none =>
    rw [ho] at h3
    exact ⟨(pure_ok.mp h3).2.symm, nofun⟩
  | some a =>
    rw [ho] at h3
    dsimp only at h3
    rw [uadd_bind_ok] at h3
    have h4 := h3.2
    unfold checkVmoOverwrite at h4
    rw [get_bind, guard_bind_ok, guard_bind_ok, guard_ok] at h4
    simp only [Bool.not_eq_eq_eq_not, Bool.not_false, List.isEmpty_iff, Bool.and_eq_false_iff] at h4
    refine ⟨h4.2.2.2, fun b hb => ?_⟩
    cases hb
    refine ⟨h4.2.1, fun hno => ?_⟩
    rcases h4.2.2.1 with h | h
    · rw [hno] at h
      cases h
    · exact h

/-- The options were checked without changing anything. -/
theorem checkOptions_ok (h : checkOptions p o s = .ok u t) :
    t = s ∧ o.align % PAGE_SIZE = 0 ∧ isPowerOfTwo o.align = true ∧ o.vmoOffset % o.align = 0 ∧
      (∀ a, o.offset = some a → a % o.align = 0 ∧ find s.inner.childVmars (o.reserved a) = [] ∧
        (o.canOverwrite = false → find s.inner.vmMappings (o.reserved a) = [])) := by
  unfold checkOptions at h
  obtain ⟨_, s1, h1, h2⟩ := bind_ok.mp h
  obtain ⟨hs1, halign, hpow, hvmo, hoff⟩ := checkAlignments_ok h1
  rw [hs1] at h2
  obtain ⟨_, s2, h3, h4⟩ := bind_ok.mp h2
  rw [(checkRights_ok h3).1] at h4
  obtain ⟨ht, hover⟩ := checkOverwrite_ok h4
  exact ⟨ht, halign, hpow, hvmo, fun a ha => ⟨hoff a ha, hover a ha⟩⟩

/-- The mapping that `build` makes at an address. -/
def MapOptions.mappingAt (o : MapOptions) (a : Nat) : VmMapping :=
  ⟨o.vmoOffset, o.size, a, false, BTreeSet.empty, o.perms.toVmPerm, o.vmo⟩

def withMappings (s : NodeState) (mappings : BTreeMap VmMapping) : NodeState :=
  ⟨{ s.inner with vmMappings := mappings }, s.space⟩

@[simp] theorem withMappings_vmMappings (s : NodeState) (mappings : BTreeMap VmMapping) :
    (withMappings s mappings).inner.vmMappings = mappings := rfl

/-- **What `build` does**: checks, an allocation, and the new mapping under its address. -/
theorem build_ok {a : Nat} (h : build p o s = .ok a t) : ∃ u s', checkOptions p o s = .ok u s ∧
      allocateFreeRegionForVmo p o.vmoSize o.size o.offset o.align o.canOverwrite s = .ok a s' ∧
      t = withMappings s' (s'.inner.vmMappings.insert a (o.mappingAt a)) := by
  unfold build at h
  obtain ⟨u, s1, h1, h2⟩ := bind_ok.mp h
  have hs1 := (checkOptions_ok h1).1
  rw [hs1] at h1 h2
  obtain ⟨a', s', h3, h4⟩ := bind_ok.mp h2
  unfold modifyInner at h4
  rw [modify_bind] at h4
  obtain ⟨rfl, rfl⟩ := pure_ok.mp h4
  exact ⟨u, s', h1, h3, rfl⟩

/-! ## Destroying -/

theorem destroyChildren_frame {l : List (Nat × Vmar)} {free free' : BTreeMap FreeRegion}
    (h : destroyChildren p r l free s = .ok free' t) :
    t.inner.isDestroyed = s.inner.isDestroyed ∧ t.inner.vmMappings = s.inner.vmMappings ∧
      t.inner.freeRegions = s.inner.freeRegions := by
  induction l generalizing free s with
  | nil =>
    obtain ⟨-, rfl⟩ := pure_ok.mp h
    exact ⟨rfl, rfl, rfl⟩
  | cons e rest ih =>
    obtain ⟨key, child⟩ := e
    unfold destroyChildren at h
    rw [debugAssert_bind_ok] at h
    obtain ⟨_, s1, h1, h2⟩ := bind_ok.mp h.2
    dsimp only at h1
    cases hc : destroyAll p child s.space with
    | err e v | panic => rw [hc] at h1; cases h1
    | ok u v =>
      rw [hc] at h1
      cases h1
      have h3 := ih h2
      exact h3

theorem checkDestroyRange_ok (h : checkDestroyRange p r s = .ok u t) :
    t = s ∧ (s.inner.isDestroyed = false → ∀ e ∈ find s.inner.childVmars r,
      r.start ≤ (range e.2).start ∧ (range e.2).stop ≤ r.stop) := by
  unfold checkDestroyRange at h
  rw [debugAssert_bind_ok, debugAssert_bind_ok, get_bind] at h
  have h1 := h.2.2
  clear h
  split at h1
  · rename_i hd
    exact ⟨(pure_ok.mp h1).2.symm, fun hd' => absurd hd (by simp [hd'])⟩
  · generalize find s.inner.childVmars r = l at h1
    refine (fun hl => ⟨hl.1, fun _ => hl.2⟩ : (t = s ∧ ∀ e ∈ l, _) → _) ?_
    induction l with
    | nil => exact ⟨(pure_ok.mp h1).2.symm, nofun⟩
    | cons e rest ih =>
      obtain ⟨s', h2, h3⟩ := forEach_cons_ok.mp h1
      rw [debugAssert_bind_ok] at h2
      have h4 := h2.2
      split at h4
      · rename_i hin
        simp only [Bool.and_eq_true, decide_eq_true_eq] at hin
        rw [← (pure_ok.mp h4).2] at h3
        obtain ⟨ht, hrest⟩ := ih h3
        exact ⟨ht, by simpa [List.forall_mem_cons] using ⟨hin, fun a b => hrest (a, b)⟩⟩
      · cases h4

theorem computes_destroyedPart (p : Profile) (r : Range) :
    Computes (destroyedPart p r) (fun m => intersection (range m) r) := by
  intro m s q t h
  unfold destroyedPart at h
  rw [debugAssert_bind_ok] at h
  exact ⟨(getIntersectedRange_ok h.2).1, (getIntersectedRange_ok h.2).2.1⟩

/-- Merging `regions` returns `merged`; the state plays no part in it. -/
def Merges (regions merged : BTreeMap FreeRegion) : Prop :=
  ∃ s s' : NodeState, (mergeContinuousRegions regions : Comp NodeState Error _) s = .ok merged s'

def withChildren (s : NodeState) (children : BTreeMap Vmar) : NodeState :=
  ⟨{ s.inner with childVmars := children }, s.space⟩

/-- **What `destroy` does** to a VMAR that is not itself destroyed: the children that meet the range are
destroyed and dropped, the mappings that meet it are trimmed, and the free regions are merged with both. -/
theorem destroy_ok (h : destroy p r s = .ok u t) : (s.inner.isDestroyed = true ∧ t = s) ∨ s.inner.isDestroyed = false ∧
      (∀ e ∈ find s.inner.childVmars r, r.start ≤ (range e.2).start ∧ (range e.2).stop ≤ r.stop) ∧
      ∃ childRegions s1 acc s2 merged,
        destroyChildren p r (find s.inner.childVmars r) BTreeMap.empty s = .ok childRegions s1 ∧
        trimEach p (destroyedPart p r) (find s1.inner.vmMappings r) TrimAcc.empty
          (withChildren s1 (s1.inner.childVmars.retain fun c => !c.inner.isDestroyed)) = .ok acc s2 ∧
        Merges (s2.inner.freeRegions.append (trimmedRegions r (find s1.inner.vmMappings r) childRegions)) merged ∧
        t = withFree (withMappings s2 ((acc.apply s2.inner.vmMappings).retain fun m => !m.isDestroyed)) merged := by
  unfold destroy at h
  obtain ⟨_, s0, h1, h2⟩ := bind_ok.mp h
  obtain ⟨hs0, hin⟩ := checkDestroyRange_ok h1
  rw [hs0, get_bind] at h2
  split at h2
  · rename_i hd
    exact Or.inl ⟨hd, (pure_ok.mp h2).2.symm⟩
  · rename_i hd
    have hd' : s.inner.isDestroyed = false := by simpa using hd
    refine Or.inr ⟨hd', hin hd', ?_⟩
    rw [get_bind] at h2
    obtain ⟨childRegions, s1, h3, h4⟩ := bind_ok.mp h2
    unfold modifyInner at h4
    rw [modify_bind, get_bind] at h4
    obtain ⟨acc, s2, h5, h6⟩ := bind_ok.mp h4
    rw [modify_bind, get_bind] at h6
    obtain ⟨merged, s3, h7, h8⟩ := bind_ok.mp h6
    have hs3 := mergeKeys_state h7
    refine ⟨childRegions, s1, acc, s2, merged, h3, h5, ⟨_, _, h7⟩, ?_⟩
    rw [hs3] at h8
    unfold setFreeRegions modifyInner at h8
    exact (modify_ok.mp h8).symm

theorem destroy_trimmed (hs : s.inner.vmMappings.Sorted) (hk : Keyed s.inner.vmMappings)
    (htyped : ∀ e ∈ s.inner.vmMappings.entries, e.2.Typed) (hd : s.inner.isDestroyed = false)
    (h : destroy p r s = .ok u t) :
    ∃ M', Trimmed (fun m => intersection (range m) r) (find s.inner.vmMappings r) s.inner.vmMappings M' ∧
      t.inner.vmMappings = M'.retain fun m => !m.isDestroyed := by
  rcases destroy_ok h with ⟨hd', -⟩ | ⟨-, -, _, s1, acc, s2, merged, h1, h2, -, rfl⟩
  · rw [hd] at hd'
    cases hd'
  · have hM : s1.inner.vmMappings = s.inner.vmMappings :=
      (destroyChildren_frame h1).2.1
    rw [hM] at h2
    have hsub : (find s.inner.vmMappings r).Sublist
        (withChildren s1 (s1.inner.childVmars.retain fun c => !c.inner.isDestroyed)).inner.vmMappings.entries := by
      show (find s.inner.vmMappings r).Sublist s1.inner.vmMappings.entries
      rw [hM]
      exact find_sublist _ _
    obtain ⟨-, htr⟩ := trimmed_of_trimEach (computes_destroyedPart p r) (hM ▸ hs) (hM ▸ hk) (hM ▸ htyped) hsub h2
    refine ⟨_, ?_, rfl⟩
    have htr' : Trimmed (fun m => intersection (range m) r) (find s.inner.vmMappings r) s1.inner.vmMappings
      (acc.apply s2.inner.vmMappings) := htr
    rw [hM] at htr'
    exact htr'

end Vmar
end AsterKernel.Vm
