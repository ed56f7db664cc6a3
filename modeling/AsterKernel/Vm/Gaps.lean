import AsterKernel.Vm.Space

/-!
# `Vm.Gaps` — ranges with gaps

The loop of `unmap` returns at the first page without an area. An overwriting `map` drops that error, and then panics on
the first page that is still mapped. So a range can be unmapped exactly if it has no gap, and overwritten exactly if its
mapped pages come before its gaps.
-/

namespace AsterKernel.Vm.VmSpace

open Lib Lib.Comp Lib.BTreeMap

/-! ## The page table -/

/-- Page table and areas agree on every page of user space. -/
def Coherent (s : VmSpace) : Prop :=
  ∀ va, va % PAGE_SIZE = 0 → va < 2 ^ 47 → s.pt.get? (vpn va) = (s.areas.get? va).map MapArea.pte

theorem vpn_inj {a b : Nat} (ha : a % PAGE_SIZE = 0) (hb : b % PAGE_SIZE = 0) (ha' : a < 2 ^ 47) (hb' : b < 2 ^ 47) :
    vpn a = vpn b ↔ a = b := by
  simp only [vpn, PAGE_SIZE] at *
  omega

theorem not_isKernelVaddr {va : Nat} (h : va < 2 ^ 47) : isKernelVaddr va = false := by
  unfold isKernelVaddr
  rw [Nat.div_eq_of_lt h]
  rfl

variable {s : VmSpace} {va : Nat}

theorem Coherent.isMapped (h : s.Coherent) (hal : va % PAGE_SIZE = 0) (hlt : va < 2 ^ 47) :
    s.isMapped va = (s.areas.get? va).isSome := by
  unfold VmSpace.isMapped
  rw [h va hal hlt, Option.isSome_map]

/-- The state `t` is `s` with this area, or without one, at an address. -/
structure Sets (s : VmSpace) (va : Nat) (area : Option MapArea) (t : VmSpace) : Prop where
  coherent : t.Coherent
  areas : ∀ a, t.areas.get? a = if a = va then area else s.areas.get? a

theorem Coherent.sets {pt : BTreeMap Pte} {areas : BTreeMap MapArea} {area : Option MapArea} (h : s.Coherent)
    (hal : va % PAGE_SIZE = 0) (hlt : va < 2 ^ 47)
    (hpt : ∀ j, pt.get? j = if j = vpn va then area.map MapArea.pte else s.pt.get? j)
    (hareas : ∀ a, areas.get? a = if a = va then area else s.areas.get? a) : Sets s va area ⟨pt, areas⟩ where
  areas := hareas
  coherent a ha halt := by
    dsimp only
    rw [hpt, hareas]
    by_cases hav : a = va
    · rw [if_pos (by rw [hav]), if_pos hav]
    · rw [if_neg fun hv => hav ((vpn_inj ha hal halt hlt).mp hv), if_neg hav]
      exact h a ha halt

section

variable (h : s.Coherent) (hal : va % PAGE_SIZE = 0) (hlt : va < 2 ^ 47)
include h hal hlt

theorem memUnmap_sets (hmapped : s.isMapped va = true) : ∃ t, memUnmap va s = .ok () t ∧ Sets s va none t := by
  obtain ⟨area, harea⟩ := Option.isSome_iff_exists.mp ((h.isMapped hal hlt).symm.trans hmapped)
  have hpt : (s.pt.get? (vpn va)).isSome = true := hmapped
  refine ⟨⟨_, _⟩, ?_, h.sets hal hlt (get?_remove s.pt (vpn va)) (get?_remove s.areas va)⟩
  simp [memUnmap, ptUnmap, bind_eq, pure_apply, Comp.get, Comp.modify, Comp.assert, harea, not_isKernelVaddr hlt, isMapped,
    hpt]

theorem memMap_sets (hfree : s.isMapped va = false) (area : MapArea) :
    ∃ t, memMap va area s = .ok () t ∧ Sets s va (some area) t := by
  have harea := (h.isMapped hal hlt).symm.trans hfree
  have hpt : (s.pt.get? (vpn va)).isSome = false := hfree
  simp only [Option.isSome_eq_false_iff, Option.isNone_iff_eq_none] at harea hpt
  refine ⟨⟨_, _⟩, ?_, h.sets hal hlt (get?_insert s.pt (vpn va) · area.pte) (get?_insert s.areas va · area)⟩
  simp [memMap, ptMap, bind_eq, pure_apply, Comp.get, Comp.modify, Comp.assert, harea, not_isKernelVaddr hlt, isMapped, hpt,
    MapArea.pte]

end

/-! ## Ranges -/

/-- `VmSpace::map` of frames at a given address. -/
def mapFrames (p : Profile) (base : Nat) (frames : List Nat) (perm : VmPerm) (canOverwrite : Bool) :
    Comp VmSpace Error Nat := do
  when canOverwrite do
    let stop ← uadd p base (PAGE_SIZE * frames.length)
    ignoreErr (unmap p ⟨base, stop⟩)
  if base + PAGE_SIZE * frames.length < usizeCard then
    forEach frames.zipIdx fun (frame, idx) => do
      assert (isPageAligned (base + PAGE_SIZE * idx))
      memMap (base + PAGE_SIZE * idx) ⟨perm.toFlags, frame⟩
    pure base
  else fail FrameError.overflow.toError

def page (base i : Nat) : Nat := base + PAGE_SIZE * i

/-- The state `t` is `s` with these areas at `n` pages from the page `i` on; its page table agrees with its areas. -/
structure Replaced (s : VmSpace) (base i n : Nat) (new : Nat → Option MapArea) (t : VmSpace) : Prop where
  coherent : t.Coherent
  inside : ∀ j < n, t.areas.get? (page base (i + j)) = new (i + j)
  outside : ∀ va, (∀ j < n, va ≠ page base (i + j)) → t.areas.get? va = s.areas.get? va

variable {s t : VmSpace} {va base i k n : Nat} {area : Option MapArea} {new : Nat → Option MapArea}

theorem page_inj {j : Nat} : page base i = page base j ↔ i = j := by
  unfold page PAGE_SIZE
  omega

theorem page_aligned (hal : base % PAGE_SIZE = 0) (i : Nat) : page base i % PAGE_SIZE = 0 := by
  rw [page, Nat.add_mul_mod_self_left, hal]

theorem page_bound (h : page base n ≤ 2 ^ 47) : base + PAGE_SIZE * n < usizeCard := by
  unfold page at h
  unfold usizeCard
  omega

theorem page_lt (h : page base n ≤ 2 ^ 47) (hi : i < n) : page base i < 2 ^ 47 := by
  unfold page PAGE_SIZE at *
  omega

section

variable (h : s.Coherent) (hal : base % PAGE_SIZE = 0)
include h hal

/-- Another page is mapped as before. -/
theorem Sets.isMapped (ht : Sets s (page base i) area t) (hlt : page base (i + 1 + n) ≤ 2 ^ 47) {j : Nat} (hj : j < n) :
    t.isMapped (page base (i + 1 + j)) = s.isMapped (page base (i + (j + 1))) := by
  have hpal := page_aligned hal (i + 1 + j)
  have hplt : page base (i + 1 + j) < 2 ^ 47 := page_lt hlt (by omega)
  rw [ht.coherent.isMapped hpal hplt, ht.areas, if_neg (mt page_inj.mp (by omega)), ← h.isMapped hpal hplt,
    add_assoc, add_comm 1]

omit h hal in
theorem Replaced.cons {u : VmSpace} (hu : Replaced t base (i + 1) n new u) (ht : Sets s (page base i) (new i) t) :
    Replaced s base i (n + 1) new u where
  coherent := hu.coherent
  inside j hj := by
    cases j with
    | zero =>
      rw [hu.outside _ fun j hj => mt page_inj.mp (by omega), ht.areas]
      exact if_pos rfl
    | succ j =>
      rw [← add_assoc, Nat.add_right_comm]
      exact hu.inside j (by omega)
  outside va hva := by
    rw [hu.outside va fun j hj => ?_, ht.areas]
    · exact if_neg (hva 0 (by omega))
    · rw [Nat.add_right_comm]
      exact hva (j + 1) (by omega)

theorem unmap_loop (hlt : page base (i + n) ≤ 2 ^ 47) (hk : k ≤ n)
    (hmapped : ∀ j < k, s.isMapped (page base (i + j)) = true) (hgap : k < n → s.isMapped (page base (i + k)) = false) :
    ∃ t, forEach (List.range' i n) (fun i => memUnmap (page base i)) s =
      (if k = n then .ok () t else .err FrameError.pageFault.toError t) ∧ Replaced s base i k (fun _ => none) t := by
  induction k generalizing i n s with
  | zero =>
    refine ⟨s, ?_, h, nofun, fun _ _ => rfl⟩
    cases n with
    | zero => rfl
    | succ n =>
      have hnone := (h.isMapped (page_aligned hal i) (page_lt hlt (by omega))).symm.trans (hgap (by omega))
      simp only [Option.isSome_eq_false_iff, Option.isNone_iff_eq_none] at hnone
      simp [List.range'_succ, forEach_cons, memUnmap, bind_eq, Comp.get, hnone]
      rfl
  | succ k ih =>
    obtain ⟨n, rfl⟩ : ∃ m, n = m + 1 := ⟨n - 1, by omega⟩
    obtain ⟨t, hstep, ht⟩ := memUnmap_sets h (page_aligned hal i) (page_lt hlt (by omega)) (hmapped 0 (by omega))
    rw [show i + (n + 1) = i + 1 + n by omega] at hlt
    obtain ⟨u, hrun, hu⟩ := ih ht.coherent hlt (by omega)
      (fun j hj => (ht.isMapped h hal hlt (by omega)).trans (hmapped (j + 1) (by omega)))
      fun hk => (ht.isMapped h hal hlt hk).trans (hgap (by omega))
    refine ⟨u, ?_, hu.cons ht⟩
    rw [List.range'_succ, forEach_cons, hstep]
    simpa using hrun

theorem map_loop {frames : List Nat} (flags : PageTableFlags) (new : Nat → Option MapArea)
    (hlt : page base (i + frames.length) ≤ 2 ^ 47)
    (hfree : ∀ j < frames.length, s.isMapped (page base (i + j)) = false)
    (hnew : ∀ j frame, frames[j]? = some frame → new (i + j) = some ⟨flags, frame⟩) :
    ∃ t, forEach (frames.zipIdx i) (fun x => do
      assert (isPageAligned (page base x.2))
      memMap (page base x.2) ⟨flags, x.1⟩) s = .ok () t ∧ Replaced s base i frames.length new t := by
  induction frames generalizing i s with
  | nil => exact ⟨s, rfl, h, nofun, fun _ _ => rfl⟩
  | cons frame frames ih =>
    rw [List.length_cons] at hlt hfree
    have hpal := page_aligned hal i
    obtain ⟨t, hstep, ht⟩ := memMap_sets h hpal (page_lt hlt (by omega)) (hfree 0 (by omega)) ⟨flags, frame⟩
    rw [← hnew 0 frame rfl] at ht
    rw [show i + (frames.length + 1) = i + 1 + frames.length by omega] at hlt
    obtain ⟨u, hrun, hu⟩ := ih ht.coherent hlt
      (fun j hj => (ht.isMapped h hal hlt hj).trans (hfree (j + 1) (by omega)))
      fun j f hf => by rw [add_assoc, add_comm 1]; exact hnew (j + 1) f hf
    refine ⟨u, ?_, hu.cons ht⟩
    rw [List.zipIdx_cons, forEach_cons]
    simpa [bind_eq, isPageAligned, hpal, Comp.assert, pure_apply, hstep] using hrun

/-- A mapped page is a panic. -/
theorem map_loop_free {frames : List Nat} {flags : PageTableFlags} (hlt : page base (i + frames.length) ≤ 2 ^ 47)
    (hrun : forEach (frames.zipIdx i) (fun x => do
      assert (isPageAligned (page base x.2))
      memMap (page base x.2) ⟨flags, x.1⟩) s = .ok () t) :
    ∀ j < frames.length, s.isMapped (page base (i + j)) = false := by
  induction frames generalizing i s with
  | nil => exact nofun
  | cons frame frames ih =>
    rw [List.length_cons] at hlt ⊢
    rw [List.zipIdx_cons] at hrun
    obtain ⟨s₁, hhead, hrest⟩ := forEach_cons_ok.mp hrun
    obtain ⟨-, hmap⟩ := assert_bind_ok.mp hhead
    have hpal := page_aligned hal i
    have hplt : page base i < 2 ^ 47 := page_lt hlt (by omega)
    have hfree : s.isMapped (page base i) = false := by
      obtain ⟨hnone, -⟩ := assert_bind_ok.mp hmap
      rw [h.isMapped hpal hplt, Option.isNone_iff_eq_none.mp hnone]
      rfl
    obtain ⟨t', hstep, ht⟩ := memMap_sets h hpal hplt hfree ⟨flags, frame⟩
    obtain ⟨-, rfl⟩ := Outcome.ok.inj (hstep.symm.trans hmap)
    rw [show i + (frames.length + 1) = i + 1 + frames.length by omega] at hlt
    intro j hj
    cases j with
    | zero => exact hfree
    | succ j =>
      rw [← ht.isMapped h hal hlt (Nat.lt_of_succ_lt_succ hj)]
      exact ih ht.coherent hlt hrest j (Nat.lt_of_succ_lt_succ hj)

end

theorem exists_gap (s : VmSpace) (base n : Nat) : ∃ k ≤ n, (∀ j < k, s.isMapped (page base j) = true) ∧
    (k < n → s.isMapped (page base k) = false) := by
  induction n with
  | zero => exact ⟨0, le_refl _, nofun, nofun⟩
  | succ n ih =>
    obtain ⟨k, hk, hmapped, hgap⟩ := ih
    rcases Nat.lt_or_eq_of_le hk with hlt | rfl
    · exact ⟨k, by omega, hmapped, fun _ => hgap hlt⟩
    cases hm : s.isMapped (page base k) with
    | false => exact ⟨k, by omega, hmapped, fun _ => hm⟩
    | true =>
      refine ⟨k + 1, le_refl _, fun j hj => ?_, fun h => absurd h (by omega)⟩
      rcases Nat.lt_succ_iff_lt_or_eq.mp hj with hj | rfl
      · exact hmapped j hj
      · exact hm

theorem unmap_eq (p : Profile) (hal : base % PAGE_SIZE = 0) (hlt : page base n ≤ 2 ^ 47) :
    unmap p ⟨base, page base n⟩ s = forEach (List.range' 0 n) (fun i => memUnmap (page base i)) s := by
  have hsub : (page base n - base) / PAGE_SIZE = n := by
    unfold page PAGE_SIZE
    omega
  have hbound := page_bound hlt
  have hle : base ≤ page base n := Nat.le_add_right _ _
  simp only [unmap, isPageAligned, hal, page_aligned hal, usub, if_pos hle, bind_eq, pure_apply, Comp.assert, hsub, hbound,
    List.range_eq_range', beq_self_eq_true, Bool.and_self, if_true]
  rfl

/-- Unmapping stops at the first gap, the page `k`, and leaves what comes after it. -/
theorem Replaced.isMapped (h : s.Coherent) (hal : base % PAGE_SIZE = 0) (hlt : page base n ≤ 2 ^ 47)
    (ht : Replaced s base 0 k (fun _ => none) t) {j : Nat} (hj : j < n) :
    t.isMapped (page base (0 + j)) = (decide (k ≤ j) && s.isMapped (page base j)) := by
  have hpal := page_aligned hal (0 + j)
  have hplt : page base (0 + j) < 2 ^ 47 := page_lt hlt (by omega)
  rw [ht.coherent.isMapped hpal hplt]
  by_cases hjk : j < k
  · rw [ht.inside j hjk, decide_eq_false (by omega)]
    rfl
  · rw [ht.outside _ fun i hi => mt page_inj.mp (by omega), ← h.isMapped hpal hplt, zero_add, decide_eq_true (by omega)]
    rfl

/-- An overwriting map maps what the unmapping has left. -/
theorem mapFrames_overwrite (p : Profile) {frames : List Nat} (perm : VmPerm) (hlt : page base frames.length ≤ 2 ^ 47)
    (hunmap : ignoreErr (unmap p ⟨base, page base frames.length⟩) s = .ok () t) :
    mapFrames p base frames perm true s = (forEach (frames.zipIdx 0) (fun x => do
      assert (isPageAligned (page base x.2))
      memMap (page base x.2) ⟨perm.toFlags, x.1⟩) >>= fun _ => pure base) t := by
  unfold mapFrames
  simp only [when, if_true, uadd, if_pos (page_bound hlt), bind_eq, pure_apply]
  unfold page at hunmap ⊢
  rw [hunmap]

/-- **Unmapping succeeds exactly on ranges without gaps, an overwriting map exactly if no gap precedes a mapped page.** -/
theorem gaps_tolerated_iff (p : Profile) (s : VmSpace) (base : Nat) (frames : List Nat) (perm : VmPerm) (h : s.Coherent)
    (hal : base % PAGE_SIZE = 0) (hlt : page base frames.length ≤ 2 ^ 47) :
    ((∃ t, unmap p ⟨base, page base frames.length⟩ s = .ok () t ∧ Replaced s base 0 frames.length (fun _ => none) t) ↔
      ∀ j < frames.length, s.isMapped (page base j) = true) ∧
    ((∃ t, mapFrames p base frames perm true s = .ok base t ∧
        Replaced s base 0 frames.length (fun j => frames[j]?.map (⟨perm.toFlags, ·⟩)) t) ↔
      ∀ j < frames.length, s.isMapped (page base j) = true → ∀ i < j, s.isMapped (page base i) = true) := by
  obtain ⟨k, hk, hmapped, hgap⟩ := exists_gap s base frames.length
  have hloop := unmap_loop (i := 0) h hal (by simpa using hlt) hk (by simpa using hmapped) (by simpa using hgap)
  rw [← unmap_eq p hal hlt] at hloop
  obtain ⟨t, hrun, ht⟩ := hloop
  constructor
  · refine ⟨fun ⟨u, hu, _⟩ => ?_, fun hall => ?_⟩
    · by_cases hkn : k = frames.length
      · rwa [hkn] at hmapped
      · rw [hrun, if_neg hkn] at hu
        cases hu
    · have hkn : k = frames.length := by
        by_contra hne
        have hlt : k < frames.length := by omega
        simp [hall k hlt] at hgap
        omega
      exact ⟨t, by rw [hrun, if_pos hkn], hkn ▸ ht⟩
  have hignore : ignoreErr (unmap p ⟨base, page base frames.length⟩) s = .ok () t := by
    unfold ignoreErr
    rw [hrun]
    by_cases hkn : k = frames.length <;> simp [hkn]
  rw [mapFrames_overwrite p perm hlt hignore]
  have hleft {j : Nat} (hj : j < frames.length) := ht.isMapped h hal hlt hj
  constructor
  · rintro ⟨u, hmap, -⟩ j hj hm i hi
    obtain ⟨_, t', hmap, -⟩ := bind_ok.mp hmap
    have hfree := map_loop_free ht.coherent hal (by simpa using hlt) hmap j hj
    rw [hleft hj, hm, Bool.and_true, decide_eq_false_iff_not] at hfree
    exact hmapped i (by omega)
  · intro hfirst
    -- the pages that the unmapping did not reach are not mapped
    have hfree (j : Nat) (hj : j < frames.length) : t.isMapped (page base (0 + j)) = false := by
      rw [hleft hj, ← Bool.not_eq_true, Bool.and_eq_true, decide_eq_true_eq]
      rintro ⟨hkj, hm⟩
      have hmk : s.isMapped (page base k) = true := by
        rcases Nat.lt_or_eq_of_le hkj with hlt | rfl
        · exact hfirst j hj hm k hlt
        · exact hm
      exact Bool.noConfusion (hmk.symm.trans (hgap (by omega)))
    obtain ⟨u, hmap, hu⟩ := map_loop ht.coherent hal perm.toFlags (fun j => frames[j]?.map (⟨perm.toFlags, ·⟩))
      (by simpa using hlt) hfree fun j frame hj => by simp [hj]
    refine ⟨u, bind_ok.mpr ⟨(), u, hmap, rfl⟩, hu.coherent, hu.inside, fun va hva => ?_⟩
    rw [hu.outside va hva, ht.outside va fun j hj => hva j (by omega)]

/-- Two pages are mapped over one that was mapped before. -/
theorem gaps_tolerated_over : ∃ s t, mapFrames .dev 4096 [7] ⟨true, true, false⟩ true VmSpace.new = .ok 4096 s ∧
    s.isMapped 4096 = true ∧ mapFrames .dev 4096 [1, 2] ⟨true, true, false⟩ true s = .ok 4096 t := by
  obtain ⟨s, hs, hreplaced⟩ := (gaps_tolerated_iff .dev VmSpace.new 4096 [7] ⟨true, true, false⟩ (fun _ _ _ => rfl)
    (by decide) (by simp [page, PAGE_SIZE])).2.mpr fun _ _ hm => by cases hm
  have hmapped : s.isMapped 4096 = true := by
    rw [hreplaced.coherent.isMapped (by decide) (by decide)]
    exact congrArg Option.isSome (hreplaced.inside 0 (by decide))
  obtain ⟨t, ht, -⟩ := (gaps_tolerated_iff .dev s 4096 [1, 2] ⟨true, true, false⟩ hreplaced.coherent (by decide)
    (by simp [page, PAGE_SIZE])).2.mpr fun j hj _ i hi => by
      obtain rfl : i = 0 := by simp at hj; omega
      exact hmapped
  exact ⟨s, t, hs, hmapped, ht⟩

/-- The second page of a range is mapped: unmapping the range fails and leaves it; overwriting the range panics. -/
theorem gap_stops_unmap : ∃ s, mapFrames .dev 8192 [7] ⟨true, true, false⟩ false VmSpace.new = .ok 8192 s ∧
    unmap .dev ⟨4096, 12288⟩ s = .err FrameError.pageFault.toError s ∧ s.isMapped 8192 = true ∧
    mapFrames .dev 4096 [1, 2] ⟨true, true, false⟩ true s = .panic := by
  refine ⟨_, rfl, ?_, ?_, ?_⟩
  all_goals rfl

end AsterKernel.Vm.VmSpace
