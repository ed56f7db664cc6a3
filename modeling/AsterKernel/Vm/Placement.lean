import AsterKernel.Vm.VmarOps

/-!
# `Vm.Placement` — where a VMAR puts a child

Without an offset, `find_free_region_for_child` takes the first free region in which the child fits behind the first
aligned address; with an offset it looks for the region that contains the child's range. Neither computes its ends
safely: `align_up` panics on an alignment of one and on overflow, and the end of the child is a plain addition, which
panics in a debug build and wraps around in a release build, where a region that is too small then seems to do.
-/

namespace AsterKernel.Vm
namespace Vmar

open Lib Lib.Comp Lib.BTreeMap Bool

variable {σ : Type} {p : Profile} {regions : BTreeMap FreeRegion} {childSize align : Nat} {s : σ}

/-- `[a, a + size)` lies inside a free region. -/
def Holds (regions : BTreeMap FreeRegion) (base a size : Nat) : Prop :=
  ∃ region, regions.get? base = some region ∧ region.range.start ≤ a ∧ a + size ≤ region.range.stop

/-- What `find_free_region_for_child` should answer: the lowest aligned address, or the given one, in a region that has
room there; or that there is none. -/
def Placed (regions : BTreeMap FreeRegion) (childOffset : Option Nat) (childSize align : Nat) :
    Outcome σ Error (Nat × Nat) → Prop
  | .ok (base, a) _ => Holds regions base a childSize ∧
    match childOffset with
    | some offset => a = offset
    | none => align ∣ a ∧ ∀ base' b, align ∣ b → Holds regions base' b childSize → a ≤ b
  | .err _ _ =>
    match childOffset with
    | some offset => ∀ base, ¬ Holds regions base offset childSize
    | none => ∀ base b, align ∣ b → ¬ Holds regions base b childSize
  | .panic => False

/-- How the function ends with what it has found. -/
def answer (s : σ) : Option (Nat × Nat) → Outcome σ Error (Nat × Nat)
  | some result => .ok result s
  | none => .err (.withMessage .EACCES "Cannot find free region for child") s

/-- The first aligned address of a region. -/
def firstAligned (region : FreeRegion) (align : Nat) : Nat := (region.range.start + (align - 1)) / align * align

/-- The child fits behind the first aligned address. -/
def Roomy (childSize align : Nat) (region : FreeRegion) : Prop :=
  firstAligned region align + childSize ≤ region.range.stop

/-- The ends that are computed for a region do not overflow, or, in a release build, wrap around to a number behind the
region. -/
def Computable (p : Profile) (childSize align : Nat) (region : FreeRegion) : Prop :=
  2 ≤ align ∧ region.range.start + (align - 1) < usizeCard ∧ (firstAligned region align + childSize < usizeCard ∨
      p = .release ∧ region.range.stop < firstAligned region align + childSize - usizeCard)

/-- All regions up to the first one in which the child fits. -/
def ComputableUntilRoomy (p : Profile) (childSize align : Nat) : List (Nat × FreeRegion) → Prop
  | [] => True
  | (_, region) :: rest =>
    Computable p childSize align region ∧ (Roomy childSize align region ∨ ComputableUntilRoomy p childSize align rest)

/-- The inputs for which the placement is right. -/
def PlacementSafe (p : Profile) (regions : BTreeMap FreeRegion) (childOffset : Option Nat) (childSize align : Nat) :
    Prop :=
  match childOffset with
  | none => ComputableUntilRoomy p childSize align regions.entries
  | some offset =>
    if offset + childSize < usizeCard then
      ∀ base, Holds regions base offset childSize → IsLastKey regions offset base ∧
        (0 < childSize ∨ ∃ region, regions.get? base = some region ∧ region.range.start < offset ∧
          offset < region.range.stop)
    else p = .release ∧ ∀ base region, regions.get? base = some region → IsLastKey regions offset base →
      base < offset + childSize - usizeCard → region.range.stop ≤ offset

/-! ## The search without an offset -/

theorem wadd_of_ge {a b : Nat} (ha : a < usizeCard) (hb : b < usizeCard) (h : usizeCard ≤ a + b) :
    wadd a b = a + b - usizeCard := by
  unfold wadd
  rw [Nat.mod_eq_sub_mod h, Nat.mod_eq_of_lt (by omega)]

theorem alignUp_eq {a : Nat} (hpow : isPowerOfTwo align = true) (htwo : 2 ≤ align)
    (hlt : a + (align - 1) < usizeCard) :
    (alignUp a align : Comp σ Error Nat) s = .ok ((a + (align - 1)) / align * align) s := by
  unfold alignUp
  simp only [hpow, htwo, hlt, decide_true, Bool.and_self]
  rfl

theorem alignUp_panic {a : Nat} (h : ¬ (2 ≤ align ∧ a + (align - 1) < usizeCard)) :
    (alignUp a align : Comp σ Error Nat) s = .panic := by
  unfold alignUp
  by_cases htwo : 2 ≤ align
  · have hover : ¬ a + (align - 1) < usizeCard := fun hlt => h ⟨htwo, hlt⟩
    cases hpow : isPowerOfTwo align <;> simp only [htwo, hover, decide_true, decide_false, Bool.and_self, Bool.and_true] <;>
      rfl
  · simp only [htwo, decide_false, Bool.and_false]
    rfl

theorem firstAligned_le (region : FreeRegion) (halign : 0 < align) :
    region.range.start ≤ firstAligned region align ∧ firstAligned region align < region.range.start + align := by
  have hmod := Nat.div_add_mod (region.range.start + (align - 1)) align
  have hlt := Nat.mod_lt (region.range.start + (align - 1)) halign
  rw [mul_comm] at hmod
  unfold firstAligned
  omega

variable {region : FreeRegion} {l : List (Nat × FreeRegion)} {offset base : Nat}

theorem firstAligned_least {b : Nat} (hb : align ∣ b) (hle : region.range.start ≤ b) :
    firstAligned region align ≤ b := by
  obtain ⟨k, rfl⟩ := hb
  rcases Nat.eq_zero_or_pos align with rfl | hpos
  · simp [firstAligned]
  · unfold firstAligned
    rw [mul_comm align k]
    refine Nat.mul_le_mul_right _ ?_
    rw [Nat.div_le_iff_le_mul_add_pred hpos]
    omega

/-- The search as it should be. -/
def firstFit (childSize align : Nat) : List (Nat × FreeRegion) → Option (Nat × Nat)
  | [] => none
  | (base, region) :: rest =>
    if firstAligned region align + childSize ≤ region.range.stop then some (base, firstAligned region align)
    else firstFit childSize align rest

section

variable (hpow : isPowerOfTwo align = true) (hsize : childSize < usizeCard)
  (hend : ∀ e ∈ l, e.2.range.stop < usizeCard)
include hpow hsize hend

theorem findFirstFit_eq (h : ComputableUntilRoomy p childSize align l) :
    (findFirstFit p childSize align l : Comp σ Error _) s = .ok (firstFit childSize align l) s := by
  induction l with
  | nil => rfl
  | cons e rest ih =>
    obtain ⟨base, region⟩ := e
    obtain ⟨⟨htwo, hlt, hsum⟩, hrest⟩ := h
    obtain ⟨hlow, hhigh⟩ := firstAligned_le region (by omega : 0 < align)
    have hstop := hend (base, region) (.head _)
    dsimp only at hstop
    unfold findFirstFit firstFit
    rw [bind_of_ok (a := firstAligned region align) (alignUp_eq hpow htwo hlt)]
    refine uadd_bind_ok.mpr ⟨fun hdev => ?_, ?_⟩
    · rcases hsum with hsum | hsum
      · exact hsum
      · cases hsum.1.symm.trans hdev
    · rcases hsum with hsum | ⟨-, hsum⟩
      · rw [wadd_of_lt hsum]
        by_cases hfits : firstAligned region align + childSize ≤ region.range.stop
        · rw [if_pos hfits, if_pos (by
            rw [and_eq_true, decide_eq_true_eq, decide_eq_true_eq]
            exact ⟨hlow, hfits⟩)]
          rfl
        · rw [if_neg hfits, if_neg (by simp only [hfits, decide_false, Bool.and_false, Bool.false_eq_true, not_false_iff])]
          exact ih (fun e he => hend e (.tail _ he)) (hrest.resolve_left hfits)
      · have hover : usizeCard ≤ firstAligned region align + childSize := by omega
        have hfits : ¬ firstAligned region align + childSize ≤ region.range.stop := by omega
        rw [wadd_of_ge (by omega) hsize hover, if_neg hfits, if_neg (by
          simp only [and_eq_true, decide_eq_true_eq]
          omega)]
        exact ih (fun e he => hend e (.tail _ he)) (hrest.resolve_left hfits)

/-- Otherwise the search panics or answers an address behind which the child does not end. -/
theorem findFirstFit_wrong (h : ¬ ComputableUntilRoomy p childSize align l) :
    (findFirstFit p childSize align l : Comp σ Error _) s = .panic ∨
      ∃ base a, (findFirstFit p childSize align l : Comp σ Error _) s = .ok (some (base, a)) s ∧
        usizeCard ≤ a + childSize := by
  induction l with
  | nil => exact absurd trivial h
  | cons e rest ih =>
    obtain ⟨base, region⟩ := e
    by_cases hup : 2 ≤ align ∧ region.range.start + (align - 1) < usizeCard
    · obtain ⟨hlow, hhigh⟩ := firstAligned_le region (by omega : 0 < align)
      unfold findFirstFit
      rw [bind_of_ok (a := firstAligned region align) (alignUp_eq hpow hup.1 hup.2)]
      by_cases hsum : firstAligned region align + childSize < usizeCard
      · rw [bind_of_ok (uadd_ok.mpr ⟨rfl, rfl, fun _ => hsum⟩), wadd_of_lt hsum]
        by_cases hfits : firstAligned region align + childSize ≤ region.range.stop
        · exact absurd ⟨⟨hup.1, hup.2, .inl hsum⟩, .inl hfits⟩ h
        · rw [if_neg (by simp only [hfits, decide_false, Bool.and_false, Bool.false_eq_true, not_false_iff])]
          exact ih (fun e he => hend e (.tail _ he)) fun hrest => h ⟨⟨hup.1, hup.2, .inl hsum⟩, .inr hrest⟩
      · cases p with
        | dev =>
          left
          unfold uadd
          rw [if_neg hsum]
          rfl
        | release =>
          rw [bind_of_ok ((uadd_ok (p := .release)).mpr ⟨rfl, rfl, nofun⟩), wadd_of_ge (by omega) hsize (by omega)]
          by_cases hwrapped : region.range.stop < firstAligned region align + childSize - usizeCard
          · rw [if_neg (by
              simp only [and_eq_true, decide_eq_true_eq]
              omega)]
            exact ih (fun e he => hend e (.tail _ he)) fun hrest => h ⟨⟨hup.1, hup.2, .inr ⟨rfl, hwrapped⟩⟩, .inr hrest⟩
          · rw [if_pos (by
              simp only [and_eq_true, decide_eq_true_eq]
              omega)]
            exact .inr ⟨base, firstAligned region align, rfl, by omega⟩
    · left
      unfold findFirstFit
      rw [bind_eq, alignUp_panic hup]

end

theorem firstFit_spec (childSize : Nat) (halign : 0 < align)
    (hsorted : l.Pairwise fun e f => e.2.range.start ≤ f.2.range.start) : match firstFit childSize align l with
    | some (base, a) => align ∣ a ∧ (∃ region, (base, region) ∈ l ∧ region.range.start ≤ a ∧
        a + childSize ≤ region.range.stop) ∧
      ∀ e ∈ l, ∀ b, align ∣ b → e.2.range.start ≤ b → b + childSize ≤ e.2.range.stop → a ≤ b
    | none => ∀ e ∈ l, ∀ b, align ∣ b → e.2.range.start ≤ b → ¬ b + childSize ≤ e.2.range.stop := by
  induction l with
  | nil => exact fun _ h => nomatch h
  | cons e rest ih =>
    obtain ⟨base, region⟩ := e
    obtain ⟨hfirst, hrest⟩ := List.pairwise_cons.mp hsorted
    have hlow := (firstAligned_le region halign).1
    unfold firstFit
    by_cases hfits : firstAligned region align + childSize ≤ region.range.stop
    · rw [if_pos hfits]
      refine ⟨Nat.dvd_mul_left .., ⟨region, .head _, hlow, hfits⟩, ?_⟩
      intro f hf b hb hstart hstop
      rcases List.mem_cons.mp hf with rfl | hf
      · exact firstAligned_least hb hstart
      · exact firstAligned_least hb ((hfirst f hf).trans hstart)
    · rw [if_neg hfits]
      have hnone : ∀ b, align ∣ b → region.range.start ≤ b → ¬ b + childSize ≤ region.range.stop := by
        intro b hb hstart hstop
        have := firstAligned_least hb hstart
        omega
      have hih := ih hrest
      cases hfound : firstFit childSize align rest with
      | none =>
        rw [hfound] at hih
        intro f hf b hb hstart
        rcases List.mem_cons.mp hf with rfl | hf
        · exact hnone b hb hstart
        · exact hih f hf b hb hstart
      | some r =>
        rw [hfound] at hih
        obtain ⟨hdvd, ⟨region', hmem, hin⟩, hleast⟩ := hih
        refine ⟨hdvd, ⟨region', .tail _ hmem, hin⟩, ?_⟩
        intro f hf b hb hstart hstop
        rcases List.mem_cons.mp hf with rfl | hf
        · exact absurd hstop (hnone b hb hstart)
        · exact hleast f hf b hb hstart hstop

theorem firstFit_placed (hs : regions.Sorted) (hk : Keyed regions) (halign : 0 < align) :
    Placed regions none childSize align (answer s (firstFit childSize align regions.entries)) := by
  have hstarts : regions.entries.Pairwise fun e f => e.2.range.start ≤ f.2.range.start := by
    refine hs.imp_of_mem fun {e f} he hf hlt => ?_
    have hke : e.2.range.start = e.1 := hk _ _ (hs.get?_of_mem he)
    have hkf : f.2.range.start = f.1 := hk _ _ (hs.get?_of_mem hf)
    omega
  have hspec := firstFit_spec childSize halign hstarts
  cases hfound : firstFit childSize align regions.entries with
  | none =>
    rw [hfound] at hspec
    rintro base b hb ⟨region, hget, hstart, hstop⟩
    exact hspec (base, region) (mem_of_get? hget) b hb hstart hstop
  | some r =>
    rw [hfound] at hspec
    obtain ⟨hdvd, ⟨region, hmem, hin⟩, hleast⟩ := hspec
    refine ⟨⟨region, hs.get?_of_mem hmem, hin⟩, hdvd, ?_⟩
    rintro base b hb ⟨region', hget, hstart, hstop⟩
    exact hleast (base, region') (mem_of_get? hget) b hb hstart hstop

/-! ## The search at an offset -/

/-- What is found at an offset: the last region that starts there or before, if it reaches past the offset and the
range ends in it. -/
theorem findAtOffset_iff (hs : regions.Sorted) (hk : Keyed regions) {stop : Nat} :
    findAtOffset (find regions ⟨offset, stop⟩) ⟨offset, stop⟩ = some base ↔
      ∃ region, regions.get? base = some region ∧ IsLastKey regions offset base ∧ offset < region.range.stop ∧
        base < stop ∧ stop ≤ region.range.stop := by
  have hmem : ∀ k r, (k, r) ∈ find regions ⟨offset, stop⟩ ↔ _ := fun k r => mem_find_iff hs hk
  -- a region that is found and starts before the offset
  have hlast : ∀ e ∈ find regions ⟨offset, stop⟩, e.2.range.start ≤ offset →
      regions.get? e.1 = some e.2 ∧ e.1 < stop ∧ IsLastKey regions offset e.1 ∧ offset < e.2.range.stop := by
    intro e he hstart
    obtain ⟨hget, hlt, hpos⟩ := (hmem e.1 e.2).mp he
    have hkey : e.2.range.start = e.1 := hk _ _ hget
    rcases hpos with hpos | hpos
    · have hpos : offset < e.1 := hpos
      omega
    · exact ⟨hget, hlt, hpos⟩
  unfold findAtOffset
  rw [Option.map_eq_some_iff]
  constructor
  · rintro ⟨e, hfind, rfl⟩
    have hfit := List.find?_some hfind
    simp only [and_eq_true, decide_eq_true_eq] at hfit
    obtain ⟨hget, hlt, hkey, hin⟩ := hlast e (List.mem_of_find?_eq_some hfind) hfit.1
    rw [show e.2.range.start = e.1 from hk _ _ hget]
    exact ⟨e.2, hget, hkey, hin, hlt, hfit.2⟩
  · rintro ⟨region, hget, hkey, hin, hlt, hstop⟩
    have hstart : region.range.start = base := hk _ _ hget
    have hle : base ≤ offset := hkey.1
    have hfound : (base, region) ∈ find regions ⟨offset, stop⟩ := (hmem base region).mpr ⟨hget, hlt, .inr ⟨hkey, hin⟩⟩
    cases hfind : (find regions ⟨offset, stop⟩).find?
        fun e => e.2.range.start ≤ offset && stop ≤ e.2.range.stop with
    | none =>
      have := List.find?_eq_none.mp hfind _ hfound
      simp only [and_eq_true, decide_eq_true_eq] at this
      exact absurd ⟨by omega, hstop⟩ this
    | some e =>
      have hfit := List.find?_some hfind
      simp only [and_eq_true, decide_eq_true_eq] at hfit
      obtain ⟨hget', -, hkey', -⟩ := hlast e (List.mem_of_find?_eq_some hfind) hfit.1
      have hsame : e.1 = base := le_antisymm (hkey.2 _ _ hget' hkey'.1) (hkey'.2 _ _ hget hkey.1)
      exact ⟨e, rfl, (hk _ _ hget').trans hsame⟩

/-- The answer for an offset is right if what is found has room, and something is found if there is room. -/
theorem placed_at_iff {found : Option Nat} :
    Placed regions (some offset) childSize align (answer s (found.map fun base => (base, offset))) ↔
      (∀ base, found = some base → Holds regions base offset childSize) ∧
        ∀ base, Holds regions base offset childSize → found ≠ none := by
  cases found with
  | none => exact ⟨fun h => ⟨nofun, fun base hholds => absurd hholds (h base)⟩, fun h base hholds => h.2 base hholds rfl⟩
  | some base =>
    refine ⟨fun h => ⟨fun base' heq => ?_, fun _ _ => nofun⟩, fun h => ⟨h.1 base rfl, rfl⟩⟩
    cases heq
    exact h.1

/-! ## Both searches -/

theorem findFreeRegionForChild_none {found : Option (Nat × Nat)}
    (h : (findFirstFit p childSize align regions.entries : Comp σ Error _) s = .ok found s) :
    (findFreeRegionForChild p regions none childSize align : Comp σ Error _) s = answer s found := by
  show (findFirstFit p childSize align regions.entries >>= _ : Comp σ Error _) s = _
  rw [bind_eq, h]
  cases found <;> rfl

theorem findFreeRegionForChild_none_panic
    (h : (findFirstFit p childSize align regions.entries : Comp σ Error _) s = .panic) :
    (findFreeRegionForChild p regions none childSize align : Comp σ Error _) s = .panic := by
  show (findFirstFit p childSize align regions.entries >>= _ : Comp σ Error _) s = _
  rw [bind_eq, h]

theorem findFreeRegionForChild_some {stop : Nat} (h : (uadd p offset childSize : Comp σ Error Nat) s = .ok stop s) :
    (findFreeRegionForChild p regions (some offset) childSize align : Comp σ Error _) s =
      answer s ((findAtOffset (find regions ⟨offset, stop⟩) ⟨offset, stop⟩).map fun base => (base, offset)) := by
  unfold findFreeRegionForChild
  simp only [bind_eq, h, pure_apply]
  cases findAtOffset (find regions ⟨offset, stop⟩) ⟨offset, stop⟩ <;> rfl

theorem placed_none_iff (hs : regions.Sorted) (hk : Keyed regions)
    (hend : ∀ base region, regions.get? base = some region → region.range.stop < usizeCard)
    (hsize : childSize < usizeCard) (hpow : isPowerOfTwo align = true) :
    Placed regions none childSize align (findFreeRegionForChild p regions none childSize align s) ↔
      ComputableUntilRoomy p childSize align regions.entries := by
  have hend' : ∀ e ∈ regions.entries, e.2.range.stop < usizeCard :=
    fun e he => hend e.1 e.2 (hs.get?_of_mem he)
  have halign : 0 < align := by
    rcases Nat.eq_zero_or_pos align with rfl | hpos
    · cases hpow
    · exact hpos
  constructor
  · intro hplaced
    by_contra hwrong
    rcases findFirstFit_wrong (s := s) hpow hsize hend' hwrong with hpanic | ⟨base, a, hok, hover⟩
    · rw [findFreeRegionForChild_none_panic hpanic] at hplaced
      exact hplaced
    · rw [findFreeRegionForChild_none hok] at hplaced
      obtain ⟨⟨region, hget, -, hstop⟩, -⟩ := hplaced
      have := hend base region hget
      omega
  · intro hsafe
    rw [findFreeRegionForChild_none (findFirstFit_eq hpow hsize hend' hsafe)]
    exact firstFit_placed hs hk halign

theorem holds_unique (hk : Keyed regions) (hd : ∀ k v k' v', regions.get? k = some v → regions.get? k' = some v' →
      k ≠ k' → Range.Disjoint v.range v'.range) {base' : Nat}
    (hget : regions.get? base = some region) (hkey : IsLastKey regions offset base)
    (hin : offset < region.range.stop) (hnew : base < offset + childSize)
    (hholds : Holds regions base' offset childSize) : base' = base := by
  obtain ⟨region', hget', hstart, hstop⟩ := hholds
  have hke : region.range.start = base := hk _ _ hget
  have hke' : region'.range.start = base' := hk _ _ hget'
  have hle : base' ≤ base := hkey.2 _ _ hget' (by omega)
  have hoff : base ≤ offset := hkey.1
  by_contra hne
  -- the start of the later region lies in the earlier one
  exact hd base' region' base region hget' hget hne base (by rw [Range.mem_def]; omega) (by rw [Range.mem_def]; omega)

theorem placed_some_iff (hs : regions.Sorted) (hk : Keyed regions)
    (hd : ∀ k v k' v', regions.get? k = some v → regions.get? k' = some v' → k ≠ k' → Range.Disjoint v.range v'.range)
    (hend : ∀ base region, regions.get? base = some region → region.range.stop < usizeCard)
    (hsize : childSize < usizeCard) (hoffset : offset < usizeCard) :
    Placed regions (some offset) childSize align (findFreeRegionForChild p regions (some offset) childSize align s) ↔
      PlacementSafe p regions (some offset) childSize align := by
  unfold PlacementSafe
  dsimp only
  by_cases hsum : offset + childSize < usizeCard
  · have hadd : (uadd p offset childSize : Comp σ Error Nat) s = .ok (offset + childSize) s := by
      unfold uadd
      rw [if_pos hsum]
      rfl
    rw [if_pos hsum, findFreeRegionForChild_some hadd, placed_at_iff]
    constructor
    · rintro ⟨-, h⟩ base hholds
      obtain ⟨base', hfound⟩ := Option.ne_none_iff_exists'.mp (h base hholds)
      obtain ⟨region, hget, hkey, hin, hlt, hstop⟩ := (findAtOffset_iff hs hk).mp hfound
      obtain rfl := holds_unique hk hd hget hkey hin hlt hholds
      have hke : region.range.start = base := hk _ _ hget
      refine ⟨hkey, ?_⟩
      rcases Nat.eq_zero_or_pos childSize with rfl | hpos
      · exact .inr ⟨region, hget, by omega, hin⟩
      · exact .inl hpos
    · intro h
      constructor
      · intro base hfound
        obtain ⟨region, hget, hkey, hin, hlt, hstop⟩ := (findAtOffset_iff hs hk).mp hfound
        exact ⟨region, hget, (hk _ _ hget).trans_le hkey.1, hstop⟩
      · intro base hholds
        obtain ⟨hkey, hroom⟩ := h base hholds
        obtain ⟨region, hget, hstart, hstop⟩ := hholds
        have hke : region.range.start = base := hk _ _ hget
        have hedge : offset < region.range.stop ∧ base < offset + childSize := by
          rcases hroom with hpos | ⟨region', hget', h1, h2⟩
          · omega
          · rw [hget] at hget'
            cases hget'
            omega
        have hfound : _ = some base := (findAtOffset_iff hs hk).mpr ⟨region, hget, hkey, hedge.1, hedge.2, hstop⟩
        rw [hfound]
        nofun
  · rw [if_neg hsum]
    have hnone : ∀ base, ¬ Holds regions base offset childSize := by
      rintro base ⟨region, hget, -, hstop⟩
      have := hend base region hget
      omega
    cases p with
    | dev =>
      have hadd : (uadd .dev offset childSize : Comp σ Error Nat) s = .panic := by
        unfold uadd
        rw [if_neg hsum]
        rfl
      have hpanic : (findFreeRegionForChild .dev regions (some offset) childSize align : Comp σ Error _) s = .panic := by
        unfold findFreeRegionForChild
        dsimp only
        rw [bind_eq, bind_eq, hadd]
      rw [hpanic]
      exact ⟨fun h => h.elim, fun h => absurd h.1 nofun⟩
    | release =>
      have hadd : (uadd .release offset childSize : Comp σ Error Nat) s = .ok (offset + childSize - usizeCard) s := by
        unfold uadd
        rw [if_neg hsum, wadd_of_ge hoffset hsize (by omega)]
        rfl
      rw [findFreeRegionForChild_some hadd, placed_at_iff]
      constructor
      · rintro ⟨h, -⟩
        refine ⟨rfl, fun base region hget hkey hlt => ?_⟩
        by_contra hin
        exact hnone base (h base ((findAtOffset_iff hs hk).mpr ⟨region, hget, hkey, by omega, hlt, by omega⟩))
      · rintro ⟨-, h⟩
        refine ⟨fun base hfound => ?_, fun base hholds => absurd hholds (hnone base)⟩
        obtain ⟨region, hget, hkey, hin, hlt, -⟩ := (findAtOffset_iff hs hk).mp hfound
        have := h base region hget hkey hlt
        omega

/-- **The placement is right exactly for the inputs that are safe.** The free regions are disjoint and keyed by their
starts; there may be empty ones. -/
theorem findFreeRegionForChild_placed_iff (p : Profile) {regions : BTreeMap FreeRegion} (hs : regions.Sorted)
    (hk : Keyed regions)
    (hd : ∀ k v k' v', regions.get? k = some v → regions.get? k' = some v' → k ≠ k' → Range.Disjoint v.range v'.range)
    (hend : ∀ base region, regions.get? base = some region → region.range.stop < usizeCard) (childOffset : Option Nat)
    (hoffset : ∀ offset, childOffset = some offset → offset < usizeCard) {childSize align : Nat}
    (hsize : childSize < usizeCard) (hpow : isPowerOfTwo align = true) (s : σ) :
    Placed regions childOffset childSize align (findFreeRegionForChild p regions childOffset childSize align s) ↔
      PlacementSafe p regions childOffset childSize align := by
  cases childOffset with
  | none => exact placed_none_iff hs hk hend hsize hpow
  | some offset => exact placed_some_iff hs hk hd hend hsize (hoffset offset rfl)

/-- One free region of two pages. -/
def twoPages : BTreeMap FreeRegion := BTreeMap.empty.insert 0x10000 ⟨⟨0x10000, 0x12000⟩⟩

theorem twoPages_get? (h : twoPages.get? base = some region) : base = 0x10000 ∧ region = ⟨⟨0x10000, 0x12000⟩⟩ := by
  unfold twoPages at h
  rw [get?_insert] at h
  split at h
  · rename_i heq
    exact ⟨heq, (Option.some.inj h).symm⟩
  · cases h

/-- A second region, of four pages. -/
def sixPages : BTreeMap FreeRegion := twoPages.insert 0x20000 ⟨⟨0x20000, 0x24000⟩⟩

theorem sixPages_get? (h : sixPages.get? base = some region) :
    base = 0x20000 ∧ region = ⟨⟨0x20000, 0x24000⟩⟩ ∨ base = 0x10000 ∧ region = ⟨⟨0x10000, 0x12000⟩⟩ := by
  unfold sixPages at h
  rw [get?_insert] at h
  split at h
  · rename_i heq
    exact .inl ⟨heq, (Option.some.inj h).symm⟩
  · exact .inr (twoPages_get? h)

/-- Three pages are put into the second region. -/
theorem findFreeRegionForChild_placed_page : PlacementSafe .dev sixPages none 0x3000 0x1000 ∧
    (findFreeRegionForChild .dev sixPages none 0x3000 0x1000 () : Outcome Unit Error (Nat × Nat)) =
      .ok (0x20000, 0x20000) () ∧
    Placed sixPages none 0x3000 0x1000
      (findFreeRegionForChild .dev sixPages none 0x3000 0x1000 () : Outcome Unit Error (Nat × Nat)) := by
  have hsafe : PlacementSafe .dev sixPages none 0x3000 0x1000 := ⟨⟨by decide, by decide, .inl (by decide)⟩,
    .inr ⟨⟨by decide, by decide, .inl (by decide)⟩, .inl (by unfold Roomy; decide)⟩⟩
  refine ⟨hsafe, rfl, (findFreeRegionForChild_placed_iff .dev ((sorted_empty.insert _ _).insert _ _) ?_ ?_ ?_ none nofun
    (by decide) (by decide) ()).mpr hsafe⟩
  · intro base region h
    rcases sixPages_get? h with ⟨rfl, rfl⟩ | ⟨rfl, rfl⟩ <;> rfl
  · intro base region base' region' h h' hne
    rcases sixPages_get? h with ⟨rfl, rfl⟩ | ⟨rfl, rfl⟩ <;> rcases sixPages_get? h' with ⟨rfl, rfl⟩ | ⟨rfl, rfl⟩
    · exact absurd rfl hne
    · decide
    · decide
    · exact absurd rfl hne
  · intro base region h
    rcases sixPages_get? h with ⟨rfl, rfl⟩ | ⟨rfl, rfl⟩ <;> decide

/-- In a release build, a child of `2 ^ 64 - 0x10000` bytes is put into a region of two pages: its end wraps around to
address zero. -/
theorem firstFit_overflows :
    (findFreeRegionForChild .release twoPages none (2 ^ 64 - 0x10000) 0x1000 () : Outcome Unit Error (Nat × Nat)) =
      .ok (0x10000, 0x10000) () ∧ ¬ Holds twoPages 0x10000 0x10000 (2 ^ 64 - 0x10000) := by
  refine ⟨by rfl, ?_⟩
  rintro ⟨region, hget, -, hstop⟩
  obtain ⟨-, rfl⟩ := twoPages_get? hget
  exact absurd hstop (by decide)

end Vmar
end AsterKernel.Vm
