import AsterKernel.Vm.Mapping

/-!
# `Vm.Vmar` — virtual memory address regions

A VMAR is a range of addresses divided into free regions, mappings and child VMARs. The VMARs of one
process form a tree that shares one `VmSpace`. An operation on one VMAR runs on a `NodeState`: its own
`VmarInner` and the shared page table. The operations that descend into child VMARs are recursive
functions on the tree.

A mapping is identified with its entry: updating an `Arc<VmMapping>` in place is writing its entry back
under the key it was found at.
-/

namespace AsterKernel.Vm

open Lib Lib.Comp Lib.BTreeMap

def ROOT_VMAR_LOWEST_ADDR : Nat := 0x0010000
def ROOT_VMAR_CAP_ADDR : Nat := 0x0000800000000000 - PAGE_SIZE

/-- The regions of a VMAR. -/
structure VmarInner (V : Type) where
  isDestroyed : Bool
  childVmars : BTreeMap V
  vmMappings : BTreeMap VmMapping
  freeRegions : BTreeMap FreeRegion

/-- A VMAR: its base (relative to the root), its size, whether it is a root, and its regions. -/
inductive Vmar where
  | mk (base size : Nat) (isRoot : Bool) (inner : VmarInner Vmar)

namespace Vmar

def base : Vmar → Nat
  | .mk b _ _ _ => b

def size : Vmar → Nat
  | .mk _ s _ _ => s

def inner : Vmar → VmarInner Vmar
  | .mk _ _ _ i => i

end Vmar

instance : Interval Vmar := ⟨fun v => ⟨v.base, wadd v.base v.size⟩⟩

/-- The region a root VMAR starts with. -/
def rootRegion : FreeRegion := ⟨⟨ROOT_VMAR_LOWEST_ADDR, ROOT_VMAR_CAP_ADDR⟩⟩

/-- The regions of a VMAR in which only `region` exists, as a free one. -/
def VmarInner.ofRegion (region : FreeRegion) : VmarInner Vmar :=
  ⟨false, BTreeMap.empty, BTreeMap.empty, BTreeMap.empty.insert region.range.start region⟩

def Vmar.newRoot : Vmar := .mk 0 ROOT_VMAR_CAP_ADDR true (.ofRegion rootRegion)

/-- What an operation on one VMAR reads and changes. -/
structure NodeState where
  inner : VmarInner Vmar
  space : VmSpace

namespace Vmar

def modifyInner (f : VmarInner Vmar → VmarInner Vmar) : Comp NodeState Error Unit :=
  modify fun s => { s with inner := f s.inner }

def setFreeRegions (regions : BTreeMap FreeRegion) : Comp NodeState Error Unit :=
  modifyInner fun i => { i with freeRegions := regions }

def destroyedError : Error := .withMessage .ENOSYS "vmar is destroyed"

/-! ## Free regions -/

/-- The `while let` of `merge_continuous_regions`: extend a region by the regions that start where it ends.
Every round takes a region out of the map, so their number bounds the rounds. -/
def mergeFrom {σ ε : Type} : Nat → FreeRegion → BTreeMap FreeRegion → Comp σ ε (FreeRegion × BTreeMap FreeRegion)
  | 0, region, regions => pure (region, regions)
  | fuel + 1, region, regions =>
    match regions.get? region.range.stop with
    | none => pure (region, regions)
    | some another => do
      let merged ← region.mergeOtherRegion another
      mergeFrom fuel merged (regions.remove region.range.stop)

/-- The loop over the keys; `merged` collects the new regions. -/
def mergeKeys {σ ε : Type} : List Nat → BTreeMap FreeRegion → BTreeMap FreeRegion → Comp σ ε (BTreeMap FreeRegion)
  | [], _, merged => pure merged
  | key :: more, regions, merged =>
    match regions.get? key with
    | none => mergeKeys more regions merged
    | some region => do
      let (region', rest) ← mergeFrom regions.entries.length region (regions.remove key)
      mergeKeys more rest (merged.insert region'.range.start region')

def mergeContinuousRegions {σ ε : Type} (regions : BTreeMap FreeRegion) : Comp σ ε (BTreeMap FreeRegion) :=
  mergeKeys regions.keys regions BTreeMap.empty

/-- Replace the free region at `regionBase` by what an allocation leaves of it; the `unwrap` of the removal
panics if there is none. -/
def splitRegion (regionBase : Nat) (allocated : FreeRegion → Comp NodeState Error Range) :
    Comp NodeState Error Unit := do
  let regions := (← get).inner.freeRegions
  match regions.get? regionBase with
  | none => abort
  | some region =>
    setFreeRegions (regions.remove regionBase)
    let allocatedRange ← allocated region
    modifyInner fun i =>
      { i with freeRegions := insertPieces range i.freeRegions (region.allocateRange allocatedRange) }

/-- The search of `find_free_region_for_child` among the regions found for a given offset. -/
def findAtOffset (regions : List (Nat × FreeRegion)) (childRange : Range) : Option Nat :=
  (regions.find? fun e => e.2.range.start ≤ childRange.start && childRange.stop ≤ e.2.range.stop).map
    fun e => e.2.range.start

/-- The first-fit search of `find_free_region_for_child` when no offset is given. -/
def findFirstFit {σ : Type} (p : Profile) (childSize align : Nat) : List (Nat × FreeRegion) →
    Comp σ Error (Option (Nat × Nat))
  | [] => pure none
  | (regionBase, region) :: rest => do
    let realStart ← alignUp region.range.start align
    let realEnd ← uadd p realStart childSize
    if region.range.start ≤ realStart && realEnd ≤ region.range.stop then
      return some (regionBase, realStart)
    else findFirstFit p childSize align rest

/-- `find_free_region_for_child`: the base of the region and the address of the child in it. -/
def findFreeRegionForChild {σ : Type} (p : Profile) (regions : BTreeMap FreeRegion)
    (childOffset : Option Nat) (childSize align : Nat) : Comp σ Error (Nat × Nat) := do
  let found ← (match childOffset with
    | some offset => do
      let stop ← uadd p offset childSize
      return (findAtOffset (find regions ⟨offset, stop⟩) ⟨offset, stop⟩).map fun base => (base, offset)
    | none => findFirstFit p childSize align regions.entries)
  match found with
  | some result => return result
  | none => fail (.withMessage .EACCES "Cannot find free region for child")

/-! ## Trimming -/

/-- Run a method of the mapping stored at `key`, found there as `m`, and write it back. -/
def onMapping {α : Type} (key : Nat) (m : VmMapping) (c : Comp MapState Error α) : Comp NodeState Error α :=
  fun s =>
    let put (t : MapState) : NodeState :=
      { s with inner := { s.inner with vmMappings := s.inner.vmMappings.insert key t.self }, space := t.space }
    match c ⟨m, s.space⟩ with
    | .ok a t => .ok a (put t)
    | .err e t => .err e (put t)
    | .panic => .panic

/-- What the trims of several mappings defer. -/
structure TrimAcc where
  toRemove : BTreeSet
  toAppend : BTreeMap VmMapping
deriving DecidableEq, Repr

def TrimAcc.empty : TrimAcc := ⟨BTreeSet.empty, BTreeMap.empty⟩

/-- Record the result of one trim. -/
def TrimAcc.record (acc : TrimAcc) (result : VmMapping.TrimResult) : TrimAcc :=
  { toRemove := match result.toRemove with
      | some key => acc.toRemove.insert key
      | none => acc.toRemove
    toAppend := match result.toAppend with
      | some (key, m) => acc.toAppend.insert key m
      | none => acc.toAppend }

/-- Remove and append the deferred mappings. -/
def TrimAcc.apply (acc : TrimAcc) (mappings : BTreeMap VmMapping) : BTreeMap VmMapping :=
  (acc.toRemove.toList.foldl BTreeMap.remove mappings).append acc.toAppend

/-- The trim loop: `rangeOf` says what is taken out of each mapping. -/
def trimEach (p : Profile) (rangeOf : VmMapping → Comp NodeState Error Range) :
    List (Nat × VmMapping) → TrimAcc → Comp NodeState Error TrimAcc
  | [], acc => pure acc
  | (key, m) :: rest, acc => do
    let trimRange ← rangeOf m
    let result ← onMapping key m (VmMapping.trimMapping p trimRange)
    trimEach p rangeOf rest (acc.record result)

def trimExistingMappings (p : Profile) (trimRange : Range) : Comp NodeState Error Unit := do
  let acc ← trimEach p (fun _ => pure trimRange) (← get).inner.vmMappings.entries TrimAcc.empty
  modifyInner fun i => { i with vmMappings := acc.apply i.vmMappings }

/-! ## Mapping a VMO -/

/-- `VmarMapOptions`, with the size that the VMO has at the call. -/
structure MapOptions where
  vmo : Vmo
  vmoSize : Nat
  perms : VmPerms
  vmoOffset : Nat
  size : Nat
  offset : Option Nat
  align : Nat
  canOverwrite : Bool
deriving DecidableEq, Repr

def checkVmoOverwrite (vmoRange : Range) (canOverwrite : Bool) : Comp NodeState Error Unit := do
  let i := (← get).inner
  when i.isDestroyed (fail destroyedError)
  when (!(find i.childVmars vmoRange).isEmpty)
    (fail (.withMessage .EACCES "vmo range overlapped with child vmar range"))
  when (!canOverwrite && !(find i.vmMappings vmoRange).isEmpty)
    (fail (.withMessage .EACCES "vmo range overlapped with another vmo"))

def checkOverwrite (p : Profile) (o : MapOptions) : Comp NodeState Error Unit := do
  when o.canOverwrite (debugAssert p o.offset.isSome)
  when (o.canOverwrite && o.offset.isNone)
    (fail (.withMessage .EINVAL "offset can not be none when can overwrite is true"))
  match o.offset with
  | none => pure ()
  | some offset => do
    let stop ← uadd p offset (max o.size o.vmoSize)
    checkVmoOverwrite ⟨offset, stop⟩ o.canOverwrite

/-- The alignment checks of `check_options`. -/
def checkAlignments (p : Profile) (o : MapOptions) : Comp NodeState Error Unit := do
  debugAssert p (o.align % PAGE_SIZE == 0)
  debugAssert p (isPowerOfTwo o.align)
  when (o.align % PAGE_SIZE != 0 || !isPowerOfTwo o.align) (fail (.withMessage .EINVAL "invalid align"))
  debugAssert p (o.vmoOffset % o.align == 0)
  when (o.vmoOffset % o.align != 0) (fail (.withMessage .EINVAL "invalid vmo offset"))
  match o.offset with
  | none => pure ()
  | some offset => do
    debugAssert p (offset % o.align == 0)
    when (offset % o.align != 0) (fail (.withMessage .EINVAL "invalid offset"))

/-- `check_options`; the rights check is `check_perms`. -/
def checkOptions (p : Profile) (o : MapOptions) : Comp NodeState Error Unit := do
  checkAlignments p o
  o.vmo.checkRights o.perms.toRights
  checkOverwrite p o

/-- The split loop of an overwriting allocation. -/
def splitIntersected (p : Profile) (mapRange : Range) : List Nat → Comp NodeState Error Unit
  | [] => pure ()
  | regionBase :: rest => do
    splitRegion regionBase fun region => getIntersectedRange p region.range mapRange
    splitIntersected p mapRange rest

def allocateFreeRegionForVmo (p : Profile) (vmoSize size : Nat) (offset : Option Nat) (align : Nat)
    (canOverwrite : Bool) : Comp NodeState Error Nat := do
  let mapSize := max size vmoSize
  let i := (← get).inner
  if i.isDestroyed then fail destroyedError
  else if canOverwrite then
    match offset with
    | none => fail (.withMessage .EINVAL "offset cannot be None since can overwrite is set")
    | some offset => do
      let stop ← uadd p offset mapSize
      let mapRange : Range := ⟨offset, stop⟩
      let splitRegions := ((find i.freeRegions mapRange).filter fun e => isIntersected e.2.range mapRange).map
        fun e => e.2.range.start
      splitIntersected p mapRange splitRegions
      trimExistingMappings p mapRange
      return offset
  else
    let (regionBase, offset) ← findFreeRegionForChild p i.freeRegions offset mapSize align
    let stop ← uadd p offset mapSize
    splitRegion regionBase fun region => getIntersectedRange p region.range ⟨offset, stop⟩
    return offset

/-- `VmarMapOptions::build`: check the options, allocate the addresses and add the mapping. -/
def build (p : Profile) (o : MapOptions) : Comp NodeState Error Nat := do
  checkOptions p o
  let mapToAddr ← allocateFreeRegionForVmo p o.vmoSize o.size o.offset o.align o.canOverwrite
  let mapping : VmMapping := ⟨o.vmoOffset, o.size, mapToAddr, false, BTreeSet.empty, o.perms.toVmPerm, o.vmo⟩
  modifyInner fun i => { i with vmMappings := i.vmMappings.insert mapToAddr mapping }
  return mapToAddr

/-! ## Destroying -/

/-- The loop of `destroy_all` over the mappings; it collects their ranges. -/
def unmapEach (p : Profile) : List (Nat × VmMapping) → BTreeMap FreeRegion →
    Comp NodeState Error (BTreeMap FreeRegion)
  | [], free => pure free
  | (key, m) :: rest, free => do
    onMapping key m (VmMapping.unmap p (range m) true)
    unmapEach p rest (free.insert (range m).start ⟨range m⟩)

/-- The end of `destroy_all`, after the child VMARs: unmap everything and merge the regions. -/
def destroyMappings (p : Profile) (childRegions : BTreeMap FreeRegion) : Comp NodeState Error Unit := do
  modifyInner fun i =>
    { i with childVmars := BTreeMap.empty, freeRegions := i.freeRegions.append childRegions }
  let regions ← unmapEach p (← get).inner.vmMappings.entries BTreeMap.empty
  let i := (← get).inner
  let merged ← mergeContinuousRegions (i.freeRegions.append regions)
  modifyInner fun i => { i with vmMappings := BTreeMap.empty, freeRegions := merged }
  zoom NodeState.space (fun t s => { s with space := t }) VmSpace.clear

mutual

/-- `destroy_all`: destroy a VMAR with everything in it. -/
def destroyAll (p : Profile) : Vmar → VmSpace → Outcome (Vmar × VmSpace) Error Unit
  | .mk base size isRoot ⟨isDestroyed, ⟨children⟩, mappings, free⟩, space =>
    if isDestroyed then
      .ok () (.mk base size isRoot ⟨isDestroyed, ⟨children⟩, mappings, free⟩, space)
    else
      match destroyAllEach p children BTreeMap.empty space with
      | .panic => .panic
      | .err e (children', space') =>
        .err e (.mk base size isRoot ⟨true, ⟨children'⟩, mappings, free⟩, space')
      | .ok regions (children', space') =>
        match destroyMappings p regions ⟨⟨true, ⟨children'⟩, mappings, free⟩, space'⟩ with
        | .panic => .panic
        | .err e t => .err e (.mk base size isRoot t.inner, t.space)
        | .ok _ t => .ok () (.mk base size isRoot t.inner, t.space)

/-- Destroy the children one after the other and collect their ranges in `regions`. -/
def destroyAllEach (p : Profile) : List (Nat × Vmar) → BTreeMap FreeRegion → VmSpace →
    Outcome (List (Nat × Vmar) × VmSpace) Error (BTreeMap FreeRegion)
  | [], regions, space => .ok regions ([], space)
  | (key, child) :: rest, regions, space =>
    match destroyAll p child space with
    | .panic => .panic
    | .err e (child', space') => .err e ((key, child') :: rest, space')
    | .ok _ (child', space') =>
      match destroyAllEach p rest (regions.insert (range child').start ⟨range child'⟩) space' with
      | .panic => .panic
      | .err e (rest', space'') => .err e ((key, child') :: rest', space'')
      | .ok regions' (rest', space'') => .ok regions' ((key, child') :: rest', space'')

end

/-- `check_destroy_range`: every child VMAR found lies inside the range. -/
def checkDestroyRange (p : Profile) (r : Range) : Comp NodeState Error Unit := do
  debugAssert p (isPageAligned r.start)
  debugAssert p (isPageAligned r.stop)
  let i := (← get).inner
  if i.isDestroyed then pure ()
  else forEach (find i.childVmars r) fun e => do
    debugAssert p (isIntersected (range e.2) r)
    if r.start ≤ (range e.2).start && (range e.2).stop ≤ r.stop then pure ()
    else fail (.withMessage .EACCES "Child vmar is partly intersected with destroyed range")

/-- The loop of `destroy` over the child VMARs found. -/
def destroyChildren (p : Profile) (r : Range) : List (Nat × Vmar) → BTreeMap FreeRegion →
    Comp NodeState Error (BTreeMap FreeRegion)
  | [], free => pure free
  | (key, child) :: rest, free => do
    debugAssert p (isIntersected (range child) r)
    (fun s =>
      let put (t : Vmar × VmSpace) : NodeState :=
        { s with inner := { s.inner with childVmars := s.inner.childVmars.insert key t.1 }, space := t.2 }
      match destroyAll p child s.space with
      | .ok u t => .ok u (put t)
      | .err e t => .err e (put t)
      | .panic => .panic)
    destroyChildren p r rest (free.insert (range child).start ⟨range child⟩)

/-- The ranges that `destroy` takes out of the mappings found, as free regions. -/
def trimmedRegions (r : Range) (found : List (Nat × VmMapping)) (free : BTreeMap FreeRegion) :
    BTreeMap FreeRegion :=
  found.foldl (fun acc e =>
    acc.insert (intersection (range e.2) r).start ⟨intersection (range e.2) r⟩) free

/-- What `destroy` trims off a mapping that was found. -/
def destroyedPart (p : Profile) (r : Range) (m : VmMapping) : Comp NodeState Error Range := do
  debugAssert p (isIntersected (range m) r)
  getIntersectedRange p (range m) r

def destroy (p : Profile) (r : Range) : Comp NodeState Error Unit := do
  checkDestroyRange p r
  if (← get).inner.isDestroyed then pure ()
  else
    let childRegions ← destroyChildren p r (find (← get).inner.childVmars r) BTreeMap.empty
    modifyInner fun i => { i with childVmars := i.childVmars.retain fun c => !c.inner.isDestroyed }
    let found := find (← get).inner.vmMappings r
    let acc ← trimEach p (destroyedPart p r) found TrimAcc.empty
    modifyInner fun i =>
      { i with vmMappings := (acc.apply i.vmMappings).retain fun m => !m.isDestroyed }
    let merged ← mergeContinuousRegions ((← get).inner.freeRegions.append (trimmedRegions r found childRegions))
    setFreeRegions merged

end Vmar
end AsterKernel.Vm
