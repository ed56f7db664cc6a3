import AsterKernel.Vm.Space

/-!
# `Vm.Mapping` — one mapping of a VMO

The methods of `VmMappingInner` and the parts of `VmMapping` that need only the mapping itself and the page
table. They run on a `MapState`: the mapping (`self`) and the `VmSpace` it is attached to.
-/

namespace AsterKernel.Vm

open Lib Lib.Comp Lib.BTreeMap

/-- A capability of a VMO: which object it is, and the rights it carries. -/
structure Vmo where
  id : Nat
  rights : Rights
deriving DecidableEq, Repr

def Vmo.checkRights {σ : Type} (v : Vmo) (rights : Rights) : Comp σ Error Unit :=
  if v.rights.contains rights then pure ()
  else fail (.withMessage .EINVAL "vmo rights check failed")

/-- A mapping of a part of a VMO. -/
structure VmMapping where
  /-- The map offset of the vmo, in bytes. -/
  vmoOffset : Nat
  /-- The size of the mapping, in bytes; it can be larger than the vmo. -/
  mapSize : Nat
  /-- The base address relative to the root vmar. -/
  mapToAddr : Nat
  isDestroyed : Bool
  /-- The pages already mapped, by their page index in the vmo. -/
  mappedPages : BTreeSet
  /-- The permission of all pages of the mapping. -/
  perm : VmPerm
  vmo : Vmo
deriving DecidableEq, Repr

/-- `map_to_addr..map_to_addr + map_size`. The sum wraps in the release profile; in the dev profile no
mapping whose end overflows is ever built (`allocateFreeRegionForVmo` computes a larger sum first). -/
instance : Interval VmMapping := ⟨fun m => ⟨m.mapToAddr, wadd m.mapToAddr m.mapSize⟩⟩

theorem VmMapping.range_def (m : VmMapping) : range m = ⟨m.mapToAddr, wadd m.mapToAddr m.mapSize⟩ := rfl

/-- What the methods of a mapping read and change. -/
structure MapState where
  self : VmMapping
  space : VmSpace
deriving DecidableEq, Repr

namespace VmMapping

/-- Run an operation of the `VmSpace`. -/
def onSpace {α : Type} (m : Comp VmSpace Error α) : Comp MapState Error α :=
  zoom MapState.space (fun t s => { s with space := t }) m

def modifySelf (f : VmMapping → VmMapping) : Comp MapState Error Unit :=
  modify fun s => { s with self := f s.self }

/-- Run `m` on a clone of the mapping; what `m` does to the page table stays, and the clone is returned. -/
def onClone {α : Type} (m : Comp MapState Error α) : Comp MapState Error (α × VmMapping) := fun s =>
  match m s with
  | .ok a s' => .ok (a, s'.self) { s' with self := s.self }
  | .err e s' => .err e { s' with self := s.self }
  | .panic => .panic

/-- `Vmo::dup` of the mapped vmo, as far as it can fail. -/
def dupVmo {σ : Type} (m : VmMapping) : Comp σ Error Unit :=
  if m.vmo.rights.contains Rights.DUP then pure ()
  else fail (.withMessage .EINVAL "vmo rights check failed")

/-- `page_idx * PAGE_SIZE + self.map_to_addr - self.vmo_offset`. -/
def pageMapAddr {σ ε : Type} (p : Profile) (m : VmMapping) (pageIdx : Nat) : Comp σ ε Nat := do
  let bytes ← umul p pageIdx PAGE_SIZE
  let sum ← uadd p bytes m.mapToAddr
  usub p sum m.vmoOffset

def unmapOnePage (p : Profile) (pageIdx : Nat) : Comp MapState Error Unit := do
  let mapAddr ← pageMapAddr p (← get).self pageIdx
  let stop ← uadd p mapAddr PAGE_SIZE
  when ((← get).space.isMapped mapAddr) (onSpace (VmSpace.unmap p ⟨mapAddr, stop⟩))
  modifySelf fun m => { m with mappedPages := m.mappedPages.remove pageIdx }

/-- `unmap`: unmap the pages of a range. A destroyed mapping is not marked as such. -/
def unmap (p : Profile) (r : Range) (mayDestroy : Bool) : Comp MapState Error Unit := do
  let m := (← get).self
  let start ← uadd p (← usub p r.start m.mapToAddr) m.vmoOffset
  let stop ← uadd p (← usub p r.stop m.mapToAddr) m.vmoOffset
  let pageIdxRange ← getPageIdxRange ⟨start, stop⟩
  forEach (indices pageIdxRange) (unmapOnePage p)
  when (mayDestroy && r == range (← get).self) (modifySelf fun m => { m with isDestroyed := false })

/-- `trim_left`: give up the part of the mapping below `vaddr`; of its pages only those recorded in
`mapped_pages` are unmapped. -/
def trimLeft (p : Profile) (vaddr : Nat) : Comp MapState Error Nat := do
  let m := (← get).self
  debugAssert p (m.mapToAddr ≤ vaddr && vaddr ≤ wadd m.mapToAddr m.mapSize)
  debugAssert p (isPageAligned vaddr)
  let trimSize ← usub p vaddr m.mapToAddr
  let vmoOffset ← uadd p m.vmoOffset trimSize
  let mapSize ← usub p m.mapSize trimSize
  modifySelf fun m => { m with mapToAddr := vaddr, vmoOffset := vmoOffset, mapSize := mapSize }
  forEach (indices ⟨m.vmoOffset / PAGE_SIZE, vmoOffset / PAGE_SIZE⟩) fun pageIdx => do
    if (← get).self.mappedPages.contains pageIdx then
      modifySelf fun m => { m with mappedPages := m.mappedPages.remove pageIdx }
      ignoreErr (unmapOnePage p pageIdx)
  return vaddr

/-- `trim_right`: give up the part of the mapping from `vaddr` on, unmapping all its pages. -/
def trimRight (p : Profile) (vaddr : Nat) : Comp MapState Error Nat := do
  let m := (← get).self
  debugAssert p (m.mapToAddr ≤ vaddr && vaddr ≤ wadd m.mapToAddr m.mapSize)
  debugAssert p (isPageAligned vaddr)
  let newSize ← usub p vaddr m.mapToAddr
  let start ← uadd p newSize m.vmoOffset
  let stop ← uadd p m.mapSize m.vmoOffset
  forEach (indices ⟨start / PAGE_SIZE, stop / PAGE_SIZE⟩) fun pageIdx => ignoreErr (unmapOnePage p pageIdx)
  modifySelf fun m => { m with mapSize := newSize }
  return m.mapToAddr

/-- What a trim defers: a key to remove from the VMAR's mappings, and a mapping to append to them. -/
structure TrimResult where
  toRemove : Option Nat
  toAppend : Option (Nat × VmMapping)
deriving DecidableEq, Repr

/-- `trim_mapping`: take a range out of the mapping. -/
def trimMapping (p : Profile) (trimRange : Range) : Comp MapState Error TrimResult := do
  let m := (← get).self
  let r := range m
  if !isIntersected r trimRange then
    return ⟨none, none⟩
  else if trimRange.start ≤ m.mapToAddr && wadd m.mapToAddr m.mapSize ≤ trimRange.stop then
    -- Fast path: the whole mapping was trimmed.
    unmap p trimRange true
    return ⟨some m.mapToAddr, none⟩
  else if trimRange.start ≤ r.start then
    if trimRange.stop ≤ r.stop then
      -- Overlap from left: the mapping itself moves to a new key.
      let newMapAddr ← trimLeft p trimRange.stop
      return ⟨some m.mapToAddr, some (newMapAddr, (← get).self)⟩
    else
      return ⟨some m.mapToAddr, none⟩
  else
    if trimRange.stop ≤ r.stop then
      -- The trim range lies inside the mapping: a clone becomes the right part.
      dupVmo m
      let (anotherMapToAddr, anotherMapping) ← onClone (trimLeft p trimRange.stop)
      let _ ← trimRight p trimRange.start
      return ⟨none, some (anotherMapToAddr, anotherMapping)⟩
    else
      -- Overlap from right.
      let _ ← trimRight p trimRange.start
      return ⟨none, none⟩

end VmMapping
end AsterKernel.Vm
