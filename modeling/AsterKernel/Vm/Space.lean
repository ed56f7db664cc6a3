import AsterKernel.Vm.Interval

/-!
# `Vm.Space` — the page table of an address space

A `VmSpace` is a `MemorySet`: a page table and the set of mapped areas, each one page long. The page table
is the map from page numbers that the four-level walk computes (bits 12 to 47 of an address) to leaf
entries; the kernel half, which no user operation may modify, is not part of it. Inside one `MemorySet`
every failed page-table modification is unwrapped, so it panics.
-/

namespace AsterKernel.Vm

open Lib Lib.Comp Lib.BTreeMap

/-- The flags of a leaf entry that depend on the permissions; `PRESENT` and `USER` are always set. -/
structure PageTableFlags where
  writable : Bool
  noExecute : Bool
deriving DecidableEq, Repr

/-- `impl From<VmPerm> for PageTableFlags`. -/
def VmPerm.toFlags (perm : VmPerm) : PageTableFlags := ⟨perm.w, !perm.x⟩

/-- A present leaf entry (`frame` stands for its physical address). -/
structure Pte where
  frame : Nat
  flags : PageTableFlags
deriving DecidableEq, Repr

/-- A mapped area. Every area of a `VmSpace` holds one frame. -/
structure MapArea where
  flags : PageTableFlags
  frame : Nat
deriving DecidableEq, Repr

def MapArea.pte (area : MapArea) : Pte := ⟨area.frame, area.flags⟩

/-- The page table and the areas, sorted by their start address. -/
structure VmSpace where
  pt : BTreeMap Pte
  areas : BTreeMap MapArea
deriving DecidableEq, Repr

/-- The page number of the four-level walk. -/
def vpn (vaddr : Nat) : Nat := vaddr / PAGE_SIZE % 2 ^ 36

/-- `is_kernel_vaddr`: bit 47 is set. -/
def isKernelVaddr (vaddr : Nat) : Bool := vaddr / 2 ^ 47 % 2 == 1

def isPageAligned (p : Nat) : Bool := p % PAGE_SIZE == 0

namespace VmSpace

def new : VmSpace := ⟨BTreeMap.empty, BTreeMap.empty⟩

/-- `PageTable::is_mapped`. -/
def isMapped (s : VmSpace) (vaddr : Nat) : Bool := (s.pt.get? (vpn vaddr)).isSome

/-! ## `MemorySet` -/

/-- `PageTable::map(..).unwrap()`. -/
def ptMap (va frame : Nat) (flags : PageTableFlags) : Comp VmSpace Error Unit := do
  assert (!isKernelVaddr va)
  assert (!(← get).isMapped va)
  modify fun s => { s with pt := s.pt.insert (vpn va) ⟨frame, flags⟩ }

/-- `PageTable::unmap(..).unwrap()`. -/
def ptUnmap (va : Nat) : Comp VmSpace Error Unit := do
  assert (!isKernelVaddr va)
  assert ((← get).isMapped va)
  modify fun s => { s with pt := s.pt.remove (vpn va) }

/-- `MemorySet::map`: panics if an area starts at the address already. -/
def memMap (va : Nat) (area : MapArea) : Comp VmSpace Error Unit := do
  assert (((← get).areas.get? va).isNone)
  modify fun s => { s with areas := s.areas.insert va area }
  ptMap va area.frame area.flags

/-- `MemorySet::unmap`. -/
def memUnmap (va : Nat) : Comp VmSpace Error Unit := do
  match (← get).areas.get? va with
  | none => fail FrameError.pageFault.toError
  | some _ =>
    modify fun s => { s with areas := s.areas.remove va }
    ptUnmap va

/-! ## `VmSpace` -/

def unmap (p : Profile) (r : Range) : Comp VmSpace Error Unit := do
  assert (isPageAligned r.start && isPageAligned r.stop)
  let bytes ← usub p r.stop r.start
  if r.start + PAGE_SIZE * (bytes / PAGE_SIZE) < usizeCard then
    forEach (List.range (bytes / PAGE_SIZE)) fun i => memUnmap (r.start + PAGE_SIZE * i)
  else fail FrameError.overflow.toError

def clear : Comp VmSpace Error Unit := do
  forEach (← get).areas.keys ptUnmap
  modify fun s => { s with areas := BTreeMap.empty }

end VmSpace
end AsterKernel.Vm
