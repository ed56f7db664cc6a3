import AsterKernel.Lib.Usize
import AsterKernel.Lib.Interval

/-!
# `Vm.Basic` — errors, permissions, rights and page arithmetic

The small vocabulary shared by the virtual-memory modules: kernel errors, the permissions of a mapping
(`VmPerms` in the kernel, `VmPerm` in the frame layer), the access rights of a capability, and the
alignment helpers of `align_ext`.
-/

namespace AsterKernel.Vm

open Lib Lib.Comp

/-- The error numbers that the virtual-memory code and the program loader return. -/
inductive Errno where
  | E2BIG
  | EACCES
  | EBADF
  | EBUSY
  | EFAULT
  | EINVAL
  | EIO
  | EISDIR
  | ELOOP
  | ENAMETOOLONG
  | ENOENT
  | ENOEXEC
  | ENOMEM
  | ENOSYS
  | EOVERFLOW
deriving DecidableEq, Repr

/-- A kernel error: its number and its message, if it has one. -/
structure Error where
  errno : Errno
  msg : Option String
deriving DecidableEq, Repr

def Error.new (errno : Errno) : Error := ⟨errno, none⟩

def Error.withMessage (errno : Errno) (msg : String) : Error := ⟨errno, some msg⟩

/-- The errors of the frame layer. -/
inductive FrameError where
  | invalidArgs
  | noMemory
  | pageFault
  | accessDenied
  | ioError
  | notEnoughResources
  | overflow
deriving DecidableEq, Repr

/-- `impl From<aster_frame::Error> for Error`. -/
def FrameError.toError : FrameError → Error
  | .accessDenied => .new .EFAULT
  | .noMemory => .new .ENOMEM
  | .invalidArgs => .new .EINVAL
  | .ioError => .new Errno.EIO
  | .notEnoughResources => .new .EBUSY
  | .pageFault => .new .EFAULT
  | .overflow => .new .EOVERFLOW

/-! ## Permissions and rights -/

/-- The frame layer's page permissions. The `U` bit is left out: no path of the kernel sets it. -/
structure VmPerm where
  r : Bool
  w : Bool
  x : Bool
deriving DecidableEq, Repr

/-- The kernel's memory permissions. -/
structure VmPerms where
  read : Bool
  write : Bool
  exec : Bool
deriving DecidableEq, Repr

/-- `VmPerm::from(perms)`. -/
def VmPerms.toVmPerm (perms : VmPerms) : VmPerm := ⟨perms.read, perms.write, perms.exec⟩

/-- The access rights of a capability. -/
structure Rights where
  dup : Bool
  read : Bool
  write : Bool
  exec : Bool
  signal : Bool
deriving DecidableEq, Repr

/-- `Rights::all()`. -/
def Rights.all : Rights := ⟨true, true, true, true, true⟩

def Rights.DUP : Rights := ⟨true, false, false, false, false⟩

/-- `self.contains(other)`. -/
def Rights.contains (self other : Rights) : Bool :=
  (!other.dup || self.dup) && (!other.read || self.read) && (!other.write || self.write) &&
    (!other.exec || self.exec) && (!other.signal || self.signal)

/-- `Rights::from(perms)`. -/
def VmPerms.toRights (perms : VmPerms) : Rights := ⟨false, perms.read, perms.write, perms.exec, false⟩

/-! ## Pages -/

def PAGE_SIZE : Nat := 0x1000

/-- `AlignExt::is_power_of_two`. -/
def isPowerOfTwo (a : Nat) : Bool := a != 0 && Nat.land a (a - 1) == 0

variable {σ ε : Type}

/-- `AlignExt::align_up`: panics on a bad alignment and on overflow, in both profiles. -/
def alignUp (a align : Nat) : Comp σ ε Nat := do
  assert (isPowerOfTwo align && 2 ≤ align)
  assert (a + (align - 1) < usizeCard)
  return (a + (align - 1)) / align * align

/-- `AlignExt::align_down`: panics on a bad alignment. -/
def alignDown (a align : Nat) : Comp σ ε Nat := do
  assert (isPowerOfTwo align && 2 ≤ align)
  return a / align * align

/-- The page indices that contain a byte range: `get_page_idx_range`. -/
def getPageIdxRange (vmoOffsetRange : Range) : Comp σ ε Range := do
  let start ← alignDown vmoOffsetRange.start PAGE_SIZE
  let stop ← alignUp vmoOffsetRange.stop PAGE_SIZE
  return ⟨start / PAGE_SIZE, stop / PAGE_SIZE⟩

/-- The indices `r.start, …, r.stop - 1` of a `for` loop. -/
def indices (r : Range) : List Nat := List.range' r.start (r.stop - r.start)

end AsterKernel.Vm
