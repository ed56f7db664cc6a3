import AsterKernel.Lib.Outcome

/-!
# `Vfs.Basic` — names, types and errors of the file systems' interface
-/

namespace AsterKernel.Vfs

inductive Errno where
  | EACCES
  | EBUSY
  | EEXIST
  | EINVAL
  | EISDIR
  | ENAMETOOLONG
  | ENOENT
  | ENOTDIR
  | ENOTEMPTY
  | EPERM
  | EXDEV
deriving DecidableEq, Repr

/-- An error: its number and its message, if it has one. -/
structure Error where
  errno : Errno
  msg : Option String
deriving DecidableEq, Repr

def Error.new (errno : Errno) : Error := ⟨errno, none⟩

def Error.withMessage (errno : Errno) (msg : String) : Error := ⟨errno, some msg⟩

inductive InodeType where
  | namedPipe
  | charDevice
  | dir
  | blockDevice
  | file
  | symLink
  | socket
deriving DecidableEq, Repr

/-- An object that a caller has: one of this file system, or of another one. -/
inductive Handle where
  | here (id : Nat)
  | elsewhere
deriving DecidableEq

abbrev Name := List UInt8

def NAME_MAX : Nat := 255

def dot : Name := [46]
def dotdot : Name := [46, 46]

/-- `CStr256::from`: up to the first zero byte, and at most 255 bytes. -/
def cstr256 (name : Name) : Name := (name.takeWhile (· ≠ 0)).take 255

end AsterKernel.Vfs
