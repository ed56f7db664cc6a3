import AsterKernel.Lib.Usize
import AsterKernel.Util.SlotVec

/-!
# `Ramfs.Fs` — the operations on directories of the file system in memory

An inode is named by its number, which the file system's counter hands out once. A directory's entries are in a vector
with slots, "." and ".." apart; an operation that has locked a directory for writing and reads its type again waits
for itself, which is a panic here.

`create` and the two removals adjust the counters of the directory and of the inode; `rename` is four cases, in the
directory or across, onto an existing name or not, and adjusts those of the directories only. The methods of `RamInode`
and `Inode_` keep their names.
-/

namespace AsterKernel.Ramfs

open Lib Lib.Comp Vfs

def ROOT_INO : Nat := 1

def BLOCK_SIZE : Nat := 4096

/-- `DirEntry`: the children and the parent. -/
structure DirEntry where
  children : SlotVec (Name × Nat)
  parent : Nat

namespace DirEntry

def new (parent : Nat) : DirEntry := ⟨.new, parent⟩

def containsEntry (dir : DirEntry) (name : Name) : Bool :=
  if name == dot || name == dotdot then true else dir.children.iter.any fun child => child.1 == name

/-- `DirEntry::get_entry`; `this` is the directory itself. -/
def getEntry (dir : DirEntry) (this : Nat) (name : Name) : Option (Nat × Nat) :=
  if name == dot then some (0, this)
  else if name == dotdot then some (1, dir.parent)
  else (dir.children.idxesAndItems.find? fun child => child.2.1 == name).map fun child => (child.1 + 2, child.2.2)

def appendEntry (dir : DirEntry) (name : Name) (ino : Nat) : DirEntry :=
  { dir with children := (dir.children.put (cstr256 name, ino)).2 }

/-- `DirEntry::remove_entry`, for an index that is not of "." or "..". -/
def removeEntry (dir : DirEntry) (idx : Nat) : DirEntry := { dir with children := (dir.children.remove (idx - 2)).2 }

def substituteEntry (dir : DirEntry) (idx : Nat) (entry : Name × Nat) : DirEntry :=
  { dir with children := (dir.children.putAt (idx - 2) (cstr256 entry.1, entry.2)).2 }

def isEmptyChildren (dir : DirEntry) : Bool := dir.children.isEmpty

end DirEntry

/-- `Inner`: the content of files, links and devices is left out. -/
inductive Inner where
  | dir (entries : DirEntry)
  | file
  | symLink
  | device (block : Bool)
  | socket

/-- The type that the constructors of `Metadata` give. -/
def Inner.type : Inner → InodeType
  | .dir _ => .dir
  | .file => .file
  | .symLink => .symLink
  | .device block => if block then .blockDevice else .charDevice
  | .socket => .socket

def Inner.asDirentry : Inner → Option DirEntry
  | .dir entries => some entries
  | _ => none

structure Inode where
  inner : Inner
  size : Nat
  blocks : Nat
  nlinks : Nat

namespace Inode

/-- `Metadata::new_dir`. -/
def newDir (parent : Nat) : Inode := ⟨.dir (.new parent), 2, 1, 2⟩

/-- `Metadata::new_file`, `new_symlink`, `new_socket` and `new_device`. -/
def newLeaf (inner : Inner) : Inode := ⟨inner, 0, 0, 1⟩

/-- Writing the content of a directory. -/
def onDir (f : DirEntry → DirEntry) (n : Inode) : Inode :=
  match n.inner with
  | .dir entries => { n with inner := .dir (f entries) }
  | _ => n

def incSize (n : Inode) : Inode :=
  { n with size := n.size + 1, blocks := (n.size + 1 + BLOCK_SIZE - 1) / BLOCK_SIZE }

def withSize (n : Inode) (size : Nat) : Inode := { n with size := size, blocks := (size + BLOCK_SIZE - 1) / BLOCK_SIZE }

def incNlinks (n : Inode) : Inode := { n with nlinks := n.nlinks + 1 }

def withNlinks (n : Inode) (nlinks : Nat) : Inode := { n with nlinks := nlinks }

end Inode

/-- The inodes that have been handed out, by their number. -/
structure Fs where
  inodes : Nat → Inode
  next : Nat

namespace Fs

/-- A number that has not been handed out yet: no name, no entries. -/
def blank : Inode := ⟨.file, 0, 0, 0⟩

/-- `RamFS::new`. -/
def new : Fs where
  inodes := Function.update (fun _ => blank) ROOT_INO (.newDir ROOT_INO)
  next := ROOT_INO + 1

def upd (s : Fs) (ino : Nat) (f : Inode → Inode) : Fs :=
    { s with inodes := Function.update s.inodes ino (f (s.inodes ino)) }

@[simp] theorem upd_next (s : Fs) (ino : Nat) (f : Inode → Inode) : (s.upd ino f).next = s.next := rfl

theorem upd_self (s : Fs) (ino : Nat) (f : Inode → Inode) : (s.upd ino f).inodes ino = f (s.inodes ino) :=
  Function.update_self _ _ _

theorem upd_of_ne {s : Fs} {ino i : Nat} (f : Inode → Inode) (h : i ≠ ino) : (s.upd ino f).inodes i = s.inodes i :=
  Function.update_of_ne h _ _

def type (s : Fs) (ino : Nat) : InodeType := (s.inodes ino).inner.type

def isDir (s : Fs) (ino : Nat) : Bool := s.type ino == .dir

/-- What a name stands for in a directory. -/
def find (s : Fs) (dir : Nat) (name : Name) : Option Nat := do
  let entries ← (s.inodes dir).inner.asDirentry
  let entry ← entries.getEntry dir name
  return entry.2

end Fs

/-! ## Steps of the operations -/

/-- `as_direntry().unwrap()`. -/
def direntry (ino : Nat) : Comp Fs Error DirEntry := do
  let s ← get
  expect (s.inodes ino).inner.asDirentry

def onInode (ino : Nat) (f : Inode → Inode) : Comp Fs Error Unit := modify fun s => s.upd ino f

def decSize (p : Profile) (ino : Nat) : Comp Fs Error Unit := do
  let s ← get
  let size ← expect (p.sub usizeCard (s.inodes ino).size 1)
  onInode ino fun n => n.withSize size

def decNlinks (p : Profile) (ino : Nat) : Comp Fs Error Unit := do
  let s ← get
  let nlinks ← expect (p.sub usizeCard (s.inodes ino).nlinks 1)
  onInode ino fun n => n.withNlinks nlinks

/-- `if self.0.read().metadata.type_ != InodeType::Dir`. -/
def checkDir (ino : Nat) (msg : String) : Comp Fs Error Unit := do
  let s ← get
  when (!s.isDir ino) (fail (.withMessage .ENOTDIR msg))

/-- Reading the type of an inode while others are locked for writing. -/
def readType (locked : List Nat) (ino : Nat) : Comp Fs Error InodeType := do
  assert (!locked.contains ino)
  let s ← get
  return s.type ino

/-- `get_entry(name).ok_or(Error::new(Errno::ENOENT))`. -/
def getEntry (dir : Nat) (name : Name) : Comp Fs Error (Nat × Nat) := do
  let entries ← direntry dir
  match entries.getEntry dir name with
  | some entry => return entry
  | none => fail (.new .ENOENT)

/-- The constructor of a type; the others are not supported. -/
def newInode (parent : Nat) : InodeType → Option Inode
  | .file => some (.newLeaf .file)
  | .symLink => some (.newLeaf .symLink)
  | .socket => some (.newLeaf .socket)
  | .dir => some (.newDir parent)
  | _ => none

/-- `RamFS::alloc_id` and the new inode. -/
def allocate (n : Inode) : Comp Fs Error Nat := do
  let s ← get
  set { inodes := Function.update s.inodes s.next n, next := s.next + 1 }
  return s.next

/-! ## Operations -/

def create (self : Nat) (name : Name) (type : InodeType) : Comp Fs Error Nat := do
  checkDir self "self is not dir"
  when (NAME_MAX < name.length) (fail (.new .ENAMETOOLONG))
  let entries ← direntry self
  when (entries.containsEntry name) (fail (.withMessage .EEXIST "entry exists"))
  let n ← expect (newInode self type)
  let ino ← allocate n
  when (type == .dir) (onInode self Inode.incNlinks)
  onInode self (Inode.onDir fun dir => dir.appendEntry name ino)
  onInode self Inode.incSize
  return ino

/-- `RamInode::mknod`; a device is a character or a block device. -/
def mknod (self : Nat) (name : Name) (block : Bool) : Comp Fs Error Nat := do
  checkDir self "self is not dir"
  when (NAME_MAX < name.length) (fail (.new .ENAMETOOLONG))
  let entries ← direntry self
  when (entries.containsEntry name) (fail (.withMessage .EEXIST "entry exists"))
  let ino ← allocate (.newLeaf (.device block))
  onInode self (Inode.onDir fun dir => dir.appendEntry name ino)
  onInode self Inode.incSize
  return ino

/-- The inode of a handle, if it is of this file system. -/
def sameFs : Handle → Comp Fs Error Nat
  | .here ino => return ino
  | .elsewhere => fail (.withMessage .EXDEV "not same fs")

def link (self : Nat) (old : Handle) (name : Name) : Comp Fs Error Unit := do
  checkDir self "self is not dir"
  let old ← sameFs old
  let s ← get
  when (s.isDir old) (fail (.withMessage .EPERM "old is a dir"))
  let entries ← direntry self
  when (entries.containsEntry name) (fail (.withMessage .EEXIST "entry exist"))
  onInode self (Inode.onDir fun dir => dir.appendEntry name old)
  onInode self Inode.incSize
  onInode old Inode.incNlinks

def unlink (p : Profile) (self : Nat) (name : Name) : Comp Fs Error Unit := do
  checkDir self "self is not dir"
  when (name == dot || name == dotdot) (fail (.withMessage .EISDIR "unlink . or .."))
  let (idx, target) ← getEntry self name
  let type ← readType [self] target
  when (type == .dir) (fail (.withMessage .EISDIR "unlink on dir"))
  onInode self (Inode.onDir fun dir => dir.removeEntry idx)
  decSize p self
  decNlinks p target

def rmdir (p : Profile) (self : Nat) (name : Name) : Comp Fs Error Unit := do
  checkDir self "self is not dir"
  when (name == dot) (fail (.withMessage .EINVAL "rmdir on ."))
  when (name == dotdot) (fail (.withMessage .ENOTEMPTY "rmdir on .."))
  let (idx, target) ← getEntry self name
  let type ← readType [self] target
  when (type != .dir) (fail (.withMessage .ENOTDIR "rmdir on not dir"))
  let entries ← direntry target
  when (!entries.isEmptyChildren) (fail (.withMessage .ENOTEMPTY "dir not empty"))
  onInode self (Inode.onDir fun dir => dir.removeEntry idx)
  decSize p self
  decNlinks p self
  decNlinks p target
  decNlinks p target

/-- `check_replace_inode`: whether `dst` may be replaced by `src`. -/
def checkReplaceInode (locked : List Nat) (src dst : Nat) : Comp Fs Error Unit := do
  let srcType ← readType locked src
  let dstType ← readType locked dst
  if src == dst then pure ()
  else if srcType == .dir && dstType == .dir then do
    let entries ← direntry dst
    when (!entries.isEmptyChildren) (fail (.withMessage .ENOTEMPTY "dir not empty"))
  else if srcType == .dir then fail (.withMessage .ENOTDIR "old is not dir")
  else if dstType == .dir then fail (.withMessage .EISDIR "new is dir")
  else pure ()

/-- `RamInode::rename`, in one directory. -/
def renameWithin (p : Profile) (self : Nat) (oldName newName : Name) : Comp Fs Error Unit := do
  let (srcIdx, src) ← getEntry self oldName
  let srcType ← readType [self] src
  let entries ← direntry self
  match entries.getEntry self newName with
  | some (dstIdx, dst) => do
    checkReplaceInode [self] src dst
    onInode self (Inode.onDir fun dir => dir.removeEntry dstIdx)
    onInode self (Inode.onDir fun dir => dir.substituteEntry srcIdx (newName, src))
    decSize p self
    when (srcType == .dir) (decNlinks p self)
  | none => onInode self (Inode.onDir fun dir => dir.substituteEntry srcIdx (newName, src))

/-- The part of `RamInode::rename` across directories that needs both locks. -/
def renameLocked (p : Profile) (self target srcIdx src : Nat) (isDir : Bool) (newName : Name) : Comp Fs
    Error Unit := do
  let entries ← direntry target
  match entries.getEntry target newName with
  | some (dstIdx, dst) => do
    when (self == dst) (fail (.new .ENOTEMPTY))
    checkReplaceInode [self, target] src dst
    onInode self (Inode.onDir fun dir => dir.removeEntry srcIdx)
    onInode target (Inode.onDir fun dir => dir.removeEntry dstIdx)
    onInode target (Inode.onDir fun dir => dir.appendEntry newName src)
    decSize p self
    when isDir (decNlinks p self)
  | none => do
    onInode self (Inode.onDir fun dir => dir.removeEntry srcIdx)
    onInode target (Inode.onDir fun dir => dir.appendEntry newName src)
    decSize p self
    onInode target Inode.incSize
    when isDir (do
      decNlinks p self
      onInode target Inode.incNlinks)

/-- `RamInode::rename`, across directories. -/
def renameAcross (p : Profile) (self target : Nat) (oldName newName : Name) : Comp Fs Error Unit := do
  let (srcIdx, src) ← getEntry self oldName
  when (src == target) (fail (.new .EINVAL))
  let srcType ← readType [self, target] src
  renameLocked p self target srcIdx src (srcType == .dir) newName
  when (srcType == .dir) (onInode src (Inode.onDir fun dir => { dir with parent := target }))

def rename (p : Profile) (self : Nat) (oldName : Name) (target : Handle) (newName : Name) : Comp Fs Error Unit := do
  checkDir self "self is not dir"
  let target ← sameFs target
  checkDir target "target is not dir"
  when (oldName == dot || oldName == dotdot) (fail (.withMessage .EISDIR "old_name is . or .."))
  when (newName == dot || newName == dotdot) (fail (.withMessage .EISDIR "new_name is . or .."))
  if self == target then renameWithin p self oldName newName else renameAcross p self target oldName newName

end AsterKernel.Ramfs
