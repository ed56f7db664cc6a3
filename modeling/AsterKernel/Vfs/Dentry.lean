import AsterKernel.Vfs.Basic

/-!
# `Vfs.Dentry` — the cache of directory entries

A dentry stands for a name in a directory: it has an inode, its name and parent, and the dentries of its own children
that have been looked up. The global `DCACHE` keeps the dentries alive; the children are weak references. All dentries
of one mount are in a heap, and named by their place in it. The methods of `Dentry` and `Children` keep their names.

The file system is a parameter: its inodes `ι`, its state `σ`, and the operations that the dentries call.
-/

namespace AsterKernel.Vfs

open Lib Lib.Comp

/-- `Inode`: the operations that a dentry calls. -/
structure InodeOps (σ ι : Type) where
  /-- `Inode::type_`. -/
  type : σ → ι → InodeType
  /-- `Inode::mode`, of which only the right to execute is looked at. -/
  executable : ι → Comp σ Error Bool
  /-- `Inode::is_dentry_cacheable`. -/
  cacheable : ι → Bool
  create : ι → Name → InodeType → Comp σ Error ι
  mknod : ι → Name → Comp σ Error ι
  lookup : ι → Name → Comp σ Error ι
  link : ι → ι → Name → Comp σ Error Unit
  unlink : ι → Name → Comp σ Error Unit
  rmdir : ι → Name → Comp σ Error Unit
  rename : ι → Name → ι → Name → Comp σ Error Unit

structure Dentry (ι : Type) where
  inode : ι
  nameAndParent : Option (Name × Nat)
  children : Name → Option Nat
  mountpoint : Bool

/-- The name of a root. -/
def slash : Name := [47]

/-- The dentries of a mount, `DCACHE` and the file system. -/
structure Mount (σ ι : Type) where
  fs : σ
  dentries : Nat → Dentry ι
  next : Nat
  dcache : Name × Nat → Option Nat

variable {σ ι : Type}

namespace Mount

def root : Nat := 0

/-- `MountNode::new` and `Dentry::new_root`. -/
def new (fs : σ) (inode : ι) : Mount σ ι where
  fs := fs
  dentries := fun _ => ⟨inode, none, fun _ => none, false⟩
  next := 1
  dcache := Function.update (fun _ => none) (slash, root) (some root)

def inode (s : Mount σ ι) (d : Nat) : ι := (s.dentries d).inode

def nameAndParent (s : Mount σ ι) (d : Nat) : Option (Name × Nat) := (s.dentries d).nameAndParent

def child (s : Mount σ ι) (d : Nat) (name : Name) : Option Nat := (s.dentries d).children name

def name (s : Mount σ ι) (d : Nat) : Name :=
  match s.nameAndParent d with
  | some (name, _) => name
  | none => slash

def parent (s : Mount σ ι) (d : Nat) : Option Nat := (s.nameAndParent d).map Prod.snd

/-- `Dentry::effective_parent`, or the dentry itself; above the root of the mount there is a part of another one, or
nothing. -/
def effectiveParent (s : Mount σ ι) (above : Bool) (d : Nat) : Handle :=
  match s.parent d with
  | some parent => .here parent
  | none => if above then .elsewhere else .here d

/-- `DentryKey::new`. -/
def key (s : Mount σ ι) (d : Nat) : Name × Nat :=
  match s.nameAndParent d with
  | some key => key
  | none => (slash, d)

def upd (s : Mount σ ι) (d : Nat) (f : Dentry ι → Dentry ι) : Mount σ ι :=
  { s with dentries := Function.update s.dentries d (f (s.dentries d)) }

def setChild (s : Mount σ ι) (d : Nat) (name : Name) (c : Option Nat) : Mount σ ι :=
  s.upd d fun e => { e with children := Function.update e.children name c }

def setNameAndParent (s : Mount σ ι) (d : Nat) (name : Name) (parent : Nat) : Mount σ ι :=
  s.upd d fun e => { e with nameAndParent := some (name, parent) }

/-- `Dentry::set_mountpoint` and `Dentry::clear_mountpoint`. -/
def setMountpoint (s : Mount σ ι) (d : Nat) (mounted : Bool) : Mount σ ι := s.upd d fun e =>
    { e with mountpoint := mounted }

def setDcache (s : Mount σ ι) (key : Name × Nat) (d : Option Nat) : Mount σ ι :=
  { s with dcache := Function.update s.dcache key d }

/-- The heap with one more dentry, which has no children yet. -/
def push (s : Mount σ ι) (inode : ι) (name : Name) (parent : Nat) : Mount σ ι :=
  { s with
    dentries := Function.update s.dentries s.next ⟨inode, some (name, parent), fun _ => none, false⟩
    next := s.next + 1 }

/-- Whether `Weak::upgrade` finds the dentry: in `DCACHE`, or because someone else holds it. -/
def alive (s : Mount σ ι) (held : Nat → Bool) (d : Nat) : Bool := s.dcache (s.key d) == some d || held d

/-! ## Fields after a change -/

section

variable (s : Mount σ ι) (d e : Nat) (n m : Name) (c : Option Nat) (i : ι) (k : Name × Nat)

theorem dentries_upd (f : Dentry ι → Dentry ι) :
    (s.upd d f).dentries e = if e = d then f (s.dentries d) else s.dentries e := Function.update_apply _ _ _ _

/-- A field that the change leaves alone. -/
theorem field_upd {β : Type} (field : Dentry ι → β) {f : Dentry ι → Dentry ι}
    (hf : field (f (s.dentries d)) = field (s.dentries d)) : field ((s.upd d f).dentries e) = field (s.dentries e) := by
  rw [dentries_upd]
  split
  case isTrue heq => rw [heq, hf]
  case isFalse => rfl

theorem dentries_push : (s.push i n d).dentries e =
    if e = s.next then ⟨i, some (n, d), fun _ => none, false⟩ else s.dentries e := Function.update_apply _ _ _ _

@[simp] theorem setChild_inode : (s.setChild d n c).inode e = s.inode e :=
  field_upd s d e Dentry.inode rfl

@[simp] theorem setNameAndParent_inode (p : Nat) : (s.setNameAndParent d n p).inode e = s.inode e :=
  field_upd s d e Dentry.inode rfl

@[simp] theorem setMountpoint_inode (b : Bool) : (s.setMountpoint d b).inode e = s.inode e :=
  field_upd s d e Dentry.inode rfl

@[simp] theorem setDcache_inode : (s.setDcache k c).inode e = s.inode e := rfl

theorem push_inode : (s.push i n d).inode e = if e = s.next then i else s.inode e := by
  unfold inode
  rw [dentries_push]
  split
  case isTrue => rfl
  case isFalse => rfl

@[simp] theorem setChild_nameAndParent : (s.setChild d n c).nameAndParent e = s.nameAndParent e :=
  field_upd s d e Dentry.nameAndParent rfl

@[simp] theorem setMountpoint_nameAndParent (b : Bool) : (s.setMountpoint d b).nameAndParent e = s.nameAndParent e :=
  field_upd s d e Dentry.nameAndParent rfl

theorem setNameAndParent_nameAndParent (p : Nat) :
    (s.setNameAndParent d n p).nameAndParent e = if e = d then some (n, p) else s.nameAndParent e := by
  unfold nameAndParent setNameAndParent
  rw [dentries_upd]
  split
  case isTrue => rfl
  case isFalse => rfl

@[simp] theorem setDcache_nameAndParent : (s.setDcache k c).nameAndParent e = s.nameAndParent e := rfl

theorem push_nameAndParent :
    (s.push i n d).nameAndParent e = if e = s.next then some (n, d) else s.nameAndParent e := by
  unfold nameAndParent
  rw [dentries_push]
  split
  case isTrue => rfl
  case isFalse => rfl

theorem setChild_child : (s.setChild d n c).child e m = if e = d ∧ m = n then c else s.child e m := by
  unfold child setChild
  rw [dentries_upd]
  by_cases he : e = d
  · subst he
    by_cases hm : m = n
    · subst hm
      simp
    · simp [hm]
  · simp [he]

@[simp] theorem setNameAndParent_child (p : Nat) : (s.setNameAndParent d n p).child e m = s.child e m :=
  field_upd s d e (fun x => x.children m) rfl

@[simp] theorem setMountpoint_child (b : Bool) : (s.setMountpoint d b).child e m = s.child e m :=
  field_upd s d e (fun x => x.children m) rfl

@[simp] theorem setDcache_child : (s.setDcache k c).child e m = s.child e m := rfl

theorem push_child : (s.push i n d).child e m = if e = s.next then none else s.child e m := by
  unfold child
  rw [dentries_push]
  split
  case isTrue => rfl
  case isFalse => rfl

end

end Mount

section

variable (ops : InodeOps σ ι) (held : Nat → Bool)

/-- An operation of the file system. -/
def onFs {α : Type} (m : Comp σ Error α) : Comp (Mount σ ι) Error α :=
  zoom (fun s => s.fs) (fun fs s => { s with fs := fs }) m

/-- `Dentry::new` of a leaf. -/
def newDentry (inode : ι) (name : Name) (parent : Nat) : Comp (Mount σ ι) Error Nat := do
  let s ← get
  set (s.push inode name parent)
  return s.next

/-! ## `Children` -/

def insertDentry (self d : Nat) : Comp (Mount σ ι) Error Unit := do
  let s ← get
  when (ops.cacheable (s.inode d)) (modify fun s => (s.setDcache (s.key d) (some d)).setChild self
    (s.name d) (some d))

def deleteDentry (self : Nat) (name : Name) : Comp (Mount σ ι) Error Unit := do
  let s ← get
  match s.child self name with
  | some d => do
    modify fun s => s.setChild self name none
    when (s.alive held d) (modify fun s => s.setDcache (s.key d) none)
  | none => pure ()

def findDentry (self : Nat) (name : Name) : Comp (Mount σ ι) Error (Option Nat) := do
  let s ← get
  match s.child self name with
  | some d =>
    if s.alive held d then return some d
    else do
      modify fun s => s.setChild self name none
      return none
  | none => return none

def findDentryWithCheckingMountpoint (self : Nat) (name : Name) : Comp (Mount σ ι) Error (Option Nat) := do
  let found ← findDentry held self name
  let s ← get
  when (found.any fun d => (s.dentries d).mountpoint) (fail (.withMessage .EBUSY "dentry is mountpint"))
  return found

/-! ## `Dentry` -/

/-- `if self.inode.type_() != InodeType::Dir`. -/
def checkDir (self : Nat) : Comp (Mount σ ι) Error Unit := do
  let s ← get
  when (ops.type s.fs (s.inode self) != .dir) (fail (.new .ENOTDIR))

/-- What `create` and `mknod` have in common. -/
def make (op : ι → Comp σ Error ι) (self : Nat) (name : Name) : Comp (Mount σ ι) Error Nat := do
  checkDir ops self
  let found ← findDentry held self name
  when found.isSome (fail (.new .EEXIST))
  let s ← get
  let inode ← onFs (op (s.inode self))
  let d ← newDentry inode name self
  insertDentry ops self d
  return d

def create (self : Nat) (name : Name) (type : InodeType) : Comp (Mount σ ι) Error Nat :=
  make ops held (fun dir => ops.create dir name type) self name

def mknod (self : Nat) (name : Name) : Comp (Mount σ ι) Error Nat :=
  make ops held (fun dir => ops.mknod dir name) self name

/-- `Dentry::lookup` of a name that is neither "." nor "..". A mountpoint leads to another mount. -/
def lookupChild (self : Nat) (name : Name) : Comp (Mount σ ι) Error Handle := do
  let found ← findDentry held self name
  let s ← get
  match found with
  | some d => return if (s.dentries d).mountpoint then .elsewhere else .here d
  | none => do
    let inode ← onFs (ops.lookup (s.inode self) name)
    let d ← newDentry inode name self
    insertDentry ops self d
    return .here d

def lookup (above : Bool) (self : Nat) (name : Name) : Comp (Mount σ ι) Error Handle := do
  checkDir ops self
  let s ← get
  let executable ← onFs (ops.executable (s.inode self))
  when (!executable) (fail (.new .EACCES))
  when (NAME_MAX < name.length) (fail (.new .ENAMETOOLONG))
  if name == dot then return .here self
  else if name == dotdot then return s.effectiveParent above self
  else lookupChild ops held self name

def link (self : Nat) (old : Handle) (name : Name) : Comp (Mount σ ι) Error Unit := do
  checkDir ops self
  let found ← findDentry held self name
  when found.isSome (fail (.new .EEXIST))
  match old with
  | .elsewhere => fail (.withMessage .EXDEV "cannot cross mount")
  | .here old => do
    let s ← get
    onFs (ops.link (s.inode self) (s.inode old) name)
    let d ← newDentry (s.inode old) name self
    insertDentry ops self d

/-- What `unlink` and `rmdir` have in common. -/
def remove (op : ι → Comp σ Error Unit) (self : Nat) (name : Name) : Comp (Mount σ ι) Error Unit := do
  checkDir ops self
  let _ ← findDentryWithCheckingMountpoint held self name
  let s ← get
  onFs (op (s.inode self))
  deleteDentry held self name

def unlink (self : Nat) (name : Name) : Comp (Mount σ ι) Error Unit :=
  remove ops held (fun dir => ops.unlink dir name) self name

def rmdir (self : Nat) (name : Name) : Comp (Mount σ ι) Error Unit :=
  remove ops held (fun dir => ops.rmdir dir name) self name

/-- The part of `Dentry::rename` that has locked the children; `newDir` may be `self`. -/
def renameLocked (self : Nat) (oldName : Name) (newDir : Nat) (newName : Name) : Comp (Mount σ ι) Error Unit := do
  let oldDentry ← findDentryWithCheckingMountpoint held self oldName
  let _ ← findDentryWithCheckingMountpoint held newDir newName
  let s ← get
  onFs (ops.rename (s.inode self) oldName (s.inode newDir) newName)
  match oldDentry with
  | some d => do
    deleteDentry held self oldName
    modify fun s => s.setNameAndParent d newName newDir
    insertDentry ops newDir d
  | none => deleteDentry held newDir newName

def rename (self : Nat) (oldName : Name) (newDir : Handle) (newName : Name) : Comp (Mount σ ι) Error Unit := do
  when (oldName == dot || oldName == dotdot || newName == dot || newName == dotdot)
    (fail (.withMessage .EISDIR "old_name or new_name is a directory"))
  checkDir ops self
  match newDir with
  | .elsewhere => fail (.withMessage .EXDEV "cannot cross mount")
  | .here newDir => do
    checkDir ops newDir
    if self == newDir && oldName == newName then pure ()
    else renameLocked ops held self oldName newDir newName

end

end AsterKernel.Vfs
