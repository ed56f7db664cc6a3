import AsterKernel.Lib.Bytes
import AsterKernel.Ext2.Alloc

/-!
# `Ext2.DirEntry` — directory entries in the page cache

A directory's content is a linked list of records: a header of eight bytes (inode number, record length, length of
the name, type) and the name. The distance to the next record is the record length, so a record may end in a gap.
`DirEntryReader` walks the list; `DirEntryWriter` inserts into a gap or into a new block, removes by merging a record
into the one before it, and renames in place or by removing and inserting.

An iterator over records whose length is zero would not end; a search that finds nothing in `size + 1` steps is
taken not to return.
-/

namespace AsterKernel.Ext2

open Lib Lib.Comp

def BLOCK_SIZE : Nat := 4096

def MAX_FNAME_LEN : Nat := 255

inductive FileType where
  | fifo
  | char
  | dir
  | block
  | file
  | symlink
  | socket
deriving DecidableEq, Repr

/-- The number of `DirEntryFileType`. -/
def FileType.code : FileType → Nat
  | .file => 1
  | .dir => 2
  | .char => 3
  | .block => 4
  | .fifo => 5
  | .socket => 6
  | .symlink => 7

/-- `DirEntryFileType::try_from` and the conversion to `FileType`; both panic on other numbers. -/
def FileType.ofCode : Nat → Option FileType
  | 1 => some .file
  | 2 => some .dir
  | 3 => some .char
  | 4 => some .block
  | 5 => some .fifo
  | 6 => some .socket
  | 7 => some .symlink
  | _ => none

@[simp] theorem FileType.ofCode_code (t : FileType) : ofCode t.code = some t := by cases t <;> rfl

theorem FileType.code_lt (t : FileType) : t.code < 256 := by cases t <;> decide

/-! ## The page cache -/

/-- The page cache of a directory: its size and its bytes. -/
structure PageCache where
  size : Nat
  bytes : Mem

def exceedsVmo : Error := .withMessage .EINVAL "operated range exceeds the vmo size"

namespace PageCache

/-- `write_bytes` of the pages. -/
def writeBytes (off : Nat) (bs : List UInt8) : Comp PageCache Error Unit := fun pc =>
  if pc.size < off + bs.length then .err exceedsVmo pc
  else .ok () { pc with bytes := poke pc.bytes off bs }

/-- `resize` of the pages: the size is rounded up to pages, and new pages are zero. -/
def resize (newSize : Nat) : Comp PageCache Error Unit := fun pc =>
  .ok () ⟨(newSize + BLOCK_SIZE - 1) / BLOCK_SIZE * BLOCK_SIZE, fun i => if i < pc.size then pc.bytes i else 0⟩

end PageCache

/-! ## Entries -/

/-- A name: its bytes, without a terminator. -/
abbrev Name := List UInt8

/-- `CStr256::from`: up to the first zero byte, and at most 255 bytes. -/
def cstr (bs : List UInt8) : Name := (bs.takeWhile (· ≠ 0)).take 255

def dot : Name := [46]
def dotdot : Name := [46, 46]

/-- `DirEntry`: the header, and the name. -/
structure DirEntry where
  ino : Nat
  recordLen : Nat
  nameLen : Nat
  fileType : Nat
  name : Name
deriving DecidableEq, Repr

namespace DirEntry

def headerLen : Nat := 8

/-- The next multiple of four. -/
def alignUp4 (n : Nat) : Nat := (n + 3) / 4 * 4

/-- `DirEntry::new`; names that are too long fail a debug assertion. -/
def new (p : Profile) (ino : Nat) (name : Name) (type : FileType) : Option DirEntry :=
  if p = .dev ∧ MAX_FNAME_LEN < name.length then none
  else some
    { ino := ino
      recordLen := alignUp4 (headerLen + name.length) % u16Card
      nameLen := name.length % 256
      fileType := type.code
      name := cstr name }

def type (e : DirEntry) : Option FileType := FileType.ofCode e.fileType

def actualLen (e : DirEntry) : Nat := alignUp4 (headerLen + e.name.length)

def setRecordLen (p : Profile) (e : DirEntry) (n : Nat) : Option DirEntry :=
  if p = .dev ∧ n < e.actualLen then none else some { e with recordLen := n % u16Card }

def gapLen (p : Profile) (e : DirEntry) : Option Nat := p.sub usizeCard e.recordLen e.actualLen

def header (e : DirEntry) : List UInt8 :=
  leBytes 4 e.ino ++ leBytes 2 e.recordLen ++ leBytes 1 e.nameLen ++ leBytes 1 e.fileType

end DirEntry

/-! ## The reader -/

namespace PageCache

/-- `DirEntryReader::read_entry`; an error ends the iteration. -/
def readEntry (pc : PageCache) (off : Nat) : Option DirEntry :=
  if pc.size < off + DirEntry.headerLen then none
  else if leVal (peek pc.bytes off 4) = 0 then none
  else if pc.size < off + DirEntry.headerLen + leVal (peek pc.bytes (off + 6) 1) then none
  else some
    { ino := leVal (peek pc.bytes off 4)
      recordLen := leVal (peek pc.bytes (off + 4) 2)
      nameLen := leVal (peek pc.bytes (off + 6) 1)
      fileType := leVal (peek pc.bytes (off + 7) 1)
      name := cstr (peek pc.bytes (off + DirEntry.headerLen) (leVal (peek pc.bytes (off + 6) 1))) }

/-- The first `n` items of a reader that starts at `off`. -/
def readEntries (pc : PageCache) : Nat → Nat → List (Nat × DirEntry)
  | 0, _ => []
  | n + 1, off =>
    match pc.readEntry off with
    | none => []
    | some e => (off, e) :: readEntries pc n (off + e.recordLen)

/-- The items of a reader that starts at `off`. -/
def entries (pc : PageCache) (off : Nat) : List (Nat × DirEntry) := readEntries pc (pc.size + 1) off

/-- Whether the iteration from `off` does not end. -/
def endless (pc : PageCache) (off : Nat) : Bool := (pc.entries off).length = pc.size + 1

end PageCache

/-- What a search found, or no return if it went through an endless iteration for nothing. -/
def searched {α : Type} (found : Option α) (endless : Bool) : Option (Option α) :=
  match found with
  | some a => some (some a)
  | none => if endless then none else some none

/-- `Inner::get_entry`. -/
def PageCache.getEntry (pc : PageCache) (name : Name) (off : Nat) : Option (Option (Nat × DirEntry)) :=
  searched ((pc.entries off).find? fun x => x.2.name == name) (pc.endless off)

/-! ## The writer -/

namespace DirEntryWriter

variable (p : Profile)

/-- `write_entry` at an offset. -/
def writeEntry (off : Nat) (e : DirEntry) : Comp PageCache Error Unit := do
  PageCache.writeBytes off e.header
  PageCache.writeBytes (off + DirEntry.headerLen) e.name

/-- The first entry with a gap of at least `len`. -/
def findGap (len : Nat) : List (Nat × DirEntry) → Option (Option (Nat × DirEntry))
  | [] => some none
  | x :: rest =>
    match x.2.gapLen p with
    | none => none
    | some gap => if len ≤ gap then some (some x) else findGap len rest

/-- Append in a new block. -/
def appendBlock (new : DirEntry) : Comp PageCache Error Unit := do
  let pc ← Comp.get
  PageCache.resize (pc.size + BLOCK_SIZE)
  let new ← expect (new.setRecordLen p BLOCK_SIZE)
  writeEntry pc.size new

/-- Insert into the gap of an entry. -/
def appendGap (new : DirEntry) (off : Nat) (e : DirEntry) : Comp PageCache Error Unit := do
  let gap ← expect (e.gapLen p)
  let new ← expect (new.setRecordLen p gap)
  let e ← expect (e.setRecordLen p e.actualLen)
  writeEntry off e
  writeEntry (off + e.recordLen) new

/-- `append_entry` from an offset. -/
def appendEntry (off : Nat) (new : DirEntry) : Comp PageCache Error Unit := fun pc =>
  match (findGap p new.recordLen (pc.entries off)).bind (searched · (pc.endless off)) with
  | none => .panic
  | some none => appendBlock p new pc
  | some (some (o, e)) => appendGap p new o e pc

/-- Shrink to the block of the previous entry. -/
def removeShrink (preOff : Nat) (pre : DirEntry) : Comp PageCache Error Unit := do
  let newSize := (preOff + BLOCK_SIZE - 1) / BLOCK_SIZE * BLOCK_SIZE
  PageCache.resize newSize
  let pre ← expect (pre.setRecordLen p (newSize - preOff))
  writeEntry preOff pre

/-- Merge an entry into the previous one. -/
def removeMerge (preOff : Nat) (pre e : DirEntry) : Comp PageCache Error Unit := do
  let pre ← expect (pre.setRecordLen p (pre.recordLen + e.recordLen))
  writeEntry preOff pre

/-- `remove_entry`: a reader from the start is paired with one that starts after a record of "."'s length. -/
def removeEntry (name : Name) : Comp PageCache Error DirEntry := fun pc =>
  let second := DirEntry.alignUp4 (DirEntry.headerLen + dot.length)
  match searched (((pc.entries 0).zip (pc.entries second)).find? fun x => x.2.2.name == name)
      (pc.endless 0 && pc.endless second) with
  | none => .panic
  | some none => .err (.new .ENOENT) pc
  | some (some ((preOff, pre), (off, e))) =>
    if (pc.readEntry off).isNone ∧ preOff / BLOCK_SIZE ≠ off / BLOCK_SIZE then
      (removeShrink p preOff pre >>= fun _ => pure e) pc
    else
      (removeMerge p preOff pre e >>= fun _ => pure e) pc

/-- `rename_entry` from an offset. -/
def renameEntry (off : Nat) (oldName newName : Name) : Comp PageCache Error Unit := fun pc =>
  match searched ((pc.entries off).find? fun x => x.2.name == oldName) (pc.endless off) with
  | none => .panic
  | some none => .err (.new .ENOENT) pc
  | some (some (o, e)) =>
    match e.type.bind (DirEntry.new p e.ino newName) with
    | none => .panic
    | some new =>
      if new.recordLen ≤ e.recordLen then
        (expect (new.setRecordLen p e.recordLen) >>= writeEntry o) pc
      else
        (removeEntry p oldName >>= fun _ => appendEntry p 0 new) pc

end DirEntryWriter

end AsterKernel.Ext2
