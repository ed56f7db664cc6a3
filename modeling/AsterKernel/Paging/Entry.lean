import AsterKernel.Lib.Bits
import AsterKernel.Lib.Usize

/-!
# `Paging.Entry` — page table entries

An entry is one word: the physical address of a frame in bits 12 to 51, and the flags in bits 0 to 8 and 63. The
two parts do not overlap, so an entry gives back what was put into it. The index of an address on a level is one
of its nine-bit digits above the page offset.
-/

namespace AsterKernel.Paging

open Lib

def PAGE_SIZE : Nat := 0x1000

/-- The bits of all flags. -/
def FLAGS_ALL : Nat := 2 ^ 63 + 0x1ff

/-- `PageTableFlags`: a set of flags, by its bits. -/
structure PageTableFlags where
  bits : Nat
  valid : bits &&& FLAGS_ALL = bits
deriving DecidableEq, Repr

namespace PageTableFlags

def PRESENT : PageTableFlags := ⟨1, by decide⟩
def WRITABLE : PageTableFlags := ⟨2, by decide⟩
def USER : PageTableFlags := ⟨4, by decide⟩
def NO_CACHE : PageTableFlags := ⟨0x10, by decide⟩
def HUGE : PageTableFlags := ⟨0x80, by decide⟩

/-- `PageTableFlags::empty`. -/
def new : PageTableFlags := ⟨0, by decide⟩

def fromBitsTruncate (w : Nat) : PageTableFlags := ⟨w &&& FLAGS_ALL, by rw [Nat.and_assoc, Nat.and_self]⟩

def contains (f g : PageTableFlags) : Bool := f.bits &&& g.bits == g.bits

def insert (f g : PageTableFlags) : PageTableFlags :=
  ⟨f.bits ||| g.bits, by rw [Nat.and_or_distrib_right, f.valid, g.valid]⟩

def remove (f g : PageTableFlags) : PageTableFlags :=
  ⟨f.bits ^^^ (f.bits &&& g.bits), by rw [Nat.and_xor_distrib_right, Nat.and_assoc, g.valid, f.valid]⟩

/-- `set`: insert or remove. -/
def set (f g : PageTableFlags) (b : Bool) : PageTableFlags := if b then f.insert g else f.remove g

def setPresent (f : PageTableFlags) (b : Bool) : PageTableFlags := f.set PRESENT b
def setWritable (f : PageTableFlags) (b : Bool) : PageTableFlags := f.set WRITABLE b
def setAccessibleByUser (f : PageTableFlags) (b : Bool) : PageTableFlags := f.set USER b

/-- Every page is readable. -/
def setReadable (f : PageTableFlags) (_ : Bool) : PageTableFlags := f

def isPresent (f : PageTableFlags) : Bool := f.contains PRESENT
def isHuge (f : PageTableFlags) : Bool := f.contains HUGE

/-- The flags of an entry that links to a table. -/
def table : PageTableFlags :=
  (((new.setPresent true).setAccessibleByUser true).setReadable true).setWritable true

theorem ext_bits {f g : PageTableFlags} (h : f.bits = g.bits) : f = g := by
  cases f
  cases g
  cases h
  rfl

theorem table_isPresent : table.isPresent = true := by decide

theorem table_not_isHuge : table.isHuge = false := by decide

end PageTableFlags

/-- Bits 12 to 51. -/
def PHYS_ADDR_MASK : Nat := 0xFFFFFFFFFF000

/-- A frame starts at a page boundary, below the limit of physical addresses. -/
structure VmFrame where
  startPaddr : Nat
  aligned : startPaddr % PAGE_SIZE = 0
  inRange : startPaddr < 2 ^ 52
deriving DecidableEq, Repr

structure PageTableEntry where
  raw : Nat
deriving DecidableEq, Repr

namespace PageTableEntry

/-- `new` and `update`. -/
def new (paddr : Nat) (flags : PageTableFlags) : PageTableEntry := ⟨(paddr &&& PHYS_ADDR_MASK) ||| flags.bits⟩

def paddr (e : PageTableEntry) : Nat := e.raw &&& PHYS_ADDR_MASK

def flags (e : PageTableEntry) : PageTableFlags := .fromBitsTruncate e.raw

def isUsed (e : PageTableEntry) : Bool := e.raw != 0

def zero : PageTableEntry := ⟨0⟩

/-- `is_used` and present: the test that `map`, `unmap` and `protect` make. -/
def isMapped (e : PageTableEntry) : Bool := e.isUsed && e.flags.isPresent

theorem mask_and_all : PHYS_ADDR_MASK &&& FLAGS_ALL = 0 := by decide

theorem paddr_new (paddr : Nat) (flags : PageTableFlags) : (new paddr flags).paddr = paddr &&& PHYS_ADDR_MASK := by
  have hflags : flags.bits &&& PHYS_ADDR_MASK = 0 := by
    rw [← flags.valid, Nat.and_assoc, Nat.and_comm FLAGS_ALL, mask_and_all, Nat.and_zero]
  rw [PageTableEntry.paddr, new, Nat.and_or_distrib_right, hflags, Nat.or_zero, Nat.and_assoc, Nat.and_self]

theorem flags_new (paddr : Nat) (flags : PageTableFlags) : (new paddr flags).flags = flags := by
  refine PageTableFlags.ext_bits ?_
  show ((paddr &&& PHYS_ADDR_MASK) ||| flags.bits) &&& FLAGS_ALL = flags.bits
  rw [Nat.and_or_distrib_right, Nat.and_assoc, mask_and_all, Nat.and_zero, Nat.zero_or, flags.valid]

/-- The address of a frame lies within the mask. -/
theorem and_mask {paddr : Nat} (haligned : paddr % PAGE_SIZE = 0) (hrange : paddr < 2 ^ 52) :
    paddr &&& PHYS_ADDR_MASK = paddr := by
  have hshift : paddr = (paddr / 2 ^ 12) <<< 12 := by
    rw [Nat.shiftLeft_eq]
    unfold PAGE_SIZE at haligned
    omega
  have hmask : PHYS_ADDR_MASK = (2 ^ 40 - 1) <<< 12 := by decide
  rw [hmask, hshift, ← Nat.shiftLeft_and_distrib, Nat.and_two_pow_sub_one_eq_mod, Nat.mod_eq_of_lt (by omega)]

theorem zero_isMapped : zero.isMapped = false := by decide

theorem isMapped_eq (e : PageTableEntry) : e.isMapped = e.flags.isPresent := by
  unfold isMapped isUsed
  cases hraw : decide (e.raw = 0) with
  | true =>
    have : e = zero := by cases e; simp_all [zero]
    rw [this]
    decide
  | false =>
    have : e.raw ≠ 0 := of_decide_eq_false hraw
    simp [this]

end PageTableEntry

/-! ## Addresses -/

def ENTRY_COUNT : Nat := 512

def pageIndex (va level : Nat) : Fin 512 :=
  ⟨va >>> (12 + 9 * (level - 1)) &&& (ENTRY_COUNT - 1), Nat.lt_of_le_of_lt Nat.and_le_right (by decide)⟩

/-- The indices on the levels above the last: those that lead to the last table. -/
def dirs (va : Nat) : Nat → List (Fin 512)
  | level + 2 => pageIndex va (level + 2) :: dirs va (level + 1)
  | _ => []

theorem pageIndex_val (va level : Nat) : (pageIndex va (level + 1)).val = va / 2 ^ (12 + 9 * level) % 512 := by
  show (va >>> (12 + 9 * level)) &&& (2 ^ 9 - 1) = _
  rw [Nat.and_two_pow_sub_one_eq_mod, Nat.shiftRight_eq_div_pow]

@[simp] theorem dirs_length (va level : Nat) : (dirs va (level + 1)).length = level := by
  induction level with
  | zero => rfl
  | succ level ih => rw [dirs, List.length_cons, ih]

/-- The digits of a number up to a level. -/
theorem digits_eq {a b level : Nat} (hlow : a % 2 ^ (12 + 9 * level) = b % 2 ^ (12 + 9 * level))
    (hdigit : a / 2 ^ (12 + 9 * level) % 512 = b / 2 ^ (12 + 9 * level) % 512) :
    a % 2 ^ (12 + 9 * (level + 1)) = b % 2 ^ (12 + 9 * (level + 1)) := by
  have hpow : 2 ^ (12 + 9 * (level + 1)) = 2 ^ (12 + 9 * level) * 512 := by
    rw [show 12 + 9 * (level + 1) = (12 + 9 * level) + 9 by omega, Nat.pow_add]
  rw [hpow, Nat.mod_mul, Nat.mod_mul, hlow, hdigit]

/-- **The indices of an aligned address determine it**, up to the size of the address space. -/
theorem path_injective {a b level : Nat} (ha : a % PAGE_SIZE = 0) (hb : b % PAGE_SIZE = 0)
    (hdirs : dirs a (level + 1) = dirs b (level + 1)) (hlast : pageIndex a 1 = pageIndex b 1) :
    a % 2 ^ (12 + 9 * (level + 1)) = b % 2 ^ (12 + 9 * (level + 1)) := by
  induction level with
  | zero =>
    refine digits_eq ?_ ?_
    · exact ha.trans hb.symm
    · rw [← pageIndex_val, ← pageIndex_val, hlast]
  | succ level ih =>
    obtain ⟨htop, hrest⟩ := List.cons_eq_cons.mp hdirs
    refine digits_eq (ih hrest) ?_
    rw [← pageIndex_val, ← pageIndex_val, htop]

end AsterKernel.Paging
