import AsterKernel.Lib.Words
import AsterKernel.Vm.Vmar

/-!
# `Signal.Basic` — signal masks, actions and frames

What `rt_sigprocmask`, `rt_sigaction`, the entry of a user handler and `rt_sigreturn` do to a thread: its mask, the
address of its last signal frame, its alternate stack, its registers and the memory of its process. An access to user
memory fails when a byte of it is not mapped.

The order of the registers in memory is that of `GeneralRegs`; of a `ucontext_t` only the fields that are set are
named.
-/

namespace AsterKernel.Signal

open Lib Lib.Comp

abbrev Word := BitVec 64

inductive Errno where
  | EINVAL
  | EFAULT
deriving DecidableEq, Repr

/-! ## Signals and masks -/

structure SigNum where
  val : Nat
  pos : 1 ≤ val
  le : val ≤ 64
deriving DecidableEq, Repr

def SigNum.tryFrom (n : Nat) : Option SigNum := if h : 1 ≤ n ∧ n ≤ 64 then some ⟨n, h.1, h.2⟩ else none

def SIGKILL : SigNum := ⟨9, by decide, by decide⟩

def SIGSTOP : SigNum := ⟨19, by decide, by decide⟩

abbrev SigMask := Word

namespace SigMask

/-- `SigMask::from` of a signal. -/
def ofSigNum (n : SigNum) : SigMask := 1#64 <<< (n.val - 1)

def block (bits blockSets : Word) : SigMask := bits ||| blockSets

def unblock (bits unblockSets : Word) : SigMask := bits &&& ~~~unblockSets

def removeSignal (bits : Word) (n : SigNum) : SigMask := bits &&& ~~~ofSigNum n

def contains (bits : Word) (n : SigNum) : Bool := bits &&& ofSigNum n ≠ 0

end SigMask

abbrev SigActionFlags := BitVec 32

namespace SigActionFlags

def SA_NOCLDSTOP : SigActionFlags := 1
def SA_NOCLDWAIT : SigActionFlags := 2
def SA_SIGINFO : SigActionFlags := 4
def SA_ONSTACK : SigActionFlags := 0x08000000
def SA_RESTART : SigActionFlags := 0x10000000
def SA_NODEFER : SigActionFlags := 0x40000000
def SA_RESETHAND : SigActionFlags := 0x80000000
def SA_RESTORER : SigActionFlags := 0x04000000

def fromBitsTruncate (bits : BitVec 32) : SigActionFlags :=
  bits &&& (SA_NOCLDSTOP ||| SA_NOCLDWAIT ||| SA_SIGINFO ||| SA_ONSTACK ||| SA_RESTART ||| SA_NODEFER |||
    SA_RESETHAND |||
    SA_RESTORER)

def contains (flags flag : SigActionFlags) : Bool := flags &&& flag = flag

def containsUnsupportedFlag (flags : SigActionFlags) : Bool := flags &&&
    (SA_NOCLDSTOP ||| SA_NOCLDWAIT ||| SA_RESETHAND) ≠ 0

end SigActionFlags

inductive SigAction where
  | dfl
  | ign
  | user (handlerAddr : Word) (flags : SigActionFlags) (restorerAddr : Word) (mask : SigMask)
deriving DecidableEq

namespace SigAction

/-- `SigAction::try_from` of the words of a `sigaction_t`. -/
def ofCType (ws : List Word) : SigAction :=
  let handlerPtr := ws[0]?.getD 0
  if handlerPtr = 0 then .dfl
  else if handlerPtr = 1 then .ign
  else .user handlerPtr (.fromBitsTruncate ((ws[1]?.getD 0).setWidth 32)) (ws[2]?.getD 0) (ws[3]?.getD 0)

def asCType : SigAction → List Word
  | .dfl => [0, 0, 0, 0]
  | .ign => [1, 0, 0, 0]
  | .user handlerAddr flags restorerAddr mask => [handlerAddr, flags.setWidth 64, restorerAddr, mask]

end SigAction

/-! ## Threads -/

structure GeneralRegs where
  rax : Word
  rbx : Word
  rcx : Word
  rdx : Word
  rsi : Word
  rdi : Word
  rbp : Word
  rsp : Word
  r8 : Word
  r9 : Word
  r10 : Word
  r11 : Word
  r12 : Word
  r13 : Word
  r14 : Word
  r15 : Word
  rip : Word
  rflags : Word
  fsbase : Word
  gsbase : Word
deriving DecidableEq

namespace GeneralRegs

def words (r : GeneralRegs) : List Word :=
  [r.rax, r.rbx, r.rcx, r.rdx, r.rsi, r.rdi, r.rbp, r.rsp, r.r8, r.r9, r.r10, r.r11, r.r12, r.r13,
    r.r14, r.r15, r.rip,
    r.rflags, r.fsbase, r.gsbase]

def ofWords (ws : List Word) : GeneralRegs where
  rax := ws[0]?.getD 0
  rbx := ws[1]?.getD 0
  rcx := ws[2]?.getD 0
  rdx := ws[3]?.getD 0
  rsi := ws[4]?.getD 0
  rdi := ws[5]?.getD 0
  rbp := ws[6]?.getD 0
  rsp := ws[7]?.getD 0
  r8 := ws[8]?.getD 0
  r9 := ws[9]?.getD 0
  r10 := ws[10]?.getD 0
  r11 := ws[11]?.getD 0
  r12 := ws[12]?.getD 0
  r13 := ws[13]?.getD 0
  r14 := ws[14]?.getD 0
  r15 := ws[15]?.getD 0
  rip := ws[16]?.getD 0
  rflags := ws[17]?.getD 0
  fsbase := ws[18]?.getD 0
  gsbase := ws[19]?.getD 0

end GeneralRegs

/-- `ucontext_t`: the fields that the kernel sets. -/
structure UContext where
  ucLink : Word
  gpRegs : GeneralRegs
  ucSigmask : Word
deriving DecidableEq

namespace UContext

/-- The number of words of a `ucontext_t`. -/
def WORDS : Nat := 106

/-- `uc_flags`, `uc_link`, `uc_stack`, `uc_mcontext`, `uc_sigmask` and `fpregs`. -/
def words (u : UContext) : List Word :=
  [0, u.ucLink] ++ List.replicate 3 0 ++ (u.gpRegs.words ++ List.replicate 16 0) ++ [u.ucSigmask] ++
    List.replicate 64 0

def ofWords (ws : List Word) : UContext := ⟨ws[1]?.getD 0, .ofWords (ws.drop 5), ws[41]?.getD 0⟩

end UContext

/-- The memory of a process. -/
structure UserSpace where
  mem : Mem
  mapped : Nat → Bool
  lowest : ∀ a, mapped a = true → Vm.ROOT_VMAR_LOWEST_ADDR ≤ a
  highest : ∀ a, mapped a = true → a < Vm.ROOT_VMAR_CAP_ADDR

namespace UserSpace

def Mapped (space : UserSpace) (addr n : Nat) : Prop := ∀ i < n, space.mapped (addr + i) = true

instance (space : UserSpace) (addr n : Nat) : Decidable (space.Mapped addr n) :=
  inferInstanceAs (Decidable (∀ i < n, space.mapped (addr + i) = true))

end UserSpace

/-- `SigStack`; `autodisarm` is its only flag. -/
structure SigStack where
  base : Nat
  autodisarm : Bool
  size : Nat
  handlerCounter : Nat
deriving DecidableEq, Repr

namespace SigStack

def isActive (s : SigStack) : Bool := s.handlerCounter != 0 && !s.autodisarm

def isDisabled (s : SigStack) : Bool := s.handlerCounter != 0 && s.autodisarm

end SigStack

/-- What signals read and write of a thread. -/
structure Thread where
  sigMask : SigMask
  sigContext : Option Nat
  sigStack : Option SigStack
  regs : GeneralRegs
  space : UserSpace

/-- `write_bytes_to_user` and `write_val_to_user`. -/
def writeBytesToUser (addr : Nat) (bytes : List UInt8) : Comp Thread Errno Unit := fun t =>
  if t.space.Mapped addr bytes.length then .ok () { t with space := { t.space with mem := poke t.space.mem addr bytes } }
  else .err .EFAULT t

/-- `read_val_from_user` of a value of `n` words. -/
def readWordsFromUser (addr n : Nat) : Comp Thread Errno (List Word) := fun t =>
  if t.space.Mapped addr (8 * n) then .ok (peekWords t.space.mem addr n) t else .err .EFAULT t

/-! ## `rt_sigprocmask` -/

inductive MaskOp where
  | block
  | unblock
  | setMask
deriving DecidableEq, Repr

namespace MaskOp

def tryFrom : Nat → Option MaskOp
  | 0 => some .block
  | 1 => some .unblock
  | 2 => some .setMask
  | _ => none

/-- The mask after an operation with a set. -/
def apply (op : MaskOp) (sigMask newSet : Word) : SigMask :=
  match op with
  | .block => SigMask.block sigMask (SigMask.removeSignal (SigMask.removeSignal newSet SIGKILL) SIGSTOP)
  | .unblock => SigMask.unblock sigMask newSet
  | .setMask => newSet

end MaskOp

/-- The part of `do_rt_sigprocmask` for a set. -/
def updateMask (maskOp : MaskOp) (setPtr : Nat) : Comp Thread Errno Unit := do
  let newSet ← readWordsFromUser setPtr 1
  modify fun t => { t with sigMask := maskOp.apply t.sigMask (newSet[0]?.getD 0) }

def doRtSigprocmask (maskOp : MaskOp) (setPtr oldsetPtr : Nat) : Comp Thread Errno Unit := do
  let t ← get
  when (oldsetPtr != 0) (writeBytesToUser oldsetPtr (wordBytes [t.sigMask]))
  when (setPtr != 0) (updateMask maskOp setPtr)

def sysRtSigprocmask (how setPtr oldsetPtr : Nat) : Comp Thread Errno Unit := do
  let maskOp ← expect (MaskOp.tryFrom how)
  unwrap (doRtSigprocmask maskOp setPtr oldsetPtr)

/-! ## The entry of a handler -/

/-- The length of a `siginfo_t`. -/
def SIGINFO_SIZE : Nat := 128

/-- `siginfo_t`. -/
structure SigInfo where
  bytes : List UInt8
  length_eq : bytes.length = SIGINFO_SIZE

/-- The signals that a handler blocks. -/
def handlerMask (sigNum : SigNum) (flags : SigActionFlags) (mask : SigMask) : SigMask :=
  if flags.contains .SA_NODEFER then mask else SigMask.block mask (SigMask.ofSigNum sigNum)

def alignDown (n align : Nat) : Nat := n - n % align

def useAlternateSignalStack (p : Profile) : Comp Thread Errno (Option Nat) := do
  let t ← get
  match t.sigStack with
  | none => pure none
  | some sigStack =>
    if sigStack.isDisabled then pure none
    else do
      set { t with sigStack := some { sigStack with handlerCounter := sigStack.handlerCounter + 1 } }
      if sigStack.isActive then pure none
      else do
        let top ← uadd p sigStack.base sigStack.size
        pure (some (alignDown top 16))

def writeU64ToUserStack (p : Profile) (rsp : Nat) (value : Word) : Comp Thread Errno Nat := do
  let rsp ← usub p rsp 8
  writeBytesToUser rsp (wordBytes [value])
  pure rsp

/-- `alloc_aligned_in_user_stack`; the alignment is a power of two. -/
def allocAlignedInUserStack (p : Profile) (rsp size align : Nat) : Comp Thread Errno Nat := do
  let start ← usub p rsp size
  pure (alignDown start align)

/-- `mov eax, 15; syscall; nop`. -/
def TRAMPOLINE : List UInt8 := [0xb8, 0x0f, 0x00, 0x00, 0x00, 0x0f, 0x05, 0x90]

/-- The return address of the handler: that of the restorer or that of a trampoline on the stack. -/
def writeReturnAddr (p : Profile) (flags : SigActionFlags) (restorerAddr : Word) (stackPointer : Nat) :
    Comp Thread Errno Nat :=
  if flags.contains .SA_RESTORER then writeU64ToUserStack p stackPointer restorerAddr
  else do
    let trampolineRip ← usub p stackPointer TRAMPOLINE.length
    writeBytesToUser trampolineRip TRAMPOLINE
    writeU64ToUserStack p trampolineRip (BitVec.ofNat 64 trampolineRip)

/-- The registers with which the handler starts. -/
def handlerRegs (regs : GeneralRegs) (sigNum : SigNum) (handlerAddr : Word) (flags : SigActionFlags)
    (stackPointer siginfoAddr ucontextAddr : Nat) : GeneralRegs :=
  { regs with
    rip := handlerAddr
    rsp := BitVec.ofNat 64 stackPointer
    rdi := BitVec.ofNat 64 sigNum.val
    rsi := if flags.contains .SA_SIGINFO then BitVec.ofNat 64 siginfoAddr else 0
    rdx := if flags.contains .SA_SIGINFO then BitVec.ofNat 64 ucontextAddr else 0 }

/-- The frame that is saved when a handler is entered. -/
def Thread.ucontext (t : Thread) (mask : SigMask) : UContext := ⟨BitVec.ofNat 64 (t.sigContext.getD 0), t.regs, mask⟩

/-- The part of `handle_user_signal` after the mask and the stack pointer have been set. -/
def pushFrame (p : Profile) (sigNum : SigNum) (handlerAddr : Word) (flags : SigActionFlags) (restorerAddr : Word)
    (mask : SigMask) (sigInfo : SigInfo) (stackPointer : Nat) : Comp Thread Errno Unit := do
  let stackPointer ← usub p stackPointer 128
  let siginfoAddr ← usub p stackPointer SIGINFO_SIZE
  writeBytesToUser siginfoAddr sigInfo.bytes
  let ucontextAddr ← allocAlignedInUserStack p siginfoAddr (8 * UContext.WORDS) 16
  let t ← get
  writeBytesToUser ucontextAddr (wordBytes (t.ucontext mask).words)
  modify fun t => { t with sigContext := some ucontextAddr }
  let stackPointer ← writeReturnAddr p flags restorerAddr ucontextAddr
  modify fun t => { t with
    regs := handlerRegs t.regs sigNum handlerAddr flags stackPointer siginfoAddr ucontextAddr }

def handleUserSignal (p : Profile) (sigNum : SigNum) (handlerAddr : Word) (flags : SigActionFlags)
    (restorerAddr : Word)
    (mask : SigMask) (sigInfo : SigInfo) : Comp Thread Errno Unit := do
  assert (!flags.containsUnsupportedFlag)
  let mask := handlerMask sigNum flags mask
  modify fun t => { t with sigMask := SigMask.block t.sigMask mask }
  let alternate ← useAlternateSignalStack p
  let t ← get
  pushFrame p sigNum handlerAddr flags restorerAddr mask sigInfo (alternate.getD t.regs.rsp.toNat)

/-! ## `rt_sigreturn` -/

/-- The stack is left by the handler when the stack pointer is in it. -/
def leaveSigStack (p : Profile) : Comp Thread Errno Unit := do
  let t ← get
  match t.sigStack with
  | none => pure ()
  | some sigStack =>
    if sigStack.base ≤ t.regs.rsp.toNat then do
      let top ← uadd p sigStack.base sigStack.size
      if t.regs.rsp.toNat ≤ top then do
        let handlerCounter ← usub p sigStack.handlerCounter 1
        set { t with sigStack := some { sigStack with handlerCounter := handlerCounter } }
      else pure ()
    else pure ()

def sysRtSigreturn (p : Profile) : Comp Thread Errno Unit := do
  let t ← get
  match t.sigContext with
  | none => fail .EINVAL
  | some sigContextAddr => do
    debugAssert p (sigContextAddr == t.regs.rsp.toNat)
    let ws ← readWordsFromUser sigContextAddr UContext.WORDS
    let ucontext := UContext.ofWords ws
    leaveSigStack p
    modify fun t => { t with
      sigContext := if ucontext.ucLink = 0 then none else some ucontext.ucLink.toNat
      regs := ucontext.gpRegs
      sigMask := SigMask.unblock t.sigMask ucontext.ucSigmask }

/-! ## The accesses to user memory -/

variable {addr n : Nat} {bytes : List UInt8} {ws : List Word} {u : Unit} {p : Profile} {t t' : Thread}

theorem writeBytesToUser_ok : writeBytesToUser addr bytes t = .ok u t' ↔
      t.space.Mapped addr bytes.length ∧ t' = { t with space := { t.space with mem := poke t.space.mem addr bytes } }
        := by
  unfold writeBytesToUser
  split
  case isTrue hmapped =>
    constructor
    · intro h
      cases h
      exact ⟨hmapped, rfl⟩
    · rintro ⟨-, rfl⟩
      rfl
  case isFalse hunmapped => exact ⟨nofun, fun h => absurd h.1 hunmapped⟩

theorem readWordsFromUser_ok (h : readWordsFromUser addr n t = .ok ws t') :
    peekWords t.space.mem addr n = ws ∧ t = t' := by
  unfold readWordsFromUser at h
  split at h
  · cases h
    exact ⟨rfl, rfl⟩
  · cases h

/-- Only the counter of the alternate stack changes. -/
theorem leaveSigStack_final (h : (leaveSigStack p t).final = some t') :
    ∃ sigStack, t' = { t with sigStack := sigStack } := by
  have hsame : ∃ sigStack, t = { t with sigStack := sigStack } := ⟨t.sigStack, rfl⟩
  unfold leaveSigStack at h
  rw [get_bind] at h
  cases hstack : t.sigStack with
  | none =>
    rw [hstack] at h
    rwa [pure_final.mp h]
  | some sigStack =>
    rw [hstack] at h
    dsimp only at h
    split at h
    case isFalse => rwa [pure_final.mp h]
    case isTrue =>
      rcases bind_final.mp h with ⟨e, herr⟩ | ⟨top, t₁, htop, h⟩
      · exact absurd herr checked_not_err
      · obtain ⟨-, rfl, -⟩ := uadd_ok.mp htop
        split at h
        case isFalse => rwa [pure_final.mp h]
        case isTrue =>
          rcases bind_final.mp h with ⟨e, herr⟩ | ⟨n, t₂, hn, h⟩
          · exact absurd herr checked_not_err
          · cases h
            exact ⟨_, rfl⟩

end AsterKernel.Signal
