import AsterKernel.Signal.Frame

/-!
# `Signal.Mask` — signals that cannot be blocked

`SIGKILL` and `SIGSTOP` must not be blocked. `rt_sigprocmask` removes them from a set that is to be blocked, but not
from a set that becomes the mask, and the mask of a handler is not looked at, neither when the handler is installed,
which may be one for these signals, nor when it is entered.

The threads of a process share their dispositions. A step of user code may change everything of a thread but its mask
and the address of its last frame.
-/

namespace AsterKernel.Signal

open Lib Lib.Comp SigMask

/-! ## Calls -/

/-- A thread and the dispositions of its process. -/
structure Caller where
  thread : Thread
  dispositions : SigNum → SigAction

def onThread {α : Type} (m : Comp Thread Errno α) : Comp Caller Errno α := zoom Caller.thread
    (fun t c => { c with thread := t }) m

/-- `SigDispositions::set`. -/
def setAction (sigNum : SigNum) (sigActionAddr : Nat) : Comp Caller Errno Unit := do
  let sigActionC ← onThread (readWordsFromUser sigActionAddr 4)
  modify fun c => { c with dispositions := Function.update c.dispositions sigNum (.ofCType sigActionC) }

def sysRtSigaction (sigNum sigActionAddr oldSigActionAddr : Nat) : Comp Caller Errno Unit :=
  match SigNum.tryFrom sigNum with
  | none => fail .EINVAL
  | some sigNum => do
    let c ← get
    when (oldSigActionAddr != 0)
      (onThread (writeBytesToUser oldSigActionAddr (wordBytes (c.dispositions sigNum).asCType)))
    when (sigActionAddr != 0) (setAction sigNum sigActionAddr)

/-- `handle_pending_signal` for a signal that has been dequeued. The default actions do not touch the mask. -/
def handlePendingSignal (p : Profile) (sigAction : SigAction) (sigNum : SigNum) (sigInfo : SigInfo) : Comp
    Thread Errno Unit :=
  match sigAction with
  | .ign => pure ()
  | .user handlerAddr flags restorerAddr mask => handleUserSignal p sigNum handlerAddr flags restorerAddr mask sigInfo
  | .dfl => pure ()

structure Sys where
  threads : Nat → Thread
  dispositions : SigNum → SigAction

inductive Op where
  | sigprocmask (how setPtr oldsetPtr : Nat)
  | sigaction (sigNum sigActionAddr oldSigActionAddr : Nat)
  | deliver (sigNum : SigNum) (sigInfo : SigInfo)
  | sigreturn
  | user (regs : GeneralRegs) (space : UserSpace) (sigStack : Option SigStack)

namespace Sys

/-- The caller's view. -/
def caller (s : Sys) (tid : Nat) : Caller := ⟨s.threads tid, s.dispositions⟩

def put (s : Sys) (tid : Nat) (c : Caller) : Sys := ⟨Function.update s.threads tid c.thread, c.dispositions⟩

end Sys

namespace Op

/-- What an operation computes. A signal that is delivered is not blocked. -/
def body (p : Profile) (c : Caller) : Op → Comp Caller Errno Unit
  | .sigprocmask how setPtr oldsetPtr => onThread (sysRtSigprocmask how setPtr oldsetPtr)
  | .sigaction sigNum sigActionAddr oldSigActionAddr => sysRtSigaction sigNum sigActionAddr oldSigActionAddr
  | .deliver sigNum sigInfo =>
    if SigMask.contains c.thread.sigMask sigNum then abort
    else onThread (handlePendingSignal p (c.dispositions sigNum) sigNum sigInfo)
  | .sigreturn => onThread (sysRtSigreturn p)
  | .user regs space sigStack => onThread (modify fun t =>
    { t with regs := regs, space := space, sigStack := sigStack })

/-- The state after a thread's operation, whether it fails or not; `none` when there is none. -/
def run (p : Profile) (tid : Nat) (op : Op) (s : Sys) : Option Sys :=
  ((op.body p (s.caller tid)) (s.caller tid)).final.map (s.put tid)

end Op

/-- The states that operations which meet a condition lead to, from threads that block nothing. -/
inductive Run (p : Profile) (cond : Sys → Nat → Op → Prop) : Sys → Prop
  | new (s : Sys) (hmask : ∀ tid, (s.threads tid).sigMask = 0) : Run p cond s
  | step {s t : Sys} (h : Run p cond s) (tid : Nat) (op : Op) (hcond : cond s tid op)
      (hrun : op.run p tid s = some t) :
      Run p cond t

/-! ## What the calls do to the mask -/

theorem writeBytesToUser_mask (addr : Nat) (bytes : List UInt8) : Keeps Thread.sigMask
    (writeBytesToUser addr bytes) := by
  intro t t' h
  unfold writeBytesToUser at h
  split at h
  · cases h
    rfl
  · cases h
    rfl

theorem readWordsFromUser_reads (addr n : Nat) : Reads (readWordsFromUser addr n) := by
  intro t t' h
  unfold readWordsFromUser at h
  split at h
  · exact (Option.some.inj h).symm
  · exact (Option.some.inj h).symm

theorem useAlternateSignalStack_mask (p : Profile) : Keeps Thread.sigMask (useAlternateSignalStack p) := by
  intro t t' h
  unfold useAlternateSignalStack at h
  rw [get_bind] at h
  cases hstack : t.sigStack with
  | none =>
    rw [hstack] at h
    rw [pure_final.mp h]
  | some sigStack =>
    rw [hstack] at h
    dsimp only at h
    split at h
    case isTrue => rw [pure_final.mp h]
    case isFalse =>
      rw [set_bind] at h
      split at h
      case isTrue => rw [pure_final.mp h]
      case isFalse => rw [((Reads.uadd p _ _).bind fun _ => Reads.pure _) _ _ h]

theorem writeReturnAddr_mask (p : Profile) (flags : SigActionFlags) (restorerAddr : Word) (sp : Nat) :
    Keeps Thread.sigMask (writeReturnAddr p flags restorerAddr sp) := by
  have hpush : ∀ rsp value, Keeps Thread.sigMask (writeU64ToUserStack p rsp value) := fun rsp value =>
    (Reads.usub p rsp 8).keeps.bind fun rsp => (writeBytesToUser_mask rsp _).bind fun _ => (Reads.pure rsp).keeps
  refine Keeps.ite (hpush _ _) ?_
  exact (Reads.usub p _ _).keeps.bind fun rip => (writeBytesToUser_mask rip _).bind fun _ => hpush _ _

theorem pushFrame_mask (p : Profile) (sigNum : SigNum) (handlerAddr : Word) (flags : SigActionFlags)
    (restorerAddr : Word) (mask : SigMask) (sigInfo : SigInfo) (sp : Nat) :
    Keeps Thread.sigMask (pushFrame p sigNum handlerAddr flags restorerAddr mask sigInfo sp) := by
  refine (Reads.usub p _ _).keeps.bind fun _ => (Reads.usub p _ _).keeps.bind fun _ => ?_
  refine (writeBytesToUser_mask _ _).bind fun _ =>
    ((Reads.usub p _ _).bind fun _ => Reads.pure _).keeps.bind fun _ => ?_
  refine Reads.get.keeps.bind fun _ => (writeBytesToUser_mask _ _).bind fun _ => Keeps.bind ?_ fun _ => ?_
  · exact Keeps.modify (by intro t; rfl)
  · exact (writeReturnAddr_mask p _ _ _).bind fun _ => Keeps.modify (by intro t; rfl)

theorem leaveSigStack_mask (p : Profile) : Keeps Thread.sigMask (leaveSigStack p) := by
  intro t t' h
  obtain ⟨_, rfl⟩ := leaveSigStack_final h
  rfl

variable {p : Profile} {t t' : Thread} {c c' : Caller}

/-- The entry of a handler blocks its signals, even when it fails. -/
theorem handleUserSignal_mask {sigNum : SigNum} {handlerAddr : Word} {flags : SigActionFlags} {restorerAddr : Word}
    {mask : SigMask} {sigInfo : SigInfo}
    (h : (handleUserSignal p sigNum handlerAddr flags restorerAddr mask sigInfo t).final = some t') :
    t'.sigMask = block t.sigMask (handlerMask sigNum flags mask) := by
  rcases bind_final.mp h with ⟨e, herr⟩ | ⟨u, t₁, hassert, h⟩
  · exact absurd herr assert_not_err
  obtain ⟨-, rfl⟩ := assert_ok.mp hassert
  rw [modify_bind] at h
  have hrest := (useAlternateSignalStack_mask p).bind fun alternate => Reads.get.keeps.bind fun t =>
    pushFrame_mask p sigNum handlerAddr flags restorerAddr (handlerMask sigNum flags mask) sigInfo
      (alternate.getD t.regs.rsp.toNat)
  exact hrest _ _ h

theorem sysRtSigreturn_mask (h : (sysRtSigreturn p t).final = some t') :
    ∃ sets, t'.sigMask = unblock t.sigMask sets := by
  have hnone : t.sigMask = unblock t.sigMask 0 := by
    unfold unblock
    exact (BitVec.and_allOnes).symm
  unfold sysRtSigreturn at h
  rw [get_bind] at h
  cases hcontext : t.sigContext with
  | none =>
    rw [hcontext] at h
    exact ⟨0, by rw [← Option.some.inj h]; exact hnone⟩
  | some addr =>
    rw [hcontext] at h
    rcases (Reads.debugAssert p _).bind_final h with rfl | ⟨u, -, h₁⟩
    · exact ⟨0, hnone⟩
    rcases (readWordsFromUser_reads _ _).bind_final h₁ with rfl | ⟨ws, -, h₂⟩
    · exact ⟨0, hnone⟩
    rcases bind_final.mp h₂ with ⟨e, herr⟩ | ⟨u, t₃, hleave, h₃⟩
    · exact ⟨0, by rw [leaveSigStack_mask p t t' (by rw [herr]; rfl)]; exact hnone⟩
    · refine ⟨(UContext.ofWords ws).ucSigmask, ?_⟩
      rw [modify_final.mp h₃]
      show unblock t₃.sigMask _ = _
      rw [leaveSigStack_mask p t t₃ (by rw [hleave]; rfl)]

/-- The set that `rt_sigprocmask` reads, after it has written the old mask. -/
def Thread.newSet (t : Thread) (setPtr oldsetPtr : Nat) : Word :=
  let mem := if oldsetPtr = 0 then t.space.mem else poke t.space.mem oldsetPtr (wordBytes [t.sigMask])
  (peekWords mem setPtr 1)[0]?.getD 0

theorem updateMask_mask {maskOp : MaskOp} {setPtr : Nat} {u : Unit} (h : updateMask maskOp setPtr t = .ok u t') :
    t'.sigMask = maskOp.apply t.sigMask ((peekWords t.space.mem setPtr 1)[0]?.getD 0) := by
  obtain ⟨ws, t₁, hread, hset⟩ := bind_ok.mp h
  obtain ⟨rfl, rfl⟩ := readWordsFromUser_ok hread
  rw [← modify_ok.mp hset]

theorem sysRtSigprocmask_mask {how setPtr oldsetPtr : Nat}
    (h : (sysRtSigprocmask how setPtr oldsetPtr t).final = some t') :
    t'.sigMask = t.sigMask ∨ setPtr ≠ 0 ∧ ∃ maskOp, MaskOp.tryFrom how = some maskOp ∧
      t'.sigMask = maskOp.apply t.sigMask (t.newSet setPtr oldsetPtr) := by
  obtain ⟨maskOp, hop, h⟩ := expect_bind_final.mp h
  -- An error of the inner function panics here, so it has succeeded.
  obtain ⟨u, hdo⟩ : ∃ u, doRtSigprocmask maskOp setPtr oldsetPtr t = .ok u t' := by
    unfold unwrap at h
    cases hdo : doRtSigprocmask maskOp setPtr oldsetPtr t with
    | ok u t₁ =>
      rw [hdo] at h
      exact ⟨u, by rw [Option.some.inj h]⟩
    | err e t₁ | panic =>
      rw [hdo] at h
      cases h
  unfold doRtSigprocmask at hdo
  rw [get_bind] at hdo
  obtain ⟨_, t₁, hold, hnew⟩ := bind_ok.mp hdo
  have hmask : t₁.sigMask = t.sigMask := Keeps.when (writeBytesToUser_mask _ _) t t₁ (by rw [hold]; rfl)
  have hmem : t₁.space.mem = if oldsetPtr = 0 then t.space.mem else poke t.space.mem oldsetPtr
    (wordBytes [t.sigMask]) := by
    rcases when_ok.mp hold with ⟨hptr, hwrite⟩ | ⟨hptr, rfl⟩
    · rw [if_neg (by simpa using hptr)]
      obtain ⟨-, rfl⟩ := writeBytesToUser_ok.mp hwrite
      rfl
    · rw [if_pos (by simpa using hptr)]
  rcases when_ok.mp hnew with ⟨hne, hupdate⟩ | ⟨-, rfl⟩
  · refine .inr ⟨by simpa using hne, maskOp, hop, ?_⟩
    unfold Thread.newSet
    rw [updateMask_mask hupdate, hmask, hmem]
  · exact .inl hmask

theorem onThread_final {α : Type} {m : Comp Thread Errno α} (h : (onThread m c).final = some c') :
    ∃ t, (m c.thread).final = some t ∧ c' = { c with thread := t } := zoom_final h

theorem sysRtSigaction_mask (sigNum sigActionAddr oldSigActionAddr : Nat) :
    Keeps (fun c : Caller => c.thread.sigMask) (sysRtSigaction sigNum sigActionAddr oldSigActionAddr) := by
  have honThread : ∀ {α : Type} {m : Comp Thread Errno α}, Keeps Thread.sigMask m →
      Keeps (fun c : Caller => c.thread.sigMask) (onThread m) := by
    intro α m hm c c' h
    obtain ⟨t, ht, rfl⟩ := onThread_final h
    exact hm c.thread t ht
  unfold sysRtSigaction
  cases SigNum.tryFrom sigNum with
  | none => exact (Reads.fail _).keeps
  | some sigNum =>
    refine Reads.get.keeps.bind fun c => (Keeps.when (honThread (writeBytesToUser_mask _ _))).bind fun _
      => Keeps.when ?_
    refine (honThread (readWordsFromUser_reads _ _).keeps).bind fun _ => Keeps.modify ?_
    intro c
    rfl

/-! ## Signals that cannot be blocked -/

/-- The signals that cannot be blocked. -/
def UNBLOCKABLE : SigMask := SigMask.ofSigNum SIGKILL ||| SigMask.ofSigNum SIGSTOP

/-- A set leaves them out. -/
def Spares (sets : Word) : Prop := sets &&& UNBLOCKABLE = 0#64

namespace Spares

variable {a b : Word}

theorem block (ha : Spares a) (hb : Spares b) : Spares (SigMask.block a b) := by
  unfold Spares SigMask.block at *
  rw [BitVec.and_comm, BitVec.and_or_distrib_left, BitVec.and_comm, ha, BitVec.and_comm, hb]
  rfl

theorem unblock (ha : Spares a) (b : Word) : Spares (SigMask.unblock a b) := by
  unfold Spares SigMask.unblock at *
  rw [BitVec.and_assoc, BitVec.and_comm (~~~b), ← BitVec.and_assoc, ha, BitVec.zero_and]

theorem removeSignals (a : Word) : Spares (removeSignal (removeSignal a SIGKILL) SIGSTOP) := by
  unfold Spares removeSignal
  have hnone : ~~~ofSigNum SIGKILL &&& (~~~ofSigNum SIGSTOP &&& UNBLOCKABLE) = 0#64 := by decide
  rw [BitVec.and_assoc, BitVec.and_assoc, hnone, BitVec.and_zero]

theorem apply (ha : Spares a) {op : MaskOp} (hset : op = .setMask → Spares b) : Spares (op.apply a b) := by
  cases op with
  | block => exact ha.block (removeSignals b)
  | unblock => exact ha.unblock b
  | setMask => exact hset rfl

theorem contains (ha : Spares a) {n : SigNum} (hn : SigMask.ofSigNum n = UNBLOCKABLE &&& SigMask.ofSigNum n) :
    SigMask.contains a n = false := by
  unfold SigMask.contains
  rw [hn, ← BitVec.and_assoc, ha, BitVec.zero_and]
  rfl

end Spares

/-- A set that becomes the mask and the mask of a handler that is entered leave the two signals out. -/
def Op.Filtered (c : Caller) : Op → Prop
  | .sigprocmask how setPtr oldsetPtr =>
    MaskOp.tryFrom how = some .setMask → setPtr ≠ 0 → Spares (c.thread.newSet setPtr oldsetPtr)
  | .deliver sigNum _ => ∀ handlerAddr flags restorerAddr mask,
    c.dispositions sigNum = .user handlerAddr flags restorerAddr mask → Spares (handlerMask sigNum flags mask)
  | _ => True

theorem Spares.body {op : Op} (hc : Spares c.thread.sigMask) (hcond : op.Filtered c)
    (h : (op.body p c c).final = some c') : Spares c'.thread.sigMask := by
  cases op with
  | sigprocmask how setPtr oldsetPtr =>
    obtain ⟨t, ht, rfl⟩ := onThread_final h
    rcases sysRtSigprocmask_mask ht with hmask | ⟨hptr, maskOp, hop, hmask⟩
    · rwa [← hmask] at hc
    · show Spares t.sigMask
      rw [hmask]
      exact hc.apply fun hset => hcond (hset ▸ hop) hptr
  | sigaction sigNum sigActionAddr oldSigActionAddr =>
    have hmask : c'.thread.sigMask = c.thread.sigMask := sysRtSigaction_mask _ _ _ c c' h
    rwa [← hmask] at hc
  | deliver sigNum sigInfo =>
    rw [Op.body] at h
    by_cases hblocked : SigMask.contains c.thread.sigMask sigNum = true
    case pos =>
      rw [if_pos hblocked] at h
      cases h
    case neg =>
      rw [if_neg hblocked] at h
      obtain ⟨t, ht, rfl⟩ := onThread_final h
      unfold handlePendingSignal at ht
      cases haction : c.dispositions sigNum with
      | dfl | ign =>
        rw [haction] at ht
        rwa [← pure_final.mp ht] at hc
      | user handlerAddr flags restorerAddr mask =>
        rw [haction] at ht
        show Spares t.sigMask
        rw [handleUserSignal_mask ht]
        exact hc.block (hcond _ _ _ _ haction)
  | sigreturn =>
    obtain ⟨t, ht, rfl⟩ := onThread_final h
    obtain ⟨sets, hmask⟩ := sysRtSigreturn_mask ht
    show Spares t.sigMask
    rw [hmask]
    exact hc.unblock sets
  | user regs space sigStack =>
    obtain ⟨t, ht, rfl⟩ := onThread_final h
    show Spares t.sigMask
    rw [modify_final.mp ht]
    exact hc

theorem Spares.run {op : Op} {tid : Nat} {s s' : Sys} (hs : ∀ i, Spares (s.threads i).sigMask)
    (hcond : op.Filtered (s.caller tid)) (h : op.run p tid s = some s') (i : Nat) : Spares
      (s'.threads i).sigMask := by
  obtain ⟨c, hc, rfl⟩ := Option.map_eq_some_iff.mp h
  by_cases hi : i = tid
  · subst hi
    show Spares (Function.update s.threads i c.thread i).sigMask
    rw [Function.update_self]
    exact (hs i).body hcond hc
  · show Spares (Function.update s.threads tid c.thread i).sigMask
    rw [Function.update_of_ne hi]
    exact hs i

/-- **No thread blocks `SIGKILL` or `SIGSTOP`** in a run in which the sets that become a mask and the masks of the
handlers that are entered leave them out. -/
theorem unblockable {p : Profile} {s : Sys} (h : Run p (fun s tid op => op.Filtered (s.caller tid)) s) (tid : Nat) :
    SigMask.contains (s.threads tid).sigMask SIGKILL = false ∧ SigMask.contains (s.threads tid).sigMask
      SIGSTOP = false := by
  have hspares : ∀ i, Spares (s.threads i).sigMask := by
    induction h with
    | new s hmask =>
      intro i
      rw [hmask i]
      rfl
    | step _ tid op hcond hrun ih => exact Spares.run ih hcond hrun
  exact ⟨(hspares tid).contains (by decide), (hspares tid).contains (by decide)⟩

/-- Memory with a set of `SIGINT`, `SIGKILL` and `SIGSTOP` at its start. -/
def setSpace : UserSpace :=
  { stackSpace with
    mem := fun a => if a = 0x10000 then 0x02 else if a = 0x10001 then 0x01 else if a = 0x10002 then 0x04 else 0 }

def zeroRegs : GeneralRegs := .ofWords []

/-- Threads that block nothing. -/
def idle : Sys := ⟨fun _ => ⟨0, none, none, zeroRegs, setSpace⟩, fun _ => .dfl⟩

theorem unblockable_block : ∃ s, (Op.sigprocmask 0 0x10000 0).run .release 0 idle = some s ∧
    (s.threads 0).sigMask = 0x2#64 ∧ SigMask.contains (s.threads 0).sigMask SIGKILL = false := by
  refine ⟨_, rfl, by decide, (unblockable (p := .release) (.step (.new idle fun _ => rfl) 0 (.sigprocmask 0 0x10000 0) ?_ rfl) 0).1⟩
  intro hset
  cases hset

/-- **A thread blocks `SIGKILL` and `SIGSTOP`**: they are in the set that becomes its mask. -/
theorem setmask_blocks_kill : ∃ s, Run .release (fun _ _ _ => True) s ∧
    SigMask.contains (s.threads 0).sigMask SIGKILL = true ∧ SigMask.contains (s.threads 0).sigMask SIGSTOP = true :=
  ⟨_, .step (.new idle fun _ => rfl) 0 (.sigprocmask 2 0x10000 0) trivial rfl, by decide, by decide⟩

end AsterKernel.Signal
