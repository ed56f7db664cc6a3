import AsterKernel.Signal.Basic

/-!
# `Signal.Frame` — the frames of nested handlers

Before a handler runs, the registers, the signals that it blocks and the address of the last frame are saved in a
frame on the stack; `rt_sigreturn` takes them back from there. So a thread has a chain of frames in its own memory,
one for each handler that has not returned.

A handler is run from its entry to its return. In between the thread executes user code, which leaves the frames and
the mask alone, and further handlers. The mask is restored only if none of the signals that the handler blocks was
blocked before: a signal that was is not blocked after the return.
-/

namespace AsterKernel.Signal

open Lib Lib.Comp BitVec

/-! ## Frames -/

/-- The length of a frame. -/
def FRAME_SIZE : Nat := 8 * UContext.WORDS

/-- What the entry of a handler uses of the stack at most: a gap and a `siginfo_t` of 128 bytes each, the frame with
up to 15 bytes for its alignment, the trampoline and the return address. -/
def STACK_SIZE : Nat := 128 + SIGINFO_SIZE + FRAME_SIZE + 16 + 16

def frameAt (mem : Mem) (addr : Nat) : UContext := .ofWords (peekWords mem addr UContext.WORDS)

/-- The address of the frame before this one. -/
def UContext.link (u : UContext) : Option Nat := if u.ucLink = 0 then none else some u.ucLink.toNat

theorem UContext.ofWords_words (u : UContext) : UContext.ofWords u.words = u := rfl

theorem UContext.length_words (u : UContext) : u.words.length = UContext.WORDS := rfl

variable {addr : Nat} {space space' : UserSpace} {addrs : List Nat} {β : Type} {p : Profile} {u : Unit}
variable {flags : SigActionFlags} {restorerAddr : Word}

theorem frameAt_poke {mem : Mem} {u : UContext} : frameAt (poke mem addr (wordBytes u.words)) addr = u := by
  unfold frameAt
  rw [← u.length_words, peekWords_pokeWords, u.ofWords_words]

theorem frameAt_congr {mem mem' : Mem} (h : ∀ i, addr ≤ i → i < addr + FRAME_SIZE → mem' i = mem i) :
    frameAt mem' addr = frameAt mem addr := by
  unfold frameAt
  rw [peekWords_congr h]

/-- The frames of the handlers that have not returned, from the last one on. -/
inductive Chain (mem : Mem) : Option Nat → List Nat → Prop
  | nil : Chain mem none []
  | cons {addr : Nat} {addrs : List Nat} (hpos : addr ≠ 0) (hlt : addr < usizeCard)
      (h : Chain mem (frameAt mem addr).link addrs) : Chain mem (some addr) (addr :: addrs)

/-- Frames are left alone. -/
def KeepsFrames (space space' : UserSpace) (addrs : List Nat) : Prop :=
  ∀ addr ∈ addrs, ∀ i, addr ≤ i → i < addr + FRAME_SIZE → space'.mem i = space.mem i ∧ space'.mapped i
    = space.mapped i

section

variable (h : KeepsFrames space space' addrs)
include h

theorem KeepsFrames.frameAt (ha : addr ∈ addrs) : frameAt space'.mem addr = frameAt space.mem addr :=
  frameAt_congr fun i hi hlt => (h addr ha i hi hlt).1

theorem KeepsFrames.trans {space'' : UserSpace}
    (h' : KeepsFrames space' space'' addrs) : KeepsFrames space space'' addrs := by
  intro addr ha i hi hlt
  obtain ⟨hmem, hmapped⟩ := h addr ha i hi hlt
  obtain ⟨hmem', hmapped'⟩ := h' addr ha i hi hlt
  exact ⟨hmem'.trans hmem, hmapped'.trans hmapped⟩

theorem KeepsFrames.chain {context : Option Nat} (hchain : Chain space.mem context addrs) : Chain space'.mem
      context addrs := by
  induction hchain with
  | nil => exact .nil
  | @cons addr addrs hpos hlt _ ih =>
    refine .cons hpos hlt ?_
    rw [h.frameAt List.mem_cons_self]
    exact ih fun a ha => h a (List.mem_cons_of_mem _ ha)

end

variable {t : Thread}

/-- The address of the last frame is saved so that it is read back. -/
theorem Chain.link_ucontext (h : Chain t.space.mem t.sigContext addrs) (mask : SigMask) :
    (t.ucontext mask).link = t.sigContext := by
  unfold UContext.link Thread.ucontext
  generalize t.sigContext = context at h
  cases h with
  | nil => rfl
  | @cons addr addrs hpos hlt _ =>
    have hnat : (BitVec.ofNat 64 addr).toNat = addr := by
      rw [BitVec.toNat_ofNat]
      exact Nat.mod_eq_of_lt hlt
    have hne : BitVec.ofNat 64 addr ≠ 0 := by
      intro hzero
      rw [hzero] at hnat
      exact hpos hnat.symm
    rw [Option.getD_some, if_neg hne, hnat]

/-! ## The entry of a handler -/

/-- A signal that is delivered to a handler. -/
structure Delivery where
  sigNum : SigNum
  handlerAddr : Word
  flags : SigActionFlags
  restorerAddr : Word
  mask : SigMask
  sigInfo : SigInfo

namespace Delivery

def enter (p : Profile) (d : Delivery) : Comp Thread Errno Unit :=
  handleUserSignal p d.sigNum d.handlerAddr d.flags d.restorerAddr d.mask d.sigInfo

def blocks (d : Delivery) : SigMask := handlerMask d.sigNum d.flags d.mask

end Delivery

/-- The stack pointer below which a frame is put. -/
def Thread.entrySp (t : Thread) : Nat :=
  match t.sigStack with
  | none => t.regs.rsp.toNat
  | some sigStack =>
    if sigStack.isDisabled || sigStack.isActive then t.regs.rsp.toNat else alignDown
      (wadd sigStack.base sigStack.size) 16

theorem UserSpace.Mapped.bounds {n : Nat} (h : space.Mapped addr n) (hn : 0 < n) :
    0x10000 ≤ addr ∧ addr + n ≤ 0x7ffffffff000 := by
  have hlast := space.highest _ (h (n - 1) (by omega))
  have hcap : Vm.ROOT_VMAR_CAP_ADDR = 0x7ffffffff000 := rfl
  rw [hcap] at hlast
  exact ⟨space.lowest _ (h 0 hn), by omega⟩

theorem alignDown_bounds (n : Nat) : alignDown n 16 ≤ n ∧ n < alignDown n 16 + 16 := by
  unfold alignDown
  omega

variable {t' : Thread} {bytes : List UInt8} {d : Delivery}

/-- A difference that wraps around is not a user address. -/
theorem usub_bind_user {a b : Nat} {f : Nat → Comp Thread Errno β} {c : β} (h : (usub p a b >>= f) t = .ok c t') :
    ∃ d, f d t = .ok c t' ∧ (b ≤ 4096 → d < 0x800000000000 → b ≤ a ∧ d = a - b) := by
  obtain ⟨-, h⟩ := usub_bind_ok.mp h
  refine ⟨_, h, fun hb hd => ?_⟩
  by_cases hle : b ≤ a
  · exact ⟨hle, if_pos hle⟩
  · have hcard : usizeCard = 18446744073709551616 := rfl
    rw [if_neg hle, wsub, Nat.mod_eq_of_lt (by omega)] at hd
    omega

theorem useAlternateSignalStack_ok {alternate : Option Nat} (h : useAlternateSignalStack p t = .ok alternate t') :
    alternate.getD t'.regs.rsp.toNat = t.entrySp ∧ ∃ sigStack, t' = { t with sigStack := sigStack } := by
  unfold useAlternateSignalStack at h
  rw [get_bind] at h
  unfold Thread.entrySp
  cases hstack : t.sigStack with
  | none =>
    rw [hstack] at h
    obtain ⟨rfl, rfl⟩ := pure_ok.mp h
    exact ⟨rfl, t.sigStack, rfl⟩
  | some sigStack =>
    rw [hstack] at h
    dsimp only at h ⊢
    by_cases hdisabled : sigStack.isDisabled = true
    · rw [if_pos hdisabled] at h
      obtain ⟨rfl, rfl⟩ := pure_ok.mp h
      exact ⟨by rw [hdisabled]; rfl, t.sigStack, rfl⟩
    · rw [if_neg hdisabled, set_bind] at h
      by_cases hactive : sigStack.isActive = true
      · rw [if_pos hactive] at h
        obtain ⟨rfl, rfl⟩ := pure_ok.mp h
        exact ⟨by rw [hactive, Bool.or_true]; rfl, _, rfl⟩
      · rw [if_neg hactive] at h
        obtain ⟨-, h⟩ := uadd_bind_ok.mp h
        obtain ⟨rfl, rfl⟩ := pure_ok.mp h
        refine ⟨?_, _, rfl⟩
        rw [if_neg (by simp [hdisabled, hactive])]
        rfl

theorem writeReturnAddr_ok {sp rsp : Nat} (hsp : 16 ≤ sp)
    (h : writeReturnAddr p flags restorerAddr sp t = .ok rsp t') :
    ∃ mem, t' = { t with space := { t.space with mem := mem } } ∧ SameOutside (sp - 16) sp t.space.mem mem := by
  have hpush : ∀ {sp' value t₁ rsp}, sp - 8 ≤ sp' → sp' ≤ sp → writeU64ToUserStack p sp' value t₁ = .ok rsp t' →
      ∃ mem, t' = { t₁ with space := { t₁.space with mem := mem } } ∧ SameOutside (sp - 16) sp t₁.space.mem mem := by
    intro sp' value t₁ rsp hlo hhi h
    obtain ⟨-, h⟩ := usub_bind_ok.mp h
    rw [if_pos (by omega)] at h
    obtain ⟨_, t₂, hwrite, h⟩ := bind_ok.mp h
    obtain ⟨-, rfl⟩ := writeBytesToUser_ok.mp hwrite
    obtain ⟨-, rfl⟩ := pure_ok.mp h
    exact ⟨_, rfl, .poke (by omega) (by rw [length_wordBytes, List.length_singleton]; omega)⟩
  unfold writeReturnAddr at h
  split at h
  case isTrue => exact hpush (Nat.sub_le _ _) le_rfl h
  case isFalse =>
    have hlen : TRAMPOLINE.length = 8 := rfl
    obtain ⟨-, h⟩ := usub_bind_ok.mp h
    rw [hlen, if_pos (by omega)] at h
    obtain ⟨_, t₁, hwrite, h⟩ := bind_ok.mp h
    obtain ⟨-, rfl⟩ := writeBytesToUser_ok.mp hwrite
    obtain ⟨mem, rfl, hmem⟩ := hpush le_rfl (Nat.sub_le _ _) h
    refine ⟨mem, rfl, SameOutside.trans ?_ hmem⟩
    exact .poke (by omega) (by rw [hlen]; omega)

/-- The state of a thread after the entry of a handler, with its frame at an address. -/
structure Entered (d : Delivery) (addr : Nat) (t t' : Thread) : Prop where
  mask : t'.sigMask = SigMask.block t.sigMask d.blocks
  context : t'.sigContext = some addr
  saved : frameAt t'.space.mem addr = t.ucontext d.blocks
  frame : t.space.Mapped addr FRAME_SIZE
  mapped : t'.space.mapped = t.space.mapped
  rest : SameOutside (t.entrySp - STACK_SIZE) t.entrySp t.space.mem t'.space.mem

theorem pushFrame_ok {sigNum : SigNum} {handlerAddr : Word} {mask : SigMask} {sigInfo : SigInfo} {sp : Nat}
    (h : pushFrame p sigNum handlerAddr flags restorerAddr mask sigInfo sp t = .ok u t') :
    ∃ addr, t'.sigMask = t.sigMask ∧ t'.sigContext = some addr ∧ frameAt t'.space.mem addr = t.ucontext mask ∧
      t.space.Mapped addr FRAME_SIZE ∧ t'.space.mapped = t.space.mapped ∧
      SameOutside (sp - STACK_SIZE) sp t.space.mem t'.space.mem := by
  have hsize : SIGINFO_SIZE = 128 := rfl
  have hstack : STACK_SIZE = 1136 := rfl
  unfold pushFrame at h
  obtain ⟨sp₁, h, hsp₁⟩ := usub_bind_user h
  obtain ⟨siginfoAddr, h, hinfo⟩ := usub_bind_user h
  obtain ⟨_, t₁, hwrite, h⟩ := bind_ok.mp h
  obtain ⟨hmapped, rfl⟩ := writeBytesToUser_ok.mp hwrite
  rw [sigInfo.length_eq] at hmapped
  obtain ⟨addr, t₂, halloc, h⟩ := bind_ok.mp h
  obtain ⟨start, halloc, hstart⟩ := usub_bind_user halloc
  obtain ⟨rfl, rfl⟩ := pure_ok.mp halloc
  rw [get_bind] at h
  obtain ⟨_, t₃, hwrite, h⟩ := bind_ok.mp h
  obtain ⟨hmapped', rfl⟩ := writeBytesToUser_ok.mp hwrite
  rw [length_wordBytes, UContext.length_words] at hmapped'
  rw [modify_bind] at h
  -- The addresses that have been written are user addresses, so no difference has wrapped around.
  have hwords : 8 * UContext.WORDS = 848 := rfl
  have hbounds := hmapped.bounds (by decide)
  have hbounds' := hmapped'.bounds (by decide)
  have halign := alignDown_bounds start
  rw [hsize] at hbounds hinfo
  rw [hwords] at hbounds' hstart
  obtain ⟨rsp, t₄, hreturn, h⟩ := bind_ok.mp h
  obtain ⟨mem, rfl, hmem⟩ := writeReturnAddr_ok (by omega) hreturn
  obtain rfl := modify_ok.mp h
  refine ⟨_, rfl, rfl, ?_, hmapped', rfl, ?_⟩
  · exact (frameAt_congr fun i hi _ => hmem i (.inr hi)).trans frameAt_poke
  · refine (SameOutside.poke (by omega) ?_).trans ((SameOutside.poke (by omega) ?_).trans
      (hmem.mono (by omega) (by omega)))
    · rw [sigInfo.length_eq]
      omega
    · rw [length_wordBytes, UContext.length_words, hwords]
      omega

/-- What the entry of a handler leaves on the stack. -/
theorem Delivery.enter_ok (h : d.enter p t = .ok u t') : ∃ addr, Entered d addr t t' := by
  obtain ⟨_, t₁, hassert, h⟩ := bind_ok.mp h
  obtain ⟨-, rfl⟩ := assert_ok.mp hassert
  rw [modify_bind] at h
  obtain ⟨alternate, t₂, halternate, h⟩ := bind_ok.mp h
  obtain ⟨hsp, sigStack, rfl⟩ := useAlternateSignalStack_ok halternate
  rw [get_bind, hsp] at h
  obtain ⟨addr, hmask, hcontext, hsaved, hframe, hmapped, hrest⟩ := pushFrame_ok h
  exact ⟨addr, hmask, hcontext, hsaved, hframe, hmapped, hrest⟩

/-! A handler is entered when the stack has room for its frame. -/

theorem usub_bind_of_le {a b : Nat} (hle : b ≤ a) (f : Nat → Comp Thread Errno β) (t : Thread) :
    (usub p a b >>= f) t = f (a - b) t := by
  unfold usub
  rw [if_pos hle]
  rfl

theorem allocAlignedInUserStack_bind {rsp size align : Nat} (hle : size ≤ rsp) (f : Nat → Comp Thread Errno β)
    (t : Thread) : (allocAlignedInUserStack p rsp size align >>= f) t = f (alignDown (rsp - size) align) t := by
  unfold allocAlignedInUserStack
  rw [bind_eq, usub_bind_of_le hle]
  rfl

def Thread.write (t : Thread) (addr : Nat) (bytes : List UInt8) : Thread :=
  { t with space := { t.space with mem := poke t.space.mem addr bytes } }

theorem writeBytesToUser_bind (hmapped : t.space.Mapped addr bytes.length)
    (f : Unit → Comp Thread Errno β) : (writeBytesToUser addr bytes >>= f) t = f () (t.write addr bytes) := by
  have hwrite : writeBytesToUser addr bytes t = .ok () (t.write addr bytes) := writeBytesToUser_ok.mpr ⟨hmapped, rfl⟩
  rw [bind_eq, hwrite]

theorem UserSpace.Mapped.sub {n addr' n' : Nat} (h : space.Mapped addr n) (hlo : addr ≤ addr')
    (hhi : addr' + n' ≤ addr + n) : space.Mapped addr' n' := by
  intro i hi
  have hin := h (addr' - addr + i) (by omega)
  rwa [show addr + (addr' - addr + i) = addr' + i by omega] at hin

theorem useAlternateSignalStack_release (t : Thread) : ∃ alternate t', useAlternateSignalStack .release t = .ok
    alternate t' := by
  unfold useAlternateSignalStack
  rw [get_bind]
  cases t.sigStack with
  | none => exact ⟨none, t, rfl⟩
  | some sigStack =>
    dsimp only
    split
    case isTrue => exact ⟨none, t, rfl⟩
    case isFalse =>
      rw [set_bind]
      split
      case isTrue => exact ⟨none, _, rfl⟩
      case isFalse => exact ⟨_, _, uadd_bind_ok.mpr ⟨nofun, rfl⟩⟩

theorem writeReturnAddr_succeeds (sp : Nat) (hsp : 16 ≤ sp) (hroom : t.space.Mapped (sp - 16) 16) :
    ∃ rsp t', writeReturnAddr p flags restorerAddr sp t = .ok rsp t' := by
  have hpush : ∀ {sp' value} {t₁ : Thread}, sp - 8 ≤ sp' → sp' ≤ sp → t₁.space.mapped = t.space.mapped →
      ∃ rsp t', writeU64ToUserStack p sp' value t₁ = .ok rsp t' := by
    intro sp' value t₁ hlo hhi hmapped
    have hword : t₁.space.Mapped (sp' - 8) (wordBytes [value]).length := by
      intro i hi
      rw [length_wordBytes, List.length_singleton] at hi
      rw [hmapped]
      exact (hroom.sub (by omega) (by omega) : t.space.Mapped (sp' - 8) 8) i hi
    unfold writeU64ToUserStack
    rw [usub_bind_of_le (by omega), writeBytesToUser_bind hword]
    exact ⟨_, _, rfl⟩
  have hlen : TRAMPOLINE.length = 8 := rfl
  unfold writeReturnAddr
  split
  case isTrue => exact hpush (Nat.sub_le _ _) le_rfl rfl
  case isFalse =>
    rw [usub_bind_of_le (by omega), writeBytesToUser_bind (hroom.sub (by omega) (by omega))]
    exact hpush (by omega) (by omega) rfl

theorem pushFrame_succeeds (p : Profile) (sigNum : SigNum) (handlerAddr : Word) (flags : SigActionFlags)
    (restorerAddr : Word) (mask : SigMask) (sigInfo : SigInfo) {sp : Nat} (hsp : STACK_SIZE ≤ sp)
    (hroom : t.space.Mapped (sp - STACK_SIZE) STACK_SIZE) :
    ∃ t', pushFrame p sigNum handlerAddr flags restorerAddr mask sigInfo sp t = .ok () t' := by
  have hsize : SIGINFO_SIZE = 128 := rfl
  have hwords : 8 * UContext.WORDS = 848 := rfl
  have hstack : STACK_SIZE = 1136 := rfl
  have halign := alignDown_bounds (sp - 128 - SIGINFO_SIZE - 8 * UContext.WORDS)
  generalize haddr : alignDown (sp - 128 - SIGINFO_SIZE - 8 * UContext.WORDS) 16 = addr at halign
  have hinfo : t.space.Mapped (sp - 128 - SIGINFO_SIZE) sigInfo.bytes.length := by
    rw [sigInfo.length_eq]
    exact hroom.sub (by omega) (by omega)
  unfold pushFrame
  rw [usub_bind_of_le (by omega), usub_bind_of_le (by omega), writeBytesToUser_bind hinfo,
    allocAlignedInUserStack_bind (by omega), haddr, get_bind]
  generalize ht₁ : t.write (sp - 128 - SIGINFO_SIZE) sigInfo.bytes = t₁
  have hroom₁ : t₁.space.Mapped (sp - STACK_SIZE) STACK_SIZE := by
    intro i hi
    rw [← ht₁]
    exact hroom i hi
  have hframe : t₁.space.Mapped addr (wordBytes (t₁.ucontext mask).words).length := by
    rw [length_wordBytes, UContext.length_words]
    exact hroom₁.sub (by omega) (by omega)
  rw [writeBytesToUser_bind hframe, modify_bind]
  generalize ht₂ : ({ t₁.write addr (wordBytes (t₁.ucontext mask).words) with sigContext := some addr } : Thread) = t₂
  have hroom₂ : t₂.space.Mapped (sp - STACK_SIZE) STACK_SIZE := by
    intro i hi
    rw [← ht₂]
    exact hroom₁ i hi
  obtain ⟨rsp, t', hwrite⟩ := writeReturnAddr_succeeds addr (t := t₂) (by omega) (hroom₂.sub (by omega) (by omega))
  exact ⟨_, bind_ok.mpr ⟨rsp, t', hwrite, rfl⟩⟩

theorem Delivery.enter_release (hflags : d.flags.containsUnsupportedFlag = false)
    (hsp : STACK_SIZE ≤ t.entrySp) (hroom : t.space.Mapped (t.entrySp - STACK_SIZE) STACK_SIZE) :
    ∃ t', d.enter .release t = .ok () t' := by
  obtain ⟨alternate, t₁, halternate⟩ :=
    useAlternateSignalStack_release { t with sigMask := SigMask.block t.sigMask d.blocks }
  obtain ⟨halt, sigStack, rfl⟩ := useAlternateSignalStack_ok halternate
  obtain ⟨t', hpush⟩ := pushFrame_succeeds .release d.sigNum d.handlerAddr d.flags d.restorerAddr d.blocks d.sigInfo
    (t := ⟨SigMask.block t.sigMask d.blocks, t.sigContext, sigStack, t.regs, t.space⟩) hsp hroom
  refine ⟨t', bind_ok.mpr ⟨(), t, assert_ok.mpr ⟨by rw [hflags]; rfl, rfl⟩, ?_⟩⟩
  rw [modify_bind]
  refine bind_ok.mpr ⟨alternate, _, halternate, ?_⟩
  rw [get_bind, halt]
  exact hpush

/-! ## The return of a handler -/

/-- In `release` the stack is left without a check. -/
theorem leaveSigStack_release (t : Thread) : ∃ t', leaveSigStack .release t = .ok () t' := by
  unfold leaveSigStack
  rw [get_bind]
  cases t.sigStack with
  | none => exact ⟨t, rfl⟩
  | some sigStack =>
    dsimp only
    split
    case isFalse => exact ⟨t, rfl⟩
    case isTrue =>
      by_cases htop : t.regs.rsp.toNat ≤ wadd sigStack.base sigStack.size
      · exact ⟨_, uadd_bind_ok.mpr ⟨nofun, by rw [if_pos htop]; exact usub_bind_ok.mpr ⟨nofun, rfl⟩⟩⟩
      · exact ⟨_, uadd_bind_ok.mpr ⟨nofun, by rw [if_neg htop]; rfl⟩⟩

theorem sysRtSigreturn_ok (hcontext : t.sigContext = some addr) (h : sysRtSigreturn p t = .ok u t') :
    ∃ sigStack, t' = ⟨SigMask.unblock t.sigMask (frameAt t.space.mem addr).ucSigmask,
      (frameAt t.space.mem addr).link, sigStack,
      (frameAt t.space.mem addr).gpRegs, t.space⟩ := by
  unfold sysRtSigreturn at h
  rw [get_bind, hcontext] at h
  obtain ⟨_, t₁, hassert, h₁⟩ := bind_ok.mp h
  obtain ⟨rfl, -⟩ := debugAssert_ok.mp hassert
  obtain ⟨ws, t₂, hread, h₂⟩ := bind_ok.mp h₁
  obtain ⟨rfl, rfl⟩ := readWordsFromUser_ok hread
  obtain ⟨_, t₃, hleave, h₃⟩ := bind_ok.mp h₂
  obtain ⟨sigStack, rfl⟩ := leaveSigStack_final (by rw [hleave]; rfl)
  obtain rfl := modify_ok.mp h₃
  exact ⟨sigStack, rfl⟩

theorem sysRtSigreturn_release (hcontext : t.sigContext = some addr)
    (hframe : t.space.Mapped addr FRAME_SIZE) : ∃ t', sysRtSigreturn .release t = .ok () t' := by
  obtain ⟨t₁, hleave⟩ := leaveSigStack_release t
  have hread : readWordsFromUser addr UContext.WORDS t = .ok (peekWords t.space.mem addr UContext.WORDS) t
    := if_pos hframe
  unfold sysRtSigreturn
  rw [get_bind, hcontext]
  exact ⟨_, bind_ok.mpr ⟨(), t, rfl, bind_ok.mpr ⟨_, t, hread, bind_ok.mpr ⟨(), t₁, hleave, rfl⟩⟩⟩⟩

/-! ## Nested handlers -/

/-- The frames are left alone, and so are the mask and the address of the last frame. -/
structure Kept (addrs : List Nat) (t t' : Thread) : Prop where
  mask : t'.sigMask = t.sigMask
  context : t'.sigContext = t.sigContext
  frames : KeepsFrames t.space t'.space addrs

/-- What a thread does between the entry and the return of a handler: user code that leaves the frames alone, and
handlers whose entries meet a condition. -/
inductive Body (p : Profile) (cond : Thread → Delivery → Prop) : Thread → Thread → Prop
  | done (t : Thread) : Body p cond t t
  | user {t t' : Thread} (regs : GeneralRegs) (space : UserSpace) (sigStack : Option SigStack)
      (hkeeps : ∀ addrs, Chain t.space.mem t.sigContext addrs → KeepsFrames t.space space addrs)
      (h : Body p cond { t with regs := regs, space := space, sigStack := sigStack } t') : Body p cond t t'
  | handler {t t₁ t₂ t₃ t' : Thread} (d : Delivery) (hcond : cond t d)
      (hunblocked : SigMask.contains t.sigMask d.sigNum = false) (henter : d.enter p t = .ok () t₁)
      (hbody : Body p cond t₁ t₂) (hreturn : sysRtSigreturn p t₂ = .ok () t₃) (h : Body p cond t₃ t') :
        Body p cond t t'

/-- None of the signals that the handler blocks is blocked, and no frame is where its own may be put. -/
def Delivery.Fresh (t : Thread) (d : Delivery) : Prop :=
  t.sigMask &&& d.blocks = 0#64 ∧ ∀ addrs, Chain t.space.mem t.sigContext addrs →
    ∀ addr ∈ addrs, addr + FRAME_SIZE ≤ t.entrySp - STACK_SIZE ∨ t.entrySp ≤ addr

theorem SigMask.unblock_block {a b : Word} (h : a &&& b = 0#64) : SigMask.unblock (SigMask.block a b) b = a := by
  unfold SigMask.unblock SigMask.block
  ext i hi
  have hbit : (a[i] && b[i]) = false := by
    rw [← getElem_and, h, getElem_zero]
  rw [getElem_and, getElem_or, getElem_not]
  revert hbit
  cases a[i] <;> cases b[i] <;> decide

namespace Entered

variable {t t₁ t₂ t₃ : Thread}

section

variable (h : Entered d addr t t₁) (hfresh : d.Fresh t) (hchain : Chain t.space.mem t.sigContext addrs)
include h hfresh hchain

/-- The entry leaves the other frames alone. -/
theorem frames : KeepsFrames t.space t₁.space addrs := by
  intro a ha i hi hlt
  refine ⟨h.rest i ?_, by rw [h.mapped]⟩
  have hclear := hfresh.2 addrs hchain a ha
  omega

theorem chain : Chain t₁.space.mem t₁.sigContext (addr :: addrs) := by
  have hbounds := h.frame.bounds (by decide)
  have hcard : usizeCard = 18446744073709551616 := rfl
  rw [h.context]
  refine .cons (by omega) (by omega) ?_
  rw [h.saved, hchain.link_ucontext]
  exact (h.frames hfresh hchain).chain hchain

theorem returned (hkept : Kept (addr :: addrs) t₁ t₂) (hreturn : sysRtSigreturn p t₂ = .ok () t₃) :
    t₃.regs = t.regs ∧ Kept addrs t t₃ := by
  have hframe : frameAt t₂.space.mem addr = t.ucontext d.blocks := by
    rw [hkept.frames.frameAt List.mem_cons_self, h.saved]
  obtain ⟨sigStack, rfl⟩ := sysRtSigreturn_ok (hkept.context.trans h.context) hreturn
  rw [hframe, hkept.mask, h.mask]
  refine ⟨rfl, SigMask.unblock_block hfresh.1, hchain.link_ucontext _, ?_⟩
  exact (h.frames hfresh hchain).trans fun a ha => hkept.frames a (List.mem_cons_of_mem _ ha)

end

end Entered

/-- Between the entry and the return of a handler nothing changes that the return needs. -/
theorem Body.kept (h : Body p (fun t d => d.Fresh t) t t')
    (hchain : Chain t.space.mem t.sigContext addrs) : Kept addrs t t' := by
  induction h generalizing addrs with
  | done t => exact ⟨rfl, rfl, fun _ _ _ _ _ => ⟨rfl, rfl⟩⟩
  | user regs space sigStack hkeeps _ ih =>
    have hframes := hkeeps addrs hchain
    have hrest := ih (hframes.chain hchain)
    exact ⟨hrest.mask, hrest.context, hframes.trans hrest.frames⟩
  | handler d hfresh _ henter _ hreturn _ ihbody ih =>
    obtain ⟨addr, hentered⟩ := Delivery.enter_ok henter
    obtain ⟨-, hkept⟩ := hentered.returned hfresh hchain (ihbody (hentered.chain hfresh hchain)) hreturn
    have hrest := ih (by rw [hkept.context]; exact hkept.frames.chain hchain)
    exact ⟨hrest.mask.trans hkept.mask, hrest.context.trans hkept.context, hkept.frames.trans hrest.frames⟩

/-- **Handlers are transparent**: when a handler returns, the registers, the mask and the saved contexts are those
before its entry, if the signals that each handler blocks were not blocked and no frame is overwritten by another
one. In `release` the handler can return. -/
theorem handlers_transparent {p : Profile} {d : Delivery} {t t₁ t₂ : Thread} {addrs : List Nat}
    (hchain : Chain t.space.mem t.sigContext addrs) (hfresh : d.Fresh t) (henter : d.enter p t = .ok () t₁)
    (hbody : Body p (fun t d => d.Fresh t) t₁ t₂) :
    (p = .release → ∃ t₃, sysRtSigreturn p t₂ = .ok () t₃) ∧
    ∀ t₃, sysRtSigreturn p t₂ = .ok () t₃ → t₃.regs = t.regs ∧ t₃.sigMask = t.sigMask ∧ t₃.sigContext = t.sigContext ∧
      Chain t₃.space.mem t₃.sigContext addrs ∧ ∀ addr ∈ addrs, frameAt t₃.space.mem addr = frameAt
        t.space.mem addr := by
  obtain ⟨addr, hentered⟩ := Delivery.enter_ok henter
  have hkept := hbody.kept (hentered.chain hfresh hchain)
  constructor
  · rintro rfl
    refine sysRtSigreturn_release (hkept.context.trans hentered.context) fun i hi => ?_
    rw [(hkept.frames addr List.mem_cons_self (addr + i) (by omega) (by omega)).2, hentered.mapped]
    exact hentered.frame i hi
  · intro t₃ hreturn
    obtain ⟨hregs, hthread⟩ := hentered.returned hfresh hchain hkept hreturn
    refine ⟨hregs, hthread.mask, hthread.context, ?_, fun a ha => hthread.frames.frameAt ha⟩
    rw [hthread.context]
    exact hthread.frames.chain hchain

/-- Sixteen pages of stack. -/
def stackSpace : UserSpace where
  mem := fun _ => 0
  mapped := fun a => decide (0x10000 ≤ a ∧ a < 0x20000)
  lowest := fun _ ha => (of_decide_eq_true ha).1
  highest := fun _ ha => Nat.lt_trans (of_decide_eq_true ha).2 (by decide)

def SIGUSR1 : SigNum := ⟨10, by decide, by decide⟩

def SIGUSR2 : SigNum := ⟨12, by decide, by decide⟩

/-- A thread that blocks `SIGUSR2`, at the top of its stack. -/
def blocksUsr2 : Thread where
  sigMask := .ofSigNum SIGUSR2
  sigContext := none
  sigStack := none
  regs := ⟨1, 2, 3, 4, 5, 6, 7, 0x20000, 8, 9, 10, 11, 12, 13, 14, 15, 0x400000, 17, 18, 19⟩
  space := stackSpace

/-- `SIGUSR1` for a handler with a mask. -/
def usr1 (mask : SigMask) : Delivery :=
  ⟨SIGUSR1, 0x500000, .SA_RESTORER, 0x600000, mask, ⟨List.replicate 128 0, rfl⟩⟩

/-- The stack has room for a frame. -/
theorem usr1_entered (mask : SigMask) : ∃ t₁, (usr1 mask).enter .release blocksUsr2 = .ok () t₁ := by
  have hflags : SigActionFlags.containsUnsupportedFlag .SA_RESTORER = false := by decide
  refine Delivery.enter_release hflags (by decide) fun i hi => ?_
  have hsp : blocksUsr2.entrySp - STACK_SIZE = 0x1fb90 := rfl
  have hstack : STACK_SIZE = 1136 := rfl
  rw [hsp]
  exact decide_eq_true ⟨by omega, by omega⟩

/-- The return from a handler to its restorer. -/
theorem Body.ret {cond : Thread → Delivery → Prop} (t : Thread) (rsp : Word) :
    Body p cond t { t with regs := { t.regs with rsp := rsp } } :=
  .user _ t.space t.sigStack (fun _ _ _ _ _ _ _ => ⟨rfl, rfl⟩) (.done _)

theorem handlers_transparent_usr1 : ∃ t₁ t₃, (usr1 0).enter .release blocksUsr2 = .ok () t₁ ∧
    sysRtSigreturn .release { t₁ with regs := { t₁.regs with rsp := 0x1fbb0 } } = .ok () t₃ ∧ t₃.regs =
      blocksUsr2.regs ∧
    t₃.sigMask = SigMask.ofSigNum SIGUSR2 := by
  obtain ⟨t₁, henter⟩ := usr1_entered 0
  have hfresh : (usr1 0).Fresh blocksUsr2 := by
    refine ⟨by decide, fun addrs hchain addr ha => ?_⟩
    cases hchain
    cases ha
  obtain ⟨hreturns, hsame⟩ := handlers_transparent .nil hfresh henter (.ret t₁ 0x1fbb0)
  obtain ⟨t₃, hreturn⟩ := hreturns rfl
  obtain ⟨hregs, hmask, -⟩ := hsame t₃ hreturn
  exact ⟨t₁, t₃, henter, hreturn, hregs, hmask⟩

/-- **A blocked signal is no longer blocked after a handler** whose mask contains it. -/
theorem sigreturn_unblocks : ∃ t₁ t₂ t₃, (usr1 (.ofSigNum SIGUSR2)).enter .release blocksUsr2 = .ok () t₁ ∧
    Body .release (fun _ _ => True) t₁ t₂ ∧ sysRtSigreturn .release t₂ = .ok () t₃ ∧
    SigMask.contains blocksUsr2.sigMask SIGUSR2 = true ∧ SigMask.contains t₃.sigMask SIGUSR2 = false := by
  obtain ⟨t₁, henter⟩ := usr1_entered (.ofSigNum SIGUSR2)
  obtain ⟨addr, hentered⟩ := Delivery.enter_ok henter
  have hmapped : t₁.space.Mapped addr FRAME_SIZE := by
    intro i hi
    rw [hentered.mapped]
    exact hentered.frame i hi
  obtain ⟨t₃, hreturn⟩ := sysRtSigreturn_release (t :=
    { t₁ with regs := { t₁.regs with rsp := BitVec.ofNat 64 addr } })
    hentered.context hmapped
  refine ⟨t₁, _, t₃, henter, .ret t₁ _, hreturn, by decide, ?_⟩
  obtain ⟨sigStack, rfl⟩ := sysRtSigreturn_ok (by exact hentered.context) hreturn
  show SigMask.contains (SigMask.unblock t₁.sigMask (frameAt t₁.space.mem addr).ucSigmask) SIGUSR2 = false
  rw [hentered.saved, hentered.mask]
  decide

end AsterKernel.Signal
