import AsterKernel.Block.Requests
import AsterKernel.Virtio.Queue

/-!
# `Block.Driver` — requests in the virtqueue

The driver puts a request into its virtqueue as one chain of descriptors: a header, the segments of all bios of the
request, and a status. It waits for the device and takes the chain back before it goes on with the next request, so that
all 64 descriptors are free for each request. Nothing bounds the segments of a request: bios are merged as long as they
are contiguous.

The device answers each request with status OK, and with some number of bytes written. A segment is in memory that has a
physical address, and the callbacks of bios are left out.
-/

namespace AsterKernel.Block

open Lib Lib.Comp Virtio Function VirtQueue List

/-! ## The device -/

/-- The size that `DeviceInner::init` gives to the virtqueue. -/
def queueSize : QueueSize := ⟨64, ⟨6, rfl⟩, by decide⟩

/-- `size_of::<BlockReq>()`. -/
def BLOCK_REQ_SIZE : Nat := 16

/-- `size_of::<BlockResp>()`. -/
def BLOCK_RESP_SIZE : Nat := 1

/-- The frames have one page. -/
def FRAME_SIZE : Nat := 4096

/-- `DeviceInner`, with the physical addresses of its two frames; the last number of the allocator comes first. -/
structure DeviceInner where
  queue : VirtQueue
  blockRequests : Nat
  blockResponses : Nat
  idAllocator : List Nat

namespace DeviceInner

def init (blockRequests blockResponses : Nat) : DeviceInner :=
  ⟨.new queueSize, blockRequests, blockResponses, (List.range 64).reverse⟩

def reqReader (d : DeviceInner) (id : Nat) : Buf := ⟨some (d.blockRequests + id * BLOCK_REQ_SIZE), BLOCK_REQ_SIZE⟩

def respWriter (d : DeviceInner) (id : Nat) : Buf := ⟨some (d.blockResponses + id * BLOCK_RESP_SIZE), BLOCK_RESP_SIZE⟩

/-- The device puts a chain into the used ring. -/
def answer (q : VirtQueue) (head len : Nat) : VirtQueue := { q with
  usedRing := Function.update q.usedRing (q.usedRingIdx % q.queueSize.val) ⟨head, len⟩
  usedRingIdx := (q.usedRingIdx + 1) % 2 ^ 16 }

/-- What `DeviceInner::read` and `DeviceInner::write` have in common: a number is taken, the header and the status are
written into the frames, the buffers go through the virtqueue, and the number is given back. `none` is a panic. -/
def request (p : Profile) (len : Nat) (inputs outputs : Nat → List Buf) (d : DeviceInner) : Option DeviceInner :=
  match d.idAllocator with
  | [] => none
  | id :: ids =>
    if id * BLOCK_REQ_SIZE + BLOCK_REQ_SIZE ≤ FRAME_SIZE ∧ id * BLOCK_RESP_SIZE + BLOCK_RESP_SIZE ≤ FRAME_SIZE then
      match VirtQueue.addVm (inputs id) (outputs id) d.queue with
      | .ok token q =>
        match VirtQueue.popUsedWithToken p token (answer q token len) with
        | .ok _ q => some { d with queue := q, idAllocator := id :: ids }
        | _ => none
      | _ => none
    else none

def read (p : Profile) (len : Nat) (buf : List Buf) (d : DeviceInner) : Option DeviceInner :=
  d.request p len (fun id => [d.reqReader id]) fun id => buf ++ [d.respWriter id]

def write (p : Profile) (len : Nat) (buf : List Buf) (d : DeviceInner) : Option DeviceInner :=
  d.request p len (fun id => d.reqReader id :: buf) fun id => [d.respWriter id]

end DeviceInner

open DeviceInner

/-! ## The driver -/

/-- `BlockDevice` with its virtqueue. -/
structure Driver where
  block : BlockDevice
  inner : DeviceInner

/-- The world of the driver: the build, the physical address of each segment, and the length that the device gives for
each request. -/
structure World where
  profile : Profile
  paddr : BioSegment → Nat
  len : BioRequest → Nat

/-- The readers or writers of the segments of a request. -/
def World.buffers (w : World) (request : BioRequest) : List Buf :=
  request.bios.flatMap fun bio => bio.segments.map fun segment => ⟨some (w.paddr segment), segment.nbytes⟩

namespace Driver

def submit (d : Driver) (bio : Bio) : Option Driver := (d.block.submit bio).map fun block => { d with block := block }

/-- The bios are submitted one after the other. -/
def submitAll : List Bio → Driver → Option Driver
  | [], d => some d
  | bio :: bios, d => (d.submit bio).bind (submitAll bios)

/-- `BlockDevice::handle_requests`; `none` is a panic, or the wait for a request. -/
def handleRequests (w : World) (d : Driver) : Option Driver :=
  d.block.dequeue.bind fun (request, block) =>
    match request.type with
    | .read => (d.inner.read w.profile (w.len request) (w.buffers request)).bind fun inner =>
      (BlockDevice.doRead request block).map fun block => ⟨block, inner⟩
    | .write => (d.inner.write w.profile (w.len request) (w.buffers request)).bind fun inner =>
      (BlockDevice.doWrite request block).map fun block => ⟨block, inner⟩
    | .flush | .discard => none

/-- The driver processes as many requests. -/
def handleAll (w : World) : Nat → Driver → Option Driver
  | 0, d => some d
  | n + 1, d => (d.handleRequests w).bind (handleAll w n)

end Driver

/-! ## The virtqueue between two requests -/

/-- All descriptors are free, in their order. -/
structure Ready (q : VirtQueue) : Prop where
  size : q.queueSize = queueSize
  next : ∀ i < 64, q.next i = (i + 1) % 64
  freeHead : q.freeHead = 0
  numUsed : q.numUsed = 0
  idx : q.usedRingIdx = q.lastUsedIdx
  lastIdx : q.lastUsedIdx < 2 ^ 16

namespace Ready

variable {p : Profile} {q q' : VirtQueue}

theorem new : Ready (.new queueSize) where
  size := rfl
  next i hi := by
    show (if i < 63 then i + 1 else 0) = (i + 1) % 64
    split <;> omega
  freeHead := rfl
  numUsed := rfl
  idx := rfl
  lastIdx := Nat.two_pow_pos 16

section

variable (h : Ready q) {inputs outputs : List Buf}
include h

theorem iterate (k : Nat) : q.next^[k] q.freeHead = k % 64 := by
  induction k with
  | zero => exact h.freeHead
  | succ k ih =>
    rw [Function.iterate_succ_apply', ih, h.next (k % 64) (Nat.mod_lt _ (by decide))]
    omega

/-- The first descriptors of the free list. -/
theorem iterate_eq_range {n : Nat} (hn : n ≤ 64) : List.iterate q.next q.freeHead n = List.range n := by
  refine ext_getElem? fun i => ?_
  by_cases hi : i < n
  · rw [getElem?_iterate _ _ _ _ hi, h.iterate, getElem?_range hi, Nat.mod_eq_of_lt (by omega)]
  · rw [getElem?_eq_none (by rw [length_iterate]; omega), getElem?_eq_none (by
      rw [length_range]; omega)]

theorem addVm (hne : inputs ≠ [])
    (hbufs : ∀ b ∈ inputs ++ outputs, b.paddr.isSome = true) (hroom : inputs.length + outputs.length ≤ 64) :
    ∃ q', addVm inputs outputs q = .ok 0 q' ∧ VirtQueue.Added q q' (range (inputs.length + outputs.length)) := by
  have hsize : q.queueSize.val = 64 := by rw [h.size]; rfl
  obtain ⟨head, q', hadd⟩ := add_succeeds (q := q) hne hbufs (by rw [h.numUsed, hsize]; exact hroom)
    fun k _ => by
      rw [h.iterate, hsize]
      exact (Nat.mod_lt _ (by decide)).le
  obtain ⟨rfl, l, hlen, hadded⟩ := add_added hadd
  have hl : l = range (inputs.length + outputs.length) := by
    rw [hadded.given, hlen, h.iterate_eq_range hroom]
  rw [h.freeHead] at hadd
  exact ⟨q', hadd, hl ▸ hadded⟩

theorem addVm_full (hroom : 64 < inputs.length + outputs.length) {head : Nat} :
    ¬ VirtQueue.addVm inputs outputs q = .ok head q' := by
  intro hadd
  obtain ⟨-, l, hlen, hadded⟩ := VirtQueue.add_added hadd
  have hle := hadded.room
  rw [hlen, h.numUsed, h.size] at hle
  exact absurd hle (Nat.not_le.mpr hroom)

theorem owned : Owned ⟨q, [], []⟩ where
  shared := by
    show (List.iterate q.next q.freeHead (q.queueSize.val - q.numUsed) ++ []).Perm (List.range q.queueSize.val)
    rw [h.numUsed, h.size, append_nil]
    exact .of_eq (h.iterate_eq_range (Nat.le_refl 64))
  used := h.numUsed
  nonempty _ hc := nomatch hc
  chained _ hc := nomatch hc
  ring i head hi := by simp at hi
  idx := by
    show q.usedRingIdx = (q.lastUsedIdx + 0) % 2 ^ 16
    rw [h.idx, add_zero, Nat.mod_eq_of_lt h.lastIdx]
  lastIdx := h.lastIdx
  heads _ hh := nomatch hh
  nodup := nodup_nil

/-- The chain comes back, and all descriptors are free again, in their order. -/
theorem pop {n : Nat} (len : Nat) (hadded : VirtQueue.Added q q' (range n)) :
    ∃ used q'', popUsedWithToken p 0 (answer q' 0 len) = .ok used q'' ∧ Ready q'' := by
  have hsize : q'.queueSize = queueSize := by rw [hadded.rest]; exact h.size
  have hroom := hadded.room
  rw [length_range, h.numUsed, h.size] at hroom
  have hroom : n ≤ 64 := hroom
  obtain ⟨m, rfl⟩ : ∃ m, n = m + 1 := Nat.exists_eq_succ_of_ne_zero fun hzero => hadded.nonempty (by rw [hzero]; rfl)
  have hlist : range (m + 1) = 0 :: (range m).map Nat.succ := range_succ_eq_map
  have howned := h.owned.add hadded
  have hchain : Chained q'.descs (range (m + 1)) := howned.chained _ mem_cons_self
  have hused : q'.numUsed = m + 1 := by rw [hadded.used, h.numUsed, length_range, zero_add]
  have hlast : q'.lastUsedIdx = q.lastUsedIdx := by rw [hadded.rest]
  have hidx : q'.usedRingIdx = q.lastUsedIdx := by rw [hadded.rest]; exact h.idx
  have hhead : q'.freeHead = (m + 1) % 64 := by rw [hadded.head, length_range, h.iterate]
  -- the answer is the next element of the used ring
  have hcan : (answer q' 0 len).canPop = true := by
    show (q'.lastUsedIdx != (q'.usedRingIdx + 1) % 2 ^ 16) = true
    rw [hlast, hidx, bne_iff_ne]
    omega
  have hnext : (answer q' 0 len).nextUsed = ⟨0, len⟩ := by
    show update q'.usedRing (q'.usedRingIdx % q'.queueSize.val) ⟨0, len⟩
      (q'.lastUsedIdx &&& (q'.queueSize.val - 1)) = _
    rw [hsize, hidx, hlast, show queueSize.val = 2 ^ 6 from rfl, Nat.and_two_pow_sub_one_eq_mod, update_self]
  have hbelow : (answer q' 0 len).lastFreeHead 0 = 63 := by
    show q'.queueSize.val - 1 = 63
    rw [hsize]
    rfl
  have hspares : (answer q' 0 len).Spares 0 (0 :: (range m).map Nat.succ) := by
    intro b hb
    rw [← hlist, hbelow] at hb
    have hlt : 63 < b := rel_of_pairwise_cons (pairwise_lt_range.sublist hb.sublist) mem_cons_self
    have hmem : b ∈ range (m + 1) := hb.subset (mem_cons_of_mem _ mem_cons_self)
    have := mem_range.mp hmem
    omega
  have hlen : (0 :: (range m).map Nat.succ).length = m + 1 := by rw [← hlist, length_range]
  have hz : (0 :: (range m).map Nat.succ).getLast (cons_ne_nil _ _) = m := by
    have hsome : (0 :: (range m).map Nat.succ).getLast? = some m := by
      rw [← hlist, range_succ, getLast?_concat]
    exact Option.some.inj ((getLast?_eq_some_getLast _).symm.trans hsome)
  have hrecycle := recycleDescriptors_eq (p := p) (q := answer q' 0 len) (hlist ▸ hchain) hspares (fun i hi => by
      rw [← hlist] at hi
      show i < q'.queueSize.val
      rw [hsize]
      exact lt_of_lt_of_le (mem_range.mp hi) hroom)
    (by rw [hlen]; exact le_of_eq hused.symm)
    (by show q'.numUsed ≤ q'.queueSize.val; rw [hused, hsize]; exact hroom)
  rw [hz, hlen] at hrecycle
  have hpop : popUsedWithToken p 0 (answer q' 0 len) = .ok len { (answer q' 0 len).relinked 0 m with
        freeHead := 0
        numUsed := q'.numUsed - (m + 1)
        lastUsedIdx := (q'.lastUsedIdx + 1) % 2 ^ 16 } := by
    unfold popUsedWithToken
    rw [get_bind, hcan, hnext]
    show (recycleDescriptors p 0 >>= _) (answer q' 0 len) = _
    rw [bind_eq, hrecycle]
    rfl
  -- the two links that are written are those that were there
  have hlinks : ((answer q' 0 len).relinked 0 m).next = update (update q.next 63 0) m ((m + 1) % 64) := by
    unfold relinked
    rw [writeNext_next, writeNext_next, hbelow, ← hadded.next]
    show update (update q'.next 63 0) m q'.freeHead = _
    rw [hhead]
  refine ⟨len, _, hpop, hsize, fun i hi => ?_, rfl, ?_, ?_, Nat.mod_lt _ (Nat.two_pow_pos 16)⟩
  · show ((answer q' 0 len).relinked 0 m).next i = _
    rw [hlinks]
    by_cases him : i = m
    · rw [him, update_self]
    · rw [update_of_ne him]
      by_cases hi63 : i = 63
      · rw [hi63, update_self]
      · rw [update_of_ne hi63, h.next i hi]
  · show q'.numUsed - (m + 1) = 0
    rw [hused, Nat.sub_self]
  · show (q'.usedRingIdx + 1) % 2 ^ 16 = (q'.lastUsedIdx + 1) % 2 ^ 16
    rw [hidx, hlast]

end

end Ready

/-! ## One request -/

/-- The device waits for a request. -/
structure DeviceInner.Idle (d : DeviceInner) : Prop where
  ready : Ready d.queue
  ids : d.idAllocator ≠ []
  small : ∀ id ∈ d.idAllocator, id < 64

theorem DeviceInner.Idle.init (blockRequests blockResponses : Nat) : (init blockRequests blockResponses).Idle where
  ready := .new
  ids := show (range 64).reverse ≠ [] by decide
  small := fun id hid => mem_range.mp (mem_reverse.mp hid)

/-- **A request that fits is processed**, and one that does not is a panic. -/
theorem DeviceInner.Idle.request {d : DeviceInner} (h : d.Idle) {p : Profile} {n : Nat} (len : Nat)
    (inputs outputs : Nat → List Buf) (hne : ∀ id, inputs id ≠ [])
    (hbufs : ∀ id, ∀ b ∈ inputs id ++ outputs id, b.paddr.isSome = true)
    (hlen : ∀ id, (inputs id).length + (outputs id).length = n) :
    (n ≤ 64 → ∃ d', d.request p len inputs outputs = some d' ∧ d'.Idle) ∧
      (64 < n → d.request p len inputs outputs = none) := by
  obtain ⟨id, ids, hids⟩ := exists_cons_of_ne_nil h.ids
  have hsmall : id < 64 := h.small id (by rw [hids]; exact mem_cons_self)
  have hframe : id * BLOCK_REQ_SIZE + BLOCK_REQ_SIZE ≤ FRAME_SIZE ∧ id * BLOCK_RESP_SIZE + BLOCK_RESP_SIZE ≤ FRAME_SIZE := by
    unfold BLOCK_REQ_SIZE BLOCK_RESP_SIZE FRAME_SIZE
    omega
  constructor
  · intro hn
    obtain ⟨q, hadd, hadded⟩ := h.ready.addVm (hne id) (hbufs id) (by rw [hlen]; exact hn)
    obtain ⟨used, q', hpop, hready⟩ := h.ready.pop (p := p) len hadded
    refine ⟨{ d with queue := q', idAllocator := id :: ids }, ?_, hready, cons_ne_nil _ _, hids ▸ h.small⟩
    simp only [DeviceInner.request, hids, if_pos hframe, hadd, hpop]
  · intro hn
    simp only [DeviceInner.request, hids, if_pos hframe]
    cases hadd : VirtQueue.addVm (inputs id) (outputs id) d.queue with
    | ok head q => exact absurd hadd (h.ready.addVm_full (by rw [hlen]; exact hn))
    | err e q | panic => rfl

/-- The segments of all bios of a request. -/
def BioRequest.numSegments (r : BioRequest) : Nat := (r.bios.map fun bio => bio.segments.length).sum

/-- The request fits into the descriptors of the virtqueue, with its header and its status. -/
def BioRequest.Fits (r : BioRequest) : Prop := r.numSegments + 2 ≤ 64

namespace Driver

variable {w : World} {d : Driver}

theorem length_buffers (w : World) (r : BioRequest) : (w.buffers r).length = r.numSegments := by
  simp [World.buffers, BioRequest.numSegments, length_flatMap]

theorem isSome_buffers (w : World) (r : BioRequest) : ∀ b ∈ w.buffers r, b.paddr.isSome = true := by
  intro b hb
  obtain ⟨bio, -, hb⟩ := mem_flatMap.mp hb
  obtain ⟨segment, -, rfl⟩ := mem_map.mp hb
  rfl

/-- Both transfers send the same buffers. -/
theorem request_cases (h : d.inner.Idle) (w : World) (r : BioRequest) {inputs outputs : Nat → List Buf}
    (hne : ∀ id, inputs id ≠ [])
    (hbufs : ∀ id, inputs id ++ outputs id = d.inner.reqReader id :: (w.buffers r ++ [d.inner.respWriter id])) :
    (r.Fits → ∃ inner, d.inner.request w.profile (w.len r) inputs outputs = some inner ∧ inner.Idle) ∧
      (¬ r.Fits → d.inner.request w.profile (w.len r) inputs outputs = none) := by
  have hcases := h.request (p := w.profile) (n := r.numSegments + 2) (w.len r) inputs outputs hne
    (fun id b hb => ?_) fun id => ?_
  · exact ⟨hcases.1, fun hnot => hcases.2 (Nat.lt_of_not_le hnot)⟩
  · simp only [hbufs, mem_cons, mem_append, not_mem_nil, or_false] at hb
    rcases hb with rfl | hb | rfl
    · rfl
    · exact isSome_buffers w r b hb
    · rfl
  · rw [← length_append, hbufs, length_cons, length_append, length_buffers, length_singleton]

theorem transfer_cases {P : Prop} {transfer : Option DeviceInner} {complete : Option BlockDevice} {block : BlockDevice}
    (h : (P → ∃ inner, transfer = some inner ∧ inner.Idle) ∧ (¬ P → transfer = none)) (hcomplete : complete = some block) :
    (P → ∃ inner, (transfer.bind fun inner => complete.map fun block => ⟨block, inner⟩) = some (⟨block, inner⟩ : Driver) ∧
        inner.Idle) ∧
      (¬ P → (transfer.bind fun inner => complete.map fun block => (⟨block, inner⟩ : Driver)) = none) := by
  subst hcomplete
  constructor
  · intro hP
    obtain ⟨inner, rfl, hidle⟩ := h.1 hP
    exact ⟨inner, rfl, hidle⟩
  · intro hP
    rw [h.2 hP]
    rfl

/-- The driver processes the oldest request if it fits. -/
theorem handleRequests_cases (h : d.inner.Idle) {r : BioRequest} {block block' : BlockDevice}
    (hdeq : d.block.dequeue = some (r, block)) (hhandle : d.block.handleRequests = some block') :
    (r.Fits → ∃ inner, d.handleRequests w = some ⟨block', inner⟩ ∧ inner.Idle) ∧
      (¬ r.Fits → d.handleRequests w = none) := by
  unfold BlockDevice.handleRequests at hhandle
  unfold handleRequests
  rw [hdeq, Option.bind_some] at hhandle ⊢
  dsimp only at hhandle ⊢
  generalize htype : r.type = x at hhandle ⊢
  cases x with
  | read | write => exact transfer_cases (request_cases h w r (fun _ => cons_ne_nil _ _) fun _ => rfl) hhandle
  | flush | discard =>
    cases hhandle

end Driver

/-! ## All requests -/

variable {d d' : BlockDevice} {bios : List Bio}

theorem BlockDevice.completeAll_queue (h : completeAll bios d = some d') : d'.queue = d.queue := by
  induction bios generalizing d with
  | nil =>
    cases h
    rfl
  | cons b bios ih =>
    unfold completeAll at h
    split at h
    · cases h
    · have hrest := ih h
      exact hrest

theorem BlockDevice.handleRequests_queue (h : d.handleRequests = some d') :
    ∃ r block, d.dequeue = some (r, block) ∧ d.queue = d'.queue ++ [r] := by
  obtain ⟨⟨r, block⟩, hdeq, hhandle⟩ := Option.bind_eq_some_iff.mp h
  have hqueue : d.queue = block.queue ++ [r] := by
    unfold dequeue at hdeq
    split at hdeq
    · cases hdeq
    · obtain ⟨r', hlast, heq⟩ := Option.map_eq_some_iff.mp hdeq
      obtain ⟨rfl, rfl⟩ := Prod.mk.inj heq
      exact (dropLast_append_getLast? r' hlast).symm
  have hsame : d'.queue = block.queue := by
    dsimp only at hhandle
    split at hhandle
    · unfold doRead at hhandle
      have hrest := completeAll_queue hhandle
      exact hrest
    · unfold doWrite at hhandle
      have hrest := completeAll_queue hhandle
      exact hrest
    · cases hhandle
    · cases hhandle
  exact ⟨r, block, hdeq, by rw [hsame, hqueue]⟩

namespace Driver

variable {w : World} {d : Driver} {sectors₀ : Mem} {done : List Bio} {pend : List (List Bio)}

/-- **The driver processes all requests if and only if they fit.** -/
theorem handleAll_iff (n : Nat) (hserved : Served sectors₀ done pend d.block) (hidle : d.inner.Idle)
    (hn : d.block.queue.length = n) :
    (∃ d', d.handleAll w n = some d' ∧ d'.block.queue = []) ↔ ∀ r ∈ d.block.queue, r.Fits := by
  induction n generalizing d done pend with
  | zero =>
    have hnil : d.block.queue = [] := length_eq_zero_iff.mp hn
    refine ⟨fun _ r hr => ?_, fun _ => ⟨d, rfl, hnil⟩⟩
    rw [hnil] at hr
    cases hr
  | succ n ih =>
    have hne : d.block.queue ≠ [] := fun hnil => by rw [hnil] at hn; cases hn
    obtain ⟨block, hhandle⟩ := hserved.handles hne
    obtain ⟨order, pend', rfl, hserved'⟩ := hserved.handle hhandle
    obtain ⟨r, _, hdeq, hqueue⟩ := BlockDevice.handleRequests_queue hhandle
    obtain ⟨hfit, hnot⟩ := handleRequests_cases (w := w) hidle hdeq hhandle
    have hmem : r ∈ d.block.queue := by rw [hqueue]; exact mem_append_right _ mem_cons_self
    by_cases hr : r.Fits
    · obtain ⟨inner, hstep, hidle'⟩ := hfit hr
      have hn' : block.queue.length = n := by
        rw [hqueue, length_append, length_singleton] at hn
        exact Nat.succ.inj hn
      rw [handleAll, hstep, Option.bind_some, ih (d := ⟨block, inner⟩) hserved' hidle' hn', hqueue]
      simp only [mem_append, mem_singleton, or_imp, forall_and, forall_eq, hr, and_true]
    · constructor
      · rintro ⟨d', hall, -⟩
        rw [handleAll, hnot hr] at hall
        cases hall
      · intro hall
        exact absurd (hall r hmem) hr

end Driver

/-! ## Submissions -/

/-- There is room for a bio: in a request of its own, or in the newest request if it is merged. -/
def Room (d : BlockDevice) (bio : Bio) : Prop :=
  match d.queue with
  | [] => bio.segments.length + 2 ≤ 64
  | request :: _ =>
    if request.canMerge bio then request.numSegments + bio.segments.length + 2 ≤ 64
    else bio.segments.length + 2 ≤ 64

instance (d : BlockDevice) (bio : Bio) : Decidable (Room d bio) := by
  unfold Room
  split <;> infer_instance

/-- There is room for each bio when it is submitted. -/
def AllRoom : List Bio → BlockDevice → Prop
  | [], _ => True
  | bio :: bios, d => Room d bio ∧ ∀ d', d.submit bio = some d' → AllRoom bios d'

theorem BioRequest.numSegments_ofBio (bio : Bio) : (BioRequest.ofBio bio).numSegments = bio.segments.length :=
  add_zero _

theorem BioRequest.numSegments_merge {r r' : BioRequest} {bio : Bio} (h : r.mergeBio bio = some r') :
    r'.numSegments = r.numSegments + bio.segments.length := by
  obtain ⟨-, ⟨-, rfl⟩ | ⟨-, rfl⟩⟩ := BioRequest.mergeBio_cases h
  · simp [BioRequest.numSegments]
  · simp [BioRequest.numSegments, add_comm]

/-- The requests fit after a submission if they did before and there was room. -/
theorem Fit.submit {bio : Bio} (h : d.submit bio = some d') :
    (∀ r ∈ d'.queue, r.Fits) ↔ (∀ r ∈ d.queue, r.Fits) ∧ Room d bio := by
  unfold BlockDevice.submit at h
  split at h
  · cases h
  · unfold BlockDevice.enqueue at h
    dsimp only at h
    unfold Room
    generalize hqueue : d.queue = x at h ⊢
    cases x with
    | nil =>
      cases h
      simp [BioRequest.Fits, BioRequest.numSegments_ofBio]
    | cons request rest =>
      dsimp only at h
      by_cases hcan : request.canMerge bio = true
      · rw [if_pos hcan] at h
        obtain ⟨r, hr, rfl⟩ := Option.map_eq_some_iff.mp h
        have hnum := BioRequest.numSegments_merge hr
        simp only [forall_mem_cons, BioRequest.Fits, hnum, hcan, if_true]
        constructor
        · rintro ⟨hsum, hrest⟩
          exact ⟨⟨by omega, hrest⟩, hsum⟩
        · rintro ⟨⟨-, hrest⟩, hsum⟩
          exact ⟨hsum, hrest⟩
      · rw [if_neg hcan] at h
        cases h
        simp only [forall_mem_cons, BioRequest.Fits, BioRequest.numSegments_ofBio, if_neg hcan]
        exact and_comm

/-- The driver takes all bios that have not been submitted before. -/
theorem Driver.submitAll_fits {sectors₀ : Mem} {pend : List (List Bio)} {d : Driver}
    (hserved : Served sectors₀ [] pend d.block) (hrw : ∀ b ∈ bios, b.type = .read ∨ b.type = .write)
    (hids : (bios.map Bio.id).Nodup) (hinit : ∀ b ∈ bios, d.block.status b.id = .init) :
    ∃ d' pend', d.submitAll bios = some d' ∧ d'.inner = d.inner ∧ Served sectors₀ [] pend' d'.block ∧
      ((∀ r ∈ d'.block.queue, r.Fits) ↔ (∀ r ∈ d.block.queue, r.Fits) ∧ AllRoom bios d.block) := by
  induction bios generalizing d pend with
  | nil => exact ⟨d, pend, rfl, rfl, hserved, by simp [AllRoom]⟩
  | cons b bios ih =>
    rw [map_cons, nodup_cons] at hids
    obtain ⟨block, hsubmit⟩ := BlockDevice.submit_isSome (hinit b mem_cons_self)
    obtain ⟨pend₁, hpend, hserved₁⟩ := hserved.submit (hrw b mem_cons_self) hsubmit
    have hinit₁ : ∀ b' ∈ bios, block.status b'.id = .init := by
      intro b' hb'
      refine hserved₁.fresh _ fun hmem => ?_
      rw [nil_append, hpend, map_append, mem_append] at hmem
      rcases hmem with hold | hnew
      · exact hserved.not_mem (hinit b' (mem_cons_of_mem _ hb')) hold
      · rw [map_singleton, mem_singleton] at hnew
        exact hids.1 (hnew ▸ mem_map_of_mem hb')
    obtain ⟨d', pend', hall, hinner, hserved', hfit⟩ := ih (d := { d with block := block }) hserved₁
      (fun b' hb' => hrw b' (mem_cons_of_mem _ hb')) hids.2 hinit₁
    refine ⟨d', pend', ?_, hinner, hserved', ?_⟩
    · rw [Driver.submitAll, Driver.submit, hsubmit]
      exact hall
    · rw [hfit]
      show (∀ r ∈ block.queue, r.Fits) ∧ AllRoom bios block ↔ _
      rw [Fit.submit hsubmit, and_assoc, AllRoom]
      simp [hsubmit]

def Driver.new (sectors : Mem) (blockRequests blockResponses : Nat) : Driver :=
  ⟨.new sectors, .init blockRequests blockResponses⟩

/-- **The driver processes all requests if and only if there was room at each submission.** The bios are different
objects that read or write, and are submitted before the driver runs. -/
theorem driver_finishes (w : World) (sectors : Mem) (blockRequests blockResponses : Nat) (bios : List Bio)
    (hrw : ∀ b ∈ bios, b.type = .read ∨ b.type = .write) (hids : (bios.map Bio.id).Nodup) :
    ∃ d, (Driver.new sectors blockRequests blockResponses).submitAll bios = some d ∧
      ((∃ d', d.handleAll w d.block.numRequests = some d' ∧ d'.block.queue = []) ↔ AllRoom bios (.new sectors)) := by
  obtain ⟨d, pend, hall, hinner, hserved, hfit⟩ := Driver.submitAll_fits
    (d := Driver.new sectors blockRequests blockResponses) (Served.new sectors) hrw hids fun _ _ => rfl
  have hidle : d.inner.Idle := by
    rw [hinner]
    exact .init blockRequests blockResponses
  refine ⟨d, hall, ?_⟩
  rw [Driver.handleAll_iff d.block.numRequests hserved hidle hserved.count.symm, hfit]
  exact ⟨fun h => h.2, fun h => ⟨nofun, h⟩⟩

/-- A write of one sector. -/
def writeSector (sid : Nat) : Bio := ⟨sid, .write, sid, [⟨List.replicate 512 0, by rw [List.length_replicate]; rfl⟩]⟩

/-- Two sectors that are merged. -/
theorem driver_finishes_two : ∃ d, (Driver.new (fun _ => 0) 0 0).submitAll [writeSector 0, writeSector 1] = some d ∧
    ∃ d', d.handleAll ⟨.dev, fun _ => 0, fun _ => 0⟩ d.block.numRequests = some d' ∧ d'.block.queue = [] := by
  have hrw : ∀ b ∈ [writeSector 0, writeSector 1], b.type = .read ∨ b.type = .write := by
    intro b hb
    simp only [List.mem_cons, List.not_mem_nil, or_false] at hb
    rcases hb with rfl | rfl <;> exact .inr rfl
  obtain ⟨d, hsubmit, hiff⟩ := driver_finishes ⟨.dev, fun _ => 0, fun _ => 0⟩ (fun _ => 0) 0 0
    [writeSector 0, writeSector 1] hrw (by decide)
  refine ⟨d, hsubmit, hiff.mpr ⟨by decide, fun block hblock => ⟨?_, fun _ _ => trivial⟩⟩⟩
  have hroom : ((BlockDevice.new fun _ => 0).submit (writeSector 0)).any (fun block => Room block (writeSector 1)) = true := by
    decide +kernel
  rw [hblock] at hroom
  exact of_decide_eq_true hroom

/-- Sixty-three writes of one sector each, one after the other, are merged into a request that needs 65 descriptors. -/
theorem driver_panics : ∃ d, (Driver.new (fun _ => 0) 0 0).submitAll ((List.range 63).map writeSector) = some d ∧
    d.block.numRequests = 1 ∧ d.handleRequests ⟨.dev, fun _ => 0, fun _ => 0⟩ = none := by
  have hall : ((Driver.new (fun _ => 0) 0 0).submitAll ((List.range 63).map writeSector)).any (fun d =>
      d.block.numRequests = 1 ∧ (d.handleRequests ⟨.dev, fun _ => 0, fun _ => 0⟩).isNone = true) = true := by
    decide +kernel
  obtain ⟨d, hsubmit, hd⟩ := (Option.any_eq_true ..).mp hall
  obtain ⟨hone, hnone⟩ := of_decide_eq_true hd
  exact ⟨d, hsubmit, hone, Option.isNone_iff_eq_none.mp hnone⟩

end AsterKernel.Block
