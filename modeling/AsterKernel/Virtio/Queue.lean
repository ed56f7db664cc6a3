import Mathlib.Data.List.Perm.Subperm
import AsterKernel.Lib.Threaded
import AsterKernel.Lib.Usize

/-!
# `Virtio.Queue` — the descriptors of a virtqueue

The free descriptors of a virtqueue form a list that is threaded through their `next` fields, and so does each chain
that has been given to the device. `recycle_descriptors` puts a chain in front of the free list. Before that it makes
the descriptor with the number below the head's point to the head, as if the free list went through the descriptors in
their order. That descriptor may belong to another chain.

Descriptor numbers are `u16` values; those that the links have are below the size of the queue. `descs` has one
pointer behind the table, which no link names.
-/

namespace AsterKernel.Virtio

open Lib Lib.Comp Function List

inductive QueueError where
  | invalidArgs
  | bufferTooSmall
  | notReady
  | alreadyUsed
  | wrongToken
deriving DecidableEq, Repr

structure DescFlags where
  next : Bool
  write : Bool
  indirect : Bool
deriving DecidableEq, Repr

def DescFlags.NEXT : DescFlags := ⟨true, false, false⟩

/-- `DescFlags::NEXT | DescFlags::WRITE`. -/
def DescFlags.NEXT_WRITE : DescFlags := ⟨true, true, false⟩

structure Descriptor where
  addr : Nat
  len : Nat
  flags : DescFlags
  next : Nat
deriving DecidableEq, Repr

structure UsedElem where
  id : Nat
  len : Nat
deriving DecidableEq, Repr

/-- The sizes that `VirtQueue::new` takes. -/
structure QueueSize where
  val : Nat
  isPowerOfTwo : ∃ k, val = 2 ^ k
  le : val ≤ 256

/-- `VirtQueue`, with the rings in the memory that it shares with the device. -/
structure VirtQueue where
  descs : Nat → Descriptor
  availRing : Nat → Nat
  availRingIdx : Nat
  usedRing : Nat → UsedElem
  usedRingIdx : Nat
  queueSize : QueueSize
  numUsed : Nat
  freeHead : Nat
  availIdx : Nat
  lastUsedIdx : Nat

/-- A buffer: what `vaddr_to_paddr` gives for its start, and its length. -/
structure Buf where
  paddr : Option Nat
  len : Nat

namespace VirtQueue

/-- `VirtQueue::new`; the frames are zeroed. -/
def new (size : QueueSize) : VirtQueue where
  descs i := ⟨0, 0, ⟨false, false, false⟩, if i < size.val - 1 then i + 1 else 0⟩
  availRing _ := 0
  availRingIdx := 0
  usedRing _ := ⟨0, 0⟩
  usedRingIdx := 0
  queueSize := size
  numUsed := 0
  freeHead := 0
  availIdx := 0
  lastUsedIdx := 0

def setDesc (q : VirtQueue) (i : Nat) (f : Descriptor → Descriptor) : VirtQueue :=
  { q with descs := Function.update q.descs i (f (q.descs i)) }

/-- Write of `descs[i].next`. -/
def writeNext (q : VirtQueue) (i next : Nat) : VirtQueue := q.setDesc i fun d => { d with next := next }

/-- `flags.remove(DescFlags::NEXT)`. -/
def removeNext (q : VirtQueue) (i : Nat) : VirtQueue :=
  q.setDesc i fun d => { d with flags := { d.flags with next := false } }

/-- `self.descs[i]`. -/
def checkDesc (i : Nat) : Comp VirtQueue QueueError Unit := do
  let q ← get
  assert (i ≤ q.queueSize.val)

/-- `set_buf_slice`, `set_buf_reader` and `set_buf_writer`. -/
def setBuf (i : Nat) (buf : Buf) : Comp VirtQueue QueueError Unit := do
  let pa ← expect buf.paddr
  modify fun q => q.setDesc i fun d => { d with addr := pa, len := buf.len % 2 ^ 32 }

/-- The body of the loops over the buffers; returns `last`. -/
def allocate (flags : DescFlags) (buf : Buf) : Comp VirtQueue QueueError Nat := do
  let q ← get
  let i := q.freeHead
  checkDesc i
  setBuf i buf
  modify fun q => q.setDesc i fun d => { d with flags := flags }
  modify fun q => { q with freeHead := (q.descs i).next }
  pure i

def allocateAll (flags : DescFlags) : List Buf → Nat → Comp VirtQueue QueueError Nat
  | [], last => pure last
  | buf :: bufs, _ => do
    let last ← allocate flags buf
    allocateAll flags bufs last

/-- `VirtQueue::add_buf` and `VirtQueue::add_vm`, which differ in the type of the buffers. -/
def add (inputs outputs : List Buf) : Comp VirtQueue QueueError Nat := do
  when (inputs.isEmpty && outputs.isEmpty) (fail .invalidArgs)
  let q ← get
  when (inputs.length + outputs.length + q.numUsed > q.queueSize.val) (fail .bufferTooSmall)
  let head := q.freeHead
  let last ← allocateAll .NEXT inputs q.freeHead
  let last ← allocateAll .NEXT_WRITE outputs last
  checkDesc last
  modify fun q => q.removeNext last
  modify fun q => { q with
    numUsed := q.numUsed + (inputs.length + outputs.length)
    availRing := Function.update q.availRing (q.availIdx &&& (q.queueSize.val - 1)) head
    availIdx := (q.availIdx + 1) % 2 ^ 16
    availRingIdx := (q.availIdx + 1) % 2 ^ 16 }
  pure head

def addBuf (inputs outputs : List Buf) : Comp VirtQueue QueueError Nat := add inputs outputs

def addVm (inputs outputs : List Buf) : Comp VirtQueue QueueError Nat := add inputs outputs

def canPop (q : VirtQueue) : Bool := q.lastUsedIdx != q.usedRingIdx

/-- The loop of `recycle_descriptors`. It does not change the links it follows, so that it never returns when it has
not returned after as many rounds as there are descriptors. -/
def recycleLoop (p : Profile) (originFreeHead : Nat) : Nat → Nat → Comp VirtQueue QueueError Unit
  | 0, _ => abort
  | fuel + 1, head => do
    checkDesc head
    let q ← get
    let numUsed ← expect (p.sub (2 ^ 16) q.numUsed 1)
    modify fun q => { q with numUsed := numUsed }
    if (q.descs head).flags.next then recycleLoop p originFreeHead fuel (q.descs head).next
    else modify fun q => q.writeNext head originFreeHead

/-- The descriptor that `recycle_descriptors` takes for the one before the head. -/
def lastFreeHead (q : VirtQueue) (head : Nat) : Nat := if head = 0 then q.queueSize.val - 1 else head - 1

def recycleDescriptors (p : Profile) (head : Nat) : Comp VirtQueue QueueError Unit := do
  let q ← get
  modify fun q => { q with freeHead := head }
  checkDesc (q.lastFreeHead head)
  modify fun q => q.writeNext (q.lastFreeHead head) head
  recycleLoop p q.freeHead (q.queueSize.val + 1) head

/-- The element of the used ring that is next. -/
def nextUsed (q : VirtQueue) : UsedElem := q.usedRing (q.lastUsedIdx &&& (q.queueSize.val - 1))

def popUsed (p : Profile) : Comp VirtQueue QueueError (Nat × Nat) := do
  let q ← get
  when (!q.canPop) (fail .notReady)
  let index := q.nextUsed.id % 2 ^ 16
  recycleDescriptors p index
  modify fun q => { q with lastUsedIdx := (q.lastUsedIdx + 1) % 2 ^ 16 }
  pure (index, q.nextUsed.len)

def popUsedWithToken (p : Profile) (token : Nat) : Comp VirtQueue QueueError Nat := do
  let q ← get
  when (!q.canPop) (fail .notReady)
  let index := q.nextUsed.id % 2 ^ 16
  when (index != token) (fail .wrongToken)
  recycleDescriptors p index
  modify fun q => { q with lastUsedIdx := (q.lastUsedIdx + 1) % 2 ^ 16 }
  pure q.nextUsed.len

/-! ## Lists of descriptors -/

def next (q : VirtQueue) (i : Nat) : Nat := (q.descs i).next

def freeList (q : VirtQueue) : List Nat := List.iterate q.next q.freeHead (q.queueSize.val - q.numUsed)

/-- What the device reads when it follows a chain of at most `fuel` descriptors. -/
def follow (descs : Nat → Descriptor) : Nat → Nat → List Nat
  | 0, _ => []
  | fuel + 1, i => i :: if (descs i).flags.next then follow descs fuel (descs i).next else []

def chain (q : VirtQueue) (head : Nat) : List Nat := follow q.descs q.queueSize.val head

end VirtQueue

open VirtQueue

structure Chained (descs : Nat → Descriptor) (c : List Nat) : Prop where
  links : Threaded (fun i => (descs i).next) c
  more : ∀ a ∈ c.dropLast, (descs a).flags.next = true
  last : ∀ z ∈ c.getLast?, (descs z).flags.next = false

variable {descs : Nat → Descriptor} {c : List Nat} {p : Profile}

theorem Chained.tail {a b : Nat} (h : Chained descs (a :: b :: c)) :
    (descs a).flags.next = true ∧ (descs a).next = b ∧ Chained descs (b :: c) := by
  obtain ⟨hab, hlinks⟩ := isChain_cons_cons.mp h.links
  refine ⟨h.more a mem_cons_self, hab, hlinks, fun x hx => h.more x (mem_cons_of_mem _ hx), h.last⟩

/-- The device finds the chain. -/
theorem Chained.follow {a fuel : Nat} (h : Chained descs (a :: c))
    (hfuel : (a :: c).length ≤ fuel) : VirtQueue.follow descs fuel a = a :: c := by
  induction c generalizing a fuel with
  | nil =>
    obtain ⟨fuel, rfl⟩ := Nat.exists_eq_add_of_le' hfuel
    show a :: (if (descs a).flags.next then _ else []) = _
    rw [h.last a rfl]
    rfl
  | cons b c ih =>
    obtain ⟨hmore, hnext, htail⟩ := h.tail
    cases fuel with
    | zero => cases hfuel
    | succ fuel => rw [VirtQueue.follow, hmore, if_pos rfl, hnext, ih htail (Nat.le_of_succ_le_succ hfuel)]

theorem Chained.congr {descs' : Nat → Descriptor} (h : Chained descs c)
    (hflags : ∀ a ∈ c, (descs' a).flags = (descs a).flags) (hlinks : Threaded (fun i => (descs' i).next) c) :
    Chained descs' c where
  links := hlinks
  more a ha := by
    rw [hflags a (mem_of_mem_dropLast ha)]
    exact h.more a ha
  last z hz := by
    rw [hflags z (mem_of_getLast? hz)]
    exact h.last z hz

namespace VirtQueue

variable {q q' : VirtQueue}

variable {i a last : Nat} {f : Descriptor → Descriptor} {flags : DescFlags} {buf : Buf}
variable {bufs inputs outputs : List Buf} {e : QueueError}

theorem new_iterate {size : QueueSize} (h : i < size.val) : (new size).next^[i] 0 = i := by
  induction i with
  | zero => rfl
  | succ i ih =>
    rw [iterate_succ_apply', ih (Nat.lt_of_succ_lt h)]
    exact if_pos (Nat.lt_sub_of_add_lt h)

/-! ## Recycling -/

theorem checkDesc_bind {β : Type} (h : i ≤ q.queueSize.val) (f : Unit → Comp VirtQueue QueueError β) :
    (checkDesc i >>= f) q = f () q := by
  show (assert (i ≤ q.queueSize.val) >>= fun u => f u) q = f () q
  rw [show decide (i ≤ q.queueSize.val) = true from decide_eq_true h]
  rfl

theorem writeNext_next (q : VirtQueue) (i v : Nat) : (q.writeNext i v).next = update q.next i v := by
  funext j
  unfold next writeNext setDesc
  dsimp only
  by_cases hj : j = i
  · subst hj
    rw [update_self, update_self]
  · rw [update_of_ne hj, update_of_ne hj]

theorem writeNext_flags (q : VirtQueue) (i v j : Nat) : ((q.writeNext i v).descs j).flags = (q.descs j).flags := by
  unfold writeNext setDesc
  dsimp only
  by_cases hj : j = i
  · subst hj
    rw [update_self]
  · rw [update_of_ne hj]

theorem writeNext_chained {v : Nat} (h : Chained q.descs c) (hi : ∀ b, [i, b] <:+: c → b = v) :
    Chained (q.writeNext i v).descs c := by
  refine h.congr (fun a _ => q.writeNext_flags i v a) ?_
  show Threaded (q.writeNext i v).next c
  rw [writeNext_next]
  exact h.links.update hi

variable {origin : Nat}

theorem recycleLoop_succ {fuel : Nat} (ha : a < q.queueSize.val) (hused : 1 ≤ q.numUsed) :
    recycleLoop p origin (fuel + 1) a q = (if (q.descs a).flags.next then recycleLoop p origin fuel (q.descs a).next
        else modify fun q => q.writeNext a origin) { q with numUsed := q.numUsed - 1 } := by
  rw [recycleLoop, checkDesc_bind ha.le, get_bind, Profile.sub_of_le hused]
  rfl

theorem recycleLoop_eq {fuel : Nat} (hchain : Chained q.descs (a :: c)) (hlt : ∀ i ∈ a :: c, i < q.queueSize.val)
    (hused : (a :: c).length ≤ q.numUsed) (hfuel : (a :: c).length ≤ fuel) : recycleLoop p origin fuel a q =
      .ok () (writeNext { q with numUsed := q.numUsed - (a :: c).length } ((a :: c).getLast (cons_ne_nil _ _))
        origin) := by
  have ha := hlt a mem_cons_self
  have hone : 1 ≤ q.numUsed := (Nat.succ_le_succ (Nat.zero_le _)).trans hused
  cases fuel with
  | zero => cases hfuel
  | succ fuel =>
    induction c generalizing a fuel q with
    | nil =>
      rw [recycleLoop_succ ha hone, hchain.last a rfl]
      rfl
    | cons b c ih =>
      obtain ⟨hmore, hnext, htail⟩ := hchain.tail
      have hlt' : ∀ i ∈ b :: c, i < q.queueSize.val := fun i hi => hlt i (mem_cons_of_mem _ hi)
      have hused' : (b :: c).length ≤ q.numUsed - 1 := Nat.le_sub_one_of_lt hused
      have hfuel' : (b :: c).length ≤ fuel := Nat.le_of_succ_le_succ hfuel
      obtain ⟨fuel, rfl⟩ := Nat.exists_eq_add_one.mpr ((Nat.succ_pos _).trans_le hfuel')
      rw [recycleLoop_succ ha hone, hmore, if_pos rfl, hnext, ih (q := { q with numUsed := q.numUsed - 1 }) htail hlt'
        hused' (hlt' b mem_cons_self) ((Nat.succ_le_succ (Nat.zero_le _)).trans hused') fuel hfuel',
        getLast_cons (cons_ne_nil b c)]
      show Outcome.ok () (writeNext { q with numUsed := q.numUsed - 1 - (b :: c).length } _ _) = _
      rw [Nat.sub_sub, add_comm 1]
      rfl

/-- The link that recycling a head writes is not used for anything else. -/
def Spares (q : VirtQueue) (head : Nat) (l : List Nat) : Prop := ∀ b, [q.lastFreeHead head, b] <:+: l → b = head

theorem lastFreeHead_lt {head : Nat} (h : head < q.queueSize.val) : q.lastFreeHead head < q.queueSize.val := by
  unfold lastFreeHead
  split <;> omega

/-- The links after a chain with this head and this last descriptor has been recycled. -/
def relinked (q : VirtQueue) (head last : Nat) : VirtQueue :=
  (q.writeNext (q.lastFreeHead head) head).writeNext last q.freeHead

/-- Recycling an intact chain. -/
theorem recycleDescriptors_eq (hchain : Chained q.descs (a :: c)) (hspares : q.Spares a (a :: c))
    (hlt : ∀ i ∈ a :: c, i < q.queueSize.val) (hused : (a :: c).length ≤ q.numUsed)
    (hsize : q.numUsed ≤ q.queueSize.val) :
    recycleDescriptors p a q = .ok () { q.relinked a ((a :: c).getLast (cons_ne_nil _ _)) with
      freeHead := a
      numUsed := q.numUsed - (a :: c).length } := by
  have hd : q.lastFreeHead a ≤ q.queueSize.val := (lastFreeHead_lt (hlt a mem_cons_self)).le
  have hchain' : Chained (q.writeNext (q.lastFreeHead a) a).descs (a :: c) := writeNext_chained hchain hspares
  unfold recycleDescriptors
  rw [get_bind, modify_bind, checkDesc_bind (by exact hd), modify_bind, recycleLoop_eq (c := c) (by exact hchain')
    (by exact hlt) (by exact hused) (by exact hused.trans (hsize.trans (Nat.le_succ _)))]
  rfl

theorem relinked_freeList {z : Nat} (hchain : Chained q.descs (a :: c)) (hspares : q.Spares a (a :: c))
    (hfree : q.Spares a q.freeList) (hnodup : (a :: c).Nodup) (hz : (a :: c).getLast? = some z) (hout : z ∉ q.freeList)
    (hused : (a :: c).length ≤ q.numUsed) (hsize : q.numUsed ≤ q.queueSize.val) :
    freeList { q.relinked a z with freeHead := a, numUsed := q.numUsed - (a :: c).length } = a :: c ++
      q.freeList := by
  have hnext : (q.relinked a z).next = update (update q.next (q.lastFreeHead a) a) z q.freeHead := by
    unfold relinked
    rw [writeNext_next, writeNext_next]
  have hthread : Threaded (q.relinked a z).next (a :: c ++ q.freeList) := by
    rw [hnext]
    refine Threaded.append ?_ ?_ ?_
    · exact (Threaded.update hchain.links hspares).update fun b hb => absurd hb (not_infix_getLast hnodup hz)
    · exact (Threaded.update (Threaded.iterate _ _ _) hfree).update_of_notMem hout
    · intro z' hz' b hb
      obtain rfl : z = z' := Option.some.inj (hz.symm.trans hz')
      rw [update_self]
      unfold freeList at hb
      cases hn : q.queueSize.val - q.numUsed with
      | zero =>
        rw [hn] at hb
        cases hb
      | succ n =>
        rw [hn] at hb
        exact Option.some.inj hb
  have hlen : q.queueSize.val - (q.numUsed - (a :: c).length) = (a :: (c ++ q.freeList)).length := by
    rw [← cons_append, length_append, freeList, length_iterate]
    omega
  show iterate (q.relinked a z).next a (q.queueSize.val - (q.numUsed - (a :: c).length)) = _
  rw [hlen]
  exact hthread.iterate_eq

/-! ## Allocation -/

theorem setDesc_self (q : VirtQueue) (i : Nat) (f : Descriptor → Descriptor) :
    (q.setDesc i f).descs i = f (q.descs i) := update_self _ _ _

theorem setDesc_of_ne (q : VirtQueue) {j : Nat} (f : Descriptor → Descriptor) (h : j ≠ i) :
    (q.setDesc i f).descs j = q.descs j := update_of_ne h _ _

theorem setDesc_setDesc (q : VirtQueue) (i : Nat) (f g : Descriptor → Descriptor) :
    (q.setDesc i f).setDesc i g = q.setDesc i fun d => g (f d) := by
  unfold setDesc
  dsimp only
  rw [update_self, update_idem]

theorem setDesc_next (q : VirtQueue) (i : Nat) (hf : ∀ d, (f d).next = d.next) : (q.setDesc i f).next = q.next := by
  funext j
  unfold next
  by_cases hj : j = i
  · subst hj
    rw [setDesc_self, hf]
  · rw [setDesc_of_ne q f hj]

theorem checkDesc_ok {u : Unit} (h : checkDesc i q = .ok u q') : q = q' := by
  unfold checkDesc at h
  rw [get_bind, assert_ok] at h
  exact h.2

/-- The first descriptors of the free list have been taken, `last` is the last of them. -/
structure Took (q q' : VirtQueue) (last last' : Nat) (l : List Nat) : Prop where
  given : l = List.iterate q.next q.freeHead l.length
  next : q'.next = q.next
  flags : ∀ i ∈ l, (q'.descs i).flags.next = true
  other : ∀ i, i ∉ l → q'.descs i = q.descs i
  head : q'.freeHead = q.next^[l.length] q.freeHead
  last : last' = l.getLast?.getD last
  rest : q' = { q with descs := q'.descs, freeHead := q'.freeHead }

theorem Took.none (q : VirtQueue) (last : Nat) : Took q q last last [] :=
  ⟨rfl, rfl, fun _ h => (by cases h), fun _ _ => rfl, rfl, rfl, rfl⟩

theorem Took.one (last : Nat) (hnext : ∀ d, (f d).next = d.next) (hflags : ∀ d, (f d).flags.next = true) :
    Took q { q.setDesc q.freeHead f with freeHead := ((q.setDesc q.freeHead f).descs q.freeHead).next }
      last q.freeHead
      [q.freeHead] where
  given := rfl
  next := setDesc_next _ _ hnext
  flags i hi := by
    obtain rfl := mem_singleton.mp hi
    show ((q.setDesc q.freeHead f).descs q.freeHead).flags.next = true
    rw [setDesc_self, hflags]
  other i hi := setDesc_of_ne _ _ fun heq => hi (mem_singleton.mpr heq)
  head := congrFun (setDesc_next q q.freeHead hnext) q.freeHead
  last := rfl
  rest := rfl

theorem Took.trans {q₁ q₂ : VirtQueue} {last₁ last₂ : Nat} {l₁ l₂ : List Nat} (h : Took q q₁ last last₁ l₁)
    (h' : Took q₁ q₂ last₁ last₂ l₂) : Took q q₂ last last₂ (l₁ ++ l₂) where
  given := by
    rw [List.length_append, List.iterate_add, ← h.given, ← h.head, ← h.next, ← h'.given]
  next := h'.next.trans h.next
  flags i hi := by
    by_cases hi₂ : i ∈ l₂
    · exact h'.flags i hi₂
    · rw [h'.other i hi₂]
      exact h.flags i ((mem_append.mp hi).resolve_right hi₂)
  other i hi := by
    rw [mem_append, not_or] at hi
    rw [h'.other i hi.2, h.other i hi.1]
  head := by
    rw [h'.head, h.head, h.next, length_append, add_comm, iterate_add_apply]
  last := by
    rw [h'.last, h.last, getLast?_append]
    cases l₂.getLast? with
    | none | some z => rfl
  rest := by
    rw [h'.rest, h.rest]

theorem allocate_took (last : Nat) (hflags : flags.next = true)
    (h : allocate flags buf q = .ok i q') : Took q q' last i [q.freeHead] := by
  unfold allocate at h
  rw [get_bind, bind_ok] at h
  obtain ⟨u, q₁, hcheck, h⟩ := h
  obtain rfl := checkDesc_ok hcheck
  unfold setBuf at h
  rw [bind_ok] at h
  obtain ⟨u, q₁, hset, h⟩ := h
  rw [bind_ok] at hset
  obtain ⟨pa, q₂, hpa, hset⟩ := hset
  obtain ⟨-, rfl⟩ := expect_ok.mp hpa
  obtain rfl := modify_ok.mp hset
  rw [modify_bind, modify_bind, pure_ok, setDesc_setDesc] at h
  obtain ⟨rfl, rfl⟩ := h
  exact .one last (fun _ => rfl) fun _ => hflags

theorem allocateAll_took {last' : Nat} (hflags : flags.next = true)
    (h : allocateAll flags bufs last q = .ok last' q') : ∃ l, l.length = bufs.length ∧ Took q q' last last' l := by
  induction bufs generalizing q last with
  | nil =>
    obtain ⟨rfl, rfl⟩ := pure_ok.mp h
    exact ⟨[], rfl, .none q last⟩
  | cons buf bufs ih =>
    obtain ⟨i, q₁, hone, hrest⟩ := bind_ok.mp h
    obtain ⟨l, hlen, hl⟩ := ih hrest
    exact ⟨q.freeHead :: l, by rw [length_cons, hlen, length_cons], (allocate_took _ hflags hone).trans hl⟩

/-- A chain has been made from the first descriptors of the free list. -/
structure Added (q q' : VirtQueue) (l : List Nat) : Prop where
  given : l = List.iterate q.next q.freeHead l.length
  nonempty : l ≠ []
  room : l.length + q.numUsed ≤ q.queueSize.val
  next : q'.next = q.next
  more : ∀ i ∈ l, l.getLast? ≠ some i → (q'.descs i).flags.next = true
  last : ∀ z ∈ l.getLast?, (q'.descs z).flags.next = false
  other : ∀ i, i ∉ l → q'.descs i = q.descs i
  head : q'.freeHead = q.next^[l.length] q.freeHead
  used : q'.numUsed = q.numUsed + l.length
  rest : q' = { q with
    descs := q'.descs, freeHead := q'.freeHead, numUsed := q'.numUsed, availRing := q'.availRing,
      availIdx := q'.availIdx
    availRingIdx := q'.availRingIdx }

theorem add_added {head : Nat} (h : add inputs outputs q = .ok head q') :
    head = q.freeHead ∧ ∃ l, l.length = inputs.length + outputs.length ∧ Added q q' l := by
  unfold add at h
  rw [guard_bind_ok, get_bind, guard_bind_ok] at h
  obtain ⟨hargs, hroom, h⟩ := h
  obtain ⟨last₁, q₁, hin, h⟩ := bind_ok.mp h
  obtain ⟨last₂, q₂, hout, h⟩ := bind_ok.mp h
  obtain ⟨u, q₃, hcheck, h⟩ := bind_ok.mp h
  obtain rfl := checkDesc_ok hcheck
  rw [modify_bind, modify_bind, pure_ok] at h
  obtain ⟨rfl, rfl⟩ := h
  obtain ⟨l₁, hlen₁, hl₁⟩ := allocateAll_took rfl hin
  obtain ⟨l₂, hlen₂, hl₂⟩ := allocateAll_took rfl hout
  have htook := hl₁.trans hl₂
  have hlen : (l₁ ++ l₂).length = inputs.length + outputs.length := by rw [length_append, hlen₁, hlen₂]
  have hroom' : inputs.length + outputs.length + q.numUsed ≤ q.queueSize.val := by simpa using hroom
  have hne : l₁ ++ l₂ ≠ [] := by
    intro hnil
    rw [hnil] at hlen
    rw [length_nil] at hlen
    have hin : inputs = [] := length_eq_zero_iff.mp (by omega)
    have hout : outputs = [] := length_eq_zero_iff.mp (by omega)
    rw [hin, hout] at hargs
    cases hargs
  have hlast : (l₁ ++ l₂).getLast? = some last₂ := by
    rw [htook.last, getLast?_eq_some_getLast hne]
    rfl
  refine ⟨rfl, l₁ ++ l₂, hlen, htook.given, hne, hlen ▸ hroom', ?_, fun i hi hi' => ?_, fun z hz => ?_,
    fun i hi => ?_,
    htook.head, ?_, ?_⟩
  · have hkept : (q₂.removeNext last₂).next = q₂.next := setDesc_next _ _ fun _ => rfl
    exact hkept.trans htook.next
  · rw [hlast] at hi'
    show ((q₂.removeNext last₂).descs i).flags.next = true
    rw [removeNext, setDesc_of_ne _ _ fun heq => hi' (congrArg some heq.symm)]
    exact htook.flags i hi
  · obtain rfl : last₂ = z := Option.some.inj (hlast.symm.trans hz)
    show ((q₂.removeNext last₂).descs last₂).flags.next = false
    rw [removeNext, setDesc_self]
  · show (q₂.removeNext last₂).descs i = _
    have hne' : i ≠ last₂ := fun heq => hi (heq ▸ mem_of_getLast? hlast)
    rw [removeNext, setDesc_of_ne _ _ hne', htook.other i hi]
  · show q₂.numUsed + (inputs.length + outputs.length) = _
    rw [hlen, htook.rest]
  · rw [htook.rest]
    rfl

/-! ## Calls that fail -/

theorem allocate_succeeds (flags : DescFlags) (hbuf : buf.paddr.isSome = true)
    (hlt : q.freeHead ≤ q.queueSize.val) : ∃ i q', allocate flags buf q = .ok i q' := by
  obtain ⟨pa, hpa⟩ := Option.isSome_iff_exists.mp hbuf
  unfold allocate
  rw [get_bind, checkDesc_bind hlt]
  unfold setBuf
  rw [hpa]
  exact ⟨_, _, rfl⟩

/-- The free list is long enough. -/
theorem allocateAll_succeeds (flags : DescFlags) (hflags : flags.next = true) (last : Nat)
    (hbufs : ∀ b ∈ bufs, b.paddr.isSome = true) (hlt : ∀ k < bufs.length, q.next^[k] q.freeHead ≤ q.queueSize.val) :
    ∃ last' q', allocateAll flags bufs last q = .ok last' q' := by
  induction bufs generalizing q last with
  | nil => exact ⟨last, q, rfl⟩
  | cons buf bufs ih =>
    obtain ⟨i, q₁, hone⟩ := allocate_succeeds flags (hbufs buf mem_cons_self) (hlt 0 (Nat.succ_pos _))
    have htook := allocate_took last hflags hone
    have hsize : q₁.queueSize = q.queueSize := by rw [htook.rest]
    obtain ⟨last', q', hrest⟩ := ih (q := q₁) i (fun b hb => hbufs b (mem_cons_of_mem _ hb)) fun k hk => by
      rw [htook.next, htook.head, hsize, ← iterate_add_apply]
      exact hlt (k + 1) (Nat.succ_lt_succ hk)
    refine ⟨last', q', ?_⟩
    rw [allocateAll, bind_eq, hone]
    exact hrest

theorem add_succeeds (hne : inputs ≠ []) (hbufs : ∀ b ∈ inputs ++ outputs, b.paddr.isSome = true)
    (hroom : inputs.length + outputs.length + q.numUsed ≤ q.queueSize.val)
    (hlt : ∀ k < inputs.length + outputs.length, q.next^[k] q.freeHead ≤ q.queueSize.val) :
    ∃ head q', add inputs outputs q = .ok head q' := by
  obtain ⟨last₁, q₁, hin⟩ := allocateAll_succeeds (q := q) .NEXT rfl q.freeHead
    (fun b hb => hbufs b (mem_append_left _ hb)) fun k hk => hlt k (by omega)
  obtain ⟨l₁, hlen₁, hl₁⟩ := allocateAll_took rfl hin
  have hsize₁ : q₁.queueSize = q.queueSize := by rw [hl₁.rest]
  obtain ⟨last₂, q₂, hout⟩ := allocateAll_succeeds (q := q₁) .NEXT_WRITE rfl last₁
    (fun b hb => hbufs b (mem_append_right _ hb)) fun k hk => by
      rw [hl₁.next, hl₁.head, hlen₁, hsize₁, ← iterate_add_apply]
      exact hlt _ (by omega)
  obtain ⟨l₂, hlen₂, hl₂⟩ := allocateAll_took rfl hout
  have htook := hl₁.trans hl₂
  -- the last descriptor is one of those that were taken
  have hlast : last₂ ≤ q₂.queueSize.val := by
    have hne' : l₁ ++ l₂ ≠ [] := by
      intro hnil
      rw [append_eq_nil_iff] at hnil
      rw [hnil.1, length_nil] at hlen₁
      exact hne (length_eq_zero_iff.mp hlen₁.symm)
    have hmem : last₂ ∈ l₁ ++ l₂ := by
      rw [htook.last, getLast?_eq_some_getLast hne']
      exact getLast_mem hne'
    rw [htook.given, mem_iterate] at hmem
    obtain ⟨k, hk, rfl⟩ := hmem
    rw [htook.rest]
    exact hlt k (by rw [length_append, hlen₁, hlen₂] at hk; exact hk)
  have hargs : (inputs.isEmpty && outputs.isEmpty) = false := by
    cases inputs with
    | nil => exact absurd rfl hne
    | cons => rfl
  have hroom' : decide (inputs.length + outputs.length + q.numUsed > q.queueSize.val) = false :=
    decide_eq_false (not_lt.mpr hroom)
  exact ⟨_, _, guard_bind_ok.mpr ⟨hargs, guard_bind_ok.mpr ⟨hroom', bind_ok.mpr ⟨last₁, q₁, hin,
    bind_ok.mpr ⟨last₂, q₂, hout, checkDesc_bind hlast _⟩⟩⟩⟩⟩

theorem checkDesc_not_err : ¬ checkDesc i q = .err e q' := by
  intro h
  unfold checkDesc at h
  rw [get_bind] at h
  exact assert_not_err h

theorem setBuf_not_err : ¬ setBuf i buf q = .err e q' := by
  intro h
  rcases bind_err.mp h with hpa | ⟨pa, q₁, -, hset⟩
  · exact expect_not_err hpa
  · cases hset

theorem allocate_not_err : ¬ allocate flags buf q = .err e q' := by
  intro h
  unfold allocate at h
  rw [get_bind] at h
  rcases bind_err.mp h with hcheck | ⟨u, q₁, -, h⟩
  · exact checkDesc_not_err hcheck
  rcases bind_err.mp h with hset | ⟨u, q₂, -, h⟩
  · exact setBuf_not_err hset
  · cases h

theorem allocateAll_not_err : ¬ allocateAll flags bufs last q = .err e q' := by
  intro h
  induction bufs generalizing q last with
  | nil => cases h
  | cons buf bufs ih =>
    rcases bind_err.mp h with hone | ⟨i, q₁, -, hrest⟩
    · exact allocate_not_err hone
    · exact ih hrest

theorem add_err (h : add inputs outputs q = .err e q') : q' = q := by
  unfold add at h
  rw [guard_bind_err, get_bind, guard_bind_err] at h
  obtain ⟨-, -, rfl⟩ | ⟨-, ⟨-, -, rfl⟩ | ⟨-, h⟩⟩ := h
  · rfl
  · rfl
  rcases bind_err.mp h with hin | ⟨last, q₁, -, h⟩
  · exact absurd hin allocateAll_not_err
  rcases bind_err.mp h with hout | ⟨last, q₂, -, h⟩
  · exact absurd hout allocateAll_not_err
  rcases bind_err.mp h with hcheck | ⟨u, q₃, -, h⟩
  · exact absurd hcheck checkDesc_not_err
  · cases h

end VirtQueue

/-! ## Driver and device -/

/-- The queue, the chains that have been given to the device and the heads that it has put into the used ring, the
oldest one first. -/
structure Sys where
  queue : VirtQueue
  chains : List (List Nat)
  returned : List Nat

inductive Op where
  | addBuf (inputs outputs : List Buf)
  | addVm (inputs outputs : List Buf)
  | returnChain (head len : Nat)
  | popUsed
  | popUsedWithToken (token : Nat)

namespace Sys

def new (size : QueueSize) : Sys := ⟨.new size, [], []⟩

/-- A call of `add_buf` or `add_vm`. -/
def added (s : Sys) (n : Nat) : Outcome VirtQueue QueueError Nat → Option Sys
  | .ok _ q => some { s with queue := q, chains := List.iterate s.queue.next s.queue.freeHead n :: s.chains }
  | .err _ q => some { s with queue := q }
  | .panic => none

/-- A call of `pop_used` or `pop_used_with_token`. -/
def popped {α : Type} (s : Sys) : Outcome VirtQueue QueueError α → Option Sys
  | .ok _ q => some
    { queue := q, chains := s.chains.eraseP fun c => c.head? == s.returned.head?, returned := s.returned.tail }
  | .err _ q => some { s with queue := q }
  | .panic => none

/-- The device puts the head of a chain into the used ring. -/
def returnChain (s : Sys) (head len : Nat) : Option Sys :=
  if s.chains.any (fun c => c.head? == some head) && !s.returned.contains head then
    some { s with
      queue := { s.queue with
        usedRing := Function.update s.queue.usedRing (s.queue.usedRingIdx % s.queue.queueSize.val) ⟨head, len⟩
        usedRingIdx := (s.queue.usedRingIdx + 1) % 2 ^ 16 }
      returned := s.returned ++ [head] }
  else none

end Sys

namespace Op

/-- The state after an operation; `none` when there is none. -/
def run (p : Profile) : Op → Sys → Option Sys
  | .addBuf inputs outputs, s => s.added (inputs.length + outputs.length) (VirtQueue.addBuf inputs outputs s.queue)
  | .addVm inputs outputs, s => s.added (inputs.length + outputs.length) (VirtQueue.addVm inputs outputs s.queue)
  | .returnChain head len, s => s.returnChain head len
  | .popUsed, s => s.popped (VirtQueue.popUsed p s.queue)
  | .popUsedWithToken token, s => s.popped (VirtQueue.popUsedWithToken p token s.queue)

/-- A chain that is popped has a head such that the descriptor below it is not linked to another one in the free list
or in a chain. -/
def Spares (s : Sys) (op : Op) : Prop :=
  ∀ head ∈ s.returned.head?, op = .popUsed ∨ op = .popUsedWithToken head →
    ∀ l ∈ s.queue.freeList :: s.chains, s.queue.Spares head l

end Op

/-- The states that operations which meet a condition lead to. -/
inductive Run (p : Profile) (cond : Sys → Op → Prop) : Sys → Prop
  | new (size : QueueSize) : Run p cond (.new size)
  | step {s t : Sys} {op : Op} (h : Run p cond s) (hcond : cond s op) (hrun : op.run p s = some t) : Run p cond t

/-- The free descriptors and the chains share out the table, and the used ring has the heads that are returned. -/
structure Owned (s : Sys) : Prop where
  shared : (s.queue.freeList ++ s.chains.flatten).Perm (List.range s.queue.queueSize.val)
  used : s.queue.numUsed = s.chains.flatten.length
  nonempty : ∀ c ∈ s.chains, c ≠ []
  chained : ∀ c ∈ s.chains, Chained s.queue.descs c
  ring : ∀ (i h : Nat), s.returned[i]? = some h →
    (s.queue.usedRing ((s.queue.lastUsedIdx + i) % s.queue.queueSize.val)).id = h
  idx : s.queue.usedRingIdx = (s.queue.lastUsedIdx + s.returned.length) % 2 ^ 16
  lastIdx : s.queue.lastUsedIdx < 2 ^ 16
  heads : ∀ h ∈ s.returned, ∃ c ∈ s.chains, c.head? = some h
  nodup : s.returned.Nodup

namespace Owned

variable {s t : Sys} {q : VirtQueue}

theorem new (size : QueueSize) : Owned (.new size) where
  shared := by
    show (iterate (VirtQueue.new size).next 0 (size.val - 0) ++ []).Perm (range size.val)
    rw [append_nil, Nat.sub_zero]
    refine List.Perm.of_eq (ext_getElem? fun i => ?_)
    by_cases hi : i < size.val
    · rw [getElem?_iterate _ _ _ _ hi, VirtQueue.new_iterate hi, getElem?_range hi]
    · rw [getElem?_eq_none (by rw [length_iterate]; omega), getElem?_eq_none (by
        rw [length_range]; exact Nat.le_of_not_lt hi)]
  used := rfl
  nonempty _ hc := (by cases hc)
  chained _ hc := (by cases hc)
  ring i h hi := by simp [Sys.new] at hi
  idx := rfl
  lastIdx := Nat.two_pow_pos 16
  heads _ hh := (by cases hh)
  nodup := nodup_nil

/-- The numbers in the free list and the chains are different from each other. -/
theorem all_nodup (h : Owned s) : (s.queue.freeList ++ s.chains.flatten).Nodup := h.shared.nodup_iff.mpr nodup_range

theorem mem_lt (h : Owned s) (hc : c ∈ s.chains) : ∀ i ∈ c, i < s.queue.queueSize.val := fun _ hi =>
  mem_range.mp (h.shared.subset (mem_append_right _ (mem_flatten.mpr ⟨c, hc, hi⟩)))

theorem numUsed_le (h : Owned s) : s.queue.numUsed ≤ s.queue.queueSize.val := by
  have hlen := h.shared.length_eq
  rw [length_append, length_range, ← h.used] at hlen
  omega

variable {l rest : List Nat} {x : Nat}

theorem add (h : Owned s) (hadd : VirtQueue.Added s.queue q l) :
    Owned { s with queue := q, chains := l :: s.chains } := by
  have hfree : s.queue.freeList = l ++ q.freeList := by
    have hsplit : s.queue.queueSize.val - s.queue.numUsed = l.length + (q.queueSize.val - q.numUsed) := by
      have := hadd.room
      rw [hadd.rest, hadd.used]
      show s.queue.queueSize.val - s.queue.numUsed = l.length + (s.queue.queueSize.val - (s.queue.numUsed + l.length))
      omega
    unfold freeList
    rw [hsplit, List.iterate_add, ← hadd.given, ← hadd.head, ← hadd.next]
  have hperm : (q.freeList ++ (l :: s.chains).flatten).Perm (s.queue.freeList ++ s.chains.flatten) := by
    rw [hfree, flatten_cons, ← append_assoc]
    exact perm_append_comm.append_right _
  have hnodup := h.all_nodup
  rw [hfree, append_assoc, nodup_append'] at hnodup
  obtain ⟨hl, -, hdisj⟩ := hnodup
  have hout : ∀ c ∈ s.chains, ∀ i ∈ c, q.descs i = s.queue.descs i := fun c hc i hi =>
    hadd.other i fun hil => hdisj hil (mem_append_right _ (mem_flatten.mpr ⟨c, hc, hi⟩))
  have hsize : q.queueSize = s.queue.queueSize := by rw [hadd.rest]
  refine ⟨?_, ?_, ?_, ?_, ?_, ?_, ?_, ?_, h.nodup⟩
  · show (q.freeList ++ (l :: s.chains).flatten).Perm (range q.queueSize.val)
    rw [hsize]
    exact hperm.trans h.shared
  · show q.numUsed = (l :: s.chains).flatten.length
    rw [hadd.used, h.used, flatten_cons, length_append, add_comm]
  · exact forall_mem_cons.mpr ⟨hadd.nonempty, h.nonempty⟩
  · refine forall_mem_cons.mpr ⟨?_, fun c hc => ?_⟩
    · refine ⟨?_, fun a ha => ?_, hadd.last⟩
      · show Threaded q.next l
        rw [hadd.next, hadd.given]
        exact Threaded.iterate _ _ _
      · refine hadd.more a (mem_of_mem_dropLast ha) fun hlast => ?_
        rw [← dropLast_append_getLast? a hlast, nodup_append'] at hl
        exact hl.2.2 ha (mem_singleton.mpr rfl)
    · refine (h.chained c hc).congr (fun a ha => by rw [hout c hc a ha]) ?_
      show Threaded q.next c
      rw [hadd.next]
      exact (h.chained c hc).links
  · show ∀ (i h : Nat), s.returned[i]? = some h → (q.usedRing ((q.lastUsedIdx + i) % q.queueSize.val)).id = h
    rw [hadd.rest]
    exact h.ring
  · show q.usedRingIdx = (q.lastUsedIdx + s.returned.length) % 2 ^ 16
    rw [hadd.rest]
    exact h.idx
  · show q.lastUsedIdx < 2 ^ 16
    rw [hadd.rest]
    exact h.lastIdx
  · intro x hx
    obtain ⟨c, hc, hhead⟩ := h.heads x hx
    exact ⟨c, mem_cons_of_mem _ hc, hhead⟩

theorem returned_lt (h : Owned s) : ∀ x ∈ s.returned, x < s.queue.queueSize.val := fun x hx => by
  obtain ⟨c, hc, hhead⟩ := h.heads x hx
  exact h.mem_lt hc x (mem_of_head? hhead)

theorem length_le {n : Nat} (hnodup : l.Nodup) (hlt : ∀ x ∈ l, x < n) : l.length ≤ n := by
  have hsub : l.Subperm (range n) := hnodup.subperm fun x hx => mem_range.mpr (hlt x hx)
  have hlen := hsub.length_le
  rwa [length_range] at hlen

theorem dvd_card (size : QueueSize) : size.val ∣ 2 ^ 16 := by
  obtain ⟨k, hk⟩ := size.isPowerOfTwo
  have hle := size.le
  rw [hk] at hle ⊢
  exact Nat.pow_dvd_pow 2 ((Nat.pow_le_pow_iff_right (by decide)).mp (hle.trans (by decide : 256 ≤ 2 ^ 16)))

section

variable (h : Owned s)
include h

theorem returnChain {head len : Nat} (hr : s.returnChain head len = some t) : Owned t := by
  unfold Sys.returnChain at hr
  split at hr
  case isFalse => cases hr
  case isTrue hcan =>
    cases hr
    rw [Bool.and_eq_true, any_eq_true, Bool.not_eq_true', ← Bool.not_eq_true, contains_iff_mem] at hcan
    obtain ⟨⟨c, hc, hhead⟩, hnew⟩ := hcan
    have hhead' : c.head? = some head := eq_of_beq hhead
    have hnodup : (s.returned ++ [head]).Nodup := by
      refine List.Nodup.append h.nodup (nodup_singleton _) fun x hx hx' => ?_
      exact hnew (mem_singleton.mp hx' ▸ hx)
    have hheads : ∀ x ∈ s.returned ++ [head], ∃ c ∈ s.chains, c.head? = some x := by
      intro x hx
      rcases mem_append.mp hx with hx | hx
      · exact h.heads x hx
      · exact ⟨c, hc, mem_singleton.mp hx ▸ hhead'⟩
    have hlen : (s.returned ++ [head]).length ≤ s.queue.queueSize.val := by
      refine length_le hnodup fun x hx => ?_
      obtain ⟨c, hc, hx⟩ := hheads x hx
      exact h.mem_lt hc x (mem_of_head? hx)
    rw [length_append, length_singleton] at hlen
    have hslot : s.queue.usedRingIdx % s.queue.queueSize.val =
        (s.queue.lastUsedIdx + s.returned.length) % s.queue.queueSize.val := by
      rw [h.idx, Nat.mod_mod_of_dvd _ (dvd_card _)]
    refine ⟨h.shared, h.used, h.nonempty, h.chained, fun i x hi => ?_, ?_, h.lastIdx, hheads, hnodup⟩
    · show (update s.queue.usedRing (s.queue.usedRingIdx % s.queue.queueSize.val) ⟨head, len⟩
        ((s.queue.lastUsedIdx + i) % s.queue.queueSize.val)).id = x
      rw [hslot]
      rcases Nat.lt_trichotomy i s.returned.length with hlt | heq | hgt
      · rw [update_of_ne]
        · rw [getElem?_append_left hlt] at hi
          exact h.ring i x hi
        · -- the slots of a full ring are different from each other
          intro heq
          have hmod : i ≡ s.returned.length [MOD s.queue.queueSize.val] := Nat.ModEq.add_left_cancel' _ heq
          exact absurd (hmod.eq_of_lt_of_lt (by omega) (by omega)) (by omega)
      · subst heq
        rw [update_self]
        rw [getElem?_append_right le_rfl, Nat.sub_self] at hi
        exact Option.some.inj hi
      · rw [getElem?_eq_none (by rw [length_append, length_singleton]; exact hgt)] at hi
        cases hi
    · show (s.queue.usedRingIdx + 1) % 2 ^ 16 = (s.queue.lastUsedIdx + (s.returned ++ [head]).length) % 2 ^ 16
      rw [h.idx, Nat.mod_add_mod, length_append, length_singleton, add_assoc]

theorem canPop_eq : s.queue.canPop = !s.returned.isEmpty := by
  unfold canPop
  rw [h.idx]
  cases hr : s.returned with
  | nil =>
    rw [length_nil, add_zero, Nat.mod_eq_of_lt h.lastIdx, bne_self_eq_false]
    rfl
  | cons x rest =>
    have hlen := length_le h.nodup h.returned_lt
    rw [hr] at hlen
    have hsize := s.queue.queueSize.le
    have hpos : 0 < (x :: rest).length := Nat.succ_pos _
    rw [bne_iff_ne.mpr (by omega)]
    rfl

section

variable (hr : s.returned = x :: rest)
include hr

theorem nextUsed : s.queue.nextUsed.id % 2 ^ 16 = x := by
  have hx : x < s.queue.queueSize.val := h.returned_lt x (by rw [hr]; exact mem_cons_self)
  have hsize := s.queue.queueSize.le
  have hslot : s.queue.lastUsedIdx &&& (s.queue.queueSize.val - 1) = (s.queue.lastUsedIdx + 0) %
    s.queue.queueSize.val := by
    obtain ⟨k, hk⟩ := s.queue.queueSize.isPowerOfTwo
    rw [hk, Nat.and_two_pow_sub_one_eq_mod, add_zero]
  have hid : s.queue.nextUsed.id = x := by
    unfold VirtQueue.nextUsed
    rw [hslot]
    exact h.ring 0 x (by rw [hr]; rfl)
  rw [hid]
  exact Nat.mod_eq_of_lt (by omega)

section

variable (hspares : ∀ l ∈ s.queue.freeList :: s.chains, s.queue.Spares x l)
include hspares

theorem recycle : ∃ q, recycleDescriptors p x s.queue = .ok () q ∧
      Owned ⟨{ q with lastUsedIdx := (q.lastUsedIdx + 1) % 2 ^ 16 }, s.chains.eraseP
        (fun c => c.head? == some x), rest⟩ := by
  obtain ⟨c₀, hc₀, hhead₀⟩ := h.heads x (by rw [hr]; exact mem_cons_self)
  obtain ⟨c, l₁, l₂, hl₁, hhead, hchains, herase⟩ := exists_of_eraseP
    (p := fun c => c.head? == some x) hc₀ (beq_iff_eq.mpr hhead₀)
  have hc : c ∈ s.chains := by rw [hchains]; exact mem_append_right _ mem_cons_self
  obtain ⟨c, rfl⟩ : ∃ c', c = x :: c' := by
    cases c with
    | nil => exact absurd rfl (h.nonempty _ hc)
    | cons y c => exact ⟨c, by rw [Option.some.inj (eq_of_beq hhead)]⟩
  have hperm : s.chains.flatten.Perm (x :: c ++ (l₁ ++ l₂).flatten) := by
    rw [hchains, ← flatten_cons]
    exact List.Perm.flatten perm_middle
  have hused : (x :: c).length + (l₁ ++ l₂).flatten.length = s.queue.numUsed := by
    rw [h.used, hperm.length_eq, length_append]
  have hle := h.numUsed_le
  have hnodup := h.all_nodup
  rw [(hperm.append_left _).nodup_iff, nodup_append', nodup_append'] at hnodup
  obtain ⟨-, ⟨hc_nodup, -, hc_rest⟩, hfree⟩ := hnodup
  obtain ⟨hspares_free, hspares_chains⟩ := forall_mem_cons.mp hspares
  have hz : (x :: c).getLast? = some ((x :: c).getLast (cons_ne_nil _ _)) := getLast?_eq_some_getLast _
  have hmem := mem_of_getLast? hz
  generalize hlast : (x :: c).getLast (cons_ne_nil _ _) = z at hz hmem
  have hlist := relinked_freeList (h.chained _ hc) (hspares_chains _ hc) hspares_free hc_nodup hz
    (fun hin => hfree hin (mem_append_left _ hmem)) (hused ▸ Nat.le_add_right _ _) hle
  refine ⟨_, recycleDescriptors_eq (h.chained _ hc) (hspares_chains _ hc) (h.mem_lt hc)
    (hused ▸ Nat.le_add_right _ _) hle, ?_⟩
  rw [hlast, herase]
  have hkept : ∀ c' ∈ l₁ ++ l₂, c' ∈ s.chains := fun c' hc' => by
    rw [hchains]
    exact perm_middle.symm.subset (mem_cons_of_mem _ hc')
  refine ⟨?_, ?_, fun c' hc' => h.nonempty c' (hkept c' hc'), fun c' hc' => ?_, fun i y hi => ?_, ?_,
    Nat.mod_lt _ (Nat.two_pow_pos 16), fun y hy => ?_, ?_⟩
  · show (freeList { s.queue.relinked x z with
      freeHead := x, numUsed := s.queue.numUsed - (x :: c).length } ++ (l₁ ++ l₂).flatten).Perm
        (range s.queue.queueSize.val)
    rw [hlist]
    refine List.Perm.trans ?_ h.shared
    refine List.Perm.trans ?_ (hperm.append_left _).symm
    rw [← append_assoc]
    exact perm_append_comm.append_right _
  · show s.queue.numUsed - (x :: c).length = (l₁ ++ l₂).flatten.length
    omega
  · have hzc' : z ∉ c' := fun hin => hc_rest hmem (mem_flatten.mpr ⟨c', hc', hin⟩)
    exact writeNext_chained (writeNext_chained (h.chained c' (hkept c' hc'))
      (hspares_chains c' (hkept c' hc'))) fun b hb => absurd (hb.subset mem_cons_self) hzc'
  · have hring := h.ring (i + 1) y (by rw [hr]; exact hi)
    show (s.queue.usedRing (((s.queue.lastUsedIdx + 1) % 2 ^ 16 + i) % s.queue.queueSize.val)).id = y
    rw [← hring, Nat.add_mod, Nat.mod_mod_of_dvd _ (dvd_card _), ← Nat.add_mod, add_assoc, add_comm 1]
  · show s.queue.usedRingIdx = ((s.queue.lastUsedIdx + 1) % 2 ^ 16 + rest.length) % 2 ^ 16
    rw [h.idx, hr, length_cons, Nat.mod_add_mod, add_assoc, add_comm 1]
  · obtain ⟨c', hc', hhead'⟩ := h.heads y (by rw [hr]; exact mem_cons_of_mem _ hy)
    rw [hchains] at hc'
    refine ⟨c', (mem_cons.mp (perm_middle.subset hc')).resolve_left fun heq => ?_, hhead'⟩
    subst heq
    have hnodup := h.nodup
    rw [hr, nodup_cons] at hnodup
    exact hnodup.1 (Option.some.inj hhead' ▸ hy)
  · have hnodup := h.nodup
    rw [hr, nodup_cons] at hnodup
    exact hnodup.2

theorem popped {α : Type} {a : α} : ∃ t, s.popped ((do
      recycleDescriptors p x
      modify fun q => { q with lastUsedIdx := (q.lastUsedIdx + 1) % 2 ^ 16 }
      pure a) s.queue) = some t ∧ Owned t := by
  obtain ⟨q, hrecycle, howned⟩ := h.recycle (p := p) hr hspares
  refine ⟨_, ?_, howned⟩
  rw [bind_eq, hrecycle]
  show some (Sys.mk _ (s.chains.eraseP fun c => c.head? == s.returned.head?) s.returned.tail) = _
  rw [hr]
  rfl

end

end

theorem popUsed (hspares : Op.popUsed.Spares s) : ∃ t, Op.popUsed.run p s = some t ∧ Owned t := by
  have hcan := h.canPop_eq
  show ∃ t, s.popped (VirtQueue.popUsed p s.queue) = some t ∧ Owned t
  unfold VirtQueue.popUsed
  rw [get_bind]
  cases hr : s.returned with
  | nil =>
    rw [hr] at hcan
    rw [hcan]
    exact ⟨s, rfl, h⟩
  | cons x rest =>
    rw [hr] at hcan
    rw [hcan, h.nextUsed hr]
    exact h.popped hr (hspares x (by rw [hr]; rfl) (.inl rfl))

theorem popUsedWithToken {token : Nat} (hspares : (Op.popUsedWithToken token).Spares s) :
    ∃ t, (Op.popUsedWithToken token).run p s = some t ∧ Owned t := by
  have hcan := h.canPop_eq
  show ∃ t, s.popped (VirtQueue.popUsedWithToken p token s.queue) = some t ∧ Owned t
  unfold VirtQueue.popUsedWithToken
  rw [get_bind]
  cases hr : s.returned with
  | nil =>
    rw [hr] at hcan
    rw [hcan]
    exact ⟨s, rfl, h⟩
  | cons x rest =>
    rw [hr] at hcan
    rw [hcan, h.nextUsed hr]
    show ∃ t, s.popped ((when (x != token) (fail .wrongToken) >>= fun _ => _) s.queue) = some t ∧ Owned t
    by_cases htoken : x = token
    · subst htoken
      rw [bne_self_eq_false]
      exact h.popped hr (hspares x (by rw [hr]; rfl) (.inr rfl))
    · rw [bne_iff_ne.mpr htoken]
      exact ⟨s, rfl, h⟩

theorem added {inputs outputs : List Buf}
    (hrun : s.added (inputs.length + outputs.length) (VirtQueue.add inputs outputs s.queue) = some t) : Owned t := by
  generalize hadd : VirtQueue.add inputs outputs s.queue = x at hrun ⊢
  cases x with
  | ok head q =>
    obtain ⟨-, l, hlen, hadded⟩ := VirtQueue.add_added hadd
    cases hrun
    rw [← hlen, ← hadded.given]
    exact h.add hadded
  | err e q =>
    cases hrun
    rw [VirtQueue.add_err hadd]
    exact h
  | panic =>
    cases hrun

theorem step {op : Op} (hspares : op.Spares s) (hrun : op.run p s = some t) : Owned t := by
  cases op with
  | addBuf inputs outputs | addVm inputs outputs => exact h.added hrun
  | returnChain head len => exact h.returnChain hrun
  | popUsed =>
    obtain ⟨t', ht', howned⟩ := h.popUsed (p := p) hspares
    obtain rfl := Option.some.inj (ht'.symm.trans hrun)
    exact howned
  | popUsedWithToken token =>
    obtain ⟨t', ht', howned⟩ := h.popUsedWithToken (p := p) hspares
    obtain rfl := Option.some.inj (ht'.symm.trans hrun)
    exact howned

theorem chain_eq (hc : c ∈ s.chains) : ∃ head, c.head? = some head ∧ s.queue.chain head = c := by
  cases c with
  | nil => exact absurd rfl (h.nonempty _ hc)
  | cons x c =>
    refine ⟨x, rfl, (h.chained _ hc).follow ?_⟩
    have hsub : (x :: c).Sublist s.chains.flatten := sublist_flatten_of_mem hc
    exact (h.used ▸ hsub.length_le).trans h.numUsed_le

end

end Owned

theorem Run.owned {s : Sys} (h : Run p (fun s op => op.Spares s) s) : Owned s := by
  induction h with
  | new size => exact Owned.new size
  | step _ hcond hrun ih => exact ih.step hcond hrun

/-- The free list has as many different descriptors as are not used, none of them in a chain, and the device finds
every chain as it was given. -/
def Sys.Separate (s : Sys) : Prop :=
  s.queue.freeList.length = s.queue.queueSize.val - s.queue.numUsed ∧ s.queue.freeList.Nodup ∧
    (∀ c ∈ s.chains, s.queue.freeList.Disjoint c) ∧
    ∀ c ∈ s.chains, ∃ head, c.head? = some head ∧ s.queue.chain head = c

/-- **Descriptors have one owner** in every run in which each chain that is popped has a head such that the descriptor
below it is not linked to another one. The driver does not panic or hang in such a call. -/
theorem descriptors_owned {p : Profile} {s : Sys} (h : Run p (fun s op => op.Spares s) s) :
    s.Separate ∧ s.queue.numUsed = (s.chains.map List.length).sum ∧ s.queue.numUsed ≤ s.queue.queueSize.val ∧
      ∀ op : Op, op.Spares s → (op = .popUsed ∨ ∃ token, op = .popUsedWithToken token) → ∃ t, op.run p
        s = some t := by
  have howned := h.owned
  have hnodup := howned.all_nodup
  rw [List.nodup_append'] at hnodup
  refine ⟨⟨List.length_iterate _ _ _, hnodup.1, fun c hc i hi hi' => ?_, fun c hc => howned.chain_eq hc⟩, ?_,
    howned.numUsed_le, ?_⟩
  · exact hnodup.2.2 hi (List.mem_flatten.mpr ⟨c, hc, hi'⟩)
  · rw [howned.used, List.length_flatten]
  · rintro op hspares (rfl | ⟨token, rfl⟩)
    · obtain ⟨t, ht, -⟩ := howned.popUsed (p := p) hspares
      exact ⟨t, ht⟩
    · obtain ⟨t, ht, -⟩ := howned.popUsedWithToken (p := p) hspares
      exact ⟨t, ht⟩

def Sys.after (s : Sys) (p : Profile) (op : Op) : Sys := (op.run p s).getD s

theorem Run.next {cond : Sys → Op → Prop} {s : Sys} (h : Run p cond s) (op : Op) (hcond : cond s op)
    (hrun : (op.run p s).isSome) : Run p cond (s.after p op) := by
  obtain ⟨t, ht⟩ := Option.isSome_iff_exists.mp hrun
  unfold Sys.after
  rw [ht]
  exact h.step hcond ht

/-- A queue of four descriptors. -/
def sizeFour : QueueSize := ⟨4, ⟨2, rfl⟩, by decide⟩

/-- A chain of one buffer and a chain of two. -/
def addOne : Op := .addBuf [⟨some 0, 1⟩] []

def addTwo : Op := .addVm [⟨some 0, 1⟩] [⟨some 64, 1⟩]

def oneReturned : Sys := ((Sys.new sizeFour).after .dev addOne).after .dev (.returnChain 0 0)

def onePopped : Sys := oneReturned.after .dev .popUsed

theorem descriptors_owned_onePopped : onePopped.queue.freeList = [0, 1, 2, 3] ∧ onePopped.Separate := by
  have hfree : oneReturned.queue.freeList = [1, 2, 3] := by decide
  have hchains : oneReturned.chains = [[0]] := by decide
  have hreturned : oneReturned.returned = [0] := by decide
  have hspares : Op.popUsed.Spares oneReturned := by
    intro head hhead _ l hl
    rw [hreturned] at hhead
    obtain rfl : 0 = head := Option.some.inj hhead
    rw [hfree, hchains] at hl
    intro b hb
    have hbelow : oneReturned.queue.lastFreeHead 0 = 3 := by decide
    rw [hbelow] at hb
    rcases List.mem_cons.mp hl with rfl | hl
    · exact absurd hb (not_infix_getLast (by decide) rfl)
    · rw [List.mem_singleton.mp hl] at hb
      exact absurd hb.length_le (by simp)
  have hrun : Run .dev (fun s op => op.Spares s) oneReturned :=
    ((Run.new sizeFour).next addOne (fun _ h => by cases h) (by decide)).next (.returnChain 0 0)
      (fun _ h => by cases h)
      (by decide)
  exact ⟨by decide, (descriptors_owned (hrun.next .popUsed hspares (by decide))).1⟩

/-- The chains `[0]`, `[1]` and `[2]` are added, the last and the first one come back, and a chain of the descriptors
`0` and `2` is added. -/
def reused : Sys :=
  [addOne, addOne, addOne, .returnChain 2 0, .popUsed, .returnChain 0 0, .popUsed, addTwo].foldl (·.after .dev)
    (.new sizeFour)

/-- Then the chain `[1]` comes back. -/
def broken : Sys := (reused.after .dev (.returnChain 1 0)).after .dev .popUsed

/-- **Recycling the head `1` writes the link of the descriptor `0`**, which leads the chain `[0, 2]` to the descriptor
`1`. -/
theorem pop_breaks_chain : Run .dev (fun _ _ => True) broken ∧ reused.chains = [[0, 2], [1]] ∧
    broken.chains = [[0, 2]] ∧
    broken.queue.chain 0 = [0, 1] ∧ ¬ broken.Separate := by
  have hchains : broken.chains = [[0, 2]] := by decide
  have hchain : broken.queue.chain 0 = [0, 1] := by decide
  refine ⟨?_, by decide, hchains, hchain, fun hsep => ?_⟩
  · have hnew : Run .dev (fun _ _ => True) (.new sizeFour) := .new sizeFour
    have hadded := ((hnew.next addOne trivial (by decide)).next addOne trivial (by decide)).next addOne
      trivial (by decide)
    have hpopped := (((hadded.next (.returnChain 2 0) trivial (by decide)).next .popUsed trivial (by decide)).next
      (.returnChain 0 0) trivial (by decide)).next .popUsed trivial (by decide)
    exact ((hpopped.next addTwo trivial (by decide)).next (.returnChain 1 0) trivial (by decide)).next
      .popUsed trivial
      (by decide)
  · obtain ⟨head, hhead, hfound⟩ := hsep.2.2.2 [0, 2] (by rw [hchains]; exact List.mem_singleton.mpr rfl)
    obtain rfl : 0 = head := Option.some.inj hhead
    rw [hchain] at hfound
    exact absurd hfound (by decide)

end AsterKernel.Virtio
