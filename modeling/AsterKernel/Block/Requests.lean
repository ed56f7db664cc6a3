import AsterKernel.Lib.Bytes
import AsterKernel.Lib.Interval

/-!
# `Block.Requests` — the queue of block requests

A file system submits bios, and the driver takes requests from the other end of a queue. A bio that continues the
newest request at either end is merged into it, so that one transfer serves several bios, in the order of their
sectors. Bios of one request never overlap, and the requests are served in the order in which they were made: what the
device and the readers get is what they would get from the bios one after the other.

A bio owns its buffers. The number of the sector behind its last one does not overflow: no device has that many.
-/

namespace AsterKernel.Block

open Lib Function List

def SECTOR_SIZE : Nat := 512

/-- `BioSegment`: a buffer of whole sectors. -/
structure BioSegment where
  bytes : List UInt8
  aligned : bytes.length % SECTOR_SIZE = 0

def BioSegment.nbytes (s : BioSegment) : Nat := s.bytes.length

def BioSegment.nsectors (s : BioSegment) : Nat := s.nbytes / SECTOR_SIZE

inductive BioType where
  | read
  | write
  | flush
  | discard
deriving DecidableEq, Repr

/-- `BioStatus`, without the errors that no modelled function sets. -/
inductive BioStatus where
  | init
  | submit
  | complete
deriving DecidableEq, Repr

/-- `Bio`; the objects are told apart by `id`. -/
structure Bio where
  id : Nat
  type : BioType
  startSid : Nat
  segments : List BioSegment

namespace Bio

def nsectors (b : Bio) : Nat := (b.segments.map BioSegment.nsectors).sum

def sidRange (b : Bio) : Range := ⟨b.startSid, b.startSid + b.nsectors⟩

def bytes (b : Bio) : List UInt8 := (b.segments.map BioSegment.bytes).flatten

def sizes (b : Bio) : List Nat := b.segments.map BioSegment.nbytes

end Bio

/-! ## The device -/

/-- `DeviceInner::read` of an ideal device, from byte `off` on: the content of each writer. -/
def readDevice (sectors : Mem) : Nat → List Nat → List (List UInt8)
  | _, [] => []
  | off, n :: sizes => peek sectors off n :: readDevice sectors (off + n) sizes

/-- `DeviceInner::write` of an ideal device. -/
def writeDevice (sectors : Mem) (sid : Nat) (readers : List UInt8) : Mem := poke sectors (sid * SECTOR_SIZE) readers

/-! ## Requests -/

structure BioRequest where
  type : BioType
  sidRange : Range
  bios : List Bio

namespace BioRequest

/-- `BioRequest::from`. -/
def ofBio (bio : Bio) : BioRequest := ⟨bio.type, bio.sidRange, [bio]⟩

def canMerge (r : BioRequest) (bio : Bio) : Bool :=
  if bio.type != r.type then false
  else bio.sidRange.start == r.sidRange.stop || bio.sidRange.stop == r.sidRange.start

/-- `BioRequest::merge_bio`; `none` is the failed assertion. -/
def mergeBio (r : BioRequest) (bio : Bio) : Option BioRequest :=
  if !r.canMerge bio then none
  else if bio.sidRange.start == r.sidRange.stop then
    some { r with sidRange := ⟨r.sidRange.start, bio.sidRange.stop⟩, bios := r.bios ++ [bio] }
  else some { r with sidRange := ⟨bio.sidRange.start, r.sidRange.stop⟩, bios := bio :: r.bios }

end BioRequest

/-- The driver: `BioRequestSingleQueue` with its front first, the device, and the bios' status and buffers. -/
structure BlockDevice where
  queue : List BioRequest
  numRequests : Nat
  sectors : Mem
  status : Nat → BioStatus
  buffers : Nat → List (List UInt8)
  /-- The bios whose `complete` has been called, the last one first. -/
  completed : List Nat

namespace BlockDevice

def new (sectors : Mem) : BlockDevice := ⟨[], 0, sectors, fun _ => .init, fun _ => [], []⟩

/-- `BioRequestSingleQueue::enqueue`; `none` is a panic. -/
def enqueue (d : BlockDevice) (bio : Bio) : Option BlockDevice :=
  match d.queue with
  | request :: rest =>
    if request.canMerge bio then (request.mergeBio bio).map fun r => { d with queue := r :: rest }
    else some { d with queue := .ofBio bio :: d.queue, numRequests := d.numRequests + 1 }
  | [] => some { d with queue := [.ofBio bio], numRequests := d.numRequests + 1 }

/-- `Bio::submit`; `none` is the panic of a bio that is submitted again. -/
def submit (d : BlockDevice) (bio : Bio) : Option BlockDevice :=
  if d.status bio.id ≠ .init then none
  else enqueue { d with status := Function.update d.status bio.id .submit } bio

/-- `BioRequestSingleQueue::dequeue`; `none` while there is nothing to take. -/
def dequeue (d : BlockDevice) : Option (BioRequest × BlockDevice) :=
  if d.numRequests = 0 then none
  else d.queue.getLast?.map fun r => (r, { d with queue := d.queue.dropLast, numRequests := d.numRequests - 1 })

/-- `SubmittedBio::complete(BioStatus::Complete)` for each bio; `none` is a panic. -/
def completeAll : List Bio → BlockDevice → Option BlockDevice
  | [], d => some d
  | bio :: bios, d =>
    if d.status bio.id ≠ .submit then none
    else completeAll bios { d with status := Function.update d.status bio.id .complete, completed := bio.id :: d.completed }

/-- The contents of the writers, bio by bio. -/
def deal : List Bio → List (List UInt8) → List (Nat × List (List UInt8))
  | [], _ => []
  | bio :: bios, contents =>
    (bio.id, contents.take bio.segments.length) :: deal bios (contents.drop bio.segments.length)

def fill (buffers : Nat → List (List UInt8)) (dealt : List (Nat × List (List UInt8))) : Nat → List (List UInt8) :=
  dealt.foldl (fun buffers x => Function.update buffers x.1 x.2) buffers

def doRead (request : BioRequest) (d : BlockDevice) : Option BlockDevice :=
  let contents := readDevice d.sectors (request.sidRange.start * SECTOR_SIZE) (request.bios.flatMap Bio.sizes)
  completeAll request.bios { d with buffers := fill d.buffers (deal request.bios contents) }

def doWrite (request : BioRequest) (d : BlockDevice) : Option BlockDevice :=
  completeAll request.bios
    { d with sectors := writeDevice d.sectors request.sidRange.start (request.bios.flatMap Bio.bytes) }

/-- `BlockDevice::handle_requests`; `none` while it waits, and for what is not implemented. -/
def handleRequests (d : BlockDevice) : Option BlockDevice :=
  d.dequeue.bind fun (request, d) =>
    match request.type with
    | .read => doRead request d
    | .write => doWrite request d
    | .flush | .discard => none

end BlockDevice

open BlockDevice

/-! ## One bio after the other -/

namespace Bio

/-- What the device has after the bio. -/
def exec (sectors : Mem) (b : Bio) : Mem :=
  if b.type = .write then writeDevice sectors b.startSid b.bytes else sectors

def result (sectors : Mem) (b : Bio) : List (List UInt8) := readDevice sectors (b.startSid * SECTOR_SIZE) b.sizes

end Bio

/-- What the device has after the bios. -/
def execAll (sectors : Mem) (bios : List Bio) : Mem := bios.foldl Bio.exec sectors

theorem execAll_append (sectors : Mem) (xs ys : List Bio) :
    execAll sectors (xs ++ ys) = execAll (execAll sectors xs) ys := foldl_append

/-! ## The sectors of a request -/

theorem BioSegment.nsectors_mul (s : BioSegment) : s.nsectors * SECTOR_SIZE = s.nbytes :=
  Nat.div_mul_cancel (Nat.dvd_of_mod_eq_zero s.aligned)

theorem Bio.length_bytes (b : Bio) : b.bytes.length = b.nsectors * SECTOR_SIZE := by
  unfold Bio.bytes Bio.nsectors
  induction b.segments with
  | nil => rfl
  | cons s segments ih =>
    rw [map_cons, flatten_cons, length_append, ih, map_cons, sum_cons, add_mul, s.nsectors_mul, BioSegment.nbytes]

theorem Bio.sum_sizes (b : Bio) : b.sizes.sum = b.nsectors * SECTOR_SIZE := by
  unfold Bio.sizes Bio.nsectors
  induction b.segments with
  | nil => rfl
  | cons s segments ih => rw [map_cons, sum_cons, ih, map_cons, sum_cons, add_mul, s.nsectors_mul]

/-- The bios follow each other from sector `a` to sector `z`. -/
def Tiles : Nat → Nat → List Bio → Prop
  | a, z, [] => a = z
  | a, z, b :: bios => b.startSid = a ∧ Tiles (a + b.nsectors) z bios

section

variable {a z y : Nat} {xs ys bios : List Bio}

theorem Tiles.append (h : Tiles a z xs) (h' : Tiles z y ys) : Tiles a y (xs ++ ys) := by
  induction xs generalizing a with
  | nil =>
    obtain rfl : a = z := h
    exact h'
  | cons x xs ih => exact ⟨h.1, ih h.2⟩

theorem Tiles.single (b : Bio) : Tiles b.startSid (b.startSid + b.nsectors) [b] := ⟨rfl, rfl⟩

/-- The bytes of the bios are those of the range. -/
theorem Tiles.length (h : Tiles a z bios) : a * SECTOR_SIZE + (bios.flatMap Bio.bytes).length = z * SECTOR_SIZE := by
  induction bios generalizing a with
  | nil =>
    obtain rfl : a = z := h
    rw [flatMap_nil, length_nil, add_zero]
  | cons b bios ih =>
    rw [flatMap_cons, length_append, b.length_bytes, ← ih h.2, add_mul]
    omega

end

theorem readDevice_append (sectors : Mem) (off : Nat) (xs ys : List Nat) :
    readDevice sectors off (xs ++ ys) = readDevice sectors off xs ++ readDevice sectors (off + xs.sum) ys := by
  induction xs generalizing off with
  | nil => rfl
  | cons n xs ih => rw [cons_append, readDevice, ih, readDevice, cons_append, sum_cons, add_assoc]

theorem length_readDevice (sectors : Mem) (off : Nat) (xs : List Nat) : (readDevice sectors off xs).length =
    xs.length := by
  induction xs generalizing off with
  | nil => rfl
  | cons n xs ih => rw [readDevice, length_cons, ih, length_cons]

/-- What a request reads is dealt to its bios as they would read it themselves. -/
theorem Tiles.deal {a z : Nat} {bios : List Bio} {sectors : Mem} (h : Tiles a z bios) :
    BlockDevice.deal bios (readDevice sectors (a * SECTOR_SIZE) (bios.flatMap Bio.sizes)) =
      bios.map fun b => (b.id, b.result sectors) := by
  induction bios generalizing a with
  | nil => rfl
  | cons b bios ih =>
    obtain ⟨rfl, hrest⟩ := h
    have hlen : (readDevice sectors (b.startSid * SECTOR_SIZE) b.sizes).length = b.segments.length := by
      rw [length_readDevice, Bio.sizes, length_map]
    have hoff : b.startSid * SECTOR_SIZE + b.sizes.sum = (b.startSid + b.nsectors) * SECTOR_SIZE := by
      rw [b.sum_sizes, add_mul]
    rw [flatMap_cons, readDevice_append, BlockDevice.deal, take_left' hlen, drop_left' hlen, hoff, ih hrest, map_cons]
    rfl

/-! ## How requests are formed -/

/-- The request has been formed from bios that came in this order. -/
inductive Formed : List Bio → BioRequest → Prop
  | ofBio (b : Bio) : Formed [b] (.ofBio b)
  | merge {order : List Bio} {r r' : BioRequest} {b : Bio} (h : Formed order r) (hm : r.mergeBio b = some r') :
      Formed (order ++ [b]) r'

namespace BioRequest

/-- A merge is at one of the ends. -/
theorem mergeBio_cases {r r' : BioRequest} {b : Bio} (h : r.mergeBio b = some r') : b.type = r.type ∧
    ((b.startSid = r.sidRange.stop ∧
        r' = { r with sidRange := ⟨r.sidRange.start, b.sidRange.stop⟩, bios := r.bios ++ [b] }) ∨
      (b.sidRange.stop = r.sidRange.start ∧
        r' = { r with sidRange := ⟨b.startSid, r.sidRange.stop⟩, bios := b :: r.bios })) := by
  unfold mergeBio at h
  split at h
  case isTrue => cases h
  case isFalse hcan =>
    simp only [canMerge, bne_iff_ne, Bool.not_eq_true', Bool.not_eq_false] at hcan
    split at hcan
    case isTrue => cases hcan
    case isFalse htype =>
      refine ⟨not_not.mp htype, ?_⟩
      split at h
      case isTrue hback => exact .inl ⟨beq_iff_eq.mp hback, (Option.some.inj h).symm⟩
      case isFalse hback =>
        rw [Bool.or_eq_true, beq_iff_eq, beq_iff_eq] at hcan
        exact .inr ⟨hcan.resolve_left fun heq => hback (beq_iff_eq.mpr heq), (Option.some.inj h).symm⟩

theorem mergeBio_isSome {r : BioRequest} {b : Bio} (h : r.canMerge b = true) : ∃ r', r.mergeBio b = some r' := by
  unfold mergeBio
  rw [h]
  by_cases hback : (b.sidRange.start == r.sidRange.stop) = true
  · exact ⟨_, if_pos hback⟩
  · exact ⟨_, if_neg hback⟩

/-- The bios are of one type and cover the range from its start to its end. -/
structure WellFormed (r : BioRequest) : Prop where
  tiles : Tiles r.sidRange.start r.sidRange.stop r.bios
  types : ∀ b ∈ r.bios, b.type = r.type
  nonempty : r.bios ≠ []

end BioRequest

namespace Formed

variable {order : List Bio} {r : BioRequest} {sectors : Mem}

section

variable (h : Formed order r)
include h

theorem wellFormed : r.WellFormed := by
  induction h with
  | ofBio b => exact ⟨Tiles.single b, fun b' hb' => by rw [mem_singleton.mp hb']; rfl, cons_ne_nil _ _⟩
  | @merge order r r' b _ hm ih =>
    obtain ⟨htype, ⟨hback, rfl⟩ | ⟨hfront, rfl⟩⟩ := BioRequest.mergeBio_cases hm
    · refine ⟨ih.tiles.append (hback ▸ Tiles.single b), fun b' hb' => ?_, by simp⟩
      rcases mem_append.mp hb' with hold | hnew
      · exact ih.types b' hold
      · rw [mem_singleton.mp hnew]
        exact htype
    · have htail : Tiles (b.startSid + b.nsectors) r.sidRange.stop r.bios :=
        (show b.startSid + b.nsectors = r.sidRange.start from hfront) ▸ ih.tiles
      refine ⟨⟨rfl, htail⟩, fun b' hb' => ?_, cons_ne_nil _ _⟩
      rcases mem_cons.mp hb' with rfl | hold
      · exact htype
      · exact ih.types b' hold

theorem perm : r.bios.Perm order := by
  induction h with
  | ofBio b => exact .refl _
  | @merge order r r' b _ hm ih =>
    obtain ⟨-, ⟨-, rfl⟩ | ⟨-, rfl⟩⟩ := BioRequest.mergeBio_cases hm
    · exact ih.append_right _
    · exact (ih.cons b).trans (perm_append_singleton b order).symm

theorem type : ∀ b ∈ order, b.type = r.type :=
  fun b hb => h.wellFormed.types b (h.perm.mem_iff.mpr hb)

/-- The transfer of a request writes what its bios write in the order in which they came. -/
theorem write (hwrite : r.type = .write) :
    writeDevice sectors r.sidRange.start (r.bios.flatMap Bio.bytes) = execAll sectors order := by
  induction h with
  | ofBio b =>
    have hb : b.type = .write := hwrite
    show writeDevice sectors b.startSid (b.bytes ++ []) = Bio.exec sectors b
    rw [append_nil, Bio.exec, if_pos hb]
  | @merge order r r' b hr hm ih =>
    obtain ⟨htype, hcases⟩ := BioRequest.mergeBio_cases hm
    have hrtype : r.type = .write := by
      rcases hcases with ⟨-, rfl⟩ | ⟨-, rfl⟩
      · exact hwrite
      · exact hwrite
    rw [execAll_append, ← ih hrtype]
    have hlen := hr.wellFormed.tiles.length
    show _ = Bio.exec _ b
    rw [Bio.exec, if_pos (htype.trans hrtype)]
    unfold writeDevice
    rcases hcases with ⟨hback, rfl⟩ | ⟨hfront, rfl⟩
    · rw [flatMap_append, flatMap_singleton, poke_append, hlen, hback]
    · -- the new bio is below the others: the two writes commute
      have hstop : b.startSid * SECTOR_SIZE + b.bytes.length = r.sidRange.start * SECTOR_SIZE := by
        rw [b.length_bytes, ← add_mul, ← hfront]
        rfl
      rw [flatMap_cons, poke_append, hstop, poke_comm (.inl hstop.le)]

end

theorem execAll_read (h : ∀ b ∈ order, b.type = .read) : execAll sectors order = sectors := by
  induction order with
  | nil => rfl
  | cons b order ih =>
    show execAll (b.exec sectors) order = sectors
    rw [Bio.exec, if_neg (by rw [h b mem_cons_self]; decide), ih fun b' hb' => h b' (mem_cons_of_mem _ hb')]

end Formed

/-! ## Completing and filling -/

namespace BlockDevice

variable {bios : List Bio} {d : BlockDevice}

theorem completeAll_eq (hnodup : (bios.map Bio.id).Nodup) (hsubmit : ∀ b ∈ bios, d.status b.id = .submit) :
    completeAll bios d = some { d with
      status := fun i => if i ∈ bios.map Bio.id then .complete else d.status i
      completed := (bios.map Bio.id).reverse ++ d.completed } := by
  induction bios generalizing d with
  | nil => simp [completeAll]
  | cons b bios ih =>
    rw [map_cons, nodup_cons] at hnodup
    have hne : ∀ b' ∈ bios, b'.id ≠ b.id := fun b' hb' heq => hnodup.1 (heq ▸ mem_map_of_mem hb')
    have hrest : ∀ b' ∈ bios, update d.status b.id .complete b'.id = .submit := fun b' hb' => by
      rw [update_of_ne (hne b' hb')]
      exact hsubmit b' (mem_cons_of_mem _ hb')
    rw [completeAll, if_neg (not_not.mpr (hsubmit b mem_cons_self)), ih hnodup.2 hrest]
    congr 2
    · funext i
      by_cases hi : i = b.id
      · subst hi
        simp
      · simp [hi]
    · simp

theorem submit_isSome {b : Bio} (h : d.status b.id = .init) : ∃ d', d.submit b = some d' := by
  unfold submit
  rw [if_neg (not_not.mpr h)]
  unfold enqueue
  split
  · split
    case isTrue hcan =>
      obtain ⟨r, hr⟩ := BioRequest.mergeBio_isSome hcan
      rw [hr]
      exact ⟨_, rfl⟩
    case isFalse => exact ⟨_, rfl⟩
  · exact ⟨_, rfl⟩

variable {buffers : Nat → List (List UInt8)} {f : Bio → List (List UInt8)}

theorem fill_other {i : Nat}
    (hi : i ∉ bios.map Bio.id) : fill buffers (bios.map fun b => (b.id, f b)) i = buffers i := by
  induction bios generalizing buffers with
  | nil => rfl
  | cons b bios ih =>
    rw [map_cons, mem_cons, not_or] at hi
    rw [map_cons, fill, foldl_cons, ← fill, ih hi.2, update_of_ne hi.1]

theorem fill_self {b : Bio} (hnodup : (bios.map Bio.id).Nodup) (hb : b ∈ bios) :
    fill buffers (bios.map fun b => (b.id, f b)) b.id = f b := by
  induction bios generalizing buffers with
  | nil => cases hb
  | cons b' bios ih =>
    rw [map_cons, nodup_cons] at hnodup
    rw [map_cons, fill, foldl_cons, ← fill]
    rcases mem_cons.mp hb with rfl | hb
    · rw [fill_other hnodup.1, update_self]
    · exact ih hnodup.2 hb

end BlockDevice

/-! ## Runs -/

/-- The states that submissions and the driver lead to, with the bios in the order of their submission. -/
inductive Run (sectors₀ : Mem) : List Bio → BlockDevice → Prop
  | new : Run sectors₀ [] (.new sectors₀)
  | submit {bios : List Bio} {d d' : BlockDevice} {b : Bio} (h : Run sectors₀ bios d)
      (hrw : b.type = .read ∨ b.type = .write)
      (hs : d.submit b = some d') : Run sectors₀ (bios ++ [b]) d'
  | handle {bios : List Bio} {d d' : BlockDevice} (h : Run sectors₀ bios d) (hh : d.handleRequests = some d') :
      Run sectors₀ bios d'

/-- The bios in `done` have been served, those in `pend` are in the requests of the queue, the oldest one first. -/
structure Served (sectors₀ : Mem) (done : List Bio) (pend : List (List Bio)) (d : BlockDevice) : Prop where
  formed : List.Forall₂ Formed pend d.queue.reverse
  count : d.numRequests = d.queue.length
  rw : ∀ b ∈ done ++ pend.flatten, b.type = .read ∨ b.type = .write
  nodup : ((done ++ pend.flatten).map Bio.id).Nodup
  sectors : d.sectors = execAll sectors₀ done
  waiting : ∀ b ∈ pend.flatten, d.status b.id = .submit
  finished : ∀ b ∈ done, d.status b.id = .complete
  fresh : ∀ i, i ∉ (done ++ pend.flatten).map Bio.id → d.status i = .init
  completed : d.completed.Perm (done.map Bio.id)
  data : ∀ (k : Nat) (b : Bio), done[k]? = some b → b.type = .read →
    d.buffers b.id = b.result (execAll sectors₀ (done.take k))

namespace Served

variable {sectors₀ : Mem} {done : List Bio} {pend : List (List Bio)} {d d' : BlockDevice} {b : Bio}

theorem new (sectors₀ : Mem) : Served sectors₀ [] [] (.new sectors₀) where
  formed := .nil
  count := rfl
  rw _ hb := nomatch hb
  nodup := nodup_nil
  sectors := rfl
  waiting _ hb := nomatch hb
  finished _ hb := nomatch hb
  fresh _ _ := rfl
  completed := .refl _
  data k b hb := by simp at hb

/-- A bio that can be submitted has not been submitted before. -/
theorem not_mem (h : Served sectors₀ done pend d) (hinit : d.status b.id = .init) :
    b.id ∉ (done ++ pend.flatten).map Bio.id := by
  intro hmem
  obtain ⟨b', hb', heq⟩ := mem_map.mp hmem
  rw [← heq] at hinit
  rcases mem_append.mp hb' with hdone | hpend
  · rw [h.finished b' hdone] at hinit
    cases hinit
  · rw [h.waiting b' hpend] at hinit
    cases hinit

variable {queue : List BioRequest}

section

variable (h : Served sectors₀ done pend d) (hrw : b.type = .read ∨ b.type = .write)
include h hrw

theorem add (hinit : d.status b.id = .init)
    {pend' : List (List Bio)} {n : Nat} (hpend : pend'.flatten = pend.flatten ++ [b])
    (hformed : List.Forall₂ Formed pend' queue.reverse) (hcount : n = queue.length) : Served sectors₀ done pend'
      { d with queue := queue, numRequests := n, status := update d.status b.id .submit } := by
  have hnew := h.not_mem hinit
  have hne : ∀ b' ∈ done ++ pend.flatten, b'.id ≠ b.id := fun b' hb' heq => hnew (heq ▸ mem_map_of_mem hb')
  have hall : done ++ pend'.flatten = (done ++ pend.flatten) ++ [b] := by rw [hpend, append_assoc]
  refine ⟨hformed, hcount, fun b' hb' => ?_, ?_, h.sectors, fun b' hb' => ?_, fun b' hb' => ?_, fun i hi =>
    ?_, h.completed,
    h.data⟩
  · rw [hall] at hb'
    rcases mem_append.mp hb' with hold | hnew
    · exact h.rw b' hold
    · rw [mem_singleton.mp hnew]
      exact hrw
  · rw [hall, map_append, nodup_append']
    refine ⟨h.nodup, nodup_singleton _, fun i hi hi' => ?_⟩
    rw [map_singleton, mem_singleton] at hi'
    exact hnew (hi' ▸ hi)
  · rw [hpend] at hb'
    rcases mem_append.mp hb' with hold | hnew
    · show update d.status b.id .submit b'.id = _
      rw [update_of_ne (hne b' (mem_append_right _ hold))]
      exact h.waiting b' hold
    · show update d.status b.id .submit b'.id = _
      rw [mem_singleton.mp hnew, update_self]
  · show update d.status b.id .submit b'.id = _
    rw [update_of_ne (hne b' (mem_append_left _ hb'))]
    exact h.finished b' hb'
  · rw [hall, map_append, mem_append, not_or] at hi
    show update d.status b.id .submit i = _
    rw [update_of_ne fun heq => hi.2 (by rw [heq]; exact mem_singleton.mpr rfl)]
    exact h.fresh i hi.1

theorem submit (hs : d.submit b = some d') :
    ∃ pend', pend'.flatten = pend.flatten ++ [b] ∧ Served sectors₀ done pend' d' := by
  unfold BlockDevice.submit at hs
  split at hs
  case isTrue => cases hs
  case isFalse hstatus =>
    have hinit : d.status b.id = .init := not_not.mp hstatus
    have hformed := h.formed
    -- a request of its own
    have hown : Served sectors₀ done (pend ++ [[b]]) { d with
        queue := .ofBio b :: d.queue
        numRequests := d.numRequests + 1
        status := update d.status b.id .submit } := by
      refine h.add hrw hinit (by simp) ?_ (by rw [h.count, length_cons])
      rw [reverse_cons]
      exact rel_append hformed (.cons (.ofBio b) .nil)
    unfold BlockDevice.enqueue at hs
    dsimp only at hs
    cases hqueue : d.queue with
    | nil =>
      rw [hqueue] at hs hown
      cases hs
      exact ⟨pend ++ [[b]], by simp, hown⟩
    | cons request rest =>
      rw [hqueue] at hs hown
      dsimp only at hs
      split at hs
      case isFalse =>
        cases hs
        exact ⟨pend ++ [[b]], by simp, hown⟩
      case isTrue =>
        obtain ⟨r, hr, rfl⟩ := Option.map_eq_some_iff.mp hs
        rw [← forall₂_reverse_iff, reverse_reverse, hqueue, forall₂_cons_right_iff] at hformed
        obtain ⟨order, orders, horder, horders, hpend⟩ := hformed
        obtain rfl : pend = orders.reverse ++ [order] := by rw [← reverse_cons, ← hpend, reverse_reverse]
        refine ⟨orders.reverse ++ [order ++ [b]], by simp, h.add hrw hinit (by simp) ?_ ?_⟩
        · rw [reverse_cons]
          exact rel_append (forall₂_reverse_iff.mpr horders) (.cons (.merge horder hr) .nil)
        · rw [h.count, hqueue, length_cons, length_cons]

end

theorem serve {order : List Bio} {r : BioRequest} (h : Served sectors₀ done (order :: pend) d)
    (hqueue : d.queue = queue ++ [r]) (hr : Formed order r) {buffers : Nat → List (List UInt8)} {sectors : Mem}
    (hsectors : sectors = execAll sectors₀ (done ++ order))
    (hkept : ∀ i, i ∉ order.map Bio.id → buffers i = d.buffers i)
    (hdata : ∀ (k : Nat) (b : Bio), order[k]? = some b → b.type = .read →
      buffers b.id = b.result (execAll sectors₀ (done ++ order.take k))) (hc : completeAll r.bios { d with
      queue := queue, numRequests := d.numRequests - 1, sectors := sectors, buffers := buffers } = some d') :
    Served sectors₀ (done ++ order) pend d' := by
  have hall : (done ++ order) ++ pend.flatten = done ++ (order :: pend).flatten := by
    rw [flatten_cons, append_assoc]
  have hids : (r.bios.map Bio.id).Perm (order.map Bio.id) := hr.perm.map _
  have hnodup := h.nodup
  rw [← hall, map_append, map_append, nodup_append', nodup_append'] at hnodup
  obtain ⟨⟨-, horder, hdone⟩, -, hpend⟩ := hnodup
  have hwaiting : ∀ b ∈ order, d.status b.id = .submit := fun b hb =>
    h.waiting b (by rw [flatten_cons]; exact mem_append_left _ hb)
  rw [completeAll_eq (hids.nodup_iff.mpr horder) (by exact fun b hb => hwaiting b (hr.perm.mem_iff.mp hb))] at hc
  cases hc
  have hstatus : ∀ i, i ∉ order.map Bio.id →
      (if i ∈ r.bios.map Bio.id then BioStatus.complete else d.status i) = d.status i := fun i hi =>
    if_neg fun hmem => hi (hids.mem_iff.mp hmem)
  have hformed := h.formed
  rw [hqueue, reverse_append, reverse_singleton, singleton_append, forall₂_cons] at hformed
  refine ⟨hformed.2, ?_, hall ▸ h.rw, hall ▸ h.nodup, hsectors, fun b hb => ?_, fun b hb => ?_, fun i hi => ?_, ?_,
    fun k b hk hread => ?_⟩
  · show d.numRequests - 1 = queue.length
    rw [h.count, hqueue, length_append, length_singleton, Nat.add_sub_cancel]
  · have hnot : b.id ∉ order.map Bio.id := fun hmem =>
      hpend (mem_append_right _ hmem) (mem_map_of_mem hb)
    exact (hstatus b.id hnot).trans (h.waiting b (by rw [flatten_cons]; exact mem_append_right _ hb))
  · rcases mem_append.mp hb with hold | hnew
    · exact (hstatus b.id fun hmem => hdone (mem_map_of_mem hold) hmem).trans (h.finished b hold)
    · exact if_pos (hids.mem_iff.mpr (mem_map_of_mem hnew))
  · rw [hall] at hi
    have hnot : i ∉ order.map Bio.id := fun hmem => hi (by
      rw [flatten_cons, map_append, map_append]
      exact mem_append_right _ (mem_append_left _ hmem))
    exact (hstatus i hnot).trans (h.fresh i hi)
  · rw [map_append]
    exact (((reverse_perm _).trans hids).append h.completed).trans perm_append_comm
  · show buffers b.id = _
    rcases lt_or_ge k done.length with hlt | hge
    · rw [getElem?_append_left hlt] at hk
      have hnot : b.id ∉ order.map Bio.id := fun hmem =>
        hdone (mem_map_of_mem (mem_of_getElem? hk)) hmem
      rw [hkept b.id hnot, h.data k b hk hread, take_append_of_le_length hlt.le]
    · rw [getElem?_append_right hge] at hk
      rw [hdata (k - done.length) b hk hread, take_append, take_of_length_le hge]

section

variable (h : Served sectors₀ done pend d)
include h

theorem handle (hh : d.handleRequests = some d') :
    ∃ order pend', pend = order :: pend' ∧ Served sectors₀ (done ++ order) pend' d' := by
  obtain ⟨⟨r, d₁⟩, hdeq, hexec⟩ := Option.bind_eq_some_iff.mp hh
  unfold dequeue at hdeq
  split at hdeq
  case isTrue => cases hdeq
  case isFalse =>
    obtain ⟨r', hlast, heq⟩ := Option.map_eq_some_iff.mp hdeq
    obtain ⟨rfl, rfl⟩ := Prod.mk.inj heq
    have hqueue : d.queue = d.queue.dropLast ++ [r'] := (dropLast_append_getLast? r' hlast).symm
    have hformed := h.formed
    rw [hqueue, reverse_append, reverse_singleton, singleton_append, forall₂_cons_right_iff] at hformed
    obtain ⟨order, pend', hr, -, rfl⟩ := hformed
    refine ⟨order, pend', rfl, ?_⟩
    dsimp only at hexec
    split at hexec
    case h_1 hread =>
      have hreads : ∀ b ∈ order, b.type = .read := fun b hb => (hr.type b hb).trans hread
      have hkeep : ∀ bios : List Bio, (∀ b ∈ bios, b.type = .read) →
          execAll sectors₀ (done ++ bios) = execAll sectors₀ done := fun bios hbios => by
        rw [execAll_append, Formed.execAll_read hbios]
      have hids : (r'.bios.map Bio.id).Perm (order.map Bio.id) := hr.perm.map _
      have hnodup : (r'.bios.map Bio.id).Nodup := by
        have hnodup := h.nodup
        rw [flatten_cons, map_append, map_append, nodup_append', nodup_append'] at hnodup
        exact hids.nodup_iff.mpr hnodup.2.1.1
      unfold doRead at hexec
      dsimp only at hexec
      rw [hr.wellFormed.tiles.deal] at hexec
      refine h.serve hqueue hr (h.sectors.trans (hkeep order hreads).symm) (fun i hi => ?_) (fun k b hk _ => ?_) hexec
      · exact fill_other fun hmem => hi (hids.mem_iff.mp hmem)
      · have hmem : b ∈ r'.bios := hr.perm.mem_iff.mpr (mem_of_getElem? hk)
        rw [hkeep _ fun b' hb' => hreads b' (mem_of_mem_take hb'), ← h.sectors]
        exact fill_self hnodup hmem
    case h_2 hwrite =>
      refine h.serve hqueue hr ?_ (fun _ _ => rfl) (fun k b hk hread => ?_) hexec
      · rw [execAll_append, ← h.sectors]
        exact hr.write hwrite
      · rw [hr.type b (mem_of_getElem? hk), hwrite] at hread
        cases hread
    case h_3 => cases hexec
    case h_4 => cases hexec

theorem wellFormed : ∀ r ∈ d.queue, r.WellFormed := by
  have hall : ∀ {pend : List (List Bio)} {queue : List BioRequest}, List.Forall₂ Formed pend queue →
      ∀ r ∈ queue, r.WellFormed := by
    intro pend queue hformed
    induction hformed with
    | nil => exact fun _ hr => nomatch hr
    | cons hr _ ih => exact forall_mem_cons.mpr ⟨hr.wellFormed, ih⟩
  exact fun r hr => hall h.formed r (mem_reverse.mpr hr)

/-- The driver does not wait or panic while there are requests. -/
theorem handles (hne : d.queue ≠ []) : ∃ d', d.handleRequests = some d' := by
  have hqueue : d.queue = d.queue.dropLast ++ [d.queue.getLast hne] := (dropLast_append_getLast hne).symm
  have hformed := h.formed
  rw [hqueue, reverse_append, reverse_singleton, singleton_append, forall₂_cons_right_iff] at hformed
  obtain ⟨order, pend', hr, -, rfl⟩ := hformed
  have hnodup : ((d.queue.getLast hne).bios.map Bio.id).Nodup := by
    have hnodup := h.nodup
    rw [flatten_cons, map_append, map_append, nodup_append', nodup_append'] at hnodup
    exact (hr.perm.map _).nodup_iff.mpr hnodup.2.1.1
  have hwaiting : ∀ b ∈ (d.queue.getLast hne).bios, d.status b.id = .submit := fun b hb =>
    h.waiting b (by rw [flatten_cons]; exact mem_append_left _ (hr.perm.mem_iff.mp hb))
  have hdeq : d.dequeue = some (d.queue.getLast hne, { d with
      queue := d.queue.dropLast, numRequests := d.numRequests - 1 }) := by
    unfold dequeue
    rw [if_neg (by rw [h.count]; exact fun hzero => hne (length_eq_zero_iff.mp hzero)), getLast?_eq_some_getLast hne]
    rfl
  have hrw : (d.queue.getLast hne).type = .read ∨ (d.queue.getLast hne).type = .write := by
    obtain ⟨b, hb⟩ := exists_mem_of_ne_nil _ hr.wellFormed.nonempty
    rw [← hr.wellFormed.types b hb]
    refine h.rw b (mem_append_right _ ?_)
    rw [flatten_cons]
    exact mem_append_left _ (hr.perm.mem_iff.mp hb)
  unfold handleRequests
  rw [hdeq, Option.bind_some]
  dsimp only
  rcases hrw with hread | hwrite
  · rw [hread]
    exact ⟨_, completeAll_eq hnodup hwaiting⟩
  · rw [hwrite]
    exact ⟨_, completeAll_eq hnodup hwaiting⟩

end

end Served

theorem Run.served {sectors₀ : Mem} {bios : List Bio} {d : BlockDevice} (h : Run sectors₀ bios d) :
    ∃ done pend, bios = done ++ pend.flatten ∧ Served sectors₀ done pend d := by
  induction h with
  | new => exact ⟨[], [], rfl, Served.new sectors₀⟩
  | submit _ hrw hs ih =>
    obtain ⟨done, pend, rfl, hserved⟩ := ih
    obtain ⟨pend', hpend, hserved'⟩ := hserved.submit hrw hs
    exact ⟨done, pend', by rw [hpend, append_assoc], hserved'⟩
  | handle _ hh ih =>
    obtain ⟨done, pend, rfl, hserved⟩ := ih
    obtain ⟨order, pend', rfl, hserved'⟩ := hserved.handle hh
    exact ⟨done ++ order, pend', by rw [flatten_cons, append_assoc], hserved'⟩

/-- **Merging is transparent.** In every reached state the bios of each request cover its sectors in ascending order,
a new bio can be submitted and the driver can go on while there are requests. When the queue is empty, the device and
every bio that reads have what the bios give one after the other, and each bio has been completed once. -/
theorem requests_transparent {sectors₀ : Mem} {bios : List Bio} {d : BlockDevice} (h : Run sectors₀ bios d) :
    (∀ r ∈ d.queue, r.WellFormed) ∧ (∀ b : Bio, d.status b.id = .init → ∃ d', d.submit b = some d') ∧
      (d.queue ≠ [] → ∃ d', d.handleRequests = some d') ∧
      (d.queue = [] → d.sectors = execAll sectors₀ bios ∧ (∀ (k : Nat) (b : Bio), bios[k]? = some b → b.type = .read →
          d.buffers b.id = b.result (execAll sectors₀ (bios.take k))) ∧
        ∀ b ∈ bios, d.status b.id = .complete ∧ d.completed.count b.id = 1) := by
  obtain ⟨done, pend, rfl, hserved⟩ := h.served
  refine ⟨hserved.wellFormed, fun b => BlockDevice.submit_isSome, hserved.handles, fun hempty => ?_⟩
  have hformed := hserved.formed
  rw [hempty] at hformed
  obtain rfl : pend = [] := List.forall₂_nil_right_iff.mp hformed
  have hnodup := hserved.nodup
  rw [List.flatten_nil, List.append_nil] at hnodup ⊢
  refine ⟨hserved.sectors, hserved.data, fun b hb => ⟨hserved.finished b hb, ?_⟩⟩
  rw [hserved.completed.count_eq]
  exact List.count_eq_one_of_mem hnodup (List.mem_map_of_mem hb)

/-- A sector of one byte's copies. -/
def sectorOf (b : UInt8) : BioSegment := ⟨List.replicate SECTOR_SIZE b, by rw [List.length_replicate]; rfl⟩

def bioOf (id : Nat) (type : BioType) (sid : Nat) (b : UInt8) : Bio := ⟨id, type, sid, [sectorOf b]⟩

theorem bioOf_sidRange (id : Nat) (type : BioType) (sid : Nat) (b : UInt8) :
    (bioOf id type sid b).sidRange = ⟨sid, sid + 1⟩ := by
  have hone : (bioOf id type sid b).nsectors = 1 := by
    show (replicate SECTOR_SIZE b).length / SECTOR_SIZE + 0 = 1
    rw [length_replicate]
    rfl
  unfold Bio.sidRange
  rw [hone]
  rfl

/-- Two writes that are merged, the second one in front, and a read of the first one's sector. -/
theorem requests_transparent_merged : ∃ d, Run (fun _ => 0)
    [bioOf 0 .write 2 7, bioOf 1 .write 1 9, bioOf 2 .read 2 0] d ∧ d.queue = [] ∧
      d.sectors = execAll (fun _ => 0) [bioOf 0 .write 2 7, bioOf 1 .write 1 9, bioOf 2 .read 2 0] ∧
      d.buffers 2 = (bioOf 2 .read 2 0).result (execAll (fun _ => 0) [bioOf 0 .write 2 7, bioOf 1 .write 1 9]) := by
  have hmerge : ∀ d : BlockDevice, d.queue = [.ofBio (bioOf 0 .write 2 7)] →
      d.status (bioOf 1 .write 1 9).id = .init →
      d.submit (bioOf 1 .write 1 9) = some { d with
        queue := [⟨.write, ⟨1, 3⟩, [bioOf 1 .write 1 9, bioOf 0 .write 2 7]⟩]
        status := Function.update d.status 1 .submit } := fun d hqueue hinit => by
    unfold BlockDevice.submit
    rw [if_neg (not_not.mpr hinit)]
    unfold BlockDevice.enqueue BioRequest.mergeBio BioRequest.canMerge BioRequest.ofBio at *
    rw [hqueue]
    simp only [bioOf_sidRange]
    rfl
  have hsubmit : Run (fun _ => 0) [bioOf 0 .write 2 7] _ := .submit .new (.inr rfl) rfl
  have hmerged : Run (fun _ => 0) [bioOf 0 .write 2 7, bioOf 1 .write 1 9] _ :=
    .submit hsubmit (.inr rfl) (hmerge _ rfl rfl)
  have hread : Run (fun _ => 0) [bioOf 0 .write 2 7, bioOf 1 .write 1 9, bioOf 2 .read 2 0] _ :=
    .submit hmerged (.inl rfl) rfl
  have hrun := Run.handle (Run.handle hread rfl) rfl
  have hserved := (requests_transparent hrun).2.2.2 rfl
  exact ⟨_, hrun, rfl, hserved.1, hserved.2.1 2 (bioOf 2 .read 2 0) rfl rfl⟩

/-- **The device has executed a beginning of the bios**, in the order of their submission: in every reached state the
first `k` are completed and the others submitted, the device is what the first `k` make of it, and those of them that
read have what the ones before them give. -/
theorem completed_in_order {sectors₀ : Mem} {bios : List Bio} {d : BlockDevice} (h : Run sectors₀ bios d) :
    ∃ k, d.sectors = execAll sectors₀ (bios.take k) ∧ (∀ b ∈ bios.take k, d.status b.id = .complete) ∧
      (∀ b ∈ bios.drop k, d.status b.id = .submit) ∧ ∀ j < k, ∀ b, bios[j]? = some b → b.type = .read →
        d.buffers b.id = b.result (execAll sectors₀ (bios.take j)) := by
  obtain ⟨done, pend, rfl, hserved⟩ := h.served
  refine ⟨done.length, ?_, ?_, ?_, fun j hj b hb hread => ?_⟩
  · rw [take_left]
    exact hserved.sectors
  · rw [take_left]
    exact hserved.finished
  · rw [drop_left]
    exact hserved.waiting
  · rw [getElem?_append_left hj] at hb
    rw [take_append_of_le_length hj.le]
    exact hserved.data j b hb hread

/-- Two requests are queued when the driver serves the first one, and a third bio comes after that. -/
theorem completed_in_order_three : ∃ d, Run (fun _ => 0) [bioOf 0 .write 2 7, bioOf 1 .read 2 0, bioOf 2 .write 5 9] d ∧
    d.queue.length = 2 ∧ d.status 0 = .complete ∧ d.status 1 = .submit ∧
    ∃ k, d.sectors = execAll (fun _ => 0) ([bioOf 0 .write 2 7, bioOf 1 .read 2 0, bioOf 2 .write 5 9].take k) := by
  have hone : Run (fun _ => 0) [bioOf 0 .write 2 7] _ := .submit .new (.inr rfl) rfl
  have htwo : Run (fun _ => 0) [bioOf 0 .write 2 7, bioOf 1 .read 2 0] _ := .submit hone (.inl rfl) rfl
  have hserved := htwo.handle rfl
  have hrun : Run (fun _ => 0) [bioOf 0 .write 2 7, bioOf 1 .read 2 0, bioOf 2 .write 5 9] _ :=
    .submit hserved (.inr rfl) rfl
  exact ⟨_, hrun, rfl, rfl, rfl, (completed_in_order hrun).imp fun _ h => h.1⟩

end AsterKernel.Block
