import Mathlib.Algebra.Order.BigOperators.Group.Finset
import Mathlib.Algebra.Order.Group.Multiset
import Mathlib.Data.Fintype.Basic
import AsterKernel.Lib.Firsts

/-!
# `Futex.Queue` — the queues of futex waiters

A waiter is queued in the bucket of its key. A wake takes the first items of a key out of the bucket; a requeue wakes
some and gives the next ones a new key, in place when the bucket stays the same, else behind the items of the other
bucket. All of it runs under the locks of the buckets.

The values that `futex_wait_bitset` loads from the futex word are arguments here; a waiter is blocked from the time
its item is queued until it is woken.
-/

namespace AsterKernel.Futex

open Lib List

abbrev FutexBitSet := BitVec 32

def FUTEX_BITSET_MATCH_ANY : FutexBitSet := 0xFFFFFFFF

structure FutexKey where
  addr : Nat
deriving DecidableEq, Repr

/-- `FutexItem`; the waiters are told apart by a number. -/
structure FutexItem where
  key : FutexKey
  bitset : FutexBitSet
  waiter : Nat
deriving DecidableEq, Repr

def FutexItem.rekey (newKey : FutexKey) (item : FutexItem) : FutexItem := { item with key := newKey }

structure BucketCount where
  val : Nat
  isPowerOfTwo : ∃ k, val = 2 ^ k

theorem BucketCount.pos (size : BucketCount) : 0 < size.val := by
  obtain ⟨k, hk⟩ := size.isPowerOfTwo
  rw [hk]
  exact Nat.two_pow_pos k

/-- `FutexBucketVec::get_bucket`: the index of the bucket. -/
def getBucket (size : BucketCount) (key : FutexKey) : Fin size.val :=
  ⟨(size.val - 1) &&& ((key.addr >>> 2) / size.val), Nat.lt_of_le_of_lt Nat.and_le_left
    (Nat.sub_one_lt_of_lt size.pos)⟩

/-! ## Buckets -/

namespace FutexBucket

/-- `FutexBucket::dequeue_and_wake_items`: what is retained, and the items that are woken, of which there are
`count`. -/
def dequeueAndWakeItems (key : FutexKey) (maxCount : Nat) (bitset : FutexBitSet) :
    Nat → List FutexItem → List FutexItem × List FutexItem
  | _, [] => ([], [])
  | count, item :: queue =>
    if count ≥ maxCount ∨ key ≠ item.key ∨ bitset &&& item.bitset = 0 then
      let rest := dequeueAndWakeItems key maxCount bitset count queue
      (item :: rest.1, rest.2)
    else
      let rest := dequeueAndWakeItems key maxCount bitset (count + 1) queue
      (rest.1, item :: rest.2)

def updateItemKeys (key newKey : FutexKey) (maxCount : Nat) : Nat → List FutexItem → List FutexItem
  | _, [] => []
  | count, item :: queue =>
    if count = maxCount then item :: queue
    else if item.key = key then item.rekey newKey :: updateItemKeys key newKey maxCount (count + 1) queue
    else item :: updateItemKeys key newKey maxCount count queue

/-- `FutexBucket::requeue_items_to_another_bucket`: what is retained, and the other bucket. -/
def requeueItemsToAnotherBucket (key newKey : FutexKey) (maxNrequeues : Nat) :
    Nat → List FutexItem → List FutexItem → List FutexItem × List FutexItem
  | _, [], another => ([], another)
  | count, item :: queue, another =>
    if count ≥ maxNrequeues ∨ key ≠ item.key then
      let rest := requeueItemsToAnotherBucket key newKey maxNrequeues count queue another
      (item :: rest.1, rest.2)
    else requeueItemsToAnotherBucket key newKey maxNrequeues (count + 1) queue (another ++ [item.rekey newKey])

end FutexBucket

/-- The items that a wake takes. -/
def FutexItem.hits (key : FutexKey) (bitset : FutexBitSet) (item : FutexItem) : Bool :=
  key = item.key && (bitset &&& item.bitset) ≠ 0

/-- The items that a requeue takes. -/
def FutexItem.has (key : FutexKey) (item : FutexItem) : Bool := key = item.key

variable {key : FutexKey} {item : FutexItem}

theorem FutexItem.hits_iff {bitset : FutexBitSet} :
    FutexItem.hits key bitset item = true ↔ key = item.key ∧ bitset &&& item.bitset ≠ 0 := by
  rw [FutexItem.hits, Bool.and_eq_true, decide_eq_true_eq, decide_eq_true_eq]

theorem FutexItem.has_iff : FutexItem.has key item = true ↔ key = item.key :=
  decide_eq_true_iff

open FutexItem

namespace FutexBucket

variable {key newKey : FutexKey} {n count : Nat} {bitset : FutexBitSet} {queue another : List FutexItem}

theorem exists_left (h : count < n) : ∃ m, n - count = m + 1 ∧ n - (count + 1) = m := ⟨n - count - 1, by omega, by omega⟩

theorem dequeueAndWakeItems_eq : dequeueAndWakeItems key n bitset count queue =
    (dropFirst (hits key bitset) (n - count) queue, takeFirst (hits key bitset) (n - count) queue) := by
  induction queue generalizing count with
  | nil =>
    rw [dequeueAndWakeItems, takeFirst_nil]
    cases n - count <;> rfl
  | cons item queue ih =>
    rw [dequeueAndWakeItems]
    by_cases hcount : count ≥ n
    · rw [if_pos (.inl hcount), ih, Nat.sub_eq_zero_of_le hcount, takeFirst_zero, takeFirst_zero,
        dropFirst, dropFirst]
    obtain ⟨m, hm, hm'⟩ := exists_left (not_le.mp hcount)
    by_cases hhits : hits key bitset item = true
    · have hnot : ¬ (count ≥ n ∨ key ≠ item.key ∨ bitset &&& item.bitset = 0) := by
        obtain ⟨hkey, hbits⟩ := hits_iff.mp hhits
        rintro (h | h | h)
        · exact hcount h
        · exact h hkey
        · exact hbits h
      rw [if_neg hnot, ih, hm, hm', takeFirst_cons_of_pos hhits, dropFirst, if_pos hhits]
    · have hskip : count ≥ n ∨ key ≠ item.key ∨ bitset &&& item.bitset = 0 := by
        rw [hits_iff, not_and_or, not_not] at hhits
        exact .inr hhits
      rw [if_pos hskip, ih, hm, takeFirst_cons_of_neg hhits, dropFirst, if_neg hhits]

theorem updateItemKeys_eq (h : count ≤ n) : updateItemKeys key newKey n count queue =
    mapFirst (rekey newKey) (has key) (n - count) queue := by
  induction queue generalizing count with
  | nil =>
    rw [updateItemKeys]
    cases n - count <;> rfl
  | cons item queue ih =>
    rw [updateItemKeys]
    by_cases hcount : count = n
    · rw [if_pos hcount, hcount, Nat.sub_self, mapFirst]
    obtain ⟨m, hm, hm'⟩ := exists_left (h.lt_of_ne hcount)
    rw [if_neg hcount, hm, mapFirst]
    by_cases hkey : item.key = key
    · rw [if_pos hkey, if_pos (has_iff.mpr hkey.symm), ih (by omega), hm']
    · rw [if_neg hkey, if_neg fun hhas => hkey (has_iff.mp hhas).symm, ih h, hm]

theorem requeueItemsToAnotherBucket_eq : requeueItemsToAnotherBucket key newKey n count queue another =
    (dropFirst (has key) (n - count) queue,
      another ++ (takeFirst (has key) (n - count) queue).map (rekey newKey)) := by
  induction queue generalizing count another with
  | nil =>
    rw [requeueItemsToAnotherBucket, takeFirst_nil, map_nil, append_nil]
    cases n - count <;> rfl
  | cons item queue ih =>
    rw [requeueItemsToAnotherBucket]
    by_cases hcount : count ≥ n
    · rw [if_pos (.inl hcount), ih, Nat.sub_eq_zero_of_le hcount, takeFirst_zero, takeFirst_zero,
        dropFirst, dropFirst]
    obtain ⟨m, hm, hm'⟩ := exists_left (not_le.mp hcount)
    by_cases hkey : key = item.key
    · have hhas : has key item = true := has_iff.mpr hkey
      rw [if_neg (by rintro (h | h) <;> contradiction), ih, hm, hm', takeFirst_cons_of_pos hhas,
        dropFirst, if_pos hhas,
        map_cons, append_assoc]
      rfl
    · have hhas : ¬ has key item = true := fun hhas => hkey (has_iff.mp hhas)
      rw [if_pos (.inr hkey), ih, hm, takeFirst_cons_of_neg hhas, dropFirst, if_neg hhas]

end FutexBucket

/-! ## Futex calls -/

/-- The buckets, the next waiter's number and the number of times that each waiter has been woken. -/
structure Futexes (size : BucketCount) where
  buckets : Fin size.val → List FutexItem
  nextWaiter : Nat
  wakes : Nat → Nat

variable {size : BucketCount} {s t : Futexes size}

namespace Futexes

/-- `FutexBucketVec::new`. -/
def new (size : BucketCount) : Futexes size := ⟨fun _ => [], 0, fun _ => 0⟩

/-- A bucket is changed under its lock. -/
def setBucket (s : Futexes size) (b : Fin size.val) (queue : List FutexItem) : Futexes size :=
  { s with buckets := Function.update s.buckets b queue }

/-- `FutexItem::wake` for some items. -/
def wakeItems (s : Futexes size) (items : List FutexItem) : Futexes size :=
  { s with wakes := fun w => s.wakes w + (items.map FutexItem.waiter).count w }

def queue (s : Futexes size) (key : FutexKey) : List FutexItem := s.buckets (getBucket size key)

/-- `futex_wait_bitset` until it sleeps. The word has the values `prefixed` and `loaded` when it is loaded without and
under the lock; `none` is `EAGAIN`. -/
def futexWaitBitset (s : Futexes size) (futexAddr : Nat) (futexVal : Int) (bitset : FutexBitSet)
    (prefixed loaded : Int) :
    Option (Futexes size) :=
  if prefixed ≠ futexVal then none
  else if loaded ≠ futexVal then none
  else
    let key := FutexKey.mk futexAddr
    some { s.setBucket (getBucket size key) (s.queue key ++ [⟨key, bitset, s.nextWaiter⟩]) with
      nextWaiter := s.nextWaiter + 1 }

def futexWakeBitset (s : Futexes size) (futexAddr maxCount : Nat) (bitset : FutexBitSet) : Nat × Futexes size :=
  let key := FutexKey.mk futexAddr
  let res := FutexBucket.dequeueAndWakeItems key maxCount bitset 0 (s.queue key)
  (res.2.length, (s.setBucket (getBucket size key) res.1).wakeItems res.2)

def futexWake (s : Futexes size) (futexAddr maxCount : Nat) : Nat × Futexes size :=
  s.futexWakeBitset futexAddr maxCount FUTEX_BITSET_MATCH_ANY

def futexRequeue (s : Futexes size) (futexAddr maxNwakes maxNrequeues futexNewAddr : Nat) : Nat × Futexes size :=
  if futexNewAddr = futexAddr then s.futexWake futexAddr maxNwakes
  else
    let key := FutexKey.mk futexAddr
    let newKey := FutexKey.mk futexNewAddr
    let woken := FutexBucket.dequeueAndWakeItems key maxNwakes FUTEX_BITSET_MATCH_ANY 0 (s.queue key)
    let nwakes := woken.2.length
    if getBucket size key = getBucket size newKey then
      let kept := FutexBucket.updateItemKeys key newKey maxNrequeues 0 woken.1
      (nwakes, (s.setBucket (getBucket size key) kept).wakeItems woken.2)
    else
      let moved := FutexBucket.requeueItemsToAnotherBucket key newKey maxNrequeues 0 woken.1 (s.queue newKey)
      (nwakes, ((s.setBucket (getBucket size key) moved.1).setBucket (getBucket size newKey)
        moved.2).wakeItems woken.2)

/-- The state after the first items of a key have been given another key. -/
def moveItems (s : Futexes size) (key newKey : FutexKey) (n : Nat) : Futexes size :=
  if getBucket size key = getBucket size newKey then
    s.setBucket (getBucket size key) (mapFirst (FutexItem.rekey newKey) (FutexItem.has key) n (s.queue key))
  else
    (s.setBucket (getBucket size key) (dropFirst (FutexItem.has key) n (s.queue key))).setBucket
      (getBucket size newKey)
      (s.queue newKey ++ (takeFirst (FutexItem.has key) n (s.queue key)).map (FutexItem.rekey newKey))

theorem setBucket_self (s : Futexes size) (b : Fin size.val) (l : List FutexItem) : (s.setBucket b l).buckets b = l :=
  Function.update_self _ _ _

variable {b c : Fin size.val}

theorem setBucket_of_ne (s : Futexes size) (l : List FutexItem) (h : c ≠ b) :
    (s.setBucket b l).buckets c = s.buckets c := Function.update_of_ne h _ _

theorem setBucket_setBucket (s : Futexes size) (b : Fin size.val) (l l' : List FutexItem) :
    (s.setBucket b l).setBucket b l' = s.setBucket b l' := by
  unfold setBucket
  rw [Function.update_idem]

theorem mem_setBucket {l : List FutexItem} {i : FutexItem} (h : i ∈ (s.setBucket b l).buckets c) :
    (c = b ∧ i ∈ l) ∨ i ∈ s.buckets c := by
  by_cases hc : c = b
  · subst hc
    rw [s.setBucket_self] at h
    exact .inl ⟨rfl, h⟩
  · rw [s.setBucket_of_ne l hc] at h
    exact .inr h

/-- A wait that succeeds queues an item. -/
theorem futexWaitBitset_some {addr : Nat} {val prefixed loaded : Int} {bitset : FutexBitSet}
    (h : s.futexWaitBitset addr val bitset prefixed loaded = some t) :
    t = { s.setBucket (getBucket size ⟨addr⟩) (s.queue ⟨addr⟩ ++ [⟨⟨addr⟩, bitset, s.nextWaiter⟩]) with
      nextWaiter := s.nextWaiter + 1 } := by
  unfold futexWaitBitset at h
  split at h
  case isTrue => cases h
  case isFalse =>
    split at h
    case isTrue => cases h
    case isFalse => exact (Option.some.inj h).symm

theorem futexWakeBitset_eq (s : Futexes size) (addr n : Nat) (bitset : FutexBitSet) :
    s.futexWakeBitset addr n bitset = ((takeFirst (hits ⟨addr⟩ bitset) n (s.queue ⟨addr⟩)).length,
        (s.setBucket (getBucket size ⟨addr⟩) (dropFirst (hits ⟨addr⟩ bitset) n (s.queue ⟨addr⟩))).wakeItems
          (takeFirst (hits ⟨addr⟩ bitset) n (s.queue ⟨addr⟩))) := by
  unfold futexWakeBitset
  dsimp only
  rw [FutexBucket.dequeueAndWakeItems_eq]
  rfl

/-- A requeue is a wake and a move. -/
theorem futexRequeue_eq {addr newAddr : Nat} (h : newAddr ≠ addr) (nwakes nrequeues : Nat) :
    s.futexRequeue addr nwakes nrequeues newAddr =
      ((s.futexWake addr nwakes).1, (s.futexWake addr nwakes).2.moveItems ⟨addr⟩ ⟨newAddr⟩ nrequeues) := by
  unfold futexRequeue futexWake moveItems
  rw [if_neg h, futexWakeBitset_eq]
  dsimp only
  rw [FutexBucket.dequeueAndWakeItems_eq]
  have hqueue : ∀ l woken, ((s.setBucket (getBucket size ⟨addr⟩) l).wakeItems woken).queue ⟨addr⟩ = l := fun l _ =>
    s.setBucket_self _ l
  by_cases hsame : getBucket size ⟨addr⟩ = getBucket size ⟨newAddr⟩
  · rw [if_pos hsame, if_pos hsame, FutexBucket.updateItemKeys_eq (Nat.zero_le _), hqueue,
      ← s.setBucket_setBucket (getBucket size ⟨addr⟩) _ (mapFirst _ _ _ _)]
    rfl
  · have hother : ∀ l woken, ((s.setBucket (getBucket size ⟨addr⟩) l).wakeItems woken).queue ⟨newAddr⟩ =
        s.queue ⟨newAddr⟩ := fun l _ => s.setBucket_of_ne l (Ne.symm hsame)
    rw [if_neg hsame, if_neg hsame, FutexBucket.requeueItemsToAnotherBucket_eq, hqueue, hother,
      ← s.setBucket_setBucket (getBucket size ⟨addr⟩) _ (dropFirst (has _) _ _)]
    rfl

/-! ## Accounting -/

def waiters (s : Futexes size) : Multiset Nat := ∑ b, ((s.buckets b).map FutexItem.waiter : Multiset Nat)

/-- One bucket is replaced. -/
theorem waiters_setBucket (s : Futexes size) (b : Fin size.val) (l : List FutexItem) :
    (s.setBucket b l).waiters + ((s.buckets b).map waiter : Multiset Nat) =
      s.waiters + (l.map waiter : Multiset Nat) := by
  have hrest : ∑ c ∈ Finset.univ.erase b, (((s.setBucket b l).buckets c).map waiter : Multiset Nat) =
      ∑ c ∈ Finset.univ.erase b, ((s.buckets c).map waiter : Multiset Nat) := by
    refine Finset.sum_congr rfl fun c hc => ?_
    rw [setBucket_of_ne s l (Finset.ne_of_mem_erase hc)]
  unfold waiters
  rw [← Finset.sum_erase_add _ _ (Finset.mem_univ b), ← Finset.sum_erase_add Finset.univ
    (fun c => ((s.buckets c).map waiter : Multiset Nat)) (Finset.mem_univ b), hrest, setBucket_self]
  exact add_right_comm _ _ _

theorem bucket_le_waiters (s : Futexes size) (b : Fin size.val) :
    ((s.buckets b).map waiter : Multiset Nat) ≤ s.waiters :=
  Finset.single_le_sum (f := fun c => ((s.buckets c).map waiter : Multiset Nat)) (fun _ _ => Multiset.zero_le _)
    (Finset.mem_univ b)

theorem mem_waiters {w : Nat} : w ∈ s.waiters ↔ ∃ b, ∃ i ∈ s.buckets b, i.waiter = w := by
  unfold waiters
  rw [Multiset.mem_sum]
  constructor
  · rintro ⟨b, -, hw⟩
    exact ⟨b, mem_map.mp (Multiset.mem_coe.mp hw)⟩
  · rintro ⟨b, hi⟩
    exact ⟨b, Finset.mem_univ b, Multiset.mem_coe.mpr (mem_map.mpr hi)⟩

end Futexes

/-- Items are in the buckets of their keys. -/
def Futexes.Home (s : Futexes size) : Prop := ∀ b, ∀ i ∈ s.buckets b, getBucket size i.key = b

variable {s : Futexes size}

/-- The items of one bucket are replaced. -/
theorem Futexes.Home.setBucket (h : s.Home) {b : Fin size.val} {l : List FutexItem}
    (hl : ∀ i ∈ l, getBucket size i.key = b) : (s.setBucket b l).Home := by
  intro c i hi
  rcases Futexes.mem_setBucket hi with ⟨rfl, hmem⟩ | hmem
  · exact hl i hmem
  · exact h c i hmem

/-- Each waiter that has not been woken is queued once, in the bucket of its key. -/
structure Accounted (s : Futexes size) : Prop where
  home : s.Home
  nodup : s.waiters.Nodup
  queued : ∀ w, w ∈ s.waiters ↔ w < s.nextWaiter ∧ s.wakes w = 0
  once : ∀ w, s.wakes w ≤ 1
  unborn : ∀ w, s.nextWaiter ≤ w → s.wakes w = 0

namespace Accounted

theorem new (size : BucketCount) : Accounted (Futexes.new size) where
  home _ _ hi := nomatch hi
  nodup := by
    rw [show (Futexes.new size).waiters = 0 from Finset.sum_eq_zero fun _ _ => rfl]
    exact Multiset.nodup_zero
  queued w := by
    rw [Futexes.mem_waiters]
    constructor
    · rintro ⟨_, _, hi, _⟩
      cases hi
    · rintro ⟨hlt, -⟩
      cases hlt
  once _ := Nat.zero_le _
  unborn _ _ := rfl

section

variable (h : Accounted s)
include h

theorem bucket_nodup (b : Fin size.val) : ((s.buckets b).map waiter).Nodup :=
  Multiset.coe_nodup.mp (Multiset.nodup_of_le (s.bucket_le_waiters b) h.nodup)

theorem items_nodup (b : Fin size.val) : (s.buckets b).Nodup := List.Nodup.of_map _ (h.bucket_nodup b)

/-- A waiter is in one bucket only. -/
theorem unique {b c : Fin size.val} {i j : FutexItem} (hi : i ∈ s.buckets b) (hj : j ∈ s.buckets c)
    (heq : i.waiter = j.waiter) : b = c ∧ i = j := by
  have hbc : b = c := by
    by_contra hne
    have hsplit : ((s.buckets b).map waiter : Multiset Nat) + ((s.buckets c).map waiter : Multiset Nat) ≤
        s.waiters := by
      unfold Futexes.waiters
      rw [← Finset.sum_erase_add _ _ (Finset.mem_univ b), add_comm]
      refine add_le_add_left (Finset.single_le_sum (f := fun c => ((s.buckets c).map waiter : Multiset Nat))
        (fun _ _ => Multiset.zero_le _) (Finset.mem_erase.mpr ⟨Ne.symm hne, Finset.mem_univ c⟩)) _
    have hdisj := (Multiset.nodup_add.mp (Multiset.nodup_of_le hsplit h.nodup)).2.2
    exact Multiset.disjoint_left.mp hdisj (Multiset.mem_coe.mpr (mem_map_of_mem hi))
      (Multiset.mem_coe.mpr (heq ▸ mem_map_of_mem hj))
  subst hbc
  exact ⟨rfl, inj_on_of_nodup_map (h.bucket_nodup b) hi hj heq⟩

theorem enqueue (key : FutexKey) (bitset : FutexBitSet) :
    Accounted { s.setBucket (getBucket size key) (s.queue key ++ [⟨key, bitset, s.nextWaiter⟩]) with
      nextWaiter := s.nextWaiter + 1 } := by
  have hwaiters : (s.setBucket (getBucket size key) (s.queue key ++ [⟨key, bitset, s.nextWaiter⟩])).waiters =
      s.nextWaiter ::ₘ s.waiters := by
    have hupdate := s.waiters_setBucket (getBucket size key) (s.queue key ++ [⟨key, bitset, s.nextWaiter⟩])
    rw [map_append, ← Multiset.coe_add, ← add_assoc, add_right_comm] at hupdate
    rw [add_right_cancel hupdate, ← Multiset.singleton_add, add_comm]
    rfl
  have hnew : s.nextWaiter ∉ s.waiters := fun hmem => absurd ((h.queued _).mp hmem).1 (lt_irrefl _)
  refine ⟨?_, ?_, fun w => ?_, h.once, fun w hw => h.unborn w (Nat.le_of_succ_le hw)⟩
  · refine h.home.setBucket fun i hi => ?_
    rcases mem_append.mp hi with hi | hi
    · exact h.home _ i hi
    · rw [mem_singleton.mp hi]
  · show (s.setBucket _ _).waiters.Nodup
    rw [hwaiters]
    exact Multiset.nodup_cons.mpr ⟨hnew, h.nodup⟩
  · show w ∈ (s.setBucket _ _).waiters ↔ w < s.nextWaiter + 1 ∧ s.wakes w = 0
    rw [hwaiters, Multiset.mem_cons, h.queued, Nat.lt_succ_iff_lt_or_eq]
    constructor
    · rintro (rfl | ⟨hlt, hwakes⟩)
      · exact ⟨.inr rfl, h.unborn _ le_rfl⟩
      · exact ⟨.inl hlt, hwakes⟩
    · rintro ⟨hlt | rfl, hwakes⟩
      · exact .inr ⟨hlt, hwakes⟩
      · exact .inl rfl

theorem wake (woken : List FutexItem) (hhome : t.Home)
    (hwaiters : t.waiters + (woken.map waiter : Multiset Nat) = s.waiters) (hnext : t.nextWaiter = s.nextWaiter)
    (hwakes : ∀ w, t.wakes w = s.wakes w + (woken.map waiter).count w) : Accounted t := by
  have hnodup := h.nodup
  rw [← hwaiters, Multiset.nodup_add] at hnodup
  obtain ⟨ht, hwoken, hdisj⟩ := hnodup
  have hmem : ∀ w ∈ woken.map waiter, w < s.nextWaiter ∧ s.wakes w = 0 := fun w hw =>
    (h.queued w).mp (by rw [← hwaiters]; exact Multiset.mem_add.mpr (.inr (Multiset.mem_coe.mpr hw)))
  refine ⟨hhome, ht, fun w => ?_, fun w => ?_, fun w hw => ?_⟩
  · have hqueued := h.queued w
    rw [← hwaiters, Multiset.mem_add, Multiset.mem_coe] at hqueued
    rw [hnext, hwakes, Nat.add_eq_zero_iff, count_eq_zero, ← and_assoc, ← hqueued]
    constructor
    · exact fun hw => ⟨.inl hw, fun hw' => Multiset.disjoint_left.mp hdisj hw (Multiset.mem_coe.mpr hw')⟩
    · exact fun hw => hw.1.resolve_right hw.2
  · rw [hwakes]
    by_cases hw : w ∈ woken.map waiter
    · rw [(hmem w hw).2, zero_add]
      exact nodup_iff_count_le_one.mp (Multiset.coe_nodup.mp hwoken) w
    · rw [count_eq_zero_of_not_mem hw]
      exact h.once w
  · rw [hnext] at hw
    have hout : w ∉ woken.map waiter := fun hin => absurd (hmem w hin).1 (not_lt.mpr hw)
    rw [hwakes, count_eq_zero_of_not_mem hout, h.unborn w hw]

theorem futexWakeBitset (addr n : Nat) (bitset : FutexBitSet) : Accounted (s.futexWakeBitset addr n bitset).2 := by
  rw [Futexes.futexWakeBitset_eq]
  have hperm := (dropFirst_perm (hits ⟨addr⟩ bitset) n (s.queue ⟨addr⟩)).symm
  refine h.wake (takeFirst (hits ⟨addr⟩ bitset) n (s.queue ⟨addr⟩)) ?_ ?_ rfl fun _ => rfl
  · exact h.home.setBucket fun i hi => h.home _ i (hperm.symm.subset (mem_append_right _ hi))
  · have hupdate := s.waiters_setBucket (getBucket size ⟨addr⟩) (dropFirst (hits ⟨addr⟩ bitset) n (s.queue ⟨addr⟩))
    rw [show (s.buckets (getBucket size ⟨addr⟩)).map waiter = (s.queue ⟨addr⟩).map _ from rfl,
      Multiset.coe_eq_coe.mpr (hperm.map waiter), map_append, ← Multiset.coe_add, ←
        add_assoc] at hupdate
    exact add_right_cancel hupdate

theorem futexWake (addr n : Nat) : Accounted (s.futexWake addr n).2 := h.futexWakeBitset _ _ _

theorem futexWaitBitset {addr : Nat} {val prefixed loaded : Int} {bitset : FutexBitSet}
    (hwait : s.futexWaitBitset addr val bitset prefixed loaded = some t) : Accounted t :=
  Futexes.futexWaitBitset_some hwait ▸ h.enqueue ⟨addr⟩ bitset

theorem move (hhome : t.Home) (hwaiters : t.waiters = s.waiters)
    (hnext : t.nextWaiter = s.nextWaiter) (hwakes : t.wakes = s.wakes) : Accounted t where
  home := hhome
  nodup := hwaiters ▸ h.nodup
  queued w := by
    rw [hwaiters, hnext, hwakes]
    exact h.queued w
  once w := hwakes ▸ h.once w
  unborn w hw := hwakes ▸ h.unborn w (hnext ▸ hw)

theorem moveItems (key newKey : FutexKey) (n : Nat) : Accounted (s.moveItems key newKey n) := by
  have hperm := (dropFirst_perm (has key) n (s.queue key)).symm
  unfold Futexes.moveItems
  split
  case isTrue hsame =>
    refine h.move (h.home.setBucket fun i hi => ?_) ?_ rfl rfl
    · rcases mem_mapFirst hi with hi | ⟨j, -, rfl⟩
      · exact h.home _ i hi
      · exact hsame.symm
    · have hupdate := s.waiters_setBucket (getBucket size key) (mapFirst (rekey newKey) (has key) n (s.queue key))
      rw [map_mapFirst (f := rekey newKey) (g := waiter) fun _ => rfl] at hupdate
      exact add_right_cancel hupdate
  case isFalse hother =>
    refine h.move ((h.home.setBucket fun i hi => ?_).setBucket fun i hi => ?_) ?_ rfl rfl
    · exact h.home _ i (hperm.symm.subset (mem_append_right _ hi))
    · rcases mem_append.mp hi with hi | hi
      · exact h.home _ i hi
      · obtain ⟨j, -, rfl⟩ := mem_map.mp hi
        rfl
    · have hfrom := s.waiters_setBucket (getBucket size key) (dropFirst (has key) n (s.queue key))
      have hto := (s.setBucket (getBucket size key) (dropFirst (has key) n (s.queue key))).waiters_setBucket
        (getBucket size newKey)
        (s.queue newKey ++ (takeFirst (has key) n (s.queue key)).map (rekey newKey))
      rw [show (s.buckets (getBucket size key)).map waiter = (s.queue key).map _ from rfl,
        Multiset.coe_eq_coe.mpr (hperm.map waiter), map_append, ← Multiset.coe_add, ←
          add_assoc] at hfrom
      rw [s.setBucket_of_ne _ (Ne.symm hother), map_append, map_map, ← Multiset.coe_add, ← add_assoc,
        add_right_comm] at hto
      exact (add_right_cancel hto).trans (add_right_cancel hfrom)

theorem futexRequeue (addr nwakes nrequeues newAddr : Nat) :
    Accounted (s.futexRequeue addr nwakes nrequeues newAddr).2 := by
  by_cases hsame : newAddr = addr
  · unfold Futexes.futexRequeue
    rw [if_pos hsame]
    exact h.futexWake _ _
  · rw [Futexes.futexRequeue_eq hsame]
    exact (h.futexWake _ _).moveItems _ _ _

end

end Accounted

/-! ## What the calls do -/

/-- The items are woken and taken out of the queues, and nothing else changes. -/
structure Woke (s t : Futexes size) (woken : List FutexItem) : Prop where
  queues : ∀ b, t.buckets b = (s.buckets b).filter (· ∉ woken)
  wakes : ∀ w, t.wakes w = s.wakes w + if w ∈ woken.map FutexItem.waiter then 1 else 0
  nextWaiter : t.nextWaiter = s.nextWaiter

/-- The items get another key, and nothing else changes. -/
structure Rekeyed (s t : Futexes size) (moved : List FutexItem) (newKey : FutexKey) : Prop where
  items : ∀ j, (∃ b, j ∈ t.buckets b) ↔ ∃ b, ∃ i ∈ s.buckets b, j = if i ∈ moved then i.rekey newKey else i
  order : (t.queue newKey).filter (fun j => j.waiter ∈ moved.map FutexItem.waiter) = moved.map
    (FutexItem.rekey newKey)
  others : ∀ b, (t.buckets b).filter (fun j => j.waiter ∉ moved.map FutexItem.waiter) =
    (s.buckets b).filter (· ∉ moved)
  wakes : t.wakes = s.wakes
  nextWaiter : t.nextWaiter = s.nextWaiter

namespace Accounted

variable {moved : List FutexItem} {newKey : FutexKey} {b : Fin size.val}

/-- What a wake does to the queues, in terms of the first items of a key. -/
theorem futexWakeBitset_woke (h : Accounted s) (addr n : Nat) (bitset : FutexBitSet) :
    Woke s (s.futexWakeBitset addr n bitset).2 (takeFirst (hits ⟨addr⟩ bitset) n (s.queue ⟨addr⟩)) := by
  rw [Futexes.futexWakeBitset_eq]
  have hsub := takeFirst_sublist (hits ⟨addr⟩ bitset) n (s.queue ⟨addr⟩)
  refine ⟨fun b => ?_, fun w => ?_, rfl⟩
  · show (s.setBucket _ _).buckets b = _
    by_cases hb : b = getBucket size ⟨addr⟩
    · subst hb
      rw [s.setBucket_self]
      exact dropFirst_eq_filter (h.items_nodup _)
    · rw [s.setBucket_of_ne _ hb]
      refine (filter_eq_self.mpr fun i hi => ?_).symm
      rw [decide_eq_true_eq]
      exact fun hin => hb (h.unique hi (hsub.subset hin) rfl).1
  · have hnodup := (h.bucket_nodup (getBucket size ⟨addr⟩)).sublist (hsub.map waiter)
    show s.wakes w + _ = _
    split
    case isTrue hw => rw [count_eq_one_of_mem hnodup hw]
    case isFalse hw => rw [count_eq_zero_of_not_mem hw]

variable {c : Fin size.val} {i : FutexItem}

section

variable (h : Accounted s) (hsub : moved ⊆ s.buckets b)
include h hsub

/-- The moved items are told by their waiters. -/
theorem waiter_mem_iff (hi : i ∈ s.buckets c) : i.waiter ∈ moved.map waiter ↔ i ∈ moved := by
  constructor
  · intro hw
    obtain ⟨j, hj, heq⟩ := mem_map.mp hw
    rwa [(h.unique hi (hsub hj) heq.symm).2]
  · exact fun hin => mem_map_of_mem hin

theorem filter_waiters (c : Fin size.val) :
    (s.buckets c).filter (fun i => i.waiter ∉ moved.map waiter) = (s.buckets c).filter (· ∉ moved) :=
  filter_congr fun _ hi => decide_eq_decide.mpr (not_congr (h.waiter_mem_iff hsub hi))

theorem notMem_moved (hc : c ≠ b) (hi : i ∈ s.buckets c) : i ∉ moved := fun hin => hc (h.unique hi (hsub hin) rfl).1

theorem rekeyed_inPlace (hin : (s.buckets b).filter (· ∈ moved) = moved) (hb : getBucket size newKey = b) :
    Rekeyed s (s.setBucket b ((s.buckets b).map fun i => if i ∈ moved then i.rekey newKey else i)) moved newKey := by
  have hbuckets : ∀ c, (s.setBucket b ((s.buckets b).map fun i => if i ∈ moved then i.rekey newKey else
    i)).buckets c = (s.buckets c).map fun i => if i ∈ moved then i.rekey newKey else i := by
    intro c
    by_cases hc : c = b
    · subst hc
      rw [s.setBucket_self]
    · rw [s.setBucket_of_ne _ hc]
      refine (map_id _).symm.trans (map_congr_left fun i hi => ?_)
      rw [if_neg (h.notMem_moved hsub hc hi)]
      rfl
  have hfilter : ∀ (p : Nat → Bool) (c : Fin size.val),
      ((s.buckets c).map fun i => if i ∈ moved then i.rekey newKey else i).filter (fun i => p i.waiter) =
        ((s.buckets c).filter fun i => p i.waiter).map fun i => if i ∈ moved then i.rekey newKey else i := by
    intro p c
    rw [filter_map]
    congr 1
    refine filter_congr fun i _ => congrArg p ?_
    show (if i ∈ moved then i.rekey newKey else i).waiter = i.waiter
    split <;> rfl
  refine ⟨fun j => ?_, ?_, fun c => ?_, rfl, rfl⟩
  · constructor
    · rintro ⟨c, hj⟩
      rw [hbuckets] at hj
      obtain ⟨i, hi, rfl⟩ := mem_map.mp hj
      exact ⟨c, i, hi, rfl⟩
    · rintro ⟨c, i, hi, rfl⟩
      exact ⟨c, by rw [hbuckets]; exact mem_map_of_mem hi⟩
  · rw [Futexes.queue, hb, hbuckets, hfilter fun w => w ∈ moved.map waiter,
      filter_congr fun i hi => decide_eq_decide.mpr (h.waiter_mem_iff hsub hi), hin]
    exact map_congr_left fun i hi => if_pos hi
  · rw [hbuckets, hfilter fun w => w ∉ moved.map waiter, h.filter_waiters hsub]
    refine Eq.trans (map_congr_left fun i hi => ?_) (map_id _)
    exact if_neg (of_decide_eq_true (mem_filter.mp hi).2)

theorem rekeyed_across {b' : Fin size.val} (hne : b' ≠ b) (hb' : getBucket size newKey = b') :
    Rekeyed s ((s.setBucket b ((s.buckets b).filter (· ∉ moved))).setBucket b'
      (s.buckets b' ++ moved.map (rekey newKey))) moved newKey := by
  have hto : ((s.setBucket b ((s.buckets b).filter (· ∉ moved))).setBucket b'
      (s.buckets b' ++ moved.map (rekey newKey))).buckets b' = s.buckets b' ++ moved.map (rekey newKey) :=
    Futexes.setBucket_self _ _ _
  have hfrom : ∀ c, c ≠ b' → ((s.setBucket b ((s.buckets b).filter (· ∉ moved))).setBucket b'
      (s.buckets b' ++ moved.map (rekey newKey))).buckets c = (s.buckets c).filter (· ∉ moved) := by
    intro c hc
    rw [Futexes.setBucket_of_ne _ _ hc]
    by_cases hcb : c = b
    · subst hcb
      rw [s.setBucket_self]
    · rw [s.setBucket_of_ne _ hcb]
      exact (filter_eq_self.mpr fun i hi => decide_eq_true (h.notMem_moved hsub hcb hi)).symm
  have hwaiters : ∀ j ∈ moved.map (rekey newKey), j.waiter ∈ moved.map waiter := by
    intro j hj
    obtain ⟨i, hi, rfl⟩ := mem_map.mp hj
    exact mem_map.mpr ⟨i, hi, rfl⟩
  refine ⟨fun j => ?_, ?_, fun c => ?_, rfl, rfl⟩
  · constructor
    · rintro ⟨c, hj⟩
      by_cases hc : c = b'
      · subst hc
        rw [hto] at hj
        rcases mem_append.mp hj with hj | hj
        · exact ⟨_, j, hj, (if_neg (h.notMem_moved hsub hne hj)).symm⟩
        · obtain ⟨i, hi, rfl⟩ := mem_map.mp hj
          exact ⟨b, i, hsub hi, (if_pos hi).symm⟩
      · rw [hfrom c hc, mem_filter] at hj
        exact ⟨c, j, hj.1, (if_neg (of_decide_eq_true hj.2)).symm⟩
    · rintro ⟨c, i, hi, rfl⟩
      split
      case isTrue hin => exact ⟨b', by rw [hto]; exact mem_append_right _ (mem_map_of_mem hin)⟩
      case isFalse hout =>
        by_cases hc : c = b'
        · subst hc
          exact ⟨_, by rw [hto]; exact mem_append_left _ hi⟩
        · exact ⟨c, by rw [hfrom c hc]; exact mem_filter.mpr ⟨hi, decide_eq_true hout⟩⟩
  · rw [Futexes.queue, hb', hto, filter_append, filter_eq_nil_iff.mpr, nil_append,
      filter_eq_self.mpr fun j hj => decide_eq_true (hwaiters j hj)]
    intro i hi
    rw [decide_eq_true_eq, h.waiter_mem_iff hsub hi]
    exact h.notMem_moved hsub hne hi
  · by_cases hc : c = b'
    · subst hc
      have hnil : (moved.map (rekey newKey)).filter (fun j => j.waiter ∉ moved.map waiter) = [] := by
        refine filter_eq_nil_iff.mpr fun j hj => ?_
        rw [decide_eq_true_eq, not_not]
        exact hwaiters j hj
      rw [hto, filter_append, h.filter_waiters hsub, hnil, append_nil]
    · rw [hfrom c hc, ← h.filter_waiters hsub, filter_filter]
      simp only [Bool.and_self]

end

theorem moveItems_rekeyed (h : Accounted s) (key newKey : FutexKey) (n : Nat) :
    Rekeyed s (s.moveItems key newKey n) (takeFirst (has key) n (s.queue key)) newKey := by
  have hnodup := h.items_nodup (getBucket size key)
  have hsub := (takeFirst_sublist (has key) n (s.queue key)).subset
  unfold Futexes.moveItems
  split
  case isTrue hsame =>
    rw [mapFirst_eq_map (rekey newKey) (l := s.queue key) hnodup]
    exact h.rekeyed_inPlace hsub (filter_mem_takeFirst hnodup) hsame.symm
  case isFalse hother =>
    rw [dropFirst_eq_filter (l := s.queue key) hnodup]
    exact h.rekeyed_across hsub (Ne.symm hother) rfl

end Accounted

/-! ## Runs -/

inductive Op where
  | wait (addr : Nat) (val : Int) (bitset : FutexBitSet) (prefixed loaded : Int)
  | wake (addr maxCount : Nat) (bitset : FutexBitSet)
  | requeue (addr maxNwakes maxNrequeues newAddr : Nat)

/-- The state after a call; a wait that fails changes nothing. -/
def Op.run : Op → Futexes size → Futexes size
  | .wait addr val bitset prefixed loaded, s => (s.futexWaitBitset addr val bitset prefixed loaded).getD s
  | .wake addr maxCount bitset, s => (s.futexWakeBitset addr maxCount bitset).2
  | .requeue addr maxNwakes maxNrequeues newAddr, s => (s.futexRequeue addr maxNwakes maxNrequeues newAddr).2

/-- The states that calls lead to. -/
inductive Run : Futexes size → Prop
  | new : Run (.new size)
  | call {s : Futexes size} (h : Run s) (op : Op) : Run (op.run s)

theorem Accounted.call (h : Accounted s) (op : Op) : Accounted (op.run s) := by
  cases op with
  | wait addr val bitset prefixed loaded =>
    show Accounted ((s.futexWaitBitset addr val bitset prefixed loaded).getD s)
    cases hwait : s.futexWaitBitset addr val bitset prefixed loaded with
    | none => exact h
    | some t => exact h.futexWaitBitset hwait
  | wake addr maxCount bitset => exact h.futexWakeBitset addr maxCount bitset
  | requeue addr maxNwakes maxNrequeues newAddr => exact h.futexRequeue addr maxNwakes maxNrequeues newAddr

theorem Run.accounted (h : Run s) : Accounted s := by
  induction h with
  | new => exact .new size
  | call _ op ih => exact ih.call op

/-- The waiter sleeps: its item has been queued and it has not been woken. -/
def Futexes.Blocked (s : Futexes size) (w : Nat) : Prop := w < s.nextWaiter ∧ s.wakes w = 0

/-- **No waiter is lost, and none is woken twice.** In every reached state the blocked waiters are those that are
queued, each of them once and in the bucket of its key. A wake takes and wakes the first items with the key and a
common bit, and a requeue wakes in the same way and gives the first items that remain with the key the new one. -/
theorem queues_accounted {s : Futexes size} (h : Run s) : (∀ w, s.Blocked w ↔ ∃ b, ∃ i ∈ s.buckets b, i.waiter = w) ∧
      (∀ b, ∀ i ∈ s.buckets b, b = getBucket size i.key ∧ ((s.buckets b).map FutexItem.waiter).count i.waiter = 1) ∧
      (∀ b c, ∀ i ∈ s.buckets b, ∀ j ∈ s.buckets c, i.waiter = j.waiter → b = c) ∧ (∀ w, s.wakes w ≤ 1) ∧
      (∀ addr n bitset,
        (s.futexWakeBitset addr n bitset).1 = min n ((s.queue ⟨addr⟩).filter (FutexItem.hits ⟨addr⟩ bitset)).length ∧
          Woke s (s.futexWakeBitset addr n bitset).2
            (((s.queue ⟨addr⟩).filter (FutexItem.hits ⟨addr⟩ bitset)).take n)) ∧
      ∀ addr newAddr nwakes nrequeues, newAddr ≠ addr →
        (s.futexRequeue addr nwakes nrequeues newAddr).1 = (s.futexWake addr nwakes).1 ∧
          Rekeyed (s.futexWake addr nwakes).2 (s.futexRequeue addr nwakes nrequeues newAddr).2
            ((((s.futexWake addr nwakes).2.queue ⟨addr⟩).filter (FutexItem.has ⟨addr⟩)).take nrequeues)
              ⟨newAddr⟩ := by
  have hs := h.accounted
  refine ⟨fun w => ?_, fun b i hi => ⟨(hs.home b i hi).symm, ?_⟩, fun b c i hi j hj heq =>
    (hs.unique hi hj heq).1, hs.once,
    fun addr n bitset => ⟨?_, hs.futexWakeBitset_woke addr n bitset⟩, fun addr newAddr nwakes nrequeues hne => ?_⟩
  · rw [← Futexes.mem_waiters, hs.queued]
    rfl
  · exact List.count_eq_one_of_mem (hs.bucket_nodup b) (List.mem_map_of_mem hi)
  · rw [Futexes.futexWakeBitset_eq]
    exact length_takeFirst
  · rw [Futexes.futexRequeue_eq hne]
    exact ⟨rfl, (hs.futexWake addr nwakes).moveItems_rekeyed ⟨addr⟩ ⟨newAddr⟩ nrequeues⟩

/-- Two waiters at one address, of which a requeue wakes one and moves the other to another bucket. -/
def sizeTwo : BucketCount := ⟨2, ⟨1, rfl⟩⟩

def twoWaiting : Futexes sizeTwo :=
  (Op.wait 0 5 1 5 5).run ((Op.wait 0 5 1 5 5).run (.new sizeTwo))

theorem queues_accounted_requeue :
    (twoWaiting.futexRequeue 0 1 1 8).2.queue ⟨8⟩ = [⟨⟨8⟩, 1, 1⟩] ∧ twoWaiting.Blocked 0 ∧
      (twoWaiting.futexRequeue 0 1 1 8).2.wakes 0 = 1 ∧ (twoWaiting.futexRequeue 0 1 1 8).2.Blocked 1 := by
  have hrun : Run twoWaiting := (Run.new.call (.wait 0 5 1 5 5)).call (.wait 0 5 1 5 5)
  have hrun' : Run (twoWaiting.futexRequeue 0 1 1 8).2 := hrun.call (.requeue 0 1 1 8)
  have hmoved : (twoWaiting.futexRequeue 0 1 1 8).2.queue ⟨8⟩ = [⟨⟨8⟩, 1, 1⟩] := by decide
  refine ⟨hmoved, ?_, by decide, ?_⟩
  · exact ((queues_accounted hrun).1 0).mpr ⟨getBucket sizeTwo ⟨0⟩, ⟨⟨0⟩, 1, 0⟩, by decide, rfl⟩
  · exact ((queues_accounted hrun').1 1).mpr ⟨getBucket sizeTwo ⟨8⟩, ⟨⟨8⟩, 1, 1⟩, by decide, rfl⟩

end AsterKernel.Futex
