import AsterKernel.Futex.Queue

/-!
# `Futex.Isolation` — futexes of several processes

The key of a futex is a virtual address, and the buckets are shared by all processes. A call in one process reaches
the waiters of another one that has used the same virtual address, though it may have another memory word there.

The memory gives each process a word at each address. A waiter waits on the word that its process has at the address
it has called with, or, after a requeue, on the word at the new address of the process that requeued it.
-/

namespace AsterKernel.Futex

open Lib List

variable {size : BucketCount} {Word : Type}

/-! ## What a call takes -/

def Op.addrs : Op → List Nat
  | .wait addr .. => [addr]
  | .wake addr .. => [addr]
  | .requeue addr _ _ newAddr => [addr, newAddr]

/-- The address whose waiters a call wakes or moves. -/
def Op.target : Op → Option Nat
  | .wait .. => none
  | .wake addr .. => some addr
  | .requeue addr .. => some addr

theorem Op.run_requeue_self (s : Futexes size) (addr nwakes nrequeues : Nat) :
    (Op.requeue addr nwakes nrequeues addr).run s = (s.futexWake addr nwakes).2 := by
  show (s.futexRequeue addr nwakes nrequeues addr).2 = _
  unfold Futexes.futexRequeue
  rw [if_pos rfl]

theorem Op.run_requeue_of_ne (s : Futexes size) {addr newAddr : Nat} (h : newAddr ≠ addr) (nwakes nrequeues : Nat) :
    (Op.requeue addr nwakes nrequeues newAddr).run s =
      (s.futexWake addr nwakes).2.moveItems ⟨addr⟩ ⟨newAddr⟩ nrequeues := by
  show (s.futexRequeue addr nwakes nrequeues newAddr).2 = _
  rw [Futexes.futexRequeue_eq h]

namespace Accounted

variable {s t : Futexes size}

variable {addr : Nat} {b : Fin size.val} {i : FutexItem}

variable {n w : Nat} {bitset : FutexBitSet}

section

variable (h : Accounted s)
include h

theorem wake_key (hi : i ∈ s.buckets b)
    (hout : i ∉ (s.futexWakeBitset addr n bitset).2.buckets b) : i.key = ⟨addr⟩ := by
  rw [(h.futexWakeBitset_woke addr n bitset).queues, mem_filter, not_and] at hout
  have hin := of_mem_takeFirst (not_not.mp fun hin => hout hi (decide_eq_true hin))
  exact (FutexItem.hits_iff.mp hin).1.symm

theorem move_key {key newKey : FutexKey} (hi : i ∈ s.buckets b)
    (hout : i ∉ (s.moveItems key newKey n).buckets b) : i.key = key := by
  have hothers := (h.moveItems_rekeyed key newKey n).others b
  by_cases hin : i ∈ takeFirst (FutexItem.has key) n (s.queue key)
  · exact (FutexItem.has_iff.mp (of_mem_takeFirst hin)).symm
  · have hkept : i ∈ (s.buckets b).filter (· ∉ takeFirst (FutexItem.has key) n (s.queue key)) :=
      mem_filter.mpr ⟨hi, decide_eq_true hin⟩
    rw [← hothers] at hkept
    exact absurd (mem_filter.mp hkept).1 hout

/-- An item that a call takes out of its place has the key of the call. -/
theorem taken_key {op : Op} (htarget : op.target = some addr) (hi : i ∈ s.buckets b)
    (hout : i ∉ (op.run s).buckets b) : i.key = ⟨addr⟩ := by
  cases op with
  | wait => cases htarget
  | wake a n bitset =>
    obtain rfl : a = addr := Option.some.inj htarget
    exact h.wake_key hi hout
  | requeue a nwakes nrequeues newAddr =>
    obtain rfl : a = addr := Option.some.inj htarget
    by_cases hsame : newAddr = a
    · subst hsame
      rw [Op.run_requeue_self] at hout
      exact h.wake_key hi hout
    · rw [Op.run_requeue_of_ne s hsame] at hout
      by_cases hwoken : i ∈ (s.futexWake a nwakes).2.buckets b
      · exact (h.futexWake a nwakes).move_key hwoken hout
      · exact h.wake_key hi hwoken

theorem wake_wakes (hw : w ∉ s.waiters) : (s.futexWakeBitset addr n bitset).2.wakes w = s.wakes w := by
  rw [(h.futexWakeBitset_woke addr n bitset).wakes, if_neg, add_zero]
  intro hin
  obtain ⟨i, hi, rfl⟩ := mem_map.mp hin
  exact hw (Futexes.mem_waiters.mpr ⟨_, i, (takeFirst_sublist _ _ _).subset hi, rfl⟩)

theorem call_wakes (op : Op) (hw : w ∉ s.waiters) : (op.run s).wakes w = s.wakes w := by
  cases op with
  | wait addr val bitset prefixed loaded =>
    show ((s.futexWaitBitset addr val bitset prefixed loaded).getD s).wakes w = s.wakes w
    cases hwait : s.futexWaitBitset addr val bitset prefixed loaded with
    | none => rfl
    | some t => rw [Option.getD_some, Futexes.futexWaitBitset_some hwait]; rfl
  | wake addr n bitset => exact h.wake_wakes hw
  | requeue addr nwakes nrequeues newAddr =>
    by_cases hsame : newAddr = addr
    · subst hsame
      rw [Op.run_requeue_self]
      exact h.wake_wakes hw
    · rw [Op.run_requeue_of_ne s hsame,
        ((h.futexWake addr nwakes).moveItems_rekeyed ⟨addr⟩ ⟨newAddr⟩ nrequeues).wakes]
      exact h.wake_wakes hw

theorem woken_taken (op : Op) (hw : (op.run s).wakes w ≠ s.wakes w) :
    ∃ b, ∃ i ∈ s.buckets b, i.waiter = w ∧ i ∉ (op.run s).buckets b := by
  have hin : w ∈ s.waiters := not_not.mp fun hout => hw (h.call_wakes op hout)
  obtain ⟨b, i, hi, rfl⟩ := Futexes.mem_waiters.mp hin
  refine ⟨b, i, hi, rfl, fun hstill => hw ?_⟩
  have hafter := ((h.call op).queued i.waiter).mp (Futexes.mem_waiters.mpr ⟨b, i, hstill, rfl⟩)
  rw [hafter.2, ((h.queued i.waiter).mp hin).2]

end

end Accounted

/-! ## Processes -/

/-- The futexes, the process and the address that each waiter waits at, and those that have been used in calls. -/
structure Sys (size : BucketCount) where
  futexes : Futexes size
  place : Nat → Nat × Nat
  used : List (Nat × Nat)

/-- The waiters that a requeue moves. -/
def Futexes.movedWaiters (s : Futexes size) (addr maxNwakes maxNrequeues : Nat) : List Nat :=
  (takeFirst (FutexItem.has ⟨addr⟩) maxNrequeues ((s.futexWake addr maxNwakes).2.queue ⟨addr⟩)).map FutexItem.waiter

namespace Sys

def new (size : BucketCount) : Sys size := ⟨.new size, fun _ => (0, 0), []⟩

/-- Where the waiters wait after a call of a process. -/
def placeAfter (s : Sys size) (pid : Nat) : Op → Nat → Nat × Nat
  | .wait addr .. => Function.update s.place s.futexes.nextWaiter (pid, addr)
  | .wake .. => s.place
  | .requeue addr maxNwakes maxNrequeues newAddr => fun w =>
    if newAddr ≠ addr ∧ w ∈ s.futexes.movedWaiters addr maxNwakes maxNrequeues then (pid, newAddr) else s.place w

def call (s : Sys size) (pid : Nat) (op : Op) : Sys size :=
  ⟨op.run s.futexes, s.placeAfter pid op, op.addrs.map (Prod.mk pid) ++ s.used⟩

/-- The word that a waiter waits on. -/
def word (memory : Nat → Nat → Word) (s : Sys size) (w : Nat) : Word := memory (s.place w).1 (s.place w).2

/-- The processes that have used an address of the call have the same word there as the caller. -/
def SameWords (memory : Nat → Nat → Word) (s : Sys size) (pid : Nat) (op : Op) : Prop :=
  ∀ addr ∈ op.addrs, ∀ q, (q, addr) ∈ s.used → memory q addr = memory pid addr

/-- The call takes, moves or wakes only waiters on the word of its caller. -/
def Confined (memory : Nat → Nat → Word) (s : Sys size) (pid : Nat) (op : Op) : Prop :=
  ∀ addr, op.target = some addr →
    (∀ b, ∀ i ∈ s.futexes.buckets b, i ∉ (op.run s.futexes).buckets b → s.word memory i.waiter = memory pid addr) ∧
      ∀ w, (op.run s.futexes).wakes w ≠ s.futexes.wakes w → s.word memory w = memory pid addr

/-- Each queued waiter waits at the address that is its key, which has been used. -/
structure Placed (s : Sys size) : Prop where
  accounted : Accounted s.futexes
  placed : ∀ b, ∀ i ∈ s.futexes.buckets b, (s.place i.waiter).2 = i.key.addr ∧ s.place i.waiter ∈ s.used

end Sys

/-- The states that calls of processes lead to. -/
inductive Calls : Sys size → Prop
  | new : Calls (.new size)
  | call {s : Sys size} (h : Calls s) (pid : Nat) (op : Op) : Calls (s.call pid op)

namespace Sys.Placed

variable {s : Sys size}

theorem call (h : s.Placed) (pid : Nat) (op : Op) : (s.call pid op).Placed := by
  refine ⟨h.accounted.call op, ?_⟩
  have hused : ∀ x ∈ s.used, x ∈ op.addrs.map (Prod.mk pid) ++ s.used := fun x hx => mem_append_right _ hx
  have hwake : ∀ (addr n : Nat) (bitset : FutexBitSet) (b : Fin size.val),
      ∀ i ∈ (s.futexes.futexWakeBitset addr n bitset).2.buckets b, i ∈ s.futexes.buckets b := by
    intro addr n bitset b i hi
    rw [(h.accounted.futexWakeBitset_woke addr n bitset).queues] at hi
    exact (mem_filter.mp hi).1
  cases op with
  | wait addr val bitset prefixed loaded =>
    intro b i hi
    have hold : i ∈ s.futexes.buckets b → (Function.update s.place s.futexes.nextWaiter (pid, addr)
      i.waiter).2 = i.key.addr ∧
        Function.update s.place s.futexes.nextWaiter (pid, addr) i.waiter ∈ (pid, addr) :: s.used := by
      intro hi
      have hlt := ((h.accounted.queued i.waiter).mp (Futexes.mem_waiters.mpr ⟨b, i, hi, rfl⟩)).1
      rw [Function.update_of_ne (ne_of_lt hlt)]
      exact ⟨(h.placed b i hi).1, mem_cons_of_mem _ (h.placed b i hi).2⟩
    have hi' : i ∈ ((s.futexes.futexWaitBitset addr val bitset prefixed loaded).getD s.futexes).buckets b := hi
    cases hwait : s.futexes.futexWaitBitset addr val bitset prefixed loaded with
    | none =>
      rw [hwait] at hi'
      exact hold hi'
    | some t =>
      rw [hwait, Option.getD_some, Futexes.futexWaitBitset_some hwait] at hi'
      rcases Futexes.mem_setBucket hi' with ⟨rfl, hmem⟩ | hmem
      · rcases mem_append.mp hmem with hmem | hmem
        · exact hold hmem
        · obtain rfl := mem_singleton.mp hmem
          have hplace : (s.call pid (.wait addr val bitset prefixed loaded)).place s.futexes.nextWaiter
            = (pid, addr) :=
            Function.update_self _ _ _
          rw [hplace]
          exact ⟨rfl, mem_cons_self⟩
      · exact hold hmem
  | wake addr n bitset =>
    intro b i hi
    obtain ⟨hkey, hin⟩ := h.placed b i (hwake addr n bitset b i hi)
    exact ⟨hkey, hused _ hin⟩
  | requeue addr nwakes nrequeues newAddr =>
    intro b j hj
    by_cases hsame : newAddr = addr
    · subst hsame
      have hj' : j ∈ ((Op.requeue newAddr nwakes nrequeues newAddr).run s.futexes).buckets b := hj
      rw [Op.run_requeue_self] at hj'
      obtain ⟨hkey, hin⟩ := h.placed b j (hwake newAddr nwakes FUTEX_BITSET_MATCH_ANY b j hj')
      have hplace : (s.call pid (.requeue newAddr nwakes nrequeues newAddr)).place j.waiter = s.place j.waiter :=
        if_neg fun hand => hand.1 rfl
      rw [hplace]
      exact ⟨hkey, hused _ hin⟩
    · have hwoken := h.accounted.futexWake addr nwakes
      have hj' : j ∈ ((Op.requeue addr nwakes nrequeues newAddr).run s.futexes).buckets b := hj
      rw [Op.run_requeue_of_ne _ hsame] at hj'
      have hmoved := hwoken.moveItems_rekeyed ⟨addr⟩ ⟨newAddr⟩ nrequeues
      obtain ⟨c, i, hi, rfl⟩ := (hmoved.items j).mp ⟨b, hj'⟩
      have hmem := hwoken.waiter_mem_iff (b := getBucket size ⟨addr⟩)
        (takeFirst_sublist (FutexItem.has ⟨addr⟩) nrequeues
        ((s.futexes.futexWake addr nwakes).2.queue ⟨addr⟩)).subset hi
      split
      case isTrue hin =>
        have hplace : (s.call pid (.requeue addr nwakes nrequeues newAddr)).place i.waiter = (pid, newAddr) :=
          if_pos ⟨hsame, hmem.mpr hin⟩
        show ((s.call pid (.requeue addr nwakes nrequeues newAddr)).place i.waiter).2 = newAddr ∧
          (s.call pid (.requeue addr nwakes nrequeues newAddr)).place i.waiter ∈ _
        rw [hplace]
        exact ⟨rfl, mem_cons_of_mem _ mem_cons_self⟩
      case isFalse hout =>
        have hplace : (s.call pid (.requeue addr nwakes nrequeues newAddr)).place i.waiter = s.place i.waiter :=
          if_neg fun hand => hout (hmem.mp hand.2)
        rw [hplace]
        obtain ⟨hkey, hin⟩ := h.placed c i (hwake addr nwakes FUTEX_BITSET_MATCH_ANY c i hi)
        exact ⟨hkey, hused _ hin⟩

theorem new (size : BucketCount) : (Sys.new size).Placed := ⟨.new size, fun _ _ hi => nomatch hi⟩

end Sys.Placed

theorem Calls.placed {s : Sys size} (h : Calls s) : s.Placed := by
  induction h with
  | new => exact .new size
  | call _ pid op ih => exact ih.call pid op

/-- **Waiters are confined to their words** in every run: a call reaches only waiters on the caller's word if the
processes that have used its addresses have the same words there, whatever calls were made before. -/
theorem waiters_confined {memory : Nat → Nat → Word} {s : Sys size} (h : Calls s) (pid : Nat) (op : Op)
    (hsame : s.SameWords memory pid op) : s.Confined memory pid op := by
  have hs := h.placed
  intro addr htarget
  have htaken : ∀ b, ∀ i ∈ s.futexes.buckets b, i ∉ (op.run s.futexes).buckets b →
      s.word memory i.waiter = memory pid addr := by
    intro b i hi hout
    obtain ⟨haddr, hused⟩ := hs.placed b i hi
    have hkey := hs.accounted.taken_key htarget hi hout
    rw [hkey] at haddr
    have hmem : addr ∈ op.addrs := by
      cases op with
      | wait => cases htarget
      | wake | requeue =>
        cases htarget
        exact List.mem_cons_self
    have hplace : s.place i.waiter = ((s.place i.waiter).1, addr) := Prod.ext rfl haddr
    unfold Sys.word
    rw [haddr]
    exact hsame addr hmem _ (hplace ▸ hused)
  refine ⟨htaken, fun w hw => ?_⟩
  obtain ⟨b, i, hi, rfl, hout⟩ := hs.accounted.woken_taken op hw
  exact htaken b i hi hout

/-- Each process has a word of its own at each address. -/
def separate (pid addr : Nat) : Nat × Nat := (pid, addr)

/-- Process 0 waits. -/
def oneWaits : Sys sizeTwo := (Sys.new sizeTwo).call 0 (.wait 4096 5 1 5 5)

/-- Process 1 waits as well, at another address of the same bucket. -/
def bothWait : Sys sizeTwo := oneWaits.call 1 (.wait 8192 5 1 5 5)

/-- Process 1 wakes its own waiter, and not the other. -/
theorem waiters_confined_own : ((Op.wake 8192 2 1).run bothWait.futexes).wakes 1 = 1 ∧
    ((Op.wake 8192 2 1).run bothWait.futexes).wakes 0 = 0 ∧ bothWait.word separate 0 ≠ separate 1 8192 ∧
    bothWait.word separate 1 = separate 1 8192 := by
  have hboth : Calls bothWait := .call (.call .new 0 _) 1 _
  have hsame : bothWait.SameWords separate 1 (.wake 8192 2 1) := by
    intro addr haddr q hused
    cases List.mem_singleton.mp haddr
    rcases List.mem_cons.mp hused with hused | hused
    · cases hused
      rfl
    · cases List.mem_singleton.mp hused
  exact ⟨by decide, by decide, by decide, (waiters_confined hboth 1 _ hsame 8192 rfl).2 1 (by decide)⟩

/-- **A process wakes the waiter of another one** that waits at the same address. -/
theorem wake_crosses_processes : Calls oneWaits ∧ oneWaits.word separate 0 = (0, 4096) ∧
    ((Op.wake 4096 1 1).run oneWaits.futexes).wakes 0 = 1 ∧ ¬ oneWaits.Confined separate 1 (.wake 4096 1 1) := by
  refine ⟨.call .new 0 _, rfl, by decide, fun hconfined => ?_⟩
  exact absurd ((hconfined 4096 rfl).2 0 (by decide)) (by decide)

end AsterKernel.Futex
