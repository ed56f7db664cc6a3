import AsterKernel.Lib.Run
import AsterKernel.Lib.Threads

/-!
# `WorkQueue.Items` — submitting work items and running them

`WorkQueue::enqueue` sets the flag of an item, if it is not set, and then puts the item into the queue. A worker looks
through the queues of its pool for an item that may run on its CPU, takes it out, clears the flag and calls the item's
function. Callers and workers make these steps in any order; an item's function may enqueue it again, which is a step
of one more caller.
-/

namespace AsterKernel.WorkQueue

open Lib Function List

/-- `cpu_affinity` of every item. -/
abbrev Affinity := Nat → Nat → Bool

/-- A thread outside `enqueue`, or in it, with the flag of the item set and the item still to be put into a queue. -/
inductive Caller where
  | idle
  | push (queue item : Nat)
deriving DecidableEq, Repr

/-- Where a worker is: looking through queues, with an item whose flag is set, with one whose flag is cleared, or in
the item's function. -/
inductive Pc where
  | fetch (queues : List Nat)
  | fetched (item : Nat)
  | processing (item : Nat)
  | running (item : Nat)
deriving DecidableEq, Repr

def Pc.item? : Pc → Option Nat
  | fetch _ => none
  | fetched x | processing x | running x => some x

/-- A worker: the CPU that it is bound to, and the queues of its pool. -/
structure Worker where
  boundCpu : Nat
  pool : List Nat
  pc : Pc
deriving DecidableEq, Repr

/-- The flags `was_pending`, the queues, the threads; and what has happened: the enqueues that returned `true`, the
starts with their CPU, and the items that have not been started since they were last accepted. -/
structure Sys where
  wasPending : Nat → Bool
  queues : List (List Nat)
  callers : List Caller
  workers : List Worker
  accepted : List Nat
  starts : List (Nat × Nat)
  unstarted : Nat → Bool

inductive Act where
  | tryPending (caller queue item : Nat)
  | push (caller : Nat)
  | dequeue (worker : Nat)
  | setProcessing (worker : Nat)
  | callWorkFunc (worker : Nat)
  | finish (worker : Nat)
deriving DecidableEq, Repr

/-- `WorkQueue::dequeue`: the first item that may run on the CPU is removed. -/
def dequeue (affinity : Affinity) (cpu : Nat) (queue : List Nat) : Option (Nat × List Nat) :=
  (queue.find? (affinity · cpu)).map fun x => (x, queue.eraseP (affinity · cpu))

namespace Sys

def setPc (s : Sys) (i : Nat) (w : Worker) (pc : Pc) : Sys := { s with workers := s.workers.set i { w with pc } }

def step (affinity : Affinity) : Act → Sys → Option Sys
  | .tryPending i q x, s =>
    if s.callers[i]? = some .idle ∧ q < s.queues.length then
      -- the compare-and-exchange fails: `enqueue` returns `false`
      some (if s.wasPending x then s else
        { s with wasPending := Function.update s.wasPending x true, callers := s.callers.set i (.push q x) })
    else none
  | .push i, s =>
    match s.callers[i]? with
    | some (.push q x) => (s.queues[q]?).map fun queue =>
      { s with queues := s.queues.set q (queue ++ [x]), callers := s.callers.set i .idle,
               accepted := x :: s.accepted, unstarted := Function.update s.unstarted x true }
    | _ => none
  | .dequeue i, s =>
    match s.workers[i]? with
    | some ⟨cpu, pool, .fetch (q :: rest)⟩ => (s.queues[q]?).map fun queue =>
      match dequeue affinity cpu queue with
      | some (x, queue') => { s.setPc i ⟨cpu, pool, .fetch []⟩ (.fetched x) with queues := s.queues.set q queue' }
      | none => s.setPc i ⟨cpu, pool, .fetch []⟩ (.fetch rest)
    -- nothing found: the worker sleeps, and looks again when it is woken
    | some ⟨cpu, pool, .fetch []⟩ => some (s.setPc i ⟨cpu, pool, .fetch []⟩ (.fetch pool))
    | _ => none
  | .setProcessing i, s =>
    match s.workers[i]? with
    | some ⟨cpu, pool, .fetched x⟩ =>
      some { s.setPc i ⟨cpu, pool, .fetched x⟩ (.processing x) with wasPending := Function.update s.wasPending x false }
    | _ => none
  | .callWorkFunc i, s =>
    match s.workers[i]? with
    | some ⟨cpu, pool, .processing x⟩ =>
      some { s.setPc i ⟨cpu, pool, .processing x⟩ (.running x) with
        starts := (x, cpu) :: s.starts, unstarted := Function.update s.unstarted x false }
    | _ => none
  | .finish i, s =>
    match s.workers[i]? with
    | some ⟨cpu, pool, .running x⟩ => some (s.setPc i ⟨cpu, pool, .running x⟩ (.fetch pool))
    | _ => none

/-- Queues, callers and workers before anything has been submitted. -/
def init (queues callers : Nat) (workers : List (Nat × List Nat)) : Sys where
  wasPending := fun _ => false
  queues := List.replicate queues []
  callers := List.replicate callers .idle
  workers := workers.map fun w => ⟨w.1, w.2, .fetch w.2⟩
  accepted := []
  starts := []
  unstarted := fun _ => false

/-! ## Where an item is -/

def pushing (x : Nat) : Caller → Nat
  | .push _ y => if y = x then 1 else 0
  | .idle => 0

def fetchedBy (x : Nat) (w : Worker) : Nat := if w.pc = .fetched x then 1 else 0

def clearedBy (x : Nat) (w : Worker) : Nat := if w.pc = .processing x then 1 else 0

variable (s : Sys) (x : Nat)

/-- The enqueues of an item that have set its flag and are about to put it into a queue. -/
def submitting : Nat := total (pushing x) s.callers

/-- The positions of an item in the queues. -/
def queued : Nat := total (List.count x) s.queues

/-- The workers that have taken an item out of a queue and have not cleared its flag. -/
def fetched : Nat := total (fetchedBy x) s.workers

/-- The workers that have cleared the flag of an item and have not started it. -/
def cleared : Nat := total (clearedBy x) s.workers

/-- The workers between dequeuing an item and starting it. -/
def between : Nat := s.fetched x + s.cleared x

def startsOf : Nat := (s.starts.map Prod.fst).count x

/-- What is to hold of every item. -/
structure ExactlyOnce (affinity : Affinity) : Prop where
  place : s.queued x ≤ 1
  bound : s.startsOf x ≤ s.accepted.count x
  settled : s.queued x = 0 → s.between x = 0 → s.startsOf x = s.accepted.count x ∧ s.unstarted x = false
  onCpu : ∀ cpu, (x, cpu) ∈ s.starts → affinity x cpu = true
  refused : s.wasPending x = true → 0 < s.submitting x + s.queued x + s.between x

/-! ## The invariant -/

structure Inv (affinity : Affinity) : Prop where
  flag : s.submitting x + s.queued x + s.fetched x = if s.wasPending x then 1 else 0
  count : s.accepted.count x = s.queued x + s.between x + s.startsOf x
  unstarted : s.unstarted x = true → 0 < s.queued x + s.between x
  onCpu : ∀ cpu, (x, cpu) ∈ s.starts → affinity x cpu = true
  held : ∀ w ∈ s.workers, w.pc.item? = some x → affinity x w.boundCpu = true

variable {s x} {t : Sys} {affinity : Affinity} {i : Nat}

theorem Inv.exactlyOnce (h : s.Inv x affinity) : s.ExactlyOnce x affinity := by
  have hflag := h.flag
  have hcount := h.count
  constructor
  · split at hflag <;> omega
  · omega
  · intro hqueued hbetween
    refine ⟨by omega, ?_⟩
    cases hun : s.unstarted x with
    | false => rfl
    | true =>
      have := h.unstarted hun
      omega
  · exact h.onCpu
  · intro hpending
    rw [if_pos hpending] at hflag
    unfold between
    omega

theorem total_replicate {τ : Type} (w : τ → Nat) (n : Nat) {a : τ} (h : w a = 0) : total w (List.replicate n a) = 0 :=
  total_eq_zero fun _ hb => (eq_of_mem_replicate hb) ▸ h

theorem inv_init (queues callers : Nat) (workers : List (Nat × List Nat)) :
    (init queues callers workers).Inv x affinity := by
  have hsubmitting : (init queues callers workers).submitting x = 0 := total_replicate _ _ rfl
  have hqueued : (init queues callers workers).queued x = 0 := total_replicate _ _ rfl
  have hworkers : ∀ w ∈ (init queues callers workers).workers, ∃ qs, w.pc = .fetch qs := by
    intro w hw
    obtain ⟨v, -, rfl⟩ := mem_map.mp hw
    exact ⟨v.2, rfl⟩
  have hfetched : (init queues callers workers).fetched x = 0 := by
    refine total_eq_zero fun w hw => ?_
    obtain ⟨qs, hqs⟩ := hworkers w hw
    exact if_neg (by rw [hqs]; nofun)
  have hcleared : (init queues callers workers).cleared x = 0 := by
    refine total_eq_zero fun w hw => ?_
    obtain ⟨qs, hqs⟩ := hworkers w hw
    exact if_neg (by rw [hqs]; nofun)
  refine ⟨?_, ?_, nofun, nofun, ?_⟩
  · rw [hsubmitting, hqueued, hfetched]
    rfl
  · rw [hqueued, between, hfetched, hcleared]
    rfl
  · intro w hw hitem
    obtain ⟨qs, hqs⟩ := hworkers w hw
    rw [hqs] at hitem
    cases hitem

/-! ## The steps -/

variable {cpu y : Nat} {queue pool : List Nat} {w : Worker} {queue' : List Nat} {q : Nat}

/-- What `dequeue` takes out of a queue. -/
theorem count_dequeue (h : dequeue affinity cpu queue = some (y, queue')) :
    affinity y cpu = true ∧ queue.count x = queue'.count x + (if y = x then 1 else 0) := by
  obtain ⟨z, hfind, heq⟩ := Option.map_eq_some_iff.mp h
  obtain ⟨rfl, rfl⟩ := Prod.mk.inj heq
  refine ⟨find?_some (p := (affinity · cpu)) hfind, ?_⟩
  clear heq h
  induction queue with
  | nil => cases hfind
  | cons a queue ih =>
    cases ha : affinity a cpu with
    | true =>
      rw [find?_cons_of_pos (by simpa using ha)] at hfind
      cases hfind
      rw [eraseP_cons_of_pos (by simpa using ha), count_cons]
      simp only [beq_iff_eq]
    | false =>
      rw [find?_cons_of_neg (by simpa using ha)] at hfind
      rw [eraseP_cons_of_neg (by simpa using ha), count_cons, count_cons, ih hfind]
      omega

theorem worker_frame (hw : s.workers[i]? = some w) : ∃ f c,
    s.fetched x = f + fetchedBy x w ∧ s.cleared x = c + clearedBy x w ∧
    ∀ pc, (s.setPc i w pc).fetched x = f + (if pc = .fetched x then 1 else 0) ∧
      (s.setPc i w pc).cleared x = c + (if pc = .processing x then 1 else 0) := by
  obtain ⟨f, hf, hf'⟩ := total_frame hw (fetchedBy x)
  obtain ⟨c, hc, hc'⟩ := total_frame hw (clearedBy x)
  exact ⟨f, c, hf, hc, fun pc => ⟨hf' _, hc' _⟩⟩

theorem held_setPc (h : s.Inv x affinity) {pc : Pc} (hpc : pc.item? = some x → affinity x w.boundCpu = true) :
    ∀ v ∈ (s.setPc i w pc).workers, v.pc.item? = some x → affinity x v.boundCpu = true := by
  intro v hv hitem
  rcases mem_or_eq_of_mem_set hv with hv | rfl
  · exact h.held v hv hitem
  · exact hpc hitem

theorem Inv.move (h : s.Inv x affinity) (hw : s.workers[i]? = some w) {pc : Pc}
    (hfrom : w.pc ≠ .fetched x ∧ w.pc ≠ .processing x) (hto : pc.item? = none) : (s.setPc i w pc).Inv x affinity := by
  obtain ⟨f, c, hf, hc, hset⟩ := worker_frame (x := x) hw
  have hfetched : (s.setPc i w pc).fetched x = s.fetched x := by
    rw [(hset pc).1, hf, fetchedBy, if_neg hfrom.1, if_neg (by rintro rfl; cases hto)]
  have hcleared : (s.setPc i w pc).cleared x = s.cleared x := by
    rw [(hset pc).2, hc, clearedBy, if_neg hfrom.2, if_neg (by rintro rfl; cases hto)]
  have hbetween : (s.setPc i w pc).between x = s.between x := by rw [between, hfetched, hcleared, between]
  refine ⟨?_, ?_, ?_, h.onCpu, held_setPc h (by rw [hto]; nofun)⟩
  · rw [hfetched]
    exact h.flag
  · rw [hbetween]
    exact h.count
  · rw [hbetween]
    exact h.unstarted

theorem Inv.submit (h : ∀ x, s.Inv x affinity) (hi : s.callers[i]? = some .idle)
    (hclear : s.wasPending y = false) (x : Nat) :
    Inv { s with wasPending := update s.wasPending y true, callers := s.callers.set i (.push q y) } x
      affinity := by
  obtain ⟨rest, hrest, hset⟩ := total_frame hi (pushing x)
  refine ⟨?_, (h x).count, (h x).unstarted, (h x).onCpu, (h x).held⟩
  have hflag := (h x).flag
  show total _ (s.callers.set i _) + s.queued x + s.fetched x = if update s.wasPending y true x then 1 else 0
  rw [hset]
  unfold submitting at hflag
  by_cases hxy : y = x
  · obtain rfl := hxy
    rw [update_self]
    simp only [hrest, pushing, hclear, reduceIte, Bool.false_eq_true] at hflag ⊢
    omega
  · rw [update_of_ne (Ne.symm hxy)]
    simp only [hrest, pushing, if_neg hxy] at hflag ⊢
    exact hflag

theorem Inv.push (h : ∀ x, s.Inv x affinity) (hi : s.callers[i]? = some (.push q y))
    (hq : s.queues[q]? = some queue) (x : Nat) :
    Inv { s with queues := s.queues.set q (queue ++ [y]), callers := s.callers.set i .idle,
                 accepted := y :: s.accepted, unstarted := update s.unstarted y true } x affinity := by
  obtain ⟨callers, hcallers, hcallers'⟩ := total_frame hi (pushing x)
  obtain ⟨queues, hqueues, hqueues'⟩ := total_frame hq (List.count x)
  have hflag := (h x).flag
  have hcount := (h x).count
  have hqueued : total (List.count x) (s.queues.set q (queue ++ [y])) = s.queued x + (if y = x then 1 else 0) := by
    rw [hqueues', queued, hqueues, count_append, count_singleton, add_assoc]
    simp only [beq_iff_eq]
  refine ⟨?_, ?_, ?_, (h x).onCpu, (h x).held⟩
  · show total _ (s.callers.set i _) + total _ (s.queues.set q _) + s.fetched x = _
    rw [hcallers', hqueued]
    unfold submitting at hflag
    simp only [hcallers, pushing] at hflag ⊢
    omega
  · show (y :: s.accepted).count x = total _ (s.queues.set q _) + s.between x + s.startsOf x
    rw [hqueued, count_cons]
    simp only [beq_iff_eq]
    omega
  · intro hun
    show 0 < total _ (s.queues.set q _) + s.between x
    rw [hqueued]
    by_cases hxy : y = x
    · rw [if_pos hxy]
      omega
    · have hun' : update s.unstarted y true x = true := hun
      rw [update_of_ne (Ne.symm hxy)] at hun'
      have := (h x).unstarted hun'
      omega

theorem Inv.take (h : s.Inv x affinity) {rest : List Nat}
    (hw : s.workers[i]? = some ⟨cpu, pool, .fetch rest⟩) (hq : s.queues[q]? = some queue)
    (hdequeue : dequeue affinity cpu queue = some (y, queue')) :
    Inv { s.setPc i ⟨cpu, pool, .fetch []⟩ (.fetched y) with queues := s.queues.set q queue' } x affinity := by
  obtain ⟨hvalid, htake⟩ := count_dequeue (x := x) hdequeue
  obtain ⟨queues, hqueues, hqueues'⟩ := total_frame hq (List.count x)
  obtain ⟨f, c, hf, hc, hset⟩ := worker_frame (x := x) hw
  have hpc := hset (.fetched y)
  simp only [fetchedBy, clearedBy, reduceCtorEq, if_false, Pc.fetched.injEq] at hf hc hpc
  have hqueued : s.queued x = total (List.count x) (s.queues.set q queue') + (if y = x then 1 else 0) := by
    rw [queued, hqueues, hqueues', htake, add_assoc]
  have hflag := h.flag
  have hcount := h.count
  have hheld : ∀ w ∈ (s.setPc i ⟨cpu, pool, .fetch []⟩ (.fetched y)).workers, w.pc.item? = some x →
      affinity x w.boundCpu = true := held_setPc h fun hitem => by
    cases hitem
    exact hvalid
  have hkept : total (List.count x) (s.queues.set q queue') + ((s.setPc i ⟨cpu, pool, .fetch []⟩ (.fetched y)).fetched x
      + (s.setPc i ⟨cpu, pool, .fetch []⟩ (.fetched y)).cleared x) = s.queued x + s.between x := by
    have h1 : (s.setPc i ⟨cpu, pool, .fetch []⟩ (.fetched y)).fetched x = _ := hpc.1
    have h2 : (s.setPc i ⟨cpu, pool, .fetch []⟩ (.fetched y)).cleared x = _ := hpc.2
    rw [h1, h2, hqueued, between, hf, hc]
    omega
  refine ⟨?_, ?_, ?_, h.onCpu, hheld⟩
  · have h1 : (s.setPc i ⟨cpu, pool, .fetch []⟩ (.fetched y)).fetched x = _ := hpc.1
    show s.submitting x + total _ (s.queues.set q queue') + (s.setPc i _ _).fetched x = _
    rw [h1]
    show _ = if s.wasPending x then 1 else 0
    omega
  · exact hcount.trans (congrArg (· + s.startsOf x) hkept.symm)
  · intro hun
    have hpos := h.unstarted hun
    rw [← hkept] at hpos
    exact hpos

theorem Inv.clear (h : ∀ x, s.Inv x affinity) (hw : s.workers[i]? = some ⟨cpu, pool, .fetched y⟩) (x : Nat) :
    Inv { s.setPc i ⟨cpu, pool, .fetched y⟩ (.processing y) with wasPending := update s.wasPending y false } x
      affinity := by
  obtain ⟨f, c, hf, hc, hset⟩ := worker_frame (x := x) hw
  have hpc := hset (.processing y)
  simp only [fetchedBy, clearedBy, reduceCtorEq, if_false, Pc.fetched.injEq, Pc.processing.injEq] at hf hc hpc
  have hflag := (h x).flag
  have hbetween : (s.setPc i ⟨cpu, pool, .fetched y⟩ (.processing y)).between x = s.between x := by
    rw [between, between, hpc.1, hpc.2, hf, hc]
    omega
  refine ⟨?_, ?_, ?_, (h x).onCpu, held_setPc (h x) fun hitem => ?_⟩
  · show s.submitting x + s.queued x + (s.setPc i _ _).fetched x = if update s.wasPending y false x then 1 else 0
    rw [hpc.1]
    by_cases hxy : y = x
    · obtain rfl := hxy
      rw [update_self]
      simp only [hf, if_true] at hflag ⊢
      split at hflag <;> simp <;> omega
    · rw [update_of_ne (Ne.symm hxy)]
      rw [hf, if_neg hxy] at hflag
      exact hflag
  · show s.accepted.count x = s.queued x + (s.setPc i _ _).between x + s.startsOf x
    rw [hbetween]
    exact (h x).count
  · intro hun
    show 0 < s.queued x + (s.setPc i _ _).between x
    rw [hbetween]
    exact (h x).unstarted hun
  · exact (h x).held _ (mem_of_getElem? hw) hitem

theorem Inv.start (h : s.Inv x affinity) (hw : s.workers[i]? = some ⟨cpu, pool, .processing y⟩) :
    Inv { s.setPc i ⟨cpu, pool, .processing y⟩ (.running y) with
      starts := (y, cpu) :: s.starts, unstarted := update s.unstarted y false } x affinity := by
  obtain ⟨f, c, hf, hc, hset⟩ := worker_frame (x := x) hw
  have hpc := hset (.running y)
  simp only [fetchedBy, clearedBy, reduceCtorEq, if_false, Pc.processing.injEq] at hf hc hpc
  have hcount := h.count
  have hbetween : s.between x = (s.setPc i ⟨cpu, pool, .processing y⟩ (.running y)).between x +
      (if y = x then 1 else 0) := by
    rw [between, between, hpc.1, hpc.2, hf, hc]
    omega
  refine ⟨?_, ?_, ?_, ?_, held_setPc h fun hitem => h.held _ (mem_of_getElem? hw) hitem⟩
  · show s.submitting x + s.queued x + (s.setPc i _ _).fetched x = if s.wasPending x then 1 else 0
    rw [hpc.1, ← h.flag, hf]
  · show s.accepted.count x = s.queued x + (s.setPc i _ _).between x + (y :: s.starts.map Prod.fst).count x
    rw [count_cons]
    unfold startsOf at hcount
    simp only [beq_iff_eq]
    omega
  · intro hun
    show 0 < s.queued x + (s.setPc i _ _).between x
    by_cases hxy : y = x
    · obtain rfl := hxy
      have hun' : update s.unstarted y false y = true := hun
      rw [update_self] at hun'
      cases hun'
    · have hun' : update s.unstarted y false x = true := hun
      rw [update_of_ne (Ne.symm hxy)] at hun'
      have := h.unstarted hun'
      rw [if_neg hxy] at hbetween
      omega
  · intro cpu' hmem
    rcases mem_cons.mp hmem with heq | hmem
    · obtain ⟨rfl, rfl⟩ := Prod.mk.inj heq
      exact h.held _ (mem_of_getElem? hw) rfl
    · exact h.onCpu cpu' hmem

theorem Inv.step {a : Act} (h : ∀ x, s.Inv x affinity) (hstep : step affinity a s = some t) (x : Nat) :
    t.Inv x affinity := by
  cases a with
  | tryPending i q y =>
    obtain ⟨⟨hi, -⟩, ⟨⟩⟩ := Option.ite_none_right_eq_some.mp hstep
    split
    · exact h x
    · rename_i hclear
      exact Inv.submit h hi (by simpa using hclear) x
  | push i =>
    simp only [Sys.step] at hstep
    split at hstep
    · rename_i q y hi
      obtain ⟨queue, hq, rfl⟩ := Option.map_eq_some_iff.mp hstep
      exact Inv.push h hi hq x
    · cases hstep
  | dequeue i =>
    simp only [Sys.step] at hstep
    split at hstep
    · rename_i cpu pool q rest hw
      obtain ⟨queue, hq, rfl⟩ := Option.map_eq_some_iff.mp hstep
      split
      · rename_i y queue' hdequeue
        exact (h x).take hw hq hdequeue
      · exact (h x).move hw ⟨nofun, nofun⟩ rfl
    · rename_i cpu pool hw
      cases hstep
      exact (h x).move hw ⟨nofun, nofun⟩ rfl
    · cases hstep
  | setProcessing i =>
    simp only [Sys.step] at hstep
    split at hstep
    · rename_i cpu pool y hw
      cases hstep
      exact Inv.clear h hw x
    · cases hstep
  | callWorkFunc i =>
    simp only [Sys.step] at hstep
    split at hstep
    · rename_i cpu pool y hw
      cases hstep
      exact (h x).start hw
    · cases hstep
  | finish i =>
    simp only [Sys.step] at hstep
    split at hstep
    · rename_i cpu pool y hw
      cases hstep
      exact (h x).move hw ⟨nofun, nofun⟩ rfl
    · cases hstep

end Sys
end AsterKernel.WorkQueue
