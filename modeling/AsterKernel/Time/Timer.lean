import Mathlib.Logic.Function.Basic
import AsterKernel.Lib.Run
import AsterKernel.Lib.Usize

/-!
# `Time.Timer` — callbacks that run at a tick

`add_timeout_list` puts a callback with its expiry into a heap. At every tick, `update_tick_callback` takes the expired
callbacks out of the heap while it holds the lock, and calls them after it has let it go. It drops a cancelled callback
when it finds it at the top of the heap; but it does not look at the flag again before it calls what it has taken out.

The tick handler runs on one CPU and is not interrupted by the next tick, and the tick count does not reach `2 ^ 64`.
The heap is any priority queue: which of two callbacks with the same expiry comes first is left open.
-/

namespace AsterKernel.Time

open Lib Function List

/-- A callback in the heap. `since` is the count of the first tick that looks at the heap after the insertion. -/
structure TimerCallback where
  id : Nat
  expireTicks : Nat
  since : Nat
deriving DecidableEq, Repr

/-- The first tick after the insertion whose count has reached the expiry. -/
def TimerCallback.due (e : TimerCallback) : Nat := max e.expireTicks e.since

/-- `BinaryHeap::peek`: an element with the smallest expiry, as `cmp` is reversed. -/
structure BinaryHeap where
  peek : List TimerCallback → Option TimerCallback
  peek_none : ∀ heap, peek heap = none → heap = []
  peek_mem : ∀ heap e, peek heap = some e → e ∈ heap
  peek_le : ∀ heap e, peek heap = some e → ∀ f ∈ heap, e.expireTicks ≤ f.expireTicks

/-- Where the tick handler is: outside; behind the increment of the count; taking callbacks out, with the lock held;
calling them. -/
inductive Handler where
  | idle
  | ticked (current : Nat)
  | collecting (current : Nat) (callbacks : List TimerCallback)
  | running (current : Nat) (callbacks : List TimerCallback)
deriving DecidableEq, Repr

/-- The callbacks that have been taken out and not yet called. -/
def Handler.batch : Handler → List TimerCallback
  | collecting _ callbacks | running _ callbacks => callbacks
  | _ => []

/-- A call of a callback: at which tick, and whether it was cancelled before. -/
structure Call where
  id : Nat
  tick : Nat
  cancelled : Bool
deriving DecidableEq, Repr

/-- The count, the heap, the flags, the handler; the threads in `add_timeout_list` with the expiry that they have
computed; all callbacks that were added; and the calls so far. -/
structure Timers where
  tick : Nat
  timeoutList : List TimerCallback
  isCancelled : Nat → Bool
  handler : Handler
  adding : Nat → Option Nat
  added : List TimerCallback
  calls : List Call

inductive TimerAct where
  | load (thread timeout : Nat)
  | push (thread : Nat)
  | cancel (id : Nat)
  | fetchAdd
  | lock
  | collect
  | call
deriving DecidableEq, Repr

namespace Timers

/-- The count of the first tick that looks at the heap from now on. -/
def next (s : Timers) : Nat :=
  match s.handler with
  | .ticked current => current
  | _ => s.tick

/-- One turn of the loop in `update_tick_callback`. -/
def collect (heap : BinaryHeap) (current : Nat) (callbacks : List TimerCallback) (s : Timers) : Timers :=
  match heap.peek s.timeoutList with
  | some e =>
    if s.isCancelled e.id then { s with timeoutList := s.timeoutList.erase e }
    else if e.expireTicks ≤ current then
      { s with timeoutList := s.timeoutList.erase e, handler := .collecting current (callbacks ++ [e]) }
    else { s with handler := .running current callbacks }
  | none => { s with handler := .running current callbacks }

def step (p : Profile) (heap : BinaryHeap) : TimerAct → Timers → Option Timers
  | .load thread timeout, s => (p.add usizeCard s.tick timeout).map fun expire =>
    { s with adding := Function.update s.adding thread (some expire) }
  | .push thread, s =>
    match s.adding thread, s.handler with
    -- the handler has the lock
    | _, .collecting .. => none
    | none, _ => none
    | some expire, _ =>
      let e := ⟨s.added.length, expire, s.next⟩
      some { s with timeoutList := e :: s.timeoutList, added := e :: s.added
                    adding := Function.update s.adding thread none }
  | .cancel id, s => some { s with isCancelled := Function.update s.isCancelled id true }
  | .fetchAdd, s =>
    match s.handler with
    | .idle => some { s with tick := s.tick + 1, handler := .ticked s.tick }
    | _ => none
  | .lock, s =>
    match s.handler with
    | .ticked current => some { s with handler := .collecting current [] }
    | _ => none
  | .collect, s =>
    match s.handler with
    | .collecting current callbacks => some (s.collect heap current callbacks)
    | _ => none
  | .call, s =>
    match s.handler with
    | .running current (e :: callbacks) =>
      some { s with handler := .running current callbacks, calls := ⟨e.id, current, s.isCancelled e.id⟩ :: s.calls }
    | .running _ [] => some { s with handler := .idle }
    | _ => none

def init (tick : Nat) : Timers where
  tick := tick
  timeoutList := []
  isCancelled := fun _ => false
  handler := .idle
  adding := fun _ => none
  added := []
  calls := []

/-- How many ticks have come to their end: the counts below this one. -/
def ended (s : Timers) : Nat :=
  match s.handler with
  | .idle => s.tick
  | .ticked current | .collecting current _ | .running current _ => current

/-- No callback is called twice, each one only at its tick and only if it has not been cancelled; and one that has not
been cancelled has been called when its tick has come to its end. -/
structure Exact (s : Timers) : Prop where
  once : (s.calls.map Call.id).Nodup
  onTime : ∀ x ∈ s.calls, ∃ e ∈ s.added, e.id = x.id ∧ x.tick = e.due
  fresh : ∀ x ∈ s.calls, x.cancelled = false
  called : ∀ e ∈ s.added, s.isCancelled e.id = false → e.due < s.ended → e.id ∈ s.calls.map Call.id

/-- A callback is not cancelled between being taken out of the heap and being called. -/
def InTime (s : Timers) : TimerAct → Prop
  | .cancel id => ∀ e ∈ s.handler.batch, e.id ≠ id
  | _ => True

instance (s : Timers) (a : TimerAct) : Decidable (InTime s a) := by
  cases a <;> unfold InTime <;> infer_instance

/-! ## The invariant -/

/-- The tick that the handler works on, and what it has taken out, is the one before the count. -/
def Handler.Fits (tick : Nat) : Handler → Prop
  | .idle => True
  | .ticked current | .collecting current _ | .running current _ => tick = current + 1

/-- The least tick at which a callback of the heap may be due. -/
def least (s : Timers) : Nat :=
  match s.handler with
  | .ticked current | .collecting current _ => current
  | _ => s.tick

structure Inv (s : Timers) : Prop where
  fits : Handler.Fits s.tick s.handler
  /-- every callback has been added once -/
  added : (s.added.map TimerCallback.id).Nodup ∧ ∀ e ∈ s.added, e.id < s.added.length
  /-- what is in the heap, about to be called and called are different callbacks -/
  distinct : (s.timeoutList.map TimerCallback.id ++ s.handler.batch.map TimerCallback.id ++ s.calls.map Call.id).Nodup
  heap : ∀ e ∈ s.timeoutList, e ∈ s.added ∧ e.since ≤ s.least ∧ (s.isCancelled e.id = false → s.least ≤ e.due)
  batch : ∀ e ∈ s.handler.batch, e ∈ s.added ∧ e.due + 1 = s.tick ∧ s.isCancelled e.id = false
  calls : ∀ x ∈ s.calls, x.cancelled = false ∧ ∃ e ∈ s.added, e.id = x.id ∧ x.tick = e.due
  place : ∀ e ∈ s.added, s.isCancelled e.id = false →
    e ∈ s.timeoutList ∨ e ∈ s.handler.batch ∨ e.id ∈ s.calls.map Call.id

variable {s t : Timers} {p : Profile} {heap : BinaryHeap}

theorem Inv.exact (h : Inv s) : Exact s where
  once := (nodup_append'.mp h.distinct).2.1
  onTime := fun x hx => (h.calls x hx).2
  fresh := fun x hx => (h.calls x hx).1
  called := by
    intro e he hfresh hdue
    have hfits := h.fits
    rcases h.place e he hfresh with hheap | hbatch | hcalled
    · have hleast := (h.heap e hheap).2.2 hfresh
      cases hs : s.handler <;> simp only [ended, least, hs, Handler.Fits] at hdue hleast hfits <;> omega
    · have hnow := (h.batch e hbatch).2.1
      cases hs : s.handler <;> simp only [ended, hs, Handler.Fits] at hdue hfits <;>
        first | omega | (rw [hs] at hbatch; cases hbatch)
    · exact hcalled

theorem inv_init (tick : Nat) : Inv (init tick) where
  fits := trivial
  added := ⟨nodup_nil, nofun⟩
  distinct := nodup_nil
  heap := nofun
  batch := nofun
  calls := nofun
  place := nofun

/-! ## The steps -/

theorem Inv.push (h : Inv s) {thread expire : Nat} (hfree : ∀ current callbacks, s.handler ≠ .collecting current callbacks) :
    Inv { s with timeoutList := ⟨s.added.length, expire, s.next⟩ :: s.timeoutList
                 added := ⟨s.added.length, expire, s.next⟩ :: s.added
                 adding := update s.adding thread none } := by
  have hnew : ∀ e ∈ s.added, e.id ≠ s.added.length := fun e he => (h.added.2 e he).ne
  have hnext : s.next = s.least := by
    cases hs : s.handler <;> simp only [next, least, hs]
    exact absurd hs (hfree _ _)
  refine ⟨h.fits, ⟨?_, ?_⟩, ?_, ?_, ?_, ?_, ?_⟩
  · refine nodup_cons.mpr ⟨?_, h.added.1⟩
    intro hmem
    obtain ⟨e, he, heq⟩ := mem_map.mp hmem
    exact hnew e he heq
  · intro e he
    rcases mem_cons.mp he with rfl | he
    · exact Nat.lt_succ_self _
    · exact (h.added.2 e he).trans (Nat.lt_succ_self _)
  · refine nodup_cons.mpr ⟨?_, h.distinct⟩
    intro hmem
    rcases mem_append.mp hmem with hmem | hmem
    · rcases mem_append.mp hmem with hmem | hmem
      · obtain ⟨e, he, heq⟩ := mem_map.mp hmem
        exact hnew e (h.heap e he).1 heq
      · obtain ⟨e, he, heq⟩ := mem_map.mp hmem
        exact hnew e (h.batch e he).1 heq
    · obtain ⟨x, hx, heq⟩ := mem_map.mp hmem
      obtain ⟨e, he, hid, -⟩ := (h.calls x hx).2
      exact hnew e he (hid.trans heq)
  · intro e he
    rcases mem_cons.mp he with rfl | he
    · exact ⟨.head _, hnext.le, fun _ => hnext ▸ le_max_right ..⟩
    · obtain ⟨hadded, hrest⟩ := h.heap e he
      exact ⟨.tail _ hadded, hrest⟩
  · intro e he
    obtain ⟨hadded, hrest⟩ := h.batch e he
    exact ⟨.tail _ hadded, hrest⟩
  · intro x hx
    obtain ⟨hfresh, e, he, hrest⟩ := h.calls x hx
    exact ⟨hfresh, e, .tail _ he, hrest⟩
  · intro e he hfresh
    rcases mem_cons.mp he with rfl | he
    · exact .inl (.head _)
    · exact (h.place e he hfresh).imp_left (.tail _)

theorem Inv.cancel (h : Inv s) {id : Nat} (hbatch : ∀ e ∈ s.handler.batch, e.id ≠ id) :
    Inv { s with isCancelled := update s.isCancelled id true } := by
  have hsame : ∀ {j}, update s.isCancelled id true j = false → s.isCancelled j = false := by
    intro j hj
    by_cases heq : j = id
    · obtain rfl := heq
      rw [update_self] at hj
      cases hj
    · rwa [update_of_ne heq] at hj
  refine ⟨h.fits, h.added, h.distinct, ?_, ?_, h.calls, fun e he hfresh => h.place e he (hsame hfresh)⟩
  · intro e he
    obtain ⟨hadded, hsince, hdue⟩ := h.heap e he
    exact ⟨hadded, hsince, fun hfresh => hdue (hsame hfresh)⟩
  · intro e he
    obtain ⟨hadded, hdue, hfresh⟩ := h.batch e he
    exact ⟨hadded, hdue, (update_of_ne (hbatch e he) ..).trans hfresh⟩

/-- The handler goes on and leaves everything else alone; what may be due in the heap does not come later. -/
theorem Inv.goto (h : Inv s) {tick : Nat} (handler : Handler) (hfits : Handler.Fits tick handler)
    (hbatch : handler.batch = s.handler.batch) (htick : tick = s.tick ∨ handler.batch = [])
    (hleast : least { s with tick, handler } = s.least ∨ s.least ≤ least { s with tick, handler } ∧
      ∀ e ∈ s.timeoutList, s.isCancelled e.id = false → least { s with tick, handler } ≤ e.due) :
    Inv { s with tick, handler } := by
  refine ⟨hfits, h.added, ?_, ?_, ?_, h.calls, ?_⟩
  · show (_ ++ handler.batch.map _ ++ _).Nodup
    rw [hbatch]
    exact h.distinct
  · intro e he
    obtain ⟨hadded, hsince, hdue⟩ := h.heap e he
    rcases hleast with hleast | ⟨hle, hlater⟩
    · rw [hleast]
      exact ⟨hadded, hsince, hdue⟩
    · exact ⟨hadded, hsince.trans hle, hlater e he⟩
  · intro e he
    rcases htick with rfl | hnil
    · exact h.batch e (hbatch ▸ he)
    · have he' : e ∈ handler.batch := he
      rw [hnil] at he'
      cases he'
  · intro e he hfresh
    show _ ∨ e ∈ handler.batch ∨ _
    rw [hbatch]
    exact h.place e he hfresh

variable {current : Nat} {callbacks : List TimerCallback}

section

variable (h : Inv s) (hs : s.handler = .collecting current callbacks)
include h hs

theorem Inv.pop {e : TimerCallback}
    (he : e ∈ s.timeoutList) : (s.isCancelled e.id = true → Inv { s with timeoutList := s.timeoutList.erase e }) ∧
    (s.isCancelled e.id = false → e.expireTicks ≤ current →
      Inv { s with timeoutList := s.timeoutList.erase e, handler := .collecting current (callbacks ++ [e]) }) := by
  have hfits : s.tick = current + 1 := by have := h.fits; rwa [hs] at this
  have hperm := perm_cons_erase he
  have hdistinct := h.distinct
  simp only [hs, Handler.batch] at hdistinct
  have hleft : ∀ f, f ∈ s.timeoutList → f = e ∨ f ∈ s.timeoutList.erase e :=
    fun f hf => mem_cons.mp (hperm.mem_iff.mp hf)
  constructor
  · intro hcancelled
    refine ⟨h.fits, h.added, ?_, fun f hf => h.heap f (mem_of_mem_erase hf), h.batch, h.calls, ?_⟩
    · refine List.Nodup.sublist ?_ h.distinct
      exact ((erase_sublist.map _).append_right _).append_right _
    · intro f hf hfresh
      rcases h.place f hf hfresh with hheap | hrest
      · rcases hleft f hheap with rfl | hheap
        · rw [hcancelled] at hfresh
          cases hfresh
        · exact .inl hheap
      · exact .inr hrest
  · intro hfresh hexpired
    obtain ⟨hadded, hsince, hdue⟩ := h.heap e he
    simp only [least, hs] at hsince hdue
    have hnow : e.due = current := le_antisymm (max_le hexpired hsince) (hdue hfresh)
    refine ⟨hfits, h.added, ?_, ?_, ?_, h.calls, ?_⟩
    · refine (List.Perm.nodup_iff ?_).mp hdistinct
      show List.Perm _ (_ ++ (callbacks ++ [e]).map TimerCallback.id ++ _)
      refine .append_right _ ?_
      rw [map_append, map_singleton, ← append_assoc]
      refine (List.Perm.append_right _ (hperm.map TimerCallback.id)).trans ?_
      exact (perm_append_singleton ..).symm
    · intro f hf
      have := h.heap f (mem_of_mem_erase hf)
      simpa only [least, hs] using this
    · intro f hf
      rcases mem_append.mp hf with hf | hf
      · exact h.batch f (by rwa [hs])
      · obtain rfl := mem_singleton.mp hf
        exact ⟨hadded, by rw [hnow, hfits], hfresh⟩
    · intro f hf hfresh'
      rcases h.place f hf hfresh' with hheap | hbatch | hcalled
      · rcases hleft f hheap with rfl | hheap
        · exact .inr (.inl (mem_append_right _ (mem_singleton_self _)))
        · exact .inl hheap
      · rw [hs] at hbatch
        exact .inr (.inl (mem_append_left _ hbatch))
      · exact .inr (.inr hcalled)

theorem Inv.stop (hlater : ∀ e ∈ s.timeoutList, current < e.expireTicks) :
    Inv { s with handler := .running current callbacks } := by
  have hfits : s.tick = current + 1 := by have := h.fits; rwa [hs] at this
  refine h.goto (.running current callbacks) hfits (by rw [hs]; rfl) (.inl rfl) (.inr ⟨?_, ?_⟩)
  · simp only [least, hs]
    omega
  · intro e he _
    have hexpire : e.expireTicks ≤ e.due := le_max_left ..
    have := hlater e he
    simp only [least]
    omega

theorem Inv.collect : Inv (s.collect heap current callbacks) := by
  unfold Timers.collect
  split
  · rename_i e hpeek
    have he := heap.peek_mem _ _ hpeek
    split
    · rename_i hcancelled
      exact (h.pop hs he).1 hcancelled
    · rename_i hfresh
      split
      · rename_i hexpired
        exact (h.pop hs he).2 (by simpa using hfresh) hexpired
      · rename_i hlater
        refine h.stop hs fun f hf => ?_
        have := heap.peek_le _ _ hpeek f hf
        omega
  · rename_i hpeek
    refine h.stop hs fun f hf => ?_
    rw [heap.peek_none _ hpeek] at hf
    cases hf

end

theorem Inv.call (h : Inv s) {e : TimerCallback} (hs : s.handler = .running current (e :: callbacks)) :
    Inv { s with handler := .running current callbacks, calls := ⟨e.id, current, s.isCancelled e.id⟩ :: s.calls } := by
  have hfits : s.tick = current + 1 := by have := h.fits; rwa [hs] at this
  obtain ⟨hadded, hdue, hfresh⟩ := h.batch e (by rw [hs]; exact .head _)
  have hdistinct := h.distinct
  simp only [hs, Handler.batch] at hdistinct
  refine ⟨hfits, h.added, ?_, ?_, ?_, ?_, ?_⟩
  · refine (List.Perm.nodup_iff ?_).mp hdistinct
    show List.Perm (_ ++ e.id :: callbacks.map TimerCallback.id ++ _) (_ ++ callbacks.map TimerCallback.id ++ e.id :: _)
    rw [append_assoc, append_assoc]
    exact (perm_middle.symm).append_left _
  · intro f hf
    have := h.heap f hf
    simpa only [least, hs] using this
  · intro f hf
    exact h.batch f (by rw [hs]; exact .tail _ hf)
  · intro x hx
    rcases mem_cons.mp hx with rfl | hx
    · exact ⟨hfresh, e, hadded, rfl, by show current = _; omega⟩
    · exact h.calls x hx
  · intro f hf hfresh'
    rcases h.place f hf hfresh' with hheap | hbatch | hcalled
    · exact .inl hheap
    · rw [hs] at hbatch
      rcases mem_cons.mp hbatch with rfl | hbatch
      · exact .inr (.inr (.head _))
      · exact .inr (.inl hbatch)
    · exact .inr (.inr (.tail _ hcalled))

theorem Inv.step {a : TimerAct} (h : Inv s) (hcond : InTime s a) (hstep : step p heap a s = some t) : Inv t := by
  cases a with
  | load thread timeout =>
    obtain ⟨expire, -, rfl⟩ := Option.map_eq_some_iff.mp hstep
    exact ⟨h.fits, h.added, h.distinct, h.heap, h.batch, h.calls, h.place⟩
  | push thread =>
    simp only [Timers.step] at hstep
    split at hstep
    · cases hstep
    · cases hstep
    · rename_i hlocked
      cases hstep
      exact h.push fun _ _ => hlocked _ _
  | cancel id =>
    cases hstep
    exact h.cancel hcond
  | fetchAdd =>
    simp only [Timers.step] at hstep
    split at hstep
    · rename_i hs
      cases hstep
      exact h.goto (.ticked s.tick) rfl (by rw [hs]; rfl) (.inr rfl) (.inl (by simp only [least, hs]))
    · cases hstep
  | lock =>
    simp only [Timers.step] at hstep
    split at hstep
    · rename_i current hs
      cases hstep
      have hfits := h.fits
      rw [hs] at hfits
      exact h.goto (.collecting current []) hfits (by rw [hs]; rfl) (.inl rfl) (.inl (by simp only [least, hs]))
    · cases hstep
  | collect =>
    simp only [Timers.step] at hstep
    split at hstep
    · rename_i current callbacks hs
      cases hstep
      exact h.collect hs
    · cases hstep
  | call =>
    simp only [Timers.step] at hstep
    split at hstep
    · rename_i current e callbacks hs
      cases hstep
      exact h.call hs
    · rename_i current hs
      cases hstep
      exact h.goto .idle trivial (by rw [hs]; rfl) (.inl rfl) (.inl (by simp only [least, hs]))
    · cases hstep

/-! ## Whole runs -/

/-- A heap that is a list. -/
def listHeap : BinaryHeap where
  peek := fun l => l.argmin TimerCallback.expireTicks
  peek_none := fun _ => List.argmin_eq_none.mp
  peek_mem := fun _ _ => List.argmin_mem
  peek_le := fun _ _ h _ hf => List.le_of_mem_argmin hf h

end Timers
end AsterKernel.Time
