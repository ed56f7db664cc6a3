import AsterKernel.Futex.Queue

/-!
# `Futex.Join` — waiting for a thread to exit

A thread that exits wakes the futex at `clear_child_tid` and then clears the word there. A joiner reads the word and
waits on the futex while it is not zero. `futex_wait` loads the word under the lock of the bucket before it queues the
joiner, but the exiting thread stores the zero after its wake: a joiner that loads the word in between goes to sleep
and nobody wakes it.

The thread that exits is neither the main thread nor the last one, and it has no robust list. What happens under the
lock of the bucket is one step, but for the joiner's, which loads the word there.
-/

namespace AsterKernel.Futex

open Lib List

variable {size : BucketCount}

namespace Join

/-- Where the exiting thread is in `PosixThread::exit`: before the wake of the word's futex, before the store to it,
before the wake of the process's futex, at the end. -/
inductive ExitPc where
  | wake
  | store
  | wakeProcess
  | done
deriving DecidableEq, Repr

/-- Where the joiner is: before it reads the word, in `futex_wait` with the value it has read, at the end. It has the
lock of the bucket in `load`, `enqueue` and `unlock`. -/
inductive JoinPc where
  | read
  | loadPrefixed (val : Int)
  | lock (val : Int)
  | load (val : Int)
  | enqueue (val : Int)
  | unlock (waiter : Nat)
  | asleep (waiter : Nat)
  | joined
deriving DecidableEq, Repr

/-- The identifier of the thread, the address of the word and that of the process structure. -/
structure Config where
  tid : Int
  ctid : Nat
  process : Nat
  tid_ne : tid ≠ 0
  process_ne : process ≠ ctid

structure Sys (size : BucketCount) where
  word : Int
  futexes : Futexes size
  exiter : ExitPc
  joiner : JoinPc

/-- Who takes a step. -/
inductive Actor where
  | exiter
  | joiner
deriving DecidableEq, Repr

namespace Sys

/-- The word has the identifier of the thread, and nobody waits. -/
def new (cfg : Config) (size : BucketCount) : Sys size := ⟨cfg.tid, .new size, .wake, .read⟩

/-- The joiner has the lock of the word's bucket. -/
def locked (s : Sys size) : Bool :=
  match s.joiner with
  | .load _ | .enqueue _ | .unlock _ => true
  | _ => false

/-- A step of `PosixThread::exit`. -/
def stepExit (cfg : Config) (s : Sys size) : Option (Sys size) :=
  match s.exiter with
  | .wake => if s.locked then none else some { s with futexes := (s.futexes.futexWake cfg.ctid 1).2, exiter := .store }
  | .store => some { s with word := 0, exiter := .wakeProcess }
  | .wakeProcess =>
    if s.locked && getBucket size ⟨cfg.process⟩ = getBucket size ⟨cfg.ctid⟩ then none
    else some { s with futexes := (s.futexes.futexWake cfg.process 1).2, exiter := .done }
  | .done => none

def stepJoin (cfg : Config) (s : Sys size) : Option (Sys size) :=
  match s.joiner with
  | .read => some { s with joiner := if s.word = 0 then .joined else .loadPrefixed s.word }
  | .loadPrefixed val => some { s with joiner := if s.word ≠ val then .read else .lock val }
  | .lock val => some { s with joiner := .load val }
  | .load val => some { s with joiner := if s.word ≠ val then .read else .enqueue val }
  | .enqueue val => (s.futexes.futexWaitBitset cfg.ctid val FUTEX_BITSET_MATCH_ANY val val).map fun futexes =>
    { s with futexes := futexes, joiner := .unlock s.futexes.nextWaiter }
  | .unlock waiter => some { s with joiner := .asleep waiter }
  | .asleep waiter => if s.futexes.wakes waiter = 0 then none else some { s with joiner := .read }
  | .joined => none

def step (cfg : Config) : Actor → Sys size → Option (Sys size)
  | .exiter => stepExit cfg
  | .joiner => stepJoin cfg

/-- The joiner sleeps in the queue of the word. -/
def Asleep (cfg : Config) (s : Sys size) : Prop :=
  ∃ w, (s.joiner = .unlock w ∨ s.joiner = .asleep w) ∧ ∃ i ∈ s.futexes.queue ⟨cfg.ctid⟩, i.waiter = w

def loading (s : Sys size) : Bool :=
  match s.joiner with
  | .load _ => true
  | _ => false

/-- The joiner does not load the word under the lock between the wake and the store. -/
def LoadsInTime (s : Sys size) (a : Actor) : Prop := a = .joiner → s.loading = true → s.exiter ≠ .store

instance (s : Sys size) (a : Actor) : Decidable (s.LoadsInTime a) :=
  inferInstanceAs (Decidable (a = .joiner → s.loading = true → s.exiter ≠ .store))

end Sys

/-- The states that steps which meet a condition lead to. -/
inductive Run (cfg : Config) (cond : Sys size → Actor → Prop) : Sys size → Prop
  | new : Run cfg cond (.new cfg size)
  | step {s t : Sys size} (h : Run cfg cond s) (a : Actor) (hcond : cond s a) (hstep : s.step cfg a = some t) :
      Run cfg cond t

/-- The joiner's value is not zero. -/
def JoinPc.NonZero : JoinPc → Prop
  | .loadPrefixed val | .lock val | .load val | .enqueue val => val ≠ 0
  | _ => True

/-- The joiner's item has a number. -/
def JoinPc.waiter? : JoinPc → Option Nat
  | .unlock waiter | .asleep waiter => some waiter
  | _ => none

/-- While the joiner is queued or about to be, the exiting thread has its wake still before it. -/
structure Orderly (cfg : Config) (s : Sys size) : Prop where
  accounted : Accounted s.futexes
  word : s.word = if s.exiter = .wake ∨ s.exiter = .store then cfg.tid else 0
  nonZero : s.joiner.NonZero
  early : ((∃ val, s.joiner = .enqueue val) ∨ ∃ w, s.joiner = .unlock w) → s.exiter = .wake
  born : ∀ w, s.joiner.waiter? = some w → w < s.futexes.nextWaiter
  queued : ∀ b, ∀ i ∈ s.futexes.buckets b, i.key = ⟨cfg.ctid⟩ ∧ i.bitset = FUTEX_BITSET_MATCH_ANY ∧
    s.joiner.waiter? = some i.waiter ∧ s.exiter = .wake

variable {cfg : Config}

namespace Orderly

variable {s t : Sys size}

theorem new (cfg : Config) (size : BucketCount) : Orderly cfg (Sys.new cfg size) where
  accounted := .new size
  word := (if_pos (.inl rfl)).symm
  nonZero := trivial
  early h := by
    rcases h with ⟨_, h⟩ | ⟨_, h⟩ <;> cases h
  born _ h := by cases h
  queued _ _ h := by cases h

section

variable (h : Orderly cfg s)
include h

/-- The exiting thread's wake takes the joiner out of the queue. -/
theorem wake_empties (b : Fin size.val) : (s.futexes.futexWake cfg.ctid 1).2.buckets b = [] := by
  have hwoke := h.accounted.futexWakeBitset_woke cfg.ctid 1 FUTEX_BITSET_MATCH_ANY
  refine eq_nil_iff_forall_not_mem.mpr fun i hi => ?_
  have hi' : i ∈ (s.futexes.futexWakeBitset cfg.ctid 1 FUTEX_BITSET_MATCH_ANY).2.buckets b := hi
  rw [hwoke.queues, mem_filter, decide_eq_true_eq] at hi'
  obtain ⟨hin, hout⟩ := hi'
  obtain ⟨hkey, hbits, hwaiter, -⟩ := h.queued b i hin
  have hqueue : i ∈ s.futexes.queue ⟨cfg.ctid⟩ := by
    unfold Futexes.queue
    rw [← hkey, h.accounted.home b i hin]
    exact hin
  have hhits : i ∈ (s.futexes.queue ⟨cfg.ctid⟩).filter (FutexItem.hits ⟨cfg.ctid⟩ FUTEX_BITSET_MATCH_ANY) :=
    mem_filter.mpr ⟨hqueue, FutexItem.hits_iff.mpr ⟨hkey.symm, by rw [hbits]; decide⟩⟩
  -- the first item that the wake takes has the same waiter
  obtain ⟨j, rest, hfirst⟩ := exists_cons_of_ne_nil (ne_nil_of_mem hhits)
  have hj : j ∈ s.futexes.queue ⟨cfg.ctid⟩ :=
    (mem_filter.mp (hfirst ▸ mem_cons_self : j ∈ (s.futexes.queue _).filter _)).1
  obtain ⟨-, -, hwaiter', -⟩ := h.queued _ j hj
  have heq := (h.accounted.unique hin hj (Option.some.inj (hwaiter.symm.trans hwaiter'))).2
  refine hout ?_
  unfold takeFirst
  rw [hfirst, heq]
  exact mem_cons_self

theorem late (hpc : s.exiter ≠ .wake) :
    (¬ ((∃ val, s.joiner = .enqueue val) ∨ ∃ w, s.joiner = .unlock w)) ∧ ∀ b, s.futexes.buckets b = [] :=
  ⟨fun hearly => hpc (h.early hearly), fun b =>
    eq_nil_iff_forall_not_mem.mpr fun i hi => hpc (h.queued b i hi).2.2.2⟩

theorem exit (hstep : s.stepExit cfg = some t) : Orderly cfg t := by
  unfold Sys.stepExit at hstep
  generalize hpc : s.exiter = pc at hstep ⊢
  cases pc with
  | wake =>
    dsimp only at hstep
    split at hstep
    case isTrue => cases hstep
    case isFalse hfree =>
      cases hstep
      refine ⟨h.accounted.futexWake cfg.ctid 1, ?_, h.nonZero, ?_, h.born, fun b i hi => ?_⟩
      · show s.word = _
        rw [h.word, if_pos (.inl hpc)]
        rfl
      · intro hlocked
        refine absurd ?_ hfree
        unfold Sys.locked
        rcases hlocked with ⟨_, hlocked⟩ | ⟨_, hlocked⟩
        · rw [show s.joiner = _ from hlocked]
        · rw [show s.joiner = _ from hlocked]
      · rw [show (s.futexes.futexWake cfg.ctid 1).2.buckets b = [] from h.wake_empties b] at hi
        cases hi
  | store =>
    cases hstep
    obtain ⟨hlate, hempty⟩ := h.late (by rw [hpc]; decide)
    refine ⟨h.accounted, rfl, h.nonZero, fun hearly => absurd hearly hlate, h.born, fun b i hi => ?_⟩
    rw [show s.futexes.buckets b = [] from hempty b] at hi
    cases hi
  | wakeProcess =>
    dsimp only at hstep
    split at hstep
    case isTrue => cases hstep
    case isFalse =>
      cases hstep
      obtain ⟨hlate, hempty⟩ := h.late (by rw [hpc]; decide)
      refine ⟨h.accounted.futexWake cfg.process 1, ?_, h.nonZero, fun hearly => absurd hearly hlate, h.born,
        fun b i hi => ?_⟩
      · show s.word = _
        rw [h.word, hpc]
        rfl
      · have hi' : i ∈ (s.futexes.futexWakeBitset cfg.process 1 FUTEX_BITSET_MATCH_ANY).2.buckets b := hi
        rw [(h.accounted.futexWakeBitset_woke cfg.process 1 FUTEX_BITSET_MATCH_ANY).queues, hempty] at hi'
        cases hi'
  | done =>
    cases hstep

theorem goOn {pc : JoinPc} (hfree : ∀ b, s.futexes.buckets b = []) (hnonZero : pc.NonZero)
    (hpc : pc.waiter? = none) (hearly : (∃ val, pc = .enqueue val) → s.exiter = .wake) :
    Orderly cfg { s with joiner := pc } := by
  refine ⟨h.accounted, h.word, hnonZero, ?_, fun w hw => ?_, fun b i hi => ?_⟩
  · rintro (hpc' | ⟨w, hpc'⟩)
    · exact hearly hpc'
    · rw [show pc = _ from hpc'] at hpc
      cases hpc
  · rw [show pc.waiter? = some w from hw] at hpc
    cases hpc
  · rw [show s.futexes.buckets b = [] from hfree b] at hi
    cases hi

theorem unqueued (hpc : s.joiner.waiter? = none) (b : Fin size.val) : s.futexes.buckets b = [] := by
  refine eq_nil_iff_forall_not_mem.mpr fun i hi => ?_
  have hwaiter := (h.queued b i hi).2.2.1
  rw [hpc] at hwaiter
  cases hwaiter

theorem join (hcond : s.LoadsInTime .joiner) (hstep : s.stepJoin cfg = some t) : Orderly cfg t := by
  have hnonZero := h.nonZero
  unfold Sys.stepJoin at hstep
  cases hpc : s.joiner with
  | read =>
    rw [hpc] at hstep
    cases hstep
    refine h.goOn (h.unqueued (by rw [hpc]; rfl)) ?_ ?_ ?_
    · split
      case isTrue => trivial
      case isFalse hword => exact hword
    · split <;> rfl
    · rintro ⟨val, heq⟩
      split at heq <;> cases heq
  | loadPrefixed val =>
    rw [hpc] at hstep hnonZero
    cases hstep
    refine h.goOn (h.unqueued (by rw [hpc]; rfl)) ?_ ?_ ?_
    · split
      case isTrue => trivial
      case isFalse => exact hnonZero
    · split <;> rfl
    · rintro ⟨val, heq⟩
      split at heq <;> cases heq
  | lock val =>
    rw [hpc] at hstep hnonZero
    cases hstep
    exact h.goOn (h.unqueued (by rw [hpc]; rfl)) hnonZero rfl fun ⟨_, heq⟩ => by cases heq
  | load val =>
    rw [hpc] at hstep hnonZero
    cases hstep
    refine h.goOn (h.unqueued (by rw [hpc]; rfl)) ?_ ?_ ?_
    · split
      case isTrue => trivial
      case isFalse => exact hnonZero
    · split <;> rfl
    · rintro ⟨val', heq⟩
      split at heq
      case isTrue => cases heq
      case isFalse hword =>
        -- the word is not zero, and the store is not what comes next
        have hstore := hcond rfl (by rw [Sys.loading, hpc])
        have hsame := h.word
        by_contra hwake
        rw [if_neg fun hor => hor.elim hwake hstore] at hsame
        exact hnonZero ((not_not.mp hword).symm.trans hsame)
  | enqueue val =>
    rw [hpc] at hstep
    obtain ⟨futexes, hwait, rfl⟩ := Option.map_eq_some_iff.mp hstep
    have hempty := h.unqueued (by rw [hpc]; rfl)
    have hearly := h.early (.inl ⟨val, hpc⟩)
    have hafter := h.accounted.futexWaitBitset hwait
    obtain rfl := Futexes.futexWaitBitset_some hwait
    refine ⟨hafter, h.word, trivial, fun _ => hearly, fun w hw => ?_, fun b i hi => ?_⟩
    · obtain rfl : s.futexes.nextWaiter = w := Option.some.inj hw
      exact Nat.lt_succ_self _
    · rcases Futexes.mem_setBucket hi with ⟨-, hmem⟩ | hmem
      · rw [show s.futexes.queue ⟨cfg.ctid⟩ = [] from hempty _, nil_append, mem_singleton] at hmem
        subst hmem
        exact ⟨rfl, rfl, rfl, hearly⟩
      · rw [hempty] at hmem
        cases hmem
  | unlock w =>
    rw [hpc] at hstep
    cases hstep
    refine ⟨h.accounted, h.word, trivial, ?_, fun w' hw' => h.born w' (by rw [hpc]; exact hw'), fun b i hi => ?_⟩
    · rintro (⟨_, heq⟩ | ⟨_, heq⟩) <;> cases heq
    · have hqueued := h.queued b i hi
      rw [hpc] at hqueued
      exact hqueued
  | asleep w =>
    rw [hpc] at hstep
    dsimp only at hstep
    split at hstep
    case isTrue => cases hstep
    case isFalse hwoken =>
      cases hstep
      refine h.goOn (fun b => eq_nil_iff_forall_not_mem.mpr fun i hi => ?_) trivial rfl fun ⟨_, heq⟩ => by cases heq
      have hwaiter := (h.queued b i hi).2.2.1
      rw [hpc] at hwaiter
      obtain rfl : w = i.waiter := Option.some.inj hwaiter
      exact hwoken ((h.accounted.queued _).mp (Futexes.mem_waiters.mpr ⟨b, i, hi, rfl⟩)).2
  | joined =>
    rw [hpc] at hstep
    cases hstep

end

end Orderly

variable {s : Sys size}

theorem Run.orderly (h : Run cfg Sys.LoadsInTime s) : Orderly cfg s := by
  induction h with
  | new => exact .new cfg size
  | step _ a hcond hstep ih =>
    cases a with
    | exiter => exact ih.exit hstep
    | joiner => exact ih.join hcond hstep

/-- **A joiner is not left asleep** in every run in which it does not load the word under the lock between the wake
and the store. It can go on until it has found the word cleared. -/
theorem joiner_returns {cfg : Config} {s : Sys size} (h : Run cfg Sys.LoadsInTime s) (hdone : s.exiter = .done) :
    ¬ s.Asleep cfg ∧ s.word = 0 ∧ (s.joiner = .joined ∨ ∃ t, s.stepJoin cfg = some t) := by
  have hs := h.orderly
  obtain ⟨hlate, hempty⟩ := hs.late (by rw [hdone]; decide)
  refine ⟨?_, ?_, ?_⟩
  · rintro ⟨w, -, i, hi, -⟩
    rw [show s.futexes.queue _ = [] from hempty _] at hi
    cases hi
  · rw [hs.word, hdone]
    rfl
  · unfold Sys.stepJoin
    cases hpc : s.joiner with
    | joined => exact .inl rfl
    | enqueue val => exact absurd (.inl ⟨val, hpc⟩) hlate
    | asleep w =>
      -- its item is not queued, so it has been woken
      have hborn := hs.born w (by rw [hpc]; rfl)
      have hwoken : s.futexes.wakes w ≠ 0 := by
        intro hzero
        obtain ⟨b, i, hi, -⟩ := Futexes.mem_waiters.mp ((hs.accounted.queued w).mpr ⟨hborn, hzero⟩)
        rw [hempty] at hi
        cases hi
      exact .inr ⟨_, if_neg hwoken⟩
    | read | loadPrefixed | lock | load | unlock => exact .inr ⟨_, rfl⟩

/-- The state after steps of the given actors. -/
def Sys.after (cfg : Config) (s : Sys size) (actors : List Actor) : Sys size :=
  actors.foldl (fun s a => (s.step cfg a).getD s) s

/-- Each actor can take its step, and meets the condition. -/
def Sys.Goes (cfg : Config) (cond : Sys size → Actor → Prop) : Sys size → List Actor → Prop
  | _, [] => True
  | s, a :: actors => cond s a ∧ (s.step cfg a).isSome ∧ Sys.Goes cfg cond ((s.step cfg a).getD s) actors

instance instDecidableGoes (cfg : Config) (cond : Sys size → Actor → Prop) [∀ s a, Decidable (cond s a)] :
    ∀ (s : Sys size) (actors : List Actor), Decidable (s.Goes cfg cond actors)
  | _, [] => inferInstanceAs (Decidable True)
  | s, a :: actors =>
    have := instDecidableGoes cfg cond ((s.step cfg a).getD s) actors
    inferInstanceAs (Decidable (cond s a ∧ (s.step cfg a).isSome ∧ Sys.Goes cfg cond ((s.step cfg a).getD s) actors))

theorem Run.after {cond : Sys size → Actor → Prop} (h : Run cfg cond s) (actors : List Actor)
    (hgoes : s.Goes cfg cond actors) : Run cfg cond (s.after cfg actors) := by
  induction actors generalizing s with
  | nil => exact h
  | cons a actors ih =>
    obtain ⟨hcond, hsome, hrest⟩ := hgoes
    refine ih (h.step a hcond ?_) hrest
    obtain ⟨t, ht⟩ := Option.isSome_iff_exists.mp hsome
    show s.step cfg a = some ((s.step cfg a).getD s)
    rw [ht, Option.getD_some]

/-- Thread `5` with its word at `0x1000`. -/
def threadFive : Config := ⟨5, 4096, 8192, by decide, by decide⟩

/-- The joiner falls asleep before the other thread exits. -/
def sleepsFirst : List Actor := List.replicate 6 .joiner ++ List.replicate 3 .exiter

theorem joiner_returns_sleepsFirst :
    ((Sys.new threadFive sizeTwo).after threadFive (List.replicate 6 .joiner)).joiner = .asleep 0 ∧
      ((Sys.new threadFive sizeTwo).after threadFive sleepsFirst).word = 0 ∧
      ¬ ((Sys.new threadFive sizeTwo).after threadFive sleepsFirst).Asleep threadFive := by
  have hrun : Run threadFive Sys.LoadsInTime ((Sys.new threadFive sizeTwo).after threadFive sleepsFirst) :=
    Run.new.after sleepsFirst (by decide)
  obtain ⟨hawake, hword, -⟩ := joiner_returns hrun (by decide)
  exact ⟨by decide, hword, hawake⟩

/-- The other thread's wake comes before the joiner is queued, and its store after that. -/
def wakesFirst : List Actor := .exiter :: List.replicate 6 .joiner ++ List.replicate 2 .exiter

/-- **The joiner sleeps, and the thread has exited.** -/
theorem exit_leaves_joiner :
    Run threadFive (fun _ _ => True) ((Sys.new threadFive sizeTwo).after threadFive wakesFirst) ∧
      ((Sys.new threadFive sizeTwo).after threadFive wakesFirst).exiter = .done ∧
      ((Sys.new threadFive sizeTwo).after threadFive wakesFirst).word = 0 ∧
      ((Sys.new threadFive sizeTwo).after threadFive wakesFirst).Asleep threadFive ∧
      ((Sys.new threadFive sizeTwo).after threadFive wakesFirst).stepJoin threadFive = none := by
  refine ⟨Run.new.after wakesFirst (by decide), by decide, by decide, ?_, rfl⟩
  exact ⟨0, .inr (by decide), ⟨⟨4096⟩, FUTEX_BITSET_MATCH_ANY, 0⟩, by decide, rfl⟩

end Join
end AsterKernel.Futex
