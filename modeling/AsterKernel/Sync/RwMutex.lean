import AsterKernel.Sync.RwLock

/-!
# `Sync.RwMutex` — the lock that sleeps

`RwMutex` has the lock word of `RwLock` and a wait queue. `read`, `write` and `upread` are
`WaitQueue::wait_until` around an attempt: a first attempt, then the thread puts itself into the queue, and from
there on attempts and sleeps by turns, until an attempt succeeds. Whoever drops a guard decides, from the word
as it was before the drop, whether to wake up the queue.
-/

namespace AsterKernel.Sync

open Lib List

/-- `wake_one` or `wake_all`. No waiter of the mutex is exclusive. -/
inductive Wake where
  | one
  | all
deriving DecidableEq, Repr

/-- Where a thread is in `do_wait`. The guard it waits for is that of `read`, `write` or `upread`; a thread is
`queued` in the second loop. -/
inductive Wait where
  | out
  /-- Before an attempt. -/
  | attempt (m : Guard) (queued : Bool)
  /-- The attempt has failed and takes its bits back. -/
  | undo (m : Guard) (queued : Bool)
  | failed (m : Guard) (queued : Bool)
  /-- In `Waiter::wait`. -/
  | asleep (m : Guard)
  /-- A queued attempt has succeeded. -/
  | got
deriving DecidableEq, Repr

/-- The thread has an entry in the queue. -/
def Wait.queued : Wait → Bool
  | .out => false
  | .attempt _ q => q
  | .undo _ q => q
  | .failed _ q => q
  | .asleep _ => true
  | .got => true

/-- A thread, its waiter's flag, and the wake-up that the drop of a guard still has to issue. -/
structure MThread where
  core : Thread
  /-- There is a current task: without one, `do_wait` yields instead of going to sleep. -/
  isTask : Bool
  wait : Wait
  isWokenUp : Bool
  wake : Option Wake
deriving DecidableEq, Repr

structure RwMutex where
  lock : Nat
  /-- The waiters, by thread. -/
  queue : List Nat
  threads : List MThread
deriving DecidableEq, Repr

/-- The attempt that is the condition of the wait. -/
def Guard.attempt : Guard → Action
  | .read => .tryRead
  | .write => .tryWrite
  | .upgradeable => .tryUpread

/-- The wake-up that the drop of a guard issues, from the word before the drop. -/
def dropWake (lock : Nat) : Guard → Option Wake
  | .read => if lock == READER then some .one else none
  | .write => some .all
  | .upgradeable => if lock == 0 then some .all else none

/-- The guard that an action drops: `try_upgrade` drops the upgradeable guard when it has succeeded. -/
def Thread.drops (t : Thread) : Action → Option Guard
  | .drop j => t.guards[j]?
  | .resume => if t.pc = .upgraded then some .upgradeable else none
  | _ => none

/-- How the wait goes on after the first access of an attempt. -/
def Wait.after (m : Guard) (queued : Bool) (t t' : Thread) : Wait :=
  if t.guards.length < t'.guards.length then (if queued then .got else .out)
  else if t'.pc = .idle then .failed m queued
  else .undo m queued

inductive MAction where
  /-- `read`, `write`, `upread`. -/
  | acquire (m : Guard)
  /-- An access outside of a wait: `try_read`, `try_write`, `try_upread`, a drop, an upgrade. -/
  | word (a : Action)
  | attempt
  | undo
  /-- What follows a failed attempt, a wake-up, or a successful attempt in the queue. -/
  | next
  /-- `wake_one` or `wake_all` at the end of a drop. -/
  | wakeUp
deriving DecidableEq, Repr

namespace RwMutex

def setThread (s : RwMutex) (i : Nat) (t : MThread) : RwMutex := { s with threads := s.threads.set i t }

/-- Whom a wake-up reaches. -/
def targets (s : RwMutex) : Wake → List Nat
  | .one => s.queue.take 1
  | .all => s.queue

/-- `Waiter::wake_up` of each target. -/
def wakeUp (s : RwMutex) (w : Wake) : RwMutex :=
  { s with threads := s.threads.mapIdx fun j t => if j ∈ s.targets w then { t with isWokenUp := true } else t }

/-- The steps of `do_wait` besides the attempts. -/
def next (s : RwMutex) (i : Nat) (t : MThread) : Option RwMutex :=
  match t.wait with
  | .failed m false =>
    if t.isTask then
      some { s with
        queue := i :: s.queue
        threads := s.threads.set i { t with wait := .attempt m true, isWokenUp := false } }
    else some (s.setThread i { t with wait := .attempt m false })
  | .failed m true => some (s.setThread i { t with wait := .asleep m })
  | .asleep m =>
    if t.isWokenUp then some (s.setThread i { t with wait := .attempt m true, isWokenUp := false }) else none
  | .got => some { s with queue := s.queue.filter (· ≠ i), threads := s.threads.set i { t with wait := .out } }
  | _ => none

/-- One step of thread `i`. -/
def actOf (s : RwMutex) (i : Nat) (t : MThread) (a : MAction) : Option RwMutex :=
  match a with
  | .acquire m =>
    if t.wait = .out ∧ t.wake = none ∧ t.core.pc = .idle then
      some (s.setThread i { t with wait := .attempt m false })
    else none
  | .word a =>
    if t.wait = .out ∧ t.wake = none then
      (t.core.act a s.lock).map fun r =>
        { s with
          lock := r.1
          threads := s.threads.set i { t with core := r.2, wake := (t.core.drops a).bind (dropWake s.lock) } }
    else none
  | .attempt =>
    match t.wait with
    | .attempt m q =>
      (t.core.act m.attempt s.lock).map fun r =>
        { s with lock := r.1, threads := s.threads.set i { t with core := r.2, wait := .after m q t.core r.2 } }
    | _ => none
  | .undo =>
    match t.wait with
    | .undo m q =>
      (t.core.act .resume s.lock).map fun r =>
        { s with lock := r.1, threads := s.threads.set i { t with core := r.2, wait := .failed m q } }
    | _ => none
  | .next => s.next i t
  | .wakeUp => t.wake.map fun w => (s.setThread i { t with wake := none }).wakeUp w

def act (s : RwMutex) (i : Nat) (a : MAction) : Option RwMutex := (s.threads[i]?).bind fun t => s.actOf i t a

def Step (s t : RwMutex) : Prop := ∃ i a, s.act i a = some t

def Initial (s : RwMutex) : Prop :=
  s.lock = 0 ∧ s.queue = [] ∧ ∀ t ∈ s.threads, t.core = ⟨[], .idle⟩ ∧ t.wait = .out ∧ t.wake = none

/-- A run, given by the thread and the action of each step. -/
def run (s : RwMutex) : List (Nat × MAction) → Option RwMutex
  | [] => some s
  | (i, a) :: rest => (s.act i a).bind fun s' => s'.run rest

theorem reach_run {s s' : RwMutex} {steps : List (Nat × MAction)} (hs : Reach Initial Step s)
    (h : s.run steps = some s') : Reach Initial Step s' := by
  induction steps generalizing s with
  | nil =>
    cases h
    exact hs
  | cons step rest ih =>
    obtain ⟨s₁, h₁, h⟩ := Option.bind_eq_some_iff.mp h
    exact ih (.step hs ⟨_, _, h₁⟩) h

/-- A new mutex and two tasks. -/
def two : RwMutex := ⟨0, [], [⟨⟨[], .idle⟩, true, .out, false, none⟩, ⟨⟨[], .idle⟩, true, .out, false, none⟩]⟩

theorem two_initial : two.Initial := by
  refine ⟨rfl, rfl, fun t ht => ?_⟩
  simp only [two, mem_cons, not_mem_nil, or_false, or_self] at ht
  rw [ht]
  exact ⟨rfl, rfl, rfl⟩

/-- A task holds the upgradeable guard, and another sleeps in `write`. -/
def writerSleeps : List (Nat × MAction) :=
  [(0, .word .tryUpread), (1, .acquire .write), (1, .attempt), (1, .next), (1, .attempt), (1, .next)]

def writerAsleep : RwMutex :=
  ⟨UPGRADEABLE_READER, [1],
    [⟨⟨[.upgradeable], .idle⟩, true, .out, false, none⟩, ⟨⟨[], .idle⟩, true, .asleep .write, false, none⟩]⟩

/-- The upgradeable guard is dropped: the mutex is free, and the writer sleeps on. -/
def writerStranded : RwMutex :=
  ⟨0, [1], [⟨⟨[], .idle⟩, true, .out, false, none⟩, ⟨⟨[], .idle⟩, true, .asleep .write, false, none⟩]⟩

theorem run_writerSleeps : two.run writerSleeps = some writerAsleep := by decide

theorem drop_writerAsleep : writerAsleep.act 0 (.word (.drop 0)) = some writerStranded := by decide

/-! ## What a step does -/

/-- The steps of thread `i`, which is `t` before: an access to the word, a step of the thread alone, one with the
queue, or a wake-up. -/
inductive Acts (s : RwMutex) (i : Nat) (t : MThread) : RwMutex → Prop where
  | word (a : Action) (r : Nat × Thread) (w : Wait) (k : Option Wake) (acted : t.core.act a s.lock = some r)
      (stays : w.queued = t.wait.queued) :
      Acts s i t { s with lock := r.1, threads := s.threads.set i { t with core := r.2, wait := w, wake := k } }
  | alone (t' : MThread) (core : t'.core = t.core) (stays : t'.wait.queued = t.wait.queued) :
      Acts s i t (s.setThread i t')
  | enqueue (t' : MThread) (core : t'.core = t.core) (enters : t'.wait.queued = true) :
      Acts s i t { s with queue := i :: s.queue, threads := s.threads.set i t' }
  | dequeue (t' : MThread) (core : t'.core = t.core) (leaves : t'.wait.queued = false) :
      Acts s i t { s with queue := s.queue.filter (· ≠ i), threads := s.threads.set i t' }
  | wakes (w : Wake) (t' : MThread) (core : t'.core = t.core) (stays : t'.wait.queued = t.wait.queued) :
      Acts s i t ((s.setThread i t').wakeUp w)

variable {s s' : RwMutex} {i : Nat}

section acts

variable {t : MThread} {a : MAction}

theorem next_acts (h : s.next i t = some s') : s.Acts i t s' := by
  unfold next at h
  split at h
  case h_1 hw =>
    split at h
    case isTrue => cases h; exact .enqueue _ rfl rfl
    case isFalse => cases h; exact .alone _ rfl (by rw [hw]; rfl)
  case h_2 hw => cases h; exact .alone _ rfl (by rw [hw]; rfl)
  case h_3 hw =>
    obtain ⟨-, h⟩ := Option.ite_none_right_eq_some.mp h
    cases h
    exact .alone _ rfl (by rw [hw]; rfl)
  case h_4 => cases h; exact .dequeue _ rfl rfl
  case h_5 => cases h

theorem Wait.queued_after (m : Guard) (q : Bool) (t t' : Thread) : (Wait.after m q t t').queued = q := by
  unfold Wait.after
  split
  case isTrue => cases q <;> rfl
  case isFalse => split <;> rfl

theorem actOf_acts (h : s.actOf i t a = some s') : s.Acts i t s' := by
  cases a with
  | acquire m =>
    obtain ⟨⟨hout, -⟩, h⟩ := Option.ite_none_right_eq_some.mp h
    cases h
    exact .alone _ rfl (by rw [hout]; rfl)
  | word a =>
    obtain ⟨-, h⟩ := Option.ite_none_right_eq_some.mp h
    obtain ⟨r, hr, h⟩ := Option.map_eq_some_iff.mp h
    cases h
    exact .word a r t.wait _ hr rfl
  | attempt =>
    dsimp only [actOf] at h
    split at h
    case h_1 m q hw =>
      obtain ⟨r, hr, h⟩ := Option.map_eq_some_iff.mp h
      cases h
      exact .word m.attempt r _ t.wake hr (by rw [Wait.queued_after, hw]; rfl)
    case h_2 => cases h
  | undo =>
    dsimp only [actOf] at h
    split at h
    case h_1 m q hw =>
      obtain ⟨r, hr, h⟩ := Option.map_eq_some_iff.mp h
      cases h
      exact .word .resume r _ t.wake hr (by rw [hw]; rfl)
    case h_2 => cases h
  | next => exact next_acts h
  | wakeUp =>
    obtain ⟨w, -, h⟩ := Option.map_eq_some_iff.mp h
    cases h
    exact .wakes w _ rfl rfl

theorem act_cases (h : s.act i a = some s') : ∃ t, s.threads[i]? = some t ∧ s.Acts i t s' := by
  obtain ⟨t, ht, h⟩ := Option.bind_eq_some_iff.mp h
  exact ⟨t, ht, actOf_acts h⟩

end acts

/-! ## The lock word of the mutex -/

/-- The state of the lock word. -/
def proj (s : RwMutex) : RwState := ⟨s.lock, s.threads.map MThread.core⟩

section proj

variable {t t' : MThread}

theorem getElem?_cores (ht : s.threads[i]? = some t) : (s.threads.map MThread.core)[i]? = some t.core := by
  rw [getElem?_map, ht]
  rfl

/-- A step that leaves the core of the thread alone does nothing to the cores. -/
theorem cores_set (ht : s.threads[i]? = some t) (hcore : t'.core = t.core) :
    (s.threads.set i t').map MThread.core = s.threads.map MThread.core := by
  rw [List.map_set, hcore]
  obtain ⟨hi, hget⟩ := List.getElem?_eq_some_iff.mp (getElem?_cores ht)
  rw [← hget, List.set_getElem_self]

theorem cores_wakeUp (w : Wake) : (s.wakeUp w).threads.map MThread.core = s.threads.map MThread.core := by
  refine ext_getElem? fun j => ?_
  simp only [wakeUp, getElem?_map, getElem?_mapIdx, Option.map_map]
  congr 1
  funext t
  dsimp only [Function.comp_apply]
  split <;> rfl

/-- **On the lock word, a step of the mutex is a step of the lock or nothing.** -/
theorem Step.proj (h : s.Step s') : s'.proj = s.proj ∨ s.proj.Step s'.proj := by
  obtain ⟨i, a, h⟩ := h
  obtain ⟨t, ht, hacts⟩ := act_cases h
  cases hacts with
  | word a r w k acted stays =>
    refine .inr ⟨i, a, t.core, r.2, r.1, getElem?_cores ht, acted, ?_⟩
    simp only [RwMutex.proj, map_set]
  | alone t' core stays =>
    left
    simp only [RwMutex.proj, setThread, cores_set ht core]
  | enqueue t' core enters | dequeue t' core leaves =>
    left
    simp only [RwMutex.proj, cores_set ht core]
  | wakes w t' core stays =>
    left
    simp only [RwMutex.proj, cores_wakeUp, setThread, cores_set ht core]
    rfl

theorem Initial.proj (h : s.Initial) : s.proj.Initial := by
  refine ⟨h.1, fun th hth => ?_⟩
  obtain ⟨t, ht, rfl⟩ := mem_map.mp hth
  exact (h.2.2 t ht).1

theorem reach_proj (h : Reach Initial Step s) : Reach RwState.Initial RwState.Step s.proj := by
  induction h with
  | init h => exact .init h.proj
  | step run h ih =>
    rcases h.proj with heq | hstep
    · rwa [heq]
    · exact .step ih hstep

end proj

/-- **Exclusion in both locks.** With fewer threads than the limit of readers, the word is at all times the sum of
the bits of the live guards and of the attempts in progress, a live write guard is the only guard, and there is one
live upgradeable guard at most. -/
theorem rwlock_rwmutex_exclusion {l : RwState} {m : RwMutex} (hl : Reach RwState.Initial RwState.Step l)
    (hlcount : l.threads.length < MAX_READER) (hm : Reach Initial Step m) (hmcount : m.threads.length < MAX_READER) :
    (l.lock = total Thread.bits l.threads ∧ RwState.Exclusive l.live) ∧
    (m.lock = total Thread.bits (m.threads.map MThread.core) ∧ RwState.Exclusive m.proj.live) := by
  have hlinv := RwState.Inv.of_reach hl hlcount
  have hminv := RwState.Inv.of_reach (reach_proj hm) (by simpa [RwMutex.proj] using hmcount)
  exact ⟨⟨hlinv.lock_eq, hlinv.exclusive⟩, ⟨hminv.lock_eq, hminv.exclusive⟩⟩

/-- A task holds the upgradeable guard while a writer sleeps. -/
theorem rwlock_rwmutex_exclusion_writerAsleep :
    (writerAsleep.proj.lock = total Thread.bits writerAsleep.proj.threads ∧
      RwState.Exclusive writerAsleep.proj.live) ∧
    (writerAsleep.lock = total Thread.bits (writerAsleep.threads.map MThread.core) ∧
      RwState.Exclusive writerAsleep.proj.live) :=
  have hreach := reach_run (.init two_initial) run_writerSleeps
  rwlock_rwmutex_exclusion (reach_proj hreach) (by decide) hreach (by decide)

/-! ## Who sleeps, and who is woken -/

/-- A thread of the queue sleeps, waiting for a guard. -/
def Sleeping (s : RwMutex) (m : Guard) : Prop :=
  ∃ j t, j ∈ s.queue ∧ s.threads[j]? = some t ∧ t.wait = .asleep m ∧ t.isWokenUp = false

/-- The attempt for a guard would succeed. -/
def acquirable (lock : Nat) : Guard → Bool
  | .read => lock &&& (WRITER ||| (MAX_READER ||| BEING_UPGRADED)) == 0
  | .write => lock == 0
  | .upgradeable => lock &&& (WRITER ||| UPGRADEABLE_READER) == 0

/-- Acquisition becomes possible for a sleeping thread. -/
def LetsIn (s s' : RwMutex) : Prop :=
  ∃ m, s.Sleeping m ∧ acquirable s.lock m = false ∧ acquirable s'.lock m = true

/-- Thread `i` goes on to wake up the queue. -/
def IssuesWake (s : RwMutex) (i : Nat) : Prop := ∃ t, s.threads[i]? = some t ∧ t.wake ≠ none

/-- Thread `i` drops a guard with its access to the word. -/
def Drops (s : RwMutex) (i : Nat) (a : Action) (g : Guard) : Prop :=
  ∃ t, s.threads[i]? = some t ∧ t.core.drops a = some g

/-- The drop of a guard cannot strand a sleeping thread. A read guard can when the word runs down to `MAX_READER`
readers; an upgradeable guard whenever another upgradeable reader or, if it is the last guard, a writer sleeps.
(The other words need more readers than the word can count.) -/
def DropSafe (s : RwMutex) : Guard → Prop
  | .read =>
    (s.Sleeping .read → s.lock ≠ MAX_READER ∧ s.lock ≠ UPGRADEABLE_READER + MAX_READER) ∧
    (s.Sleeping .upgradeable → s.lock ≠ UPGRADEABLE_READER)
  | .write => True
  | .upgradeable =>
    (s.Sleeping .upgradeable → s.lock / UPGRADEABLE_READER ≠ 1) ∧
    (s.Sleeping .write → s.lock ≠ UPGRADEABLE_READER) ∧
    (s.Sleeping .read → ¬ (s.lock / UPGRADEABLE_READER = 2 ∧ s.lock % UPGRADEABLE_READER < MAX_READER))

section acquirable

variable {lock : Nat}

theorem acquirable_write : acquirable lock .write = true ↔ lock = 0 := beq_iff_eq

theorem acquirable_read : acquirable lock .read = true ↔
    lock / 2 ^ 63 % 2 = 0 ∧ lock / 2 ^ 60 % 2 = 0 ∧ lock / 2 ^ 61 % 2 = 0 := by
  rw [acquirable, beq_iff_eq, and_or_eq_zero, and_or_eq_zero]
  exact and_congr and_two_pow_eq_zero (and_congr and_two_pow_eq_zero and_two_pow_eq_zero)

theorem acquirable_upgradeable : acquirable lock .upgradeable = true ↔
    lock / 2 ^ 63 % 2 = 0 ∧ lock / 2 ^ 62 % 2 = 0 := by
  rw [acquirable, beq_iff_eq, and_or_eq_zero]
  exact and_congr and_two_pow_eq_zero and_two_pow_eq_zero

/-- The drop of `g` makes an attempt for `m` possible. -/
def Frees (lock : Nat) (g m : Guard) : Prop :=
  acquirable lock m = false ∧ acquirable (Thread.dropWord lock g) m = true

theorem frees_iff (g m : Guard) : Frees lock g m ↔
    ¬ acquirable lock m = true ∧ acquirable (Thread.dropWord lock g) m = true := by
  rw [Frees, Bool.not_eq_true]

section

variable (h : lock < usizeCard)
include h

theorem dropWord_read : Thread.dropWord lock .read = if lock = 0 then usizeCard - 1 else lock - 1 := by
  show (lock + usizeCard - READER) % usizeCard = _
  unfold READER usizeCard at *
  split <;> omega

theorem dropWord_upgradeable : Thread.dropWord lock .upgradeable =
    if lock < UPGRADEABLE_READER then lock + 3 * UPGRADEABLE_READER else lock - UPGRADEABLE_READER := by
  show (lock + usizeCard - UPGRADEABLE_READER) % usizeCard = _
  unfold UPGRADEABLE_READER usizeCard at *
  split <;> omega

theorem frees_read_read : Frees lock .read .read ↔ lock = MAX_READER ∨ lock = UPGRADEABLE_READER + MAX_READER := by
  rw [frees_iff, acquirable_read, acquirable_read, dropWord_read h]
  unfold usizeCard MAX_READER UPGRADEABLE_READER at *
  split <;> omega

theorem frees_read_write : Frees lock .read .write ↔ lock = READER := by
  rw [frees_iff, acquirable_write, acquirable_write, dropWord_read h]
  unfold usizeCard READER at *
  split <;> omega

theorem frees_read_upgradeable : Frees lock .read .upgradeable ↔ lock = UPGRADEABLE_READER := by
  rw [frees_iff, acquirable_upgradeable, acquirable_upgradeable, dropWord_read h]
  unfold usizeCard UPGRADEABLE_READER at *
  split <;> omega

theorem frees_upgradeable_read : Frees lock .upgradeable .read ↔
    lock / UPGRADEABLE_READER = 2 ∧ lock % UPGRADEABLE_READER < MAX_READER := by
  rw [frees_iff, acquirable_read, acquirable_read, dropWord_upgradeable h]
  unfold usizeCard MAX_READER UPGRADEABLE_READER at *
  split <;> omega

theorem frees_upgradeable_write : Frees lock .upgradeable .write ↔ lock = UPGRADEABLE_READER := by
  rw [frees_iff, acquirable_write, acquirable_write, dropWord_upgradeable h]
  unfold usizeCard UPGRADEABLE_READER at *
  split <;> omega

theorem frees_upgradeable_upgradeable : Frees lock .upgradeable .upgradeable ↔ lock / UPGRADEABLE_READER = 1 := by
  rw [frees_iff, acquirable_upgradeable, acquirable_upgradeable, dropWord_upgradeable h]
  unfold usizeCard UPGRADEABLE_READER at *
  split <;> omega

end

end acquirable

/-! ## Drops and wake-ups -/

section drops

variable {a : Action} {g : Guard}

theorem lock_lt (h : Reach Initial Step s) : s.lock < usizeCard := RwState.lock_lt (reach_proj h)

theorem dropWord_of_act {lock : Nat} {t : Thread} {r : Nat × Thread} (h : t.act a lock = some r)
    (hdrop : t.drops a = some g) : r.1 = Thread.dropWord lock g := by
  cases a with
  | drop j =>
    obtain ⟨-, heq⟩ := Option.ite_none_right_eq_some.mp h
    obtain ⟨g', hg', rfl⟩ := Option.map_eq_some_iff.mp heq
    cases hg'.symm.trans hdrop
    rfl
  | resume =>
    obtain ⟨hpc, hg⟩ := Option.ite_none_right_eq_some.mp hdrop
    cases hg
    simp only [Thread.act, Thread.resume, hpc] at h
    rw [← Option.some.inj h]
    rfl
  | _ => cases hdrop

/-- What the access to the word does when it drops a guard. -/
theorem act_drop (hact : s.act i (.word a) = some s') (hdrop : s.Drops i a g) :
    s'.lock = Thread.dropWord s.lock g ∧ (s'.IssuesWake i ↔ dropWake s.lock g ≠ none) := by
  obtain ⟨t, ht, hdrop⟩ := hdrop
  obtain ⟨t', ht', hact⟩ := Option.bind_eq_some_iff.mp hact
  cases ht.symm.trans ht'
  obtain ⟨-, hact⟩ := Option.ite_none_right_eq_some.mp hact
  obtain ⟨r, hr, rfl⟩ := Option.map_eq_some_iff.mp hact
  have hi : i < s.threads.length := (List.getElem?_eq_some_iff.mp ht).1
  refine ⟨dropWord_of_act hr hdrop, ?_⟩
  simp [IssuesWake, getElem?_set_self hi, hdrop]

theorem forall_guard {P : Guard → Prop} : (∀ m, P m) ↔ P .read ∧ P .write ∧ P .upgradeable :=
  ⟨fun h => ⟨h _, h _, h _⟩, fun ⟨hr, hw, hu⟩ m => by cases m <;> assumption⟩

/-- **When a drop that lets a sleeping thread in also wakes up the queue.** A write guard always does; a read guard
unless the readers come down from their limit; an upgradeable guard never wakes anybody, since it compares the word
before the drop with zero. -/
theorem drop_wakes_iff (hs : Reach Initial Step s) (hact : s.act i (.word a) = some s') (hdrop : s.Drops i a g) :
    (s.LetsIn s' → s'.IssuesWake i) ↔ s.DropSafe g := by
  obtain ⟨hlock, hwake⟩ := act_drop hact hdrop
  have hlt := lock_lt hs
  have hletsIn : s.LetsIn s' ↔ ∃ m, s.Sleeping m ∧ Frees s.lock g m := by rw [LetsIn, hlock]; rfl
  rw [hletsIn, hwake, exists_imp, forall_guard]
  cases g with
  | write => simp [DropSafe, dropWake]
  | read =>
    -- the only drop that wakes is that of the last reader
    have hissue : dropWake s.lock .read ≠ none ↔ s.lock = READER := by
      simp [dropWake]
    rw [hissue, frees_read_read hlt, frees_read_write hlt, frees_read_upgradeable hlt]
    unfold DropSafe READER MAX_READER UPGRADEABLE_READER
    constructor
    · rintro ⟨hread, -, hup⟩
      refine ⟨fun hsl => ?_, fun hsl heq => ?_⟩
      · constructor <;> intro heq <;> have := hread ⟨hsl, by omega⟩ <;> omega
      · have := hup ⟨hsl, heq⟩
        omega
    · rintro ⟨hread, hup⟩
      refine ⟨fun ⟨hsl, heq⟩ => ?_, fun ⟨_, heq⟩ => heq, fun ⟨hsl, heq⟩ => absurd heq (hup hsl)⟩
      have := hread hsl
      omega
  | upgradeable =>
    have hissue : dropWake s.lock .upgradeable ≠ none ↔ s.lock = 0 := by
      simp [dropWake]
    rw [hissue, frees_upgradeable_read hlt, frees_upgradeable_write hlt, frees_upgradeable_upgradeable hlt]
    unfold DropSafe MAX_READER UPGRADEABLE_READER
    constructor
    · rintro ⟨hread, hwrite, hup⟩
      refine ⟨fun hsl heq => ?_, fun hsl heq => ?_, fun hsl heq => ?_⟩
      · have := hup ⟨hsl, heq⟩
        omega
      · have := hwrite ⟨hsl, heq⟩
        omega
      · have := hread ⟨hsl, heq⟩
        omega
    · rintro ⟨hup, hwrite, hread⟩
      exact ⟨fun ⟨hsl, heq⟩ => absurd heq (hread hsl), fun ⟨hsl, heq⟩ => absurd heq (hwrite hsl),
        fun ⟨hsl, heq⟩ => absurd heq (hup hsl)⟩

end drops

/-- A task reads, and another sleeps in `write`. -/
def readerHolds : RwMutex :=
  ⟨READER, [1], [⟨⟨[.read], .idle⟩, true, .out, false, none⟩, ⟨⟨[], .idle⟩, true, .asleep .write, false, none⟩]⟩

/-- The reader has dropped its guard and goes on to wake up the writer. -/
def readerWakes : RwMutex :=
  ⟨0, [1], [⟨⟨[], .idle⟩, true, .out, false, some .one⟩, ⟨⟨[], .idle⟩, true, .asleep .write, false, none⟩]⟩

theorem drop_wakes_iff_readerHolds :
    readerHolds.DropSafe .read ∧ (readerHolds.LetsIn readerWakes → readerWakes.IssuesWake 0) := by
  have hrun : two.run ((0, .word .tryRead) :: writerSleeps.tail) = some readerHolds := by decide
  have hsafe : readerHolds.DropSafe .read := ⟨fun _ => by decide, fun _ => by decide⟩
  refine ⟨hsafe, ?_⟩
  exact (drop_wakes_iff (a := .drop 0) (reach_run (.init two_initial) hrun) (by decide) ⟨_, rfl, rfl⟩).mpr hsafe

/-- **The last guard is dropped, and the writer that waits for it is not woken.** -/
theorem upread_drop_strands_writer : ∃ s s' : RwMutex, Reach Initial Step s ∧ s.Drops 0 (.drop 0) .upgradeable ∧
    s.act 0 (.word (.drop 0)) = some s' ∧ s.LetsIn s' ∧ ¬ s'.IssuesWake 0 := by
  refine ⟨writerAsleep, writerStranded, reach_run (.init two_initial) run_writerSleeps, ⟨_, rfl, rfl⟩,
    drop_writerAsleep, ⟨.write, ⟨1, _, by decide, rfl, rfl, rfl⟩, by decide, by decide⟩, ?_⟩
  rintro ⟨t, ht, hwake⟩
  cases ht
  exact hwake rfl

end RwMutex

end AsterKernel.Sync
