import AsterKernel.Lib.Run

/-!
# `Sync.Waiter` — the wake-up protocol of a waiter

`Waiter::wait` marks its task as about to sleep, and then yields until the flag `is_woken_up` is set; it clears the flag
and returns. `Waiter::wake_up` sets the flag and, if it was clear, makes the task run again: a task that is about to
sleep goes on running, one that sleeps becomes runnable and is added to a run queue. Meanwhile the task can be switched
away from and back to at any time.

One waiter and any number of calls of `wake_up` take their atomic steps in any order. The calls are not told apart: `won`
counts those that have set the flag and not looked at the task yet, `adding` those that have still to add the task.

A `wake_up` that comes before the task is marked finds it running and changes nothing, but leaves the flag set. The next
`wait` marks the task, finds the flag and returns, with a task that is still about to sleep.
-/

namespace AsterKernel.Sync

open Lib Option

/-- `TaskStatus`, of a task that does not exit. -/
inductive TaskStatus where
  | runnable
  | running (cpu : Nat)
  | readyToSleep (cpu : Nat)
  | sleeping
deriving DecidableEq, Repr

/-- Where the thread is in `wait`. -/
inductive Loc where
  | outside
  /-- before `task.sleep()` -/
  | sleep
  /-- before the load of the flag -/
  | load
  /-- in `yield_now` -/
  | yield
  /-- before the store that clears the flag -/
  | store
deriving DecidableEq, Repr

/-- The waiter, its task, and the calls of `wake_up`. -/
structure Waiter where
  loc : Loc
  status : TaskStatus
  isWokenUp : Bool
  /-- Whether the task is linked in a run queue. -/
  linked : Bool
  won : Nat
  adding : Nat
deriving DecidableEq, Repr

namespace Waiter

/-- A task that runs, and has not called `wait` yet. -/
def new : Waiter := ⟨.outside, .running 0, false, false, 0, 0⟩

/-- `Task::wakeup`: the new status, and whether the task is to be added to a queue. -/
def wakeup : TaskStatus → TaskStatus × Bool
  | .sleeping => (.runnable, true)
  | .readyToSleep cpu => (.running cpu, false)
  | status => (status, false)

/-- The task is the current task of a CPU. -/
def isCurrent (s : Waiter) : Bool :=
  match s.status with
  | .running _ | .readyToSleep _ => true
  | _ => false

def advance (s : Waiter) : Option Waiter :=
  match s.loc with
  | .outside => some { s with loc := .sleep }
  | .sleep =>
    -- a task that does not run panics here
    match s.status with
    | .running cpu => some { s with loc := .load, status := .readyToSleep cpu }
    | _ => none
  | .load => some { s with loc := if s.isWokenUp then .store else .yield }
  | .yield => some { s with loc := .load }
  | .store => some { s with loc := .outside, isWokenUp := false }

inductive Act where
  /-- the thread takes its next step -/
  | own
  /-- `switch_to` another task -/
  | preempt
  /-- `switch_to` the task, on a CPU -/
  | resume (cpu : Nat)
  /-- the `compare_exchange` of a `wake_up` -/
  | exchange
  /-- the `wakeup` of the task by a `wake_up` that has set the flag -/
  | wakeup
  /-- the `add_task` that follows -/
  | add
deriving DecidableEq, Repr

def step : Act → Waiter → Option Waiter
  | .own, s => if s.isCurrent then s.advance else none
  | .preempt, s =>
    match s.status with
    | .running _ => some { s with status := .runnable, linked := true }
    | .readyToSleep _ => some { s with status := .sleeping }
    | _ => none
  | .resume cpu, s =>
    if s.status = .runnable ∧ s.linked then some { s with status := .running cpu, linked := false } else none
  | .exchange, s => some (if s.isWokenUp then s else { s with isWokenUp := true, won := s.won + 1 })
  | .wakeup, s =>
    if 0 < s.won then
      let (status, add) := Waiter.wakeup s.status
      some { s with status := status, won := s.won - 1, adding := s.adding + add.toNat }
    else none
  | .add, s => if 0 < s.adding then some { s with adding := s.adding - 1, linked := true } else none

/-- The flag is set while the thread is in the loop of `wait`, and the thread does not look at it between a
`compare_exchange` and the `wakeup` that belongs to it. -/
def Tame (s : Waiter) : Act → Prop
  | .exchange => s.isWokenUp = false → s.loc = .load ∨ s.loc = .yield
  | .own => s.loc = .load → s.won = 0
  | _ => True

instance (s : Waiter) (a : Act) : Decidable (Tame s a) := by
  cases a <;> unfold Tame <;> infer_instance

/-! ## The phases of a wait -/

/-- The task runs, or is in a queue and will. -/
def Ready (s : Waiter) : Prop :=
  ((∃ cpu, s.status = .running cpu) ∧ s.linked = false) ∨ (s.status = .runnable ∧ s.linked = true)

/-- The task sleeps or is about to. -/
def Dozing (s : Waiter) : Prop := ((∃ cpu, s.status = .readyToSleep cpu) ∨ s.status = .sleeping) ∧ s.linked = false

/-- Where a wait is: not begun, waiting for the flag or for the `wakeup` that follows it, or woken. -/
inductive Phase (s : Waiter) : Prop
  | idle (hloc : s.loc = .outside ∨ s.loc = .sleep) (hflag : s.isWokenUp = false) (hwon : s.won = 0)
      (hadding : s.adding = 0) (hready : s.Ready)
  | waiting (hloc : s.loc = .load ∨ s.loc = .yield) (hwon : s.won = s.isWokenUp.toNat) (hadding : s.adding = 0)
      (hdozing : s.Dozing)
  | woken (hloc : s.loc = .load ∨ s.loc = .yield ∨ s.loc = .store) (hflag : s.isWokenUp = true) (hwon : s.won = 0)
      (hready : (s.adding = 0 ∧ s.Ready) ∨ (s.adding = 1 ∧ s.status = .runnable ∧ s.linked = false))

variable {s t : Waiter}

theorem Ready.current (h : s.Ready) (hcur : s.isCurrent = true) :
    (∃ cpu, s.status = .running cpu) ∧ s.linked = false := by
  rcases h with h | ⟨hstatus, -⟩
  · exact h
  · rw [isCurrent, hstatus] at hcur
    cases hcur

/-- A woken task that is current runs. -/
theorem Phase.running (hready : (s.adding = 0 ∧ s.Ready) ∨ (s.adding = 1 ∧ s.status = .runnable ∧ s.linked = false))
    (hcur : s.isCurrent = true) : s.adding = 0 ∧ (∃ cpu, s.status = .running cpu) ∧ s.linked = false := by
  rcases hready with ⟨hadding, hready⟩ | ⟨-, hstatus, -⟩
  · exact ⟨hadding, hready.current hcur⟩
  · rw [isCurrent, hstatus] at hcur
    cases hcur

section

variable (h : Phase s)
include h

theorem Phase.own (htame : Tame s .own) (hstep : step .own s = some t) : Phase t := by
  obtain ⟨hcur, hadvance⟩ := ite_none_right_eq_some.mp hstep
  cases h with
  | idle hloc hflag hwon hadding hready =>
    obtain ⟨⟨cpu, hstatus⟩, hlinked⟩ := hready.current hcur
    rcases hloc with hloc | hloc
    · simp only [advance, hloc, some.injEq] at hadvance
      subst hadvance
      exact .idle (.inr rfl) hflag hwon hadding (.inl ⟨⟨cpu, hstatus⟩, hlinked⟩)
    · simp only [advance, hloc, hstatus, some.injEq] at hadvance
      subst hadvance
      exact .waiting (.inl rfl) (by rw [hwon, hflag]; rfl) hadding ⟨.inl ⟨cpu, rfl⟩, hlinked⟩
  | waiting hloc hwon hadding hdozing =>
    rcases hloc with hloc | hloc
    · -- the flag is not set: otherwise a `wakeup` would be due
      have hflag : s.isWokenUp = false := by
        have hzero := htame hloc
        rw [hwon] at hzero
        cases hw : s.isWokenUp with
        | false => rfl
        | true => rw [hw] at hzero; cases hzero
      simp only [advance, hloc, hflag, some.injEq] at hadvance
      subst hadvance
      exact .waiting (.inr rfl) (by rw [hwon, hflag]) hadding hdozing
    · simp only [advance, hloc, some.injEq] at hadvance
      subst hadvance
      exact .waiting (.inl rfl) hwon hadding hdozing
  | woken hloc hflag hwon hready =>
    obtain ⟨hadding, hrunning⟩ := Phase.running hready hcur
    rcases hloc with hloc | hloc | hloc
    · simp only [advance, hloc, hflag, if_true, some.injEq] at hadvance
      subst hadvance
      exact .woken (.inr (.inr rfl)) rfl hwon (.inl ⟨hadding, .inl hrunning⟩)
    · simp only [advance, hloc, some.injEq] at hadvance
      subst hadvance
      exact .woken (.inl rfl) hflag hwon (.inl ⟨hadding, .inl hrunning⟩)
    · simp only [advance, hloc, some.injEq] at hadvance
      subst hadvance
      exact .idle (.inl rfl) rfl hwon hadding (.inl hrunning)

theorem Phase.preempt (hstep : step .preempt s = some t) : Phase t := by
  simp only [step] at hstep
  split at hstep
  · rename_i cpu hstatus
    cases hstep
    cases h with
    | idle hloc hflag hwon hadding _ => exact .idle hloc hflag hwon hadding (.inr ⟨rfl, rfl⟩)
    | waiting hloc hwon hadding hdozing =>
      rcases hdozing.1 with ⟨_, hs⟩ | hs <;> rw [hstatus] at hs <;> cases hs
    | woken hloc hflag hwon hready =>
      obtain ⟨hadding, -⟩ := Phase.running hready (by rw [isCurrent, hstatus])
      exact .woken hloc hflag hwon (.inl ⟨hadding, .inr ⟨rfl, rfl⟩⟩)
  · rename_i cpu hstatus
    cases hstep
    have hcur : s.isCurrent = true := by rw [isCurrent, hstatus]
    cases h with
    | idle _ _ _ _ hready =>
      obtain ⟨⟨_, hs⟩, -⟩ := hready.current hcur
      rw [hstatus] at hs
      cases hs
    | waiting hloc hwon hadding hdozing => exact .waiting hloc hwon hadding ⟨.inr rfl, hdozing.2⟩
    | woken _ _ _ hready =>
      obtain ⟨-, ⟨_, hs⟩, -⟩ := Phase.running hready hcur
      rw [hstatus] at hs
      cases hs
  · cases hstep

theorem Phase.resume {cpu : Nat} (hstep : step (.resume cpu) s = some t) : Phase t := by
  obtain ⟨⟨hstatus, hlinked⟩, heq⟩ := ite_none_right_eq_some.mp hstep
  cases heq
  cases h with
  | idle hloc hflag hwon hadding _ => exact .idle hloc hflag hwon hadding (.inl ⟨⟨cpu, rfl⟩, rfl⟩)
  | waiting _ _ _ hdozing =>
    rw [hdozing.2] at hlinked
    cases hlinked
  | woken hloc hflag hwon hready =>
    rcases hready with ⟨hadding, -⟩ | ⟨-, -, hnot⟩
    · exact .woken hloc hflag hwon (.inl ⟨hadding, .inl ⟨⟨cpu, rfl⟩, rfl⟩⟩)
    · rw [hnot] at hlinked
      cases hlinked

theorem Phase.exchange (htame : Tame s .exchange) (hstep : step .exchange s = some t) : Phase t := by
  simp only [step, some.injEq] at hstep
  subst hstep
  split
  · exact h
  · rename_i hflag
    have hclear : s.isWokenUp = false := by simpa using hflag
    cases h with
    | idle hloc _ _ _ _ =>
      rcases hloc with hloc | hloc <;> rcases htame hclear with h' | h' <;> rw [hloc] at h' <;> cases h'
    | waiting hloc hwon hadding hdozing => exact .waiting hloc (by rw [hwon, hclear]; rfl) hadding hdozing
    | woken _ hset _ _ => exact absurd hset hflag

theorem Phase.wakeup (hstep : step .wakeup s = some t) : Phase t := by
  obtain ⟨hpos, heq⟩ := ite_none_right_eq_some.mp hstep
  cases heq
  cases h with
  | idle _ _ hwon _ _ | woken _ _ hwon _ => omega
  | waiting hloc hwon hadding hdozing =>
    have hflag : s.isWokenUp = true := by
      cases hw : s.isWokenUp with
      | true => rfl
      | false => rw [hwon, hw] at hpos; cases hpos
    have hone : s.won - 1 = 0 := by rw [hwon, hflag]; rfl
    have hloc' : s.loc = .load ∨ s.loc = .yield ∨ s.loc = .store := hloc.imp_right .inl
    rcases hdozing with ⟨⟨cpu, hstatus⟩ | hstatus, hlinked⟩
    · refine .woken hloc' hflag hone (.inl ⟨?_, .inl ⟨⟨cpu, ?_⟩, hlinked⟩⟩) <;> simp [hstatus, hadding]
    · refine .woken hloc' hflag hone (.inr ⟨?_, ?_, hlinked⟩) <;> simp [hstatus, hadding]

theorem Phase.add (hstep : step .add s = some t) : Phase t := by
  obtain ⟨hpos, heq⟩ := ite_none_right_eq_some.mp hstep
  cases heq
  cases h with
  | idle _ _ _ hadding _ | waiting _ _ hadding _ => omega
  | woken hloc hflag hwon hready =>
    rcases hready with ⟨hadding, -⟩ | ⟨hadding, hstatus, -⟩
    · omega
    · exact .woken hloc hflag hwon (.inl ⟨by rw [hadding], .inr ⟨hstatus, rfl⟩⟩)

theorem Phase.step {a : Act} (htame : Tame s a) (hstep : step a s = some t) : Phase t := by
  cases a with
  | own => exact h.own htame hstep
  | preempt => exact h.preempt hstep
  | resume cpu => exact h.resume hstep
  | exchange => exact h.exchange htame hstep
  | wakeup => exact h.wakeup hstep
  | add => exact h.add hstep

end

theorem reach_phase (h : Run step Tame new s) : Phase s :=
  h.invariant (.idle (.inl rfl) rfl rfl rfl (.inl ⟨⟨0, rfl⟩, rfl⟩)) fun _ _ _ hs htame hstep => hs.step htame hstep

/-! ## The end of a wait -/

/-- How many steps the thread has left once the flag is set. -/
def left : Loc → Nat
  | .outside => 0
  | .sleep => 4
  | .load => 2
  | .yield => 3
  | .store => 1

/-- With the flag set each step of the thread brings it nearer to the end of the wait. -/
theorem left_step {a : Act} (hflag : s.isWokenUp = true) (hloc : s.loc ≠ .outside) (hstep : step a s = some t) :
    left t.loc + (if a = .own then 1 else 0) ≤ left s.loc ∧ (t.loc ≠ .outside → t.isWokenUp = true) := by
  cases a with
  | own =>
    obtain ⟨-, hadvance⟩ := ite_none_right_eq_some.mp hstep
    unfold advance at hadvance
    split at hadvance
    · exact absurd ‹_› hloc
    · split at hadvance <;> cases hadvance
      simp_all [left]
    all_goals cases hadvance; simp_all [left]
  | preempt =>
    simp only [Waiter.step] at hstep
    split at hstep <;> cases hstep <;> exact ⟨Nat.le_refl _, fun _ => hflag⟩
  | resume cpu | wakeup | add =>
    obtain ⟨-, heq⟩ := ite_none_right_eq_some.mp hstep
    cases heq
    exact ⟨Nat.le_refl _, fun _ => hflag⟩
  | exchange =>
    simp only [Waiter.step, hflag, if_true, some.injEq] at hstep
    subst hstep
    exact ⟨Nat.le_refl _, fun _ => hflag⟩

/-- A wait with the flag set has returned after as many steps of its thread as it has left. -/
theorem returns_within (as : List Act) (hflag : s.isWokenUp = true) (hsteps : steps step as s = some t)
    (hcount : left s.loc ≤ as.count .own) : ∃ pre u, pre <+: as ∧ steps step pre s = some u ∧ u.loc = .outside := by
  induction as generalizing s with
  | nil =>
    refine ⟨[], s, List.prefix_refl _, rfl, ?_⟩
    cases hloc : s.loc <;> rw [hloc] at hcount <;> simp [left] at hcount ⊢
  | cons a as ih =>
    by_cases hloc : s.loc = .outside
    · exact ⟨[], s, List.nil_prefix, rfl, hloc⟩
    obtain ⟨u, hstep, hrest⟩ := bind_eq_some_iff.mp hsteps
    obtain ⟨hleft, hkeep⟩ := left_step hflag hloc hstep
    by_cases hout : u.loc = .outside
    · exact ⟨[a], u, ⟨as, rfl⟩, by simp [steps, hstep], hout⟩
    rw [List.count_cons] at hcount
    have hcount' : left u.loc ≤ as.count .own := by
      by_cases ha : a = .own <;> simp [ha] at hcount hleft <;> omega
    obtain ⟨pre, w, hpre, hw, hwloc⟩ := ih (hkeep hout) hrest hcount'
    refine ⟨a :: pre, w, List.cons_prefix_cons.mpr ⟨rfl, hpre⟩, ?_, hwloc⟩
    rw [steps, hstep]
    exact hw

/-- A wait returns with a running task, which a preemption leaves runnable; and once the flag is set, the task runs, will
be run or is about to be woken, and the wait is over after three steps of its thread. -/
theorem wait_returns (h : Run step Tame new s) :
    (∀ t, s.loc = .store → step .own s = some t → t.loc = .outside ∧ (∃ cpu, t.status = .running cpu) ∧
      ∃ u, step .preempt t = some u ∧ u.status = .runnable ∧ u.linked = true) ∧
    (s.isWokenUp = true →
      ((step .own s).isSome ∨ (step (.resume 0) s).isSome ∨ (step .wakeup s).isSome ∨ (step .add s).isSome) ∧
      ∀ as t, steps step as s = some t → 3 ≤ as.count .own →
        ∃ pre u, pre <+: as ∧ steps step pre s = some u ∧ u.loc = .outside) := by
  have hphase := reach_phase h
  constructor
  · intro t hloc hstep
    obtain ⟨hcur, hadvance⟩ := Option.ite_none_right_eq_some.mp hstep
    simp only [advance, hloc, Option.some.injEq] at hadvance
    subst hadvance
    cases hphase with
    | idle hl _ _ _ _ | waiting hl _ _ _ => rcases hl with hl | hl <;> rw [hloc] at hl <;> cases hl
    | woken _ _ _ hready =>
      obtain ⟨-, ⟨cpu, hstatus⟩, -⟩ := Phase.running hready hcur
      refine ⟨rfl, ⟨cpu, hstatus⟩, { s with loc := .outside, isWokenUp := false, status := .runnable, linked := true },
        ?_, rfl, rfl⟩
      simp only [Waiter.step, hstatus]
  · intro hflag
    cases hphase with
    | idle _ hclear _ _ _ =>
      rw [hflag] at hclear
      cases hclear
    | waiting hloc hwon _ _ =>
      refine ⟨.inr (.inr (.inl ?_)), fun as t hsteps hcount => returns_within as hflag hsteps ?_⟩
      · rw [hflag] at hwon
        simp [Waiter.step, hwon]
      · rcases hloc with hloc | hloc <;> rw [hloc] <;> simp only [left] <;> omega
    | woken hloc _ _ hready =>
      refine ⟨?_, fun as t hsteps hcount => returns_within as hflag hsteps ?_⟩
      · rcases hready with ⟨-, ⟨⟨cpu, hstatus⟩, -⟩ | ⟨hstatus, hlinked⟩⟩ | ⟨hadding, -, -⟩
        · left
          rcases hloc with hloc | hloc | hloc <;> simp [Waiter.step, isCurrent, advance, hstatus, hloc]
        · right; left
          simp [Waiter.step, hstatus, hlinked]
        · right; right; right
          simp [Waiter.step, hadding]
      · rcases hloc with hloc | hloc | hloc <;> rw [hloc] <;> simp only [left] <;> omega

/-- A thread that goes to sleep in `wait`, is woken and resumed on another CPU. -/
theorem wait_returns_resumed : ∃ s, Run step Tame new s ∧ s.loc = .store ∧ s.isWokenUp = true ∧
    (∀ t, s.loc = .store → step .own s = some t → t.loc = .outside ∧ (∃ cpu, t.status = .running cpu) ∧
      ∃ u, step .preempt t = some u ∧ u.status = .runnable ∧ u.linked = true) := by
  have hrun : (stepsMeeting step Tame
      [.own, .own, .own, .preempt, .exchange, .exchange, .wakeup, .add, .resume 1, .own, .own] new).any
      (fun s => decide (s.loc = .store ∧ s.isWokenUp = true)) = true := by decide
  obtain ⟨s, hreach, hloc, hflag⟩ := Run.checked _ hrun
  exact ⟨s, hreach, hloc, hflag, (wait_returns hreach).1⟩

/-- A `wake_up` before the `wait`: the wait returns with a task that is about to sleep, and the next preemption puts it to
sleep for good. -/
theorem early_wake_up_sleeps : ∃ s t u, Run step (fun _ _ => True) new s ∧ s.loc = .store ∧ step .own s = some t ∧
    t.loc = .outside ∧ t.status = .readyToSleep 0 ∧ step .preempt t = some u ∧ u.status = .sleeping ∧
    u.won = 0 ∧ u.adding = 0 := by
  have hsteps : steps step [.exchange, .wakeup, .own, .own, .own] new =
      some ⟨.store, .readyToSleep 0, true, false, 0, 0⟩ := by decide
  exact ⟨_, ⟨.outside, .readyToSleep 0, false, false, 0, 0⟩, ⟨.outside, .sleeping, false, false, 0, 0⟩,
    Run.stepsAny .start hsteps, by decide⟩

/-! ## The queue -/

/-- `WaitQueue::wake_one`, on the waiters from the front: the `compare_exchange` of the `wake_up`, whose other steps
follow. -/
def wakeOne : List Waiter → List Waiter
  | [] => []
  | w :: q => (step .exchange w).getD w :: q

/-- The waiters that have not been woken since they last started to wait. -/
def asleep (q : List Waiter) : Nat := q.countP fun w => !w.isWokenUp

/-- What happens to a queue. A waiter that enters is not exclusive, and goes to the front. -/
inductive QueueAct where
  | enter
  | leave (k : Nat)
  | act (k : Nat) (a : Act)
  | wakeOne

def QueueAct.run : QueueAct → List Waiter → Option (List Waiter)
  | .enter, q => some (new :: q)
  | .leave k, q => some (q.eraseIdx k)
  | .act k a, q => (q[k]?.bind (step a)).map (q.set k)
  | .wakeOne, q => some (Waiter.wakeOne q)

theorem asleep_cons (w : Waiter) (q : List Waiter) : asleep (w :: q) = asleep q + if w.isWokenUp then 0 else 1 := by
  cases hw : w.isWokenUp with
  | true | false => simp [asleep, hw]

theorem asleep_wakeOne (w : Waiter) (q : List Waiter) : asleep (wakeOne (w :: q)) = asleep q := by
  cases hw : w.isWokenUp with
  | true | false => simp [asleep, wakeOne, step, hw]

theorem wakeOne_wakeOne (q : List Waiter) : wakeOne (wakeOne q) = wakeOne q := by
  cases q with
  | nil => rfl
  | cons w q =>
    cases hw : w.isWokenUp with
    | true | false => simp [wakeOne, step, hw]

/-- Calls in a row all go to the same waiter. -/
theorem repeat_wakeOne (n : Nat) (q : List Waiter) : Nat.repeat wakeOne (n + 1) q = wakeOne q := by
  induction n with
  | zero => rfl
  | succ n ih =>
    show wakeOne (Nat.repeat wakeOne (n + 1) q) = wakeOne q
    rw [ih, wakeOne_wakeOne]

end Waiter
end AsterKernel.Sync
