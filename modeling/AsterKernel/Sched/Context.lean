import Mathlib.Logic.Function.Basic
import AsterKernel.Lib.Run

/-!
# `Sched.Context` — the register context of a task across CPUs

A CPU that switches to another task first takes a copy of that task's context, then gives the task it has run back (to a
run queue, or to sleep), and only at the end, in `context_switch`, stores the registers in the context of the task that it
has given back. Another CPU can get hold of the task in between: by balancing the queues, or by waking the task and
running it itself.

A task is taken from the queue of a CPU by that CPU. The queues are not ordered here, and a task that has not run yet is
one that sleeps, with the context it was created with.
-/

namespace AsterKernel.Sched
namespace Context

open Lib

inductive Status where
  /-- `Runnable` or `Ready` -/
  | runnable
  | running
  | readyToSleep
  | sleeping
  | exited
deriving DecidableEq, Repr

structure Task where
  status : Status
  /-- The CPU in whose run queue the task is. -/
  queue : Option Nat
  /-- Whether the stored context is that of the task's last run. -/
  saved : Bool
deriving DecidableEq, Repr

/-- What a CPU does. -/
inductive Cpu where
  /-- It runs a task or is idle. -/
  | on (current : Option Nat)
  /-- It has taken a copy of the context of the next task. -/
  | begun (current : Option Nat) (next : Nat)
  /-- It has given the task back, and is about to store its context. -/
  | handed (previous : Option Nat) (next : Nat)
deriving DecidableEq, Repr

structure Cpus where
  tasks : Nat → Task
  cpus : Nat → Cpu

namespace Cpus

/-- All CPUs are idle, and no task has run. -/
def new : Cpus := ⟨fun _ => ⟨.sleeping, none, true⟩, fun _ => .on none⟩

def setTask (s : Cpus) (t : Nat) (task : Task) : Cpus := { s with tasks := Function.update s.tasks t task }

def setCpu (s : Cpus) (c : Nat) (cpu : Cpu) : Cpus := { s with cpus := Function.update s.cpus c cpu }

/-- What `switch_to` on CPU `c` does with the task that was current; `d` is the queue it goes to. -/
def giveBack (s : Cpus) (d : Nat) : Option Nat → Option Cpus
  | none => some s
  | some t =>
    match (s.tasks t).status with
    | .running => some (s.setTask t { s.tasks t with status := .runnable, queue := some d })
    | .readyToSleep => some (s.setTask t { s.tasks t with status := .sleeping })
    | .exited => some s
    | _ => none

/-- The end of `context_switch` for the task that was current. -/
def saveContext (s : Cpus) : Option Nat → Cpus
  | none => s
  | some t => s.setTask t { s.tasks t with saved := true }

inductive Act where
  /-- the current task of a CPU goes to sleep, or exits -/
  | leave (c : Nat) (exits : Bool)
  /-- CPU `w` wakes a task up -/
  | wake (t w : Nat)
  /-- `load_balance` moves a task to the queue of CPU `d` -/
  | balance (t d : Nat)
  /-- CPU `c` picks a task and takes a copy of its context -/
  | begin (c t : Nat)
  /-- CPU `c` gives its task back, to the queue of CPU `d` -/
  | hand (c d : Nat)
  /-- CPU `c` stores the context of that task, and runs the next one -/
  | store (c : Nat)

def step : Act → Cpus → Option Cpus
  | .leave c exits, s =>
    match s.cpus c with
    | .on (some t) =>
      if (s.tasks t).status = .running then
        some (s.setTask t { s.tasks t with status := if exits then .exited else .readyToSleep })
      else none
    | _ => none
  | .wake t w, s =>
    match (s.tasks t).status with
    | .sleeping => some (s.setTask t { s.tasks t with status := .runnable, queue := some w })
    | .readyToSleep => some (s.setTask t { s.tasks t with status := .running })
    | _ => some s
  | .balance t d, s =>
    if (s.tasks t).queue = none then none else some (s.setTask t { s.tasks t with queue := some d })
  | .begin c t, s =>
    match s.cpus c with
    | .on current =>
      if (s.tasks t).queue = some c then
        some ((s.setTask t { s.tasks t with queue := none }).setCpu c (.begun current t))
      else none
    | _ => none
  | .hand c d, s =>
    match s.cpus c with
    | .begun current next =>
      ((s.setTask next { s.tasks next with status := .running }).setCpu c (.handed current next)).giveBack d current
    | _ => none
  | .store c, s =>
    match s.cpus c with
    | .handed previous next =>
      let s' := s.saveContext previous
      some ((s'.setTask next { s'.tasks next with saved := false }).setCpu c (.on (some next)))
    | _ => none

/-- No CPU other than `d` has given the task back without having stored its context. -/
def OnlyLeft (s : Cpus) (t d : Nat) : Prop := ∀ c next, s.cpus c = .handed (some t) next → c = d

/-- A task gets into the queue of a CPU only if no other CPU is still to store its context. -/
def Tame (s : Cpus) : Act → Prop
  | .wake t w => s.OnlyLeft t w
  | .balance t d => s.OnlyLeft t d
  | .hand c d => d = c
  | _ => True

/-! ## The invariant -/

/-- The CPU runs the task or is going to. -/
def Held (cpu : Cpu) (t : Nat) : Prop :=
  cpu = .on (some t) ∨ (∃ next, cpu = .begun (some t) next) ∨ (∃ current, cpu = .begun current t) ∨
    ∃ previous, cpu = .handed previous t

/-- A task that a CPU has is in no queue, does not sleep and is on no other CPU; one that is in a queue or sleeps has its
context stored, or the CPU of that queue is about to. -/
structure Inv (s : Cpus) : Prop where
  held : ∀ {c t}, Held (s.cpus c) t → (s.tasks t).queue = none ∧ (s.tasks t).status ≠ .sleeping
  once : ∀ {c d t}, Held (s.cpus c) t → Held (s.cpus d) t → c = d
  apart : ∀ {c t next}, s.cpus c = .begun (some t) next → t ≠ next
  linked : ∀ {t d}, (s.tasks t).queue = some d → (s.tasks t).status ≠ .sleeping
  free : ∀ {t}, (s.tasks t).queue ≠ none ∨ (s.tasks t).status = .sleeping → (s.tasks t).saved = true ∨
    ∃ c next, s.cpus c = .handed (some t) next ∧ ∀ d, (s.tasks t).queue = some d → d = c

variable {s s' : Cpus} {c d t u : Nat}

theorem not_held_idle : ¬ Held (.on none) t := by
  rintro (h | ⟨_, h⟩ | ⟨_, h⟩ | ⟨_, h⟩) <;> cases h

theorem Inv.new : Inv new :=
  ⟨fun h => absurd h not_held_idle, fun h => absurd h not_held_idle, nofun, nofun, fun _ => .inl rfl⟩

section

variable (h : Inv s)
include h

/-- A change of one task that keeps where it may be. -/
theorem Inv.setTask (task : Task) (hheld : ∀ c, Held (s.cpus c) t → task.queue = none ∧ task.status ≠ .sleeping)
    (hlinked : ∀ d, task.queue = some d → task.status ≠ .sleeping)
    (hfree : task.queue ≠ none ∨ task.status = .sleeping → task.saved = true ∨
      ∃ c next, s.cpus c = .handed (some t) next ∧ ∀ d, task.queue = some d → d = c) : Inv (s.setTask t task) := by
  constructor
  · intro c u hu
    by_cases hut : u = t
    · subst hut
      simpa [Cpus.setTask] using hheld c hu
    · simpa [Cpus.setTask, hut] using h.held hu
  · exact fun hc hd => h.once hc hd
  · exact fun hc => h.apart hc
  · intro u d hu
    by_cases hut : u = t
    · subst hut
      simp only [Cpus.setTask, Function.update_self] at hu ⊢
      exact hlinked d hu
    · simp only [Cpus.setTask, Function.update_of_ne hut] at hu ⊢
      exact h.linked hu
  · intro u hu
    by_cases hut : u = t
    · subst hut
      simp only [Cpus.setTask, Function.update_self] at hu ⊢
      exact hfree hu
    · simp only [Cpus.setTask, Function.update_of_ne hut] at hu ⊢
      exact h.free hu

theorem Inv.setCpu {cpu : Cpu} (hheld : ∀ t, Held cpu t → Held (s.cpus c) t ∨
      (∀ e, ¬ Held (s.cpus e) t) ∧ (s.tasks t).queue = none ∧ (s.tasks t).status ≠ .sleeping)
    (hapart : ∀ t next, cpu = .begun (some t) next → t ≠ next) (hleft : ∀ t next, s.cpus c = .handed (some t) next →
      (s.tasks t).saved = true ∨ (s.tasks t).queue = none ∧ (s.tasks t).status ≠ .sleeping) :
    Inv (s.setCpu c cpu) := by
  have hother : ∀ {e t}, e ≠ c → Held ((s.setCpu c cpu).cpus e) t → Held (s.cpus e) t := by
    intro e t hec he
    simpa [Cpus.setCpu, hec] using he
  have hself : ∀ {t}, Held ((s.setCpu c cpu).cpus c) t → Held cpu t := fun he => by simpa [Cpus.setCpu] using he
  refine ⟨fun {e t} he => ?_, fun {e d t} he hd => ?_, fun {e t next} he => ?_, h.linked, fun {t} ht => ?_⟩
  · by_cases hec : e = c
    · subst hec
      rcases hheld t (hself he) with hc | ⟨-, hnew⟩
      · exact h.held hc
      · exact hnew
    · exact h.held (hother hec he)
  · -- a task that is new on the CPU is on no other one
    have hcase : ∀ {e}, e ≠ c → Held ((s.setCpu c cpu).cpus e) t → ¬ Held cpu t := by
      intro e hec he hc
      rcases hheld t hc with hc | ⟨hnone, -⟩
      · exact hec (h.once (hother hec he) hc)
      · exact hnone e (hother hec he)
    by_cases hec : e = c <;> by_cases hdc : d = c
    · rw [hec, hdc]
    · subst hec
      exact absurd (hself he) (hcase hdc hd)
    · subst hdc
      exact absurd (hself hd) (hcase hec he)
    · exact h.once (hother hec he) (hother hdc hd)
  · by_cases hec : e = c
    · subst hec
      exact hapart t next (by simpa [Cpus.setCpu] using he)
    · exact h.apart (c := e) (by simpa [Cpus.setCpu, hec] using he)
  · rcases h.free ht with hsaved | ⟨e, next, he, hqueue⟩
    · exact .inl hsaved
    · by_cases hec : e = c
      · subst hec
        rcases hleft t next he with hsaved | ⟨hnone, hawake⟩
        · exact .inl hsaved
        · rcases ht with ht | ht
          · exact absurd hnone ht
          · exact absurd ht hawake
      · exact .inr ⟨e, next, by simpa [Cpus.setCpu, hec] using he, hqueue⟩

theorem Inv.leave {exits : Bool} (hstep : step (.leave c exits) s = some s') : Inv s' := by
  simp only [step] at hstep
  split at hstep
  · rename_i t hcpu
    obtain ⟨-, heq⟩ := Option.ite_none_right_eq_some.mp hstep
    cases heq
    obtain ⟨hqueue, -⟩ := h.held (c := c) (t := t) (.inl hcpu)
    have hawake : (if exits then Status.exited else .readyToSleep) ≠ .sleeping := by cases exits <;> decide
    refine h.setTask _ (fun _ _ => ⟨hqueue, hawake⟩) (fun _ _ => hawake) fun hout => ?_
    rcases hout with hout | hout
    · exact absurd hqueue hout
    · exact absurd hout hawake
  · cases hstep

theorem Inv.wake {w : Nat} (htame : s.OnlyLeft t w) (hstep : step (.wake t w) s = some s') : Inv s' := by
  simp only [step] at hstep
  split at hstep
  · rename_i hsleeping
    cases hstep
    refine h.setTask _ (fun c hc => absurd hsleeping (h.held hc).2) (fun _ _ => nofun) fun _ => ?_
    rcases h.free (.inr hsleeping) with hsaved | ⟨c, next, hc, -⟩
    · exact .inl hsaved
    · refine .inr ⟨c, next, hc, fun d hd => ?_⟩
      cases hd
      exact (htame c next hc).symm
  · cases hstep
    refine h.setTask _ (fun c hc => ⟨(h.held hc).1, nofun⟩) (fun _ _ => nofun) fun hout => ?_
    rcases hout with hout | hout
    · exact h.free (.inl hout)
    · cases hout
  · cases hstep
    exact h

theorem Inv.balance (htame : s.OnlyLeft t d) (hstep : step (.balance t d) s = some s') : Inv s' := by
  obtain ⟨hqueue, heq⟩ := Option.ite_none_left_eq_some.mp hstep
  cases heq
  have hawake : (s.tasks t).status ≠ .sleeping := by
    obtain ⟨e, he⟩ := Option.ne_none_iff_exists'.mp hqueue
    exact h.linked he
  refine h.setTask _ (fun c hc => absurd (h.held hc).1 hqueue) (fun _ _ => hawake) fun _ => ?_
  rcases h.free (.inl hqueue) with hsaved | ⟨c, next, hc, -⟩
  · exact .inl hsaved
  · refine .inr ⟨c, next, hc, fun e he => ?_⟩
    cases he
    exact (htame c next hc).symm

theorem Inv.begin (hstep : step (.begin c t) s = some s') : Inv s' := by
  simp only [step] at hstep
  split at hstep
  · rename_i current hcpu
    obtain ⟨hqueue, heq⟩ := Option.ite_none_right_eq_some.mp hstep
    cases heq
    have hawake := h.linked hqueue
    have hfree : ∀ e, ¬ Held (s.cpus e) t := by
      intro e he
      rw [(h.held he).1] at hqueue
      cases hqueue
    have htaken : Inv (s.setTask t { s.tasks t with queue := none }) := by
      refine h.setTask _ (fun _ _ => ⟨rfl, hawake⟩) nofun fun hout => ?_
      rcases hout with hout | hout
      · exact absurd rfl hout
      · exact absurd hout hawake
    refine htaken.setCpu (fun u hu => ?_) (fun u next hu => ?_) fun u next hu => ?_
    · rcases hu with hu | ⟨_, hu⟩ | ⟨_, hu⟩ | ⟨_, hu⟩ <;> cases hu
      · exact .inl (.inl hcpu)
      · exact .inr ⟨hfree, by simp [Cpus.setTask], by simpa [Cpus.setTask] using hawake⟩
    · rintro rfl
      cases hu
      exact hfree c (.inl hcpu)
    · rw [show (s.setTask t _).cpus = s.cpus from rfl, hcpu] at hu
      cases hu
  · cases hstep

theorem Inv.hand (hstep : step (.hand c c) s = some s') : Inv s' := by
  simp only [step] at hstep
  split at hstep
  · rename_i current next hcpu
    obtain ⟨hnext, -⟩ := h.held (c := c) (t := next) (.inr (.inr (.inl ⟨current, hcpu⟩)))
    have hrunning : Inv (s.setTask next { s.tasks next with status := .running }) := by
      refine h.setTask _ (fun _ _ => ⟨hnext, nofun⟩) (fun _ _ => nofun) fun hout => ?_
      rcases hout with hout | hout
      · exact absurd hnext hout
      · cases hout
    have hswitched : Inv ((s.setTask next { s.tasks next with status := .running }).setCpu c (.handed current next)) := by
      refine hrunning.setCpu (fun u hu => ?_) nofun fun u next' hu => ?_
      · rcases hu with hu | ⟨_, hu⟩ | ⟨_, hu⟩ | ⟨_, hu⟩ <;> cases hu
        exact .inl (.inr (.inr (.inl ⟨current, hcpu⟩)))
      · rw [show (s.setTask next _).cpus = s.cpus from rfl, hcpu] at hu
        cases hu
    cases current with
    | none =>
      cases hstep
      exact hswitched
    | some t =>
      have hne : t ≠ next := h.apart hcpu
      have hheld : Held (s.cpus c) t := .inr (.inl ⟨next, hcpu⟩)
      generalize hs : (s.setTask next { s.tasks next with status := .running }).setCpu c (.handed (some t) next) = u
        at hstep hswitched
      have hcpu' : u.cpus c = .handed (some t) next := by rw [← hs]; simp [Cpus.setCpu]
      have hqueue : (u.tasks t).queue = none := by
        rw [← hs]
        simpa [Cpus.setCpu, Cpus.setTask, hne] using (h.held hheld).1
      -- no CPU has the task any more
      have hnone : ∀ e, ¬ Held (u.cpus e) t := by
        intro e he
        by_cases hec : e = c
        · rw [hec, hcpu'] at he
          rcases he with he | ⟨_, he⟩ | ⟨_, he⟩ | ⟨_, he⟩ <;> cases he
          exact hne rfl
        · refine hec (h.once ?_ hheld)
          rw [← hs] at he
          simpa [Cpus.setCpu, Cpus.setTask, hec] using he
      simp only [giveBack] at hstep
      split at hstep
      · cases hstep
        refine hswitched.setTask _ (fun e he => absurd he (hnone e)) (fun _ _ => nofun) fun _ => ?_
        exact .inr ⟨c, next, hcpu', fun d hd => by cases hd; rfl⟩
      · cases hstep
        refine hswitched.setTask _ (fun e he => absurd he (hnone e)) (fun d hd => ?_) fun _ => ?_
        · rw [show _ = some d from hd] at hqueue
          cases hqueue
        · refine .inr ⟨c, next, hcpu', fun d hd => ?_⟩
          rw [show _ = some d from hd] at hqueue
          cases hqueue
      · cases hstep
        exact hswitched
      · cases hstep
  · cases hstep

theorem Inv.store (hstep : step (.store c) s = some s') : Inv s' := by
  simp only [step] at hstep
  split at hstep
  · rename_i previous next hcpu
    cases hstep
    have hheld : Held (s.cpus c) next := .inr (.inr (.inr ⟨previous, hcpu⟩))
    have hsaved : Inv (s.saveContext previous) := by
      cases previous with
      | none => exact h
      | some t => exact h.setTask _ (fun _ hc => h.held hc) (fun _ hd => h.linked hd) fun _ => .inl rfl
    have hcpus : (s.saveContext previous).cpus = s.cpus := by cases previous <;> rfl
    obtain ⟨hqueue, hawake⟩ := hsaved.held (c := c) (t := next) (by rw [hcpus]; exact hheld)
    have hran := hsaved.setTask (t := next) { (s.saveContext previous).tasks next with saved := false }
      (fun _ _ => ⟨hqueue, hawake⟩) (fun _ _ => hawake) fun hout => by
        rcases hout with hout | hout
        · exact absurd hqueue hout
        · exact absurd hout hawake
    refine hran.setCpu (fun u hu => ?_) nofun fun u next' hu => ?_
    · rcases hu with hu | ⟨_, hu⟩ | ⟨_, hu⟩ | ⟨_, hu⟩ <;> cases hu
      refine .inl ?_
      rw [show ((s.saveContext previous).setTask next _).cpus = s.cpus from hcpus]
      exact hheld
    · rw [show ((s.saveContext previous).setTask next _).cpus = s.cpus from hcpus, hcpu] at hu
      cases hu
      by_cases hun : u = next
      · subst hun
        exact .inr (by simpa [Cpus.setTask] using ⟨hqueue, hawake⟩)
      · exact .inl (by simp [Cpus.setTask, hun, saveContext])
  · cases hstep

/-- Where tasks with an old context are. -/
theorem Inv.step {a : Act} (htame : Tame s a) (hstep : step a s = some s') : Inv s' := by
  cases a with
  | leave c exits => exact h.leave hstep
  | wake t w => exact h.wake htame hstep
  | balance t d => exact h.balance htame hstep
  | begin c t => exact h.begin hstep
  | hand c d =>
    obtain rfl : d = c := htame
    exact h.hand hstep
  | store c => exact h.store hstep

end

/-- If a task is put into the queue of another CPU only after the CPU that gives it back has stored its context, every
context that is loaded has been stored. -/
theorem context_saved (h : Run Cpus.step Tame new s) (hbegin : Cpus.step (.begin c t) s = some s') :
    (s.tasks t).saved = true := by
  have hinv : Inv s := h.invariant Inv.new fun _ _ _ hs htame hstep => hs.step htame hstep
  simp only [Cpus.step] at hbegin
  split at hbegin
  · rename_i current hcpu
    obtain ⟨hqueue, -⟩ := Option.ite_none_right_eq_some.mp hbegin
    rcases hinv.free (t := t) (.inl (by rw [hqueue]; nofun)) with hsaved | ⟨e, next, he, hd⟩
    · exact hsaved
    · -- the CPU would be in the middle of a switch
      rw [← hd c hqueue, hcpu] at he
      cases he
  · cases hbegin

/-- Task 0 runs on CPU 0 until task 1 gets its turn there; then it is moved to the queue of CPU 1. -/
def turns : List Act :=
  [.wake 0 0, .begin 0 0, .hand 0 0, .store 0, .wake 1 0, .begin 0 1, .hand 0 0, .store 0, .balance 0 1]

theorem turns_meet : AllMeet Cpus.step Tame turns new := by
  have hleft : ∀ {s t d}, (∀ e, ∃ current, s.cpus e = .on current) → OnlyLeft s t d := by
    intro s t d hon e next he
    obtain ⟨current, hcurrent⟩ := hon e
    cases hcurrent.symm.trans he
  refine ⟨hleft fun _ => ⟨_, rfl⟩, fun _ h₁ => ⟨trivial, fun _ h₂ => ⟨rfl, fun _ h₃ => ⟨trivial, fun _ h₄ => ?_⟩⟩⟩⟩
  cases h₁
  cases h₂
  cases h₃
  cases h₄
  refine ⟨hleft fun | 0 | _ + 1 => ⟨_, rfl⟩, fun _ h₅ => ⟨trivial, fun _ h₆ => ⟨rfl, fun _ h₇ => ⟨trivial,
    fun _ h₈ => ?_⟩⟩⟩⟩
  cases h₅
  cases h₆
  cases h₇
  cases h₈
  exact ⟨hleft fun | 0 | _ + 1 => ⟨_, rfl⟩, fun _ _ => trivial⟩

/-- CPU 1 takes the context that CPU 0 has stored. -/
theorem context_saved_turns : ∃ s, Run Cpus.step Tame new s ∧ (Cpus.step (.begin 1 0) s).isSome ∧
    s.cpus 0 = .on (some 1) ∧ (s.tasks 0).saved = true := by
  have hsome : ((steps Cpus.step turns new).any fun s =>
    (Cpus.step (.begin 1 0) s).isSome ∧ s.cpus 0 = .on (some 1)) = true := by decide
  obtain ⟨s, hsteps, hs, hcpu⟩ := exists_of_any hsome
  obtain ⟨s', hbegin⟩ := Option.isSome_iff_exists.mp hs
  have hreach := Run.steps .start turns_meet hsteps
  exact ⟨s, hreach, hs, hcpu, context_saved hreach hbegin⟩

/-- Task 0 goes to sleep on CPU 0, and CPU 1 wakes it up and runs it before CPU 0 has stored its context. -/
theorem context_loaded_early : ∃ s, Run Cpus.step (fun _ _ => True) new s ∧ (Cpus.step (.begin 1 0) s).isSome ∧
    s.cpus 0 = .handed (some 0) 1 ∧ (s.tasks 0).saved = false := by
  refine Run.checked [.wake 0 0, .begin 0 0, .hand 0 0, .store 0, .wake 1 0, .leave 0 false, .begin 0 1, .hand 0 0,
    .wake 0 1] ?_
  decide

end Cpus
end Context
end AsterKernel.Sched
