import AsterKernel.Sched.RunQueue

/-!
# `Sched.Processor` — the current tasks of the CPUs

A CPU takes its next task from its queue, or a task yields to another one directly; the task that was current goes back
to a queue. A task is pushed to a queue of a CPU on which it may run. It gets to other CPUs in two ways without a look
at its affinity: `yield_to` runs it on the CPU of the caller, and `pop` gives real-time tasks to any CPU that balances
its load.

Tasks that are not linked are run, put to sleep and woken in ways that are left open.
-/

namespace AsterKernel.Sched

open Lib Lib.Comp Function

/-- The scheduler and `PROCESSOR.current` of the CPUs. -/
structure Cpus where
  sched : State
  current : Nat → Option Nat

abbrev CpuCall (α : Type) := Comp Cpus Empty α

def onSched {α : Type} (c : Call α) : CpuCall α := zoom Cpus.sched (fun t s => { s with sched := t }) c

def setStatus (i : Nat) (status : TaskStatus) : CpuCall Unit :=
  onSched (modify fun s => s.updTask i fun t => { t with status := status })

/-- The part of `switch_to` for the task that was current: if it still runs, it goes back to a queue. -/
def requeue (pf : Platform) (this c : Nat) : CpuCall Unit := do
  let s ← get
  assert (!s.sched.linked pf c)
  match (s.sched.tasks c).status with
  | .running cpu => do
    assert (cpu == this)
    setStatus c .runnable
    onSched (push pf this c)
  | .readyToSleep cpu => do
    assert (cpu == this)
    setStatus c .sleeping
  | .exited => pure ()
  | _ => abort

def switchTo (pf : Platform) (this next : Nat) : CpuCall Unit := do
  let s ← get
  assert (!s.sched.linked pf next)
  assert (s.current this != some next)
  assert ((s.sched.tasks next).status == .runnable)
  setStatus next (.running this)
  modify fun s => { s with current := Function.update s.current this (some next) }
  match s.current this with
  | none => pure ()
  | some c => requeue pf this c

def yieldTo (pf : Platform) (this i : Nat) : CpuCall Unit := do
  let _ ← onSched (orInsertEntity pf i)
  switchTo pf this i

def pickNextTask (pf : Platform) (this : Nat) : Call (Option Nat) := do
  assert (this < pf.numCpus)
  rqPop pf this this

/-- `schedule`, when the current task should be preempted. -/
def schedule (pf : Platform) (this : Nat) : CpuCall Unit := do
  let next ← onSched (pickNextTask pf this)
  match next with
  | none => pure ()
  | some i => switchTo pf this i

/-- The steps of the CPUs, and what happens to a task that is not linked. -/
inductive CpuOp where
  | enqueue (this i : Nat)
  | schedule (this : Nat)
  | loadBalance (this : Nat)
  | yieldTo (this i : Nat)
  | other (i : Nat) (task : TaskState)

def CpuOp.run (pf : Platform) : CpuOp → Cpus → Option Cpus
  | .enqueue this i, s => (onSched (push pf this i) s).final
  | .schedule this, s => (Sched.schedule pf this s).final
  | .loadBalance this, s => (onSched (Sched.loadBalance pf this) s).final
  | .yieldTo this i, s => (Sched.yieldTo pf this i s).final
  | .other i task, s =>
    if s.sched.linked pf i then none else some { s with sched := s.sched.updTask i fun _ => task }

/-- A task that is yielded to may run on the CPU, and so may the real-time tasks of a queue that is balanced. -/
def CpuOp.Respects (pf : Platform) (s : Cpus) : CpuOp → Prop
  | .yieldTo this i => pf.affine i this = true
  | .loadBalance this => ∀ src, busiest pf s.sched = some src → src ≠ this →
      (s.sched.rq this).load < (s.sched.rq src).load → ∀ i ∈ (s.sched.rq src).realTimeTasks, pf.affine i this = true
  | _ => True

/-- No tasks and no current tasks. -/
def Cpus.new : Cpus := ⟨.new, fun _ => none⟩

variable {pf : Platform} {s t : State}

/-! ## Where the tasks are -/

/-- The tasks of the queues of `t` are in those of `s`. -/
def Within (t s : State) : Prop :=
  ∀ cpu, (t.rq cpu).realTimeTasks ⊆ (s.rq cpu).realTimeTasks ∧ (t.rq cpu).normalTasks ⊆ (s.rq cpu).normalTasks

theorem Within.of_rq (h : t.rq = s.rq) : Within t s := by
  intro cpu
  rw [h]
  exact ⟨fun _ => id, fun _ => id⟩

theorem Within.trans {u : State} (hut : Within u t) (hts : Within t s) : Within u s :=
  fun cpu => ⟨fun _ hi => (hts cpu).1 ((hut cpu).1 hi), fun _ hi => (hts cpu).2 ((hut cpu).2 hi)⟩

variable {cpu : Nat}

/-- One queue loses tasks. -/
theorem Within.updRq {f : RunQueue → RunQueue} (hrt : (f (s.rq cpu)).realTimeTasks ⊆ (s.rq cpu).realTimeTasks)
    (hnormal : (f (s.rq cpu)).normalTasks ⊆ (s.rq cpu).normalTasks) : Within (s.updRq cpu f) s := by
  intro c
  by_cases hc : c = cpu
  · subst hc
    rw [State.updRq_self]
    exact ⟨hrt, hnormal⟩
  · rw [State.updRq_of_ne s f hc]
    exact ⟨fun _ => id, fun _ => id⟩

theorem treeRemove_within {i : Nat} {u : Unit} (h : treeRemove cpu i s = .ok u t) : Within t s := by
  unfold treeRemove at h
  rw [get_bind] at h
  obtain ⟨v, -, h⟩ := (bind_ok_of expect_ok).mp h
  cases h
  exact Within.updRq (fun _ => id) List.erase_subset

variable {target : Nat} {r : Option Nat}

theorem popLoop_within {tasks : List Nat}
    (h : popLoop pf cpu target tasks s = .ok r t) : Within t s ∧ ∀ i, r = some i → pf.affine i target = true := by
  induction tasks generalizing s with
  | nil =>
    cases h
    exact ⟨.of_rq rfl, nofun⟩
  | cons i rest ih =>
    unfold popLoop at h
    rw [get_bind] at h
    split at h
    · obtain ⟨_, s₁, hremove, h⟩ := bind_ok.mp h
      obtain ⟨hwithin, haffine⟩ := ih h
      exact ⟨hwithin.trans (treeRemove_within hremove), haffine⟩
    · split at h
      · rename_i haffine
        obtain ⟨_, s₁, hremove, h⟩ := bind_ok.mp h
        cases h
        refine ⟨treeRemove_within hremove, fun j hj => ?_⟩
        cases hj
        exact haffine
      · exact ih h

theorem makeRunnable_rq {i : Nat} {u : Unit} (h : makeRunnable pf cpu i s = .ok u t) : t.rq = s.rq := by
  have hkeeps : Keeps State.rq (makeRunnable pf cpu i) := by
    refine Reads.get.keeps.bind fun _ => Keeps.bind (Keeps.when (Keeps.bind ?_ fun _ => ?_)) fun _ =>
      Reads.get.keeps.bind fun _ => (Reads.assert _).keeps.bind fun _ => Keeps.bind ?_ fun _ =>
      Reads.get.keeps.bind fun _ => (Reads.assert _).keeps
    · exact Reads.get.keeps.bind fun _ => Keeps.bind (Keeps.modify fun _ => id rfl) fun _ => (Reads.pure _).keeps
    · exact Keeps.modify fun _ => id rfl
    · exact Keeps.modify fun _ => id rfl
  exact hkeeps s t (by rw [h]; rfl)

/-- **What a pop gives** is a real-time task of the queue or may run on the target. -/
theorem rqPop_within (h : rqPop pf cpu target s = .ok r t) :
    Within t s ∧ ∀ i, r = some i → i ∈ (s.rq cpu).realTimeTasks ∨ pf.affine i target = true := by
  unfold rqPop at h
  rw [get_bind] at h
  cases hrt : (s.rq cpu).realTimeTasks with
  | cons i rest =>
    rw [hrt] at h
    cases h
    refine ⟨Within.updRq ?_ fun _ => id, fun j hj => ?_⟩
    · rw [hrt]
      exact List.subset_cons_self i rest
    · cases hj
      exact .inl List.mem_cons_self
  | nil =>
    rw [hrt] at h
    obtain ⟨found, s₁, hloop, h⟩ := bind_ok.mp h
    obtain ⟨hwithin, haffine⟩ := popLoop_within hloop
    cases found with
    | none =>
      cases h
      exact ⟨hwithin, nofun⟩
    | some i =>
      obtain ⟨_, s₂, hrunnable, h⟩ := bind_ok.mp h
      cases h
      exact ⟨(Within.of_rq (makeRunnable_rq hrunnable)).trans hwithin, fun j hj => .inr (haffine j hj)⟩

/-- Every task is in a queue of a CPU on which it may run. -/
structure Placed (pf : Platform) (s : State) : Prop where
  realTime : ∀ cpu, ∀ i ∈ (s.rq cpu).realTimeTasks, pf.affine i cpu = true
  normal : ∀ cpu, ∀ i ∈ (s.rq cpu).normalTasks, pf.affine i cpu = true

namespace Placed

theorem within (h : Placed pf s) (hwithin : Within t s) : Placed pf t :=
  ⟨fun cpu i hi => h.realTime cpu i ((hwithin cpu).1 hi), fun cpu i hi => h.normal cpu i ((hwithin cpu).2 hi)⟩

variable {u : Unit}

theorem rqPush (h : Placed pf s) {i : Nat} (haffine : pf.affine i cpu = true)
    (hpush : rqPush pf cpu i s = .ok u t) : Placed pf t := by
  have hother : ∀ {c : Nat}, c ≠ cpu → t.rq c = s.rq c := fun hc => rqPush_other hc hpush
  by_cases hrt : pf.isRealTime i = true
  · obtain ⟨-, rfl⟩ := rqPush_realTime hrt hpush
    refine ⟨fun c j hj => ?_, fun c j hj => ?_⟩
    · by_cases hc : c = cpu
      · subst hc
        rw [State.updRq_self] at hj
        rcases List.mem_append.mp hj with hj | hj
        · exact h.realTime c j hj
        · rw [List.mem_singleton.mp hj]
          exact haffine
      · rw [hother hc] at hj
        exact h.realTime c j hj
    · by_cases hc : c = cpu
      · subst hc
        rw [State.updRq_self] at hj
        exact h.normal c j hj
      · rw [hother hc] at hj
        exact h.normal c j hj
  · obtain ⟨v, hpushed⟩ := rqPush_normal hrt hpush
    refine ⟨fun c j hj => ?_, fun c j hj => ?_⟩
    · by_cases hc : c = cpu
      · subst hc
        rw [hpushed.rq, update_self] at hj
        exact h.realTime c j hj
      · rw [hother hc] at hj
        exact h.realTime c j hj
    · by_cases hc : c = cpu
      · subst hc
        rw [hpushed.rq, update_self] at hj
        rcases (List.mem_orderedInsert _).mp hj with rfl | hj
        · exact haffine
        · exact h.normal c j hj
      · rw [hother hc] at hj
        exact h.normal c j hj

theorem push (h : Placed pf s) {this i : Nat} (hpush : push pf this i s = .ok u t) : Placed pf t := by
  obtain ⟨cpu, -, haffine, hpush⟩ := push_ok hpush
  exact h.rqPush haffine hpush

/-- **Balancing**, when the real-time tasks of the source may run on the target. -/
theorem balanceLoop (h : Placed pf s) {src fuel : Nat} (hne : src ≠ target)
    (haffine : (s.rq target).load < (s.rq src).load → ∀ i ∈ (s.rq src).realTimeTasks, pf.affine i target = true)
    (hloop : balanceLoop pf src target fuel s = .ok u t) : Placed pf t := by
  refine (balanceLoop_keeps (I := fun s => Placed pf s ∧ ((s.rq target).load < (s.rq src).load →
    ∀ i ∈ (s.rq src).realTimeTasks, pf.affine i target = true)) ?_ ⟨h, haffine⟩ hloop).1
  rintro s r s₁ ⟨h, haffine⟩ hless hpop
  obtain ⟨hwithin, hgiven⟩ := rqPop_within hpop
  have hrt : ∀ i ∈ (s₁.rq src).realTimeTasks, pf.affine i target = true :=
    fun i hi => haffine hless i ((hwithin src).1 hi)
  refine ⟨fun _ => ⟨h.within hwithin, fun _ => hrt⟩, fun i t hr hpush => ?_⟩
  refine ⟨(h.within hwithin).rqPush ((hgiven i hr).elim (haffine hless i) id) hpush, fun _ => ?_⟩
  -- the source has lost tasks and got none
  rw [rqPush_other hne hpush]
  exact hrt

theorem loadBalance (h : Placed pf s) {this : Nat}
    (haffine : ∀ src, busiest pf s = some src → src ≠ this → (s.rq this).load < (s.rq src).load →
      ∀ i ∈ (s.rq src).realTimeTasks, pf.affine i this = true)
    (hbalance : loadBalance pf this s = .ok u t) : Placed pf t := by
  rcases loadBalance_ok hbalance with rfl | ⟨src, fuel, hsrc, hne, -, hloop⟩
  · exact h
  · exact h.balanceLoop hne (haffine src hsrc hne) hloop

end Placed

/-! ## The current tasks -/

/-- The tasks are placed, and the current ones may run on their CPUs. -/
structure Cpus.Affine (pf : Platform) (s : Cpus) : Prop where
  placed : Placed pf s.sched
  current : ∀ cpu i, s.current cpu = some i → pf.affine i cpu = true

theorem CpuCall.of_final {α : Type} {c : CpuCall α} {s t : Cpus} (h : (c s).final = some t) : ∃ a, c s = .ok a t := by
  rcases final_cases h with hok | ⟨e, -⟩
  · exact hok
  · exact e.elim

namespace Cpus.Affine

variable {c d : Cpus}

theorem onSched (h : c.Affine pf) {α : Type} {call : Call α} {a : α} (hcall : onSched call c = .ok a d)
    (hplaced : ∀ t, call c.sched = .ok a t → Placed pf t) : d.Affine pf := by
  obtain ⟨t, hok, rfl⟩ := zoom_ok.mp hcall
  exact ⟨hplaced t hok, h.current⟩

variable {u : Unit} {this : Nat}

variable {i : Nat}

section

variable (h : c.Affine pf)
include h

theorem setStatus {status : TaskStatus} (hset : setStatus i status c = .ok u d) : d.Affine pf := by
  refine h.onSched hset fun t ht => ?_
  cases ht
  exact h.placed.within (.of_rq rfl)

theorem requeue (hrequeue : requeue pf this i c = .ok u d) : d.Affine pf := by
  unfold Sched.requeue at hrequeue
  rw [get_bind] at hrequeue
  obtain ⟨-, hrequeue⟩ := assert_bind_ok.mp hrequeue
  cases hstatus : (c.sched.tasks i).status <;> rw [hstatus] at hrequeue
  case running cpu =>
    obtain ⟨-, hrequeue⟩ := assert_bind_ok.mp hrequeue
    obtain ⟨_, c₁, hset, hpush⟩ := bind_ok.mp hrequeue
    have h₁ := h.setStatus hset
    exact h₁.onSched hpush fun t ht => h₁.placed.push ht
  case readyToSleep cpu =>
    obtain ⟨-, hset⟩ := assert_bind_ok.mp hrequeue
    exact h.setStatus hset
  case exited =>
    cases hrequeue
    exact h
  all_goals cases hrequeue

/-- A switch to a task that may run on the CPU. -/
theorem switchTo {next : Nat} (haffine : pf.affine next this = true)
    (hswitch : switchTo pf this next c = .ok u d) : d.Affine pf := by
  unfold Sched.switchTo at hswitch
  rw [get_bind] at hswitch
  obtain ⟨-, hswitch⟩ := assert_bind_ok.mp hswitch
  obtain ⟨-, hswitch⟩ := assert_bind_ok.mp hswitch
  obtain ⟨-, hswitch⟩ := assert_bind_ok.mp hswitch
  obtain ⟨_, c₁, hset, hswitch⟩ := bind_ok.mp hswitch
  have h₁ := h.setStatus hset
  rw [modify_bind] at hswitch
  have h₂ : Cpus.Affine pf { c₁ with current := update c₁.current this (some next) } := by
    refine ⟨h₁.placed, fun cpu i hi => ?_⟩
    dsimp only at hi
    by_cases hcpu : cpu = this
    · subst hcpu
      rw [update_self] at hi
      cases hi
      exact haffine
    · rw [update_of_ne hcpu] at hi
      exact h₁.current cpu i hi
  cases hcur : c.current this with
  | none =>
    rw [hcur] at hswitch
    cases hswitch
    exact h₂
  | some i =>
    rw [hcur] at hswitch
    exact h₂.requeue hswitch

theorem schedule (hschedule : schedule pf this c = .ok u d) : d.Affine pf := by
  obtain ⟨r, c₁, hpick, hschedule⟩ := bind_ok.mp hschedule
  obtain ⟨t, hcall, rfl⟩ := zoom_ok.mp hpick
  obtain ⟨-, hpop⟩ := assert_bind_ok.mp hcall
  obtain ⟨hwithin, hgiven⟩ := rqPop_within hpop
  have h₁ : Cpus.Affine pf { c with sched := t } := ⟨h.placed.within hwithin, h.current⟩
  cases r with
  | none =>
    cases hschedule
    exact h₁
  | some i =>
    refine h₁.switchTo ?_ hschedule
    rcases hgiven i rfl with hi | hi
    · exact h.placed.realTime this i hi
    · exact hi

theorem yieldTo (haffine : pf.affine i this = true) (hyield : yieldTo pf this i c = .ok u d) : d.Affine pf := by
  obtain ⟨v, c₁, hentity, hswitch⟩ := bind_ok.mp hyield
  refine (h.onSched hentity fun t ht => ?_).switchTo haffine hswitch
  exact h.placed.within (.of_rq (orInsertEntity_ok ht).2.2)

theorem run {op : CpuOp} (hrespects : op.Respects pf c) (hrun : op.run pf c = some d) : d.Affine pf := by
  cases op with
  | enqueue this i =>
    obtain ⟨u, hpush⟩ := CpuCall.of_final hrun
    exact h.onSched hpush fun t ht => h.placed.push ht
  | schedule this =>
    obtain ⟨u, hschedule⟩ := CpuCall.of_final hrun
    exact h.schedule hschedule
  | loadBalance this =>
    obtain ⟨u, hbalance⟩ := CpuCall.of_final hrun
    exact h.onSched hbalance fun t ht => h.placed.loadBalance hrespects ht
  | yieldTo this i =>
    obtain ⟨u, hyield⟩ := CpuCall.of_final hrun
    exact h.yieldTo hrespects hyield
  | other i task =>
    simp only [CpuOp.run] at hrun
    split at hrun
    · cases hrun
    · cases hrun
      exact ⟨h.placed.within (.of_rq rfl), h.current⟩

end

end Cpus.Affine

/-- **Affinities are respected** in every run in which no task yields to one that may not run on the CPU, and load is
balanced only when the real-time tasks of the source may run on the target: every current task may run on its CPU. -/
theorem affinity_respected {pf : Platform} {s : Cpus} (h : Run (CpuOp.run pf) (CpuOp.Respects pf) .new s) {cpu i : Nat}
    (hcurrent : s.current cpu = some i) : pf.affine i cpu = true := by
  have hnew : Cpus.new.Affine pf := ⟨⟨fun _ _ => nofun, fun _ _ => nofun⟩, fun _ _ => nofun⟩
  have haffine : s.Affine pf :=
    Run.invariant (I := fun s => s.Affine pf) hnew (fun _ _ _ hs hrespects hrun => hs.run hrespects hrun) h
  exact haffine.current cpu i hcurrent

/-- Two CPUs: a task that may run on the second is enqueued on the first, goes to the second and runs there. -/
theorem affinity_respected_second :
    let pf : Platform := ⟨.release, 2, id, 0, 0, fun _ => ⟨⟨120, by decide⟩, ⟨[false, true]⟩⟩⟩
    ∃ s, Run (CpuOp.run pf) (CpuOp.Respects pf) .new s ∧ s.current 1 = some 8 ∧ pf.affine 8 1 = true := by
  intro pf
  have hsteps : (steps (CpuOp.run pf) [.enqueue 0 8, .schedule 1] .new).map (·.current 1) = some (some 8) := by
    decide +kernel
  obtain ⟨s, hsteps, hcurrent⟩ := Option.map_eq_some_iff.mp hsteps
  have hrun : Run (CpuOp.run pf) (CpuOp.Respects pf) .new s := by
    refine Run.steps .start ?_ hsteps
    exact ⟨trivial, fun _ _ => ⟨trivial, fun _ _ => trivial⟩⟩
  exact ⟨s, hrun, hcurrent, affinity_respected hrun hcurrent⟩

/-- A task may run on the second CPU only: the first one yields to it. And a real-time task may run on the first CPU
only: the second one, which has nothing to do, balances its load and runs it. -/
theorem affinity_ignored : (let pf : Platform := ⟨.release, 2, id, 0, 0, fun _ => ⟨⟨120, by decide⟩, ⟨[false, true]⟩⟩⟩
      ∃ s, Run (CpuOp.run pf) (fun _ _ => True) .new s ∧ s.current 0 = some 8 ∧ pf.affine 8 0 = false) ∧
    let pf : Platform := ⟨.release, 2, id, 0, 0, fun i => ⟨⟨if i = 24 then 10 else 120, by split <;> decide⟩,
      ⟨[true, false]⟩⟩⟩
    ∃ s, Run (CpuOp.run pf) (fun _ _ => True) .new s ∧ s.current 1 = some 24 ∧ pf.affine 24 1 = false := by
  constructor
  · intro pf
    refine Run.checked [.yieldTo 0 8] ?_
    decide +kernel
  · intro pf
    refine Run.checked [.enqueue 0 8, .enqueue 0 16, .enqueue 0 24, .loadBalance 1, .schedule 1] ?_
    decide +kernel

end AsterKernel.Sched
