import AsterKernel.Lib.Ordered
import AsterKernel.Lib.Run
import AsterKernel.Lib.Usize
import Mathlib.Algebra.BigOperators.Group.Finset.Basic
import Mathlib.Algebra.BigOperators.Group.Finset.Piecewise
import Mathlib.Data.Prod.Lex

/-!
# `Sched.RunQueue` — the run queues of the fair scheduler

Every CPU has a queue of real-time tasks and a tree of normal tasks, ordered by the virtual runtime that is kept in the
tasks. The tree is a list in the order of the keys; a task that is not linked may be run, slept and woken, which changes
its status and its virtual runtime. `load` and `num` do not reach `2 ^ 64`.

Tasks are named by their addresses. The time stamp counter is an arbitrary sequence of readings.
-/

namespace AsterKernel.Sched

open Lib Lib.Comp Function List

/-! ## Tasks -/

inductive TaskStatus where
  | runnable
  | ready (cpu : Nat)
  | running (cpu : Nat)
  | sleeping
  | readyToSleep (cpu : Nat)
  | exited
deriving DecidableEq, Repr

structure Priority where
  val : Nat
  valid : val ≤ 139
deriving DecidableEq, Repr

def REAL_TIME_TASK_PRI : Nat := 100

def Priority.isRealTime (p : Priority) : Bool := p.val < REAL_TIME_TASK_PRI

/-- A subtraction of `i8`; `none` is the panic of the `dev` profile. -/
def subI8 (profile : Profile) (a b : Int) : Option Int :=
  if -128 ≤ a - b ∧ a - b ≤ 127 then some (a - b)
  else match profile with
    | .dev => none
    | .release => some (Int.bmod (a - b) 256)

/-- `Priority::as_nice().unwrap()`. -/
def Priority.asNice (profile : Profile) (p : Priority) : Option Int :=
  if p.isRealTime then none
  else do
    let a ← subI8 profile (Int.bmod p.val 256) 100
    subI8 profile a 20

/-- `Nice::new`. -/
def niceNew (raw : Int) : Int := if 19 < raw then 19 else if raw < -20 then -20 else raw

def NICE_TO_WEIGHT : List Nat :=
  [88761, 71755, 56483, 46273, 36291, 29154, 23254, 18705, 14949, 11916, 9548, 7620, 6100, 4904, 3906, 3121, 2501,
    1991, 1586, 1277, 1024, 820, 655, 526, 423, 335, 272, 215, 172, 137, 110, 87, 70, 56, 45, 36, 29, 23, 18, 15]

def niceToWeight (nice : Int) : Nat := NICE_TO_WEIGHT.getD (nice + 20).toNat 0

def WEIGHT_0 : Nat := niceToWeight 0

structure CpuSet where
  bitset : List Bool
deriving DecidableEq, Repr

def CpuSet.contains (set : CpuSet) (cpu : Nat) : Bool := set.bitset[cpu]? == some true

/-- `CpuSet::iter().next()`. -/
def CpuSet.first (set : CpuSet) : Option Nat := set.bitset.findIdx? id

/-- What does not change of a `Task`. -/
structure Task where
  priority : Priority
  cpuAffinity : CpuSet

structure VRuntime where
  key : Nat
  weight : Nat
  vruntime : Nat
  start : Nat
  periodStart : Nat
deriving DecidableEq, Repr

def VRuntime.cmp (v w : VRuntime) : Ordering :=
  ((compare v.vruntime w.vruntime).then (compare v.start w.start)).then (compare v.key w.key)

/-- `VRuntime::get_with_cur`; `none` is a panic. -/
def VRuntime.getWithCur (profile : Profile) (v : VRuntime) (cur : Nat) : Option Nat := do
  let elapsed ← profile.sub usizeCard cur v.start
  let weighted ← profile.mul usizeCard elapsed WEIGHT_0
  profile.add usizeCard v.vruntime (weighted / v.weight)

/-- `VRuntime::tick`; `none` is a panic. -/
def VRuntime.tick (profile : Profile) (load period cur : Nat) (v : VRuntime) : Option (VRuntime × Bool) := do
  let vruntime ← v.getWithCur profile cur
  let elapsed ← profile.sub usizeCard cur v.periodStart
  let weighted ← profile.mul usizeCard elapsed load
  let slice ← profile.mul usizeCard period v.weight
  if load = 0 ∨ period = 0 ∨ weighted = 0 then none
  else if slice < weighted then some ({ v with vruntime := vruntime, start := cur, periodStart := cur }, true)
  else some ({ v with vruntime := vruntime, start := cur }, false)

/-- What changes of a `Task`. -/
structure TaskState where
  status : TaskStatus
  needResched : Bool
  schedEntity : Option VRuntime
deriving DecidableEq, Repr

def TaskState.new : TaskState := ⟨.runnable, false, none⟩

/-! ## The clock ratio -/

/-- The loop of `tsc_factors`, which also ends when `b` is one. -/
def tscLoop (a b : Nat) : Nat × Nat := if 1 < a ∧ 1 < b then tscLoop b (a % b) else (a, b)
termination_by b
decreasing_by exact Nat.mod_lt _ (by omega)

/-- `tsc_factors` for a frequency; `none` is a panic. -/
def tscFactors (freq : Nat) : Option (Nat × Nat) :=
  if freq = 0 then none
  else
    let (a, b) := if 1000000000 < freq then tscLoop freq 1000000000 else tscLoop 1000000000 freq
    let gcd := if a ≤ 1 then b else a
    some (1000000000 / gcd, freq / gcd)

/-- A slice of `ns` nanoseconds in cycles. -/
def sliceClks (p : Profile) (ns a b : Nat) : Option Nat := do
  let scaled ← p.mul usizeCard ns b
  if a = 0 then none else some (scaled / a)

/-- The constants of `period`: `base_slice_clks` and `min_period_clks`. -/
def periodConsts (p : Profile) (freq : Nat) : Option (Nat × Nat) := do
  let (a, b) ← tscFactors freq
  return (← sliceClks p 750000 a b, ← sliceClks p 6000000 a b)

theorem tscLoop_fst {a b : Nat} (ha : 1 < a) (hgcd : a.gcd b ≠ 1) : (tscLoop a b).1 = a.gcd b := by
  induction b using Nat.strong_induction_on generalizing a with
  | _ b ih =>
    unfold tscLoop
    by_cases hb : 1 < b
    · have hnext : b.gcd (a % b) = a.gcd b := by rw [Nat.gcd_comm, ← Nat.gcd_rec, Nat.gcd_comm]
      rw [if_pos ⟨ha, hb⟩, ih (a % b) (Nat.mod_lt _ (by omega)) hb (by rwa [hnext]), hnext]
    · rw [if_neg (by omega)]
      -- the loop also stops at a remainder of one, which is the divisor then
      obtain rfl | rfl : b = 0 ∨ b = 1 := by omega
      · rw [Nat.gcd_zero_right]
      · exact absurd (Nat.gcd_one_right a) hgcd

theorem one_lt_tscLoop_fst {a b : Nat} (ha : 1 < a) : 1 < (tscLoop a b).1 := by
  induction b using Nat.strong_induction_on generalizing a with
  | _ b ih =>
    unfold tscLoop
    split
    case isTrue hb => exact ih (a % b) (Nat.mod_lt _ (by omega)) hb.2
    case isFalse => exact ha

theorem tscFactors_eq {freq : Nat} (hpos : 0 < freq) (hgcd : Nat.gcd 1000000000 freq ≠ 1) :
    tscFactors freq = some (1000000000 / Nat.gcd 1000000000 freq, freq / Nat.gcd 1000000000 freq) := by
  have hgpos : 0 < Nat.gcd 1000000000 freq := Nat.gcd_pos_of_pos_right _ hpos
  rw [tscFactors, if_neg (by omega)]
  have hfst : (if 1000000000 < freq then tscLoop freq 1000000000 else tscLoop 1000000000 freq).1 =
      Nat.gcd 1000000000 freq := by
    split
    · rw [tscLoop_fst (by omega) (by rwa [Nat.gcd_comm]), Nat.gcd_comm]
    · rw [tscLoop_fst (by omega) hgcd]
  simp only [hfst]
  rw [if_neg (by omega)]

theorem sliceClks_eq (p : Profile) {ns a b freq : Nat} (ha : 0 < a) (hratio : a * freq = 1000000000 * b)
    (hfits : ns * b < usizeCard) : sliceClks p ns a b = some (ns * freq / 1000000000) := by
  have hfloor : ns * b / a = ns * freq / 1000000000 := by
    calc ns * b / a = (1000000000 * (ns * b)) / (1000000000 * a) := (Nat.mul_div_mul_left _ _ (by decide)).symm
      _ = (a * (ns * freq)) / (a * 1000000000) := by rw [mul_left_comm, ← hratio, mul_left_comm, mul_comm a 1000000000]
      _ = ns * freq / 1000000000 := Nat.mul_div_mul_left _ _ ha
  rw [sliceClks, Profile.mul_of_lt hfits, ← hfloor]
  exact if_neg (by omega)

/-- A product that does not fit is a panic, or what is left of it is too short by more than a cycle. -/
theorem sliceClks_short (p : Profile) {ns a b freq clks : Nat} (ha : 0 < a) (hle : a ≤ 1000000000)
    (hratio : a * freq = 1000000000 * b) (hover : usizeCard ≤ ns * b) (h : sliceClks p ns a b = some clks) :
    clks * 1000000000 + 1000000000 ≤ ns * freq := by
  rw [sliceClks, Profile.mul, if_neg (by omega)] at h
  cases p with
  | dev => cases h
  | release =>
    obtain rfl := Option.some.inj ((if_neg (by omega)).symm.trans h)
    have hwrapped : ns * b % usizeCard ≤ ns * b - usizeCard := by
      rw [Nat.mod_eq_sub_mod hover]
      exact Nat.mod_le ..
    have hclks : ns * b % usizeCard / a * a + a ≤ ns * b := by
      have := Nat.div_mul_le_self (ns * b % usizeCard) a
      have : 1000000000 ≤ usizeCard := by decide
      omega
    refine Nat.le_of_mul_le_mul_left ?_ ha
    calc a * (ns * b % usizeCard / a * 1000000000 + 1000000000)
        = 1000000000 * (ns * b % usizeCard / a * a + a) := by ring
      _ ≤ 1000000000 * (ns * b) := Nat.mul_le_mul_left _ hclks
      _ = a * (ns * freq) := by rw [mul_left_comm, ← hratio, mul_left_comm]

/-- A number of cycles that is less than one away from `ns` nanoseconds. -/
def WithinCycle (freq ns clks : Nat) : Prop :=
  clks * 1000000000 < ns * freq + 1000000000 ∧ ns * freq < clks * 1000000000 + 1000000000

/-- The factors are in the ratio of the nanoseconds of a second to the frequency, and the slices less than a cycle away
from the exact ones. -/
def ClockRatio (p : Profile) (freq : Nat) : Prop :=
  (∃ a b, tscFactors freq = some (a, b) ∧ 0 < a ∧ 0 < b ∧ a * freq = 1000000000 * b) ∧
  ∃ base min, periodConsts p freq = some (base, min) ∧ WithinCycle freq 750000 base ∧ WithinCycle freq 6000000 min

/-- A frequency without a factor in common with the nanoseconds of a second: what the loop finds is no divisor. -/
theorem tscFactors_not_ratio {freq a b : Nat} (hgcd : Nat.gcd 1000000000 freq = 1)
    (h : tscFactors freq = some (a, b)) (ha : 0 < a) : a * freq ≠ 1000000000 * b := by
  intro hratio
  rw [tscFactors] at h
  split at h
  · cases h
  have hfst : 1 < (if 1000000000 < freq then tscLoop freq 1000000000 else tscLoop 1000000000 freq).1 := by
    split
    · exact one_lt_tscLoop_fst (by omega)
    · exact one_lt_tscLoop_fst (by decide)
  simp only [if_neg (Nat.not_le_of_lt hfst)] at h
  obtain ⟨rfl, rfl⟩ := Prod.mk.inj (Option.some.inj h)
  have hdvd : 1000000000 ∣ 1000000000 / (if 1000000000 < freq then tscLoop freq 1000000000
      else tscLoop 1000000000 freq).1 :=
    Nat.Coprime.dvd_of_dvd_mul_right hgcd ⟨_, hratio⟩
  exact absurd (Nat.le_of_dvd ha hdvd) (Nat.not_le_of_lt (Nat.div_lt_self (by decide) hfst))

/-- **The clock ratio** is right exactly for the frequencies that have a factor in common with the nanoseconds of a
second and, divided by it, leave room for the multiplication. -/
theorem tsc_factors_ratio_iff (p : Profile) {freq : Nat} (hpos : 0 < freq) :
    ClockRatio p freq ↔
      Nat.gcd 1000000000 freq ≠ 1 ∧ 6000000 * (freq / Nat.gcd 1000000000 freq) < usizeCard := by
  by_cases hgcd : Nat.gcd 1000000000 freq = 1
  · refine iff_of_false ?_ fun h => h.1 hgcd
    rintro ⟨⟨a, b, hfactors, ha, -, hratio⟩, -⟩
    exact tscFactors_not_ratio hgcd hfactors ha hratio
  rw [and_iff_right hgcd]
  have hfactors := tscFactors_eq hpos hgcd
  have hleft := Nat.div_mul_cancel (Nat.gcd_dvd_left 1000000000 freq)
  have hright := Nat.div_mul_cancel (Nat.gcd_dvd_right 1000000000 freq)
  have ha : 0 < 1000000000 / Nat.gcd 1000000000 freq := Nat.div_gcd_pos_of_pos_left _ (by decide)
  have hle : 1000000000 / Nat.gcd 1000000000 freq ≤ 1000000000 := Nat.div_le_self ..
  have hb : 0 < freq / Nat.gcd 1000000000 freq := Nat.div_gcd_pos_of_pos_right _ hpos
  generalize 1000000000 / Nat.gcd 1000000000 freq = a at *
  generalize freq / Nat.gcd 1000000000 freq = b at *
  have hratio : a * freq = 1000000000 * b := by
    rw [← hleft, mul_right_comm, mul_assoc, hright]
  constructor
  · rintro ⟨-, base, min, hconsts, -, hmin⟩
    by_contra hover
    simp only [periodConsts, hfactors, Option.bind_eq_bind, Option.bind_some, Option.pure_def,
      Option.bind_eq_some_iff, Option.some.injEq, Prod.mk.injEq] at hconsts
    obtain ⟨_, -, clks, hclks, -, rfl⟩ := hconsts
    exact absurd hmin.2 (Nat.not_lt_of_le (sliceClks_short p ha hle hratio (by omega) hclks))
  · intro hfits
    refine ⟨⟨a, b, hfactors, ha, hb, hratio⟩, 750000 * freq / 1000000000, 6000000 * freq / 1000000000, ?_, ?_, ?_⟩
    · simp [periodConsts, hfactors, sliceClks_eq p ha hratio hfits, sliceClks_eq p ha hratio (by omega : 750000 * b < _)]
    · unfold WithinCycle; omega
    · unfold WithinCycle; omega

theorem tsc_factors_ratio_ghz : ClockRatio .dev 3000000000 :=
  (tsc_factors_ratio_iff .dev (by decide)).mpr (by decide)

/-- The loop stops at a remainder of one, and the other number is taken for the divisor. -/
theorem tsc_factors_coprime : tscFactors 3 = some (333333333, 1) ∧ 333333333 * 3 ≠ 1000000000 * 1 := by
  refine ⟨?_, by decide⟩
  simp [tscFactors, tscLoop]

/-! ## Queues -/

/-- `RunQueue`; `cpu` is its place. -/
structure RunQueue where
  realTimeTasks : List Nat
  normalTasks : List Nat
  load : Nat
  num : Nat
deriving DecidableEq, Repr

def RunQueue.new : RunQueue := ⟨[], [], 0, 0⟩

/-- The machine and the tasks. -/
structure Platform where
  profile : Profile
  numCpus : Nat
  tsc : Nat → Nat
  baseSliceClks : Nat
  minPeriodClks : Nat
  task : Nat → Task

/-- The tasks, the queues of the CPUs and how often the time stamp counter was read. -/
structure State where
  tasks : Nat → TaskState
  rq : Nat → RunQueue
  reads : Nat

abbrev Call (α : Type) := Comp State Empty α

namespace Platform

variable (pf : Platform)

def isRealTime (i : Nat) : Bool := (pf.task i).priority.isRealTime

def affine (i cpu : Nat) : Bool := (pf.task i).cpuAffinity.contains cpu

def weight (i : Nat) : Nat := (((pf.task i).priority.asNice pf.profile).map fun n => niceToWeight (niceNew n)).getD 0

end Platform

namespace State

def updTask (s : State) (i : Nat) (f : TaskState → TaskState) : State :=
  { s with tasks := Function.update s.tasks i (f (s.tasks i)) }

def updRq (s : State) (cpu : Nat) (f : RunQueue → RunQueue) : State :=
  { s with rq := Function.update s.rq cpu (f (s.rq cpu)) }

@[simp] theorem updTask_self (s : State) (i : Nat) (f : TaskState → TaskState) :
    (s.updTask i f).tasks i = f (s.tasks i) := update_self ..

@[simp] theorem updRq_self (s : State) (cpu : Nat) (f : RunQueue → RunQueue) :
    (s.updRq cpu f).rq cpu = f (s.rq cpu) := update_self ..

theorem updRq_of_ne (s : State) {cpu c : Nat} (f : RunQueue → RunQueue) (hc : c ≠ cpu) :
    (s.updRq cpu f).rq c = s.rq c := update_of_ne hc ..

/-- `Task::is_linked`: one link serves both kinds of queues. -/
def linked (pf : Platform) (s : State) (i : Nat) : Bool :=
  (List.range pf.numCpus).any fun cpu => i ∈ (s.rq cpu).realTimeTasks ∨ i ∈ (s.rq cpu).normalTasks

/-- The order of the tree, by the keys as they are now. -/
def before (s : State) (i j : Nat) : Bool :=
  match (s.tasks i).schedEntity, (s.tasks j).schedEntity with
  | some v, some w => v.cmp w == .lt
  | _, _ => false

end State

open State

def tscClockNs (pf : Platform) : Call Nat := do
  let s ← get
  modify fun s => { s with reads := s.reads + 1 }
  pure (pf.tsc s.reads)

/-- `VRuntime::new`. -/
def vruntimeNew (pf : Platform) (i : Nat) : Call VRuntime := do
  let nice ← expect ((pf.task i).priority.asNice pf.profile)
  let now ← tscClockNs pf
  pure ⟨i, niceToWeight (niceNew nice), 0, now, now⟩

/-- `se.entry().or_insert_with(|| VRuntime::new(&task))`. -/
def orInsertEntity (pf : Platform) (i : Nat) : Call VRuntime := do
  let s ← get
  match (s.tasks i).schedEntity with
  | some v => pure v
  | none => do
    let v ← vruntimeNew pf i
    modify fun s => s.updTask i fun t => { t with schedEntity := some v }
    pure v

/-- The insertion of a task into the tree of a CPU. -/
def treeInsert (s : State) (cpu i : Nat) : State :=
  s.updRq cpu fun q => { q with normalTasks := q.normalTasks.orderedInsert (fun a b => s.before a b = true) i }

/-- `RunQueue::push`. -/
def rqPush (pf : Platform) (cpu i : Nat) : Call Unit := do
  if pf.isRealTime i then do
    let s ← get
    assert (!s.linked pf i)
    modify fun s => s.updRq cpu fun q => { q with realTimeTasks := q.realTimeTasks ++ [i] }
  else do
    let s ← get
    assert ((s.tasks i).status == .runnable)
    modify fun s => s.updTask i fun t => { t with status := .ready cpu, needResched := false }
    let v ← orInsertEntity pf i
    modify fun s => s.updRq cpu fun q => { q with load := q.load + v.weight, num := q.num + 1 }
    let s ← get
    assert (!s.linked pf i)
    modify fun s => treeInsert s cpu i

/-- A task leaves the tree of a CPU, and `load` and `num` go down. -/
def State.remove (s : State) (cpu i weight : Nat) : State :=
  s.updRq cpu fun q => { q with normalTasks := q.normalTasks.erase i, load := q.load - weight, num := q.num - 1 }

def treeRemove (cpu i : Nat) : Call Unit := do
  let s ← get
  let v ← expect (s.tasks i).schedEntity
  modify fun s => s.remove cpu i v.weight

/-- The loop of `pop` over the tasks from the front of the tree: tasks that are not ready are dropped, and those that
may not run on the target are passed over. -/
def popLoop (pf : Platform) (cpu target : Nat) : List Nat → Call (Option Nat)
  | [] => pure none
  | i :: rest => do
    let s ← get
    if (s.tasks i).status ≠ .ready cpu then do
      treeRemove cpu i
      popLoop pf cpu target rest
    else if pf.affine i target then do
      treeRemove cpu i
      pure (some i)
    else popLoop pf cpu target rest

/-- A task that was taken out of the tree of a CPU starts to run. -/
def makeRunnable (pf : Platform) (cpu i : Nat) : Call Unit := do
  let s ← get
  when (s.tasks i).schedEntity.isSome do
    let now ← tscClockNs pf
    modify fun s => s.updTask i fun t => { t with schedEntity := t.schedEntity.map fun v => { v with start := now } }
  let s ← get
  assert ((s.tasks i).status == .ready cpu)
  modify fun s => s.updTask i fun t => { t with status := .runnable }
  let s ← get
  assert (!s.linked pf i)

/-- `RunQueue::pop`. -/
def rqPop (pf : Platform) (cpu target : Nat) : Call (Option Nat) := do
  let s ← get
  match (s.rq cpu).realTimeTasks with
  | i :: rest => do
    modify fun s => s.updRq cpu fun q => { q with realTimeTasks := rest }
    pure (some i)
  | [] => do
    let found ← popLoop pf cpu target (s.rq cpu).normalTasks
    match found with
    | none => pure none
    | some i => do
      makeRunnable pf cpu i
      pure (some i)

/-- `self::period`. -/
def period (pf : Platform) (num : Nat) : Option Nat := do
  let minGranClks ← pf.profile.mul usizeCard pf.baseSliceClks (1 + pf.numCpus).log2
  let clks ← pf.profile.mul usizeCard minGranClks num
  pure (max clks pf.minPeriodClks)

/-- The tick of the virtual runtime of the task `i`, the current task of a CPU. -/
def tickEntity (pf : Platform) (cpu i : Nat) (v : VRuntime) : Call Bool := do
  let s ← get
  let load ← expect (pf.profile.add usizeCard (s.rq cpu).load v.weight)
  let clks ← expect (period pf (s.rq cpu).num)
  let now ← tscClockNs pf
  let ticked ← expect (v.tick pf.profile load clks now)
  modify fun s => s.updTask i fun t => { t with schedEntity := some ticked.1 }
  pure ticked.2

/-- `RunQueue::should_preempt`. -/
def shouldPreempt (pf : Platform) (cpu i : Nat) : Call Bool := do
  let s ← get
  match (s.tasks i).schedEntity with
  | none => pure true
  | some v => tickEntity pf cpu i v

/-- `RunQueue::tick`. -/
def rqTick (pf : Platform) (cpu i : Nat) (forceYield : Bool) : Call Unit := do
  let s ← get
  match (s.tasks i).schedEntity with
  | none => pure ()
  | some v =>
    if forceYield then do
      let now ← tscClockNs pf
      modify fun s => s.updTask i fun t =>
        { t with needResched := true, schedEntity := some { v with periodStart := now } }
    else do
      let expired ← tickEntity pf cpu i v
      when expired (modify fun s => s.updTask i fun t => { t with needResched := true })

/-! ## The scheduler -/

/-- `CompletelyFairScheduler::push` on the CPU `this`. -/
def push (pf : Platform) (this i : Nat) : Call Unit := do
  if pf.affine i this then do
    assert (this < pf.numCpus)
    rqPush pf this i
  else do
    let cpu ← expect (pf.task i).cpuAffinity.first
    assert (cpu < pf.numCpus)
    rqPush pf cpu i

/-- `max_by_key`: the second one of equals. -/
def maxByLoad (s : State) (a b : Nat) : Nat := if (s.rq b).load < (s.rq a).load then a else b

/-- The queue with the greatest load, if it has more than one task. -/
def busiest (pf : Platform) (s : State) : Option Nat :=
  match List.range pf.numCpus with
  | [] => none
  | cpu :: cpus =>
    let src := cpus.foldl (maxByLoad s) cpu
    if 0 < (s.rq src).load ∧ 1 < (s.rq src).num then some src else none

/-- The loop of `load_balance`. -/
def balanceLoop (pf : Platform) (src target : Nat) : Nat → Call Unit
  | 0 => pure ()
  | fuel + 1 => do
    let s ← get
    if (s.rq target).load < (s.rq src).load ∧ 1 < (s.rq src).num then do
      let popped ← rqPop pf src target
      match popped with
      | none => pure ()
      | some i => do
        let s ← get
        assert ((s.tasks i).status == .runnable)
        rqPush pf target i
        balanceLoop pf src target fuel
    else pure ()

/-- `CompletelyFairScheduler::load_balance` on the CPU `this`. Every iteration takes a task from the source. -/
def loadBalance (pf : Platform) (this : Nat) : Call Unit := do
  let s ← get
  match busiest pf s with
  | none => pure ()
  | some src => do
    assert (this < pf.numCpus)
    if src = this then pure ()
    else balanceLoop pf src this ((s.rq src).realTimeTasks.length + (s.rq src).normalTasks.length)

/-- `CompletelyFairScheduler::clear`. -/
def clear (i : Nat) : Call Unit := modify fun s => s.updTask i fun t => { t with schedEntity := none }

/-! ## The order of the tree -/

/-- `(vruntime, start, key)`, in lexicographic order. -/
def VRuntime.sortKey (v : VRuntime) : Nat ×ₗ Nat ×ₗ Nat := toLex (v.vruntime, toLex (v.start, v.key))

variable {v w : VRuntime} {i cpu target : Nat} {u : Unit}

theorem VRuntime.cmp_eq_lt : v.cmp w = .lt ↔ v.sortKey < w.sortKey := by
  simp only [VRuntime.cmp, VRuntime.sortKey, Ordering.then_eq_lt, Ordering.then_eq_eq, Nat.compare_eq_lt,
    Nat.compare_eq_eq, Prod.Lex.toLex_lt_toLex]
  omega

theorem VRuntime.sortKey_lt_or_gt (h : v.key ≠ w.key) : v.sortKey < w.sortKey ∨ w.sortKey < v.sortKey := by
  rcases lt_trichotomy v.sortKey w.sortKey with hlt | heq | hgt
  · exact .inl hlt
  · exact absurd (congrArg (fun k => (ofLex (ofLex k).2).2) heq) h
  · exact .inr hgt

variable {pf : Platform} {s t : State}

variable {j : Nat} {tasks : List Nat} {expired : Bool}

theorem State.before_iff : s.before i j = true ↔
    ∃ v w, (s.tasks i).schedEntity = some v ∧ (s.tasks j).schedEntity = some w ∧ v.sortKey < w.sortKey := by
  unfold before
  cases (s.tasks i).schedEntity <;> cases (s.tasks j).schedEntity <;> simp [VRuntime.cmp_eq_lt]

theorem State.before_trans (i j k : Nat) (hij : s.before i j = true) (hjk : s.before j k = true) :
    s.before i k = true := by
  obtain ⟨u, v, hu, hv, huv⟩ := before_iff.mp hij
  obtain ⟨v', w, hv', hw, hvw⟩ := before_iff.mp hjk
  obtain rfl := Option.some.inj (hv.symm.trans hv')
  exact before_iff.mpr ⟨u, w, hu, hw, huv.trans hvw⟩

theorem State.before_irrefl (i : Nat) : ¬ s.before i i = true := by
  intro h
  obtain ⟨v, w, hv, hw, hlt⟩ := before_iff.mp h
  obtain rfl := Option.some.inj (hv.symm.trans hw)
  exact lt_irrefl _ hlt

/-- Tasks that are as they were are in the order they were in. -/
theorem State.before_congr (hi : t.tasks i = s.tasks i) (hj : t.tasks j = s.tasks j) :
    t.before i j = s.before i j := by
  unfold before
  rw [hi, hj]

/-! ## What the operations do -/

theorem State.linked_false : s.linked pf i = false ↔
    ∀ cpu < pf.numCpus, i ∉ (s.rq cpu).realTimeTasks ∧ i ∉ (s.rq cpu).normalTasks := by
  simp [linked, not_or]

theorem State.linked_congr (h : ∀ cpu, (t.rq cpu).realTimeTasks = (s.rq cpu).realTimeTasks ∧
    (t.rq cpu).normalTasks = (s.rq cpu).normalTasks) : t.linked pf i = s.linked pf i := by
  unfold linked
  simp only [(h _).1, (h _).2]

theorem tscClockNs_ok {now : Nat} : tscClockNs pf s = .ok now t ↔
    now = pf.tsc s.reads ∧ t = { s with reads := s.reads + 1 } := by
  constructor
  · intro h
    cases h
    exact ⟨rfl, rfl⟩
  · rintro ⟨rfl, rfl⟩
    rfl

/-- An entity that belongs to a task. -/
def VRuntime.Of (pf : Platform) (i : Nat) (v : VRuntime) : Prop := v.key = i ∧ v.weight = pf.weight i

theorem vruntimeNew_ok (h : vruntimeNew pf i s = .ok v t) : v.Of pf i ∧ t = { s with reads := s.reads + 1 } := by
  obtain ⟨nice, hsome, h⟩ := (bind_ok_of expect_ok).mp h
  obtain ⟨now, s₂, hnow, h⟩ := bind_ok.mp h
  obtain ⟨rfl, rfl⟩ := tscClockNs_ok.mp hnow
  cases h
  refine ⟨⟨rfl, ?_⟩, rfl⟩
  rw [Platform.weight, hsome]
  rfl

/-- The entity that a task has, or a new one. -/
theorem orInsertEntity_ok (h : orInsertEntity pf i s = .ok v t) :
    ((s.tasks i).schedEntity = some v ∨ (s.tasks i).schedEntity = none ∧ v.Of pf i) ∧
      t.tasks = update s.tasks i { s.tasks i with schedEntity := some v } ∧ t.rq = s.rq := by
  unfold orInsertEntity at h
  rw [get_bind] at h
  cases hv : (s.tasks i).schedEntity with
  | some v' =>
    rw [hv] at h
    cases h
    refine ⟨.inl rfl, ?_, rfl⟩
    rw [← hv, update_eq_self]
  | none =>
    rw [hv] at h
    obtain ⟨v', s₁, hnew, h⟩ := bind_ok.mp h
    obtain ⟨hof, rfl⟩ := vruntimeNew_ok hnew
    cases h
    exact ⟨.inr ⟨rfl, hof⟩, rfl, rfl⟩

structure Pushed (pf : Platform) (cpu i : Nat) (v : VRuntime) (s t : State) : Prop where
  runnable : (s.tasks i).status = .runnable
  free : s.linked pf i = false
  entity : (s.tasks i).schedEntity = some v ∨ (s.tasks i).schedEntity = none ∧ v.Of pf i
  tasks : t.tasks = Function.update s.tasks i ⟨.ready cpu, false, some v⟩
  rq : t.rq = Function.update s.rq cpu { s.rq cpu with
      normalTasks := (s.rq cpu).normalTasks.orderedInsert (fun a b => t.before a b = true) i
      load := (s.rq cpu).load + v.weight
      num := (s.rq cpu).num + 1 }

theorem rqPush_realTime (hrt : pf.isRealTime i = true) (h : rqPush pf cpu i s = .ok u t) :
    s.linked pf i = false ∧ t = s.updRq cpu fun q => { q with realTimeTasks := q.realTimeTasks ++ [i] } := by
  unfold rqPush at h
  rw [if_pos hrt, get_bind] at h
  obtain ⟨hfree, h⟩ := assert_bind_ok.mp h
  exact ⟨by simpa using hfree, (modify_ok.mp h).symm⟩

theorem rqPush_normal (hrt : ¬ pf.isRealTime i = true) (h : rqPush pf cpu i s = .ok u t) :
    ∃ v, Pushed pf cpu i v s t := by
  unfold rqPush at h
  rw [if_neg hrt, get_bind] at h
  obtain ⟨hrunnable, h⟩ := assert_bind_ok.mp h
  rw [modify_bind] at h
  obtain ⟨v, s₁, hentity, h⟩ := bind_ok.mp h
  obtain ⟨hentity, htasks, hrq⟩ := orInsertEntity_ok hentity
  rw [modify_bind, get_bind] at h
  obtain ⟨hfree, h⟩ := assert_bind_ok.mp h
  obtain rfl := modify_ok.mp h
  have hupd : (s.updTask i fun t => { t with status := .ready cpu, needResched := false }).tasks i =
      { s.tasks i with status := .ready cpu, needResched := false } := updTask_self ..
  rw [hupd] at hentity htasks
  refine ⟨v, beq_iff_eq.mp hrunnable, ?_, hentity, ?_, ?_⟩
  · rw [Bool.not_eq_true'] at hfree
    rw [← hfree]
    refine (linked_congr fun c => ?_).symm
    by_cases hc : c = cpu
    · subst hc
      simp only [updRq, update_self, hrq]
      exact ⟨rfl, rfl⟩
    · simp only [updRq, update_of_ne hc, hrq]
      exact ⟨rfl, rfl⟩
  · exact htasks.trans (update_idem ..)
  · simp only [treeInsert, updRq, hrq, update_self, update_idem]
    rfl

/-! ## The invariant -/

/-- The trees are in order, have tasks that are ready on their CPU, and `load` and `num` are those of the tree. -/
structure Coherent (pf : Platform) (s : State) : Prop where
  sorted : ∀ cpu, (s.rq cpu).normalTasks.Pairwise fun i j => s.before i j = true
  ready : ∀ cpu, ∀ i ∈ (s.rq cpu).normalTasks, (s.tasks i).status = .ready cpu
  hasEntity : ∀ cpu, ∀ i ∈ (s.rq cpu).normalTasks, (s.tasks i).schedEntity.isSome = true
  normal : ∀ cpu, ∀ i ∈ (s.rq cpu).normalTasks, pf.isRealTime i = false
  realTime : ∀ cpu, ∀ i ∈ (s.rq cpu).realTimeTasks, pf.isRealTime i = true
  entity : ∀ i v, (s.tasks i).schedEntity = some v → v.Of pf i
  load : ∀ cpu, (s.rq cpu).load = ((s.rq cpu).normalTasks.map pf.weight).sum
  num : ∀ cpu, (s.rq cpu).num = (s.rq cpu).normalTasks.length
  bounded : ∀ cpu, pf.numCpus ≤ cpu → (s.rq cpu).realTimeTasks = [] ∧ (s.rq cpu).normalTasks = []

def State.new : State := ⟨fun _ => .new, fun _ => .new, 0⟩

namespace Coherent

theorem new : Coherent pf .new where
  sorted _ := .nil
  ready _ _ h := by cases h
  hasEntity _ _ h := by cases h
  normal _ _ h := by cases h
  realTime _ _ h := by cases h
  entity _ _ h := by cases h
  load _ := rfl
  num _ := rfl
  bounded _ _ := ⟨rfl, rfl⟩

/-- What is coherent about the queue of one CPU. -/
structure On (pf : Platform) (s : State) (cpu : Nat) : Prop where
  sorted : (s.rq cpu).normalTasks.Pairwise fun i j => s.before i j = true
  ready : ∀ i ∈ (s.rq cpu).normalTasks, (s.tasks i).status = .ready cpu
  hasEntity : ∀ i ∈ (s.rq cpu).normalTasks, (s.tasks i).schedEntity.isSome = true
  normal : ∀ i ∈ (s.rq cpu).normalTasks, pf.isRealTime i = false
  realTime : ∀ i ∈ (s.rq cpu).realTimeTasks, pf.isRealTime i = true
  load : (s.rq cpu).load = ((s.rq cpu).normalTasks.map pf.weight).sum
  num : (s.rq cpu).num = (s.rq cpu).normalTasks.length
  bounded : pf.numCpus ≤ cpu → (s.rq cpu).realTimeTasks = [] ∧ (s.rq cpu).normalTasks = []

theorem of_on (hentity : ∀ i v, (s.tasks i).schedEntity = some v → v.Of pf i) (h : ∀ cpu, On pf s cpu) :
    Coherent pf s :=
  ⟨fun c => (h c).sorted, fun c => (h c).ready, fun c => (h c).hasEntity, fun c => (h c).normal,
    fun c => (h c).realTime, hentity, fun c => (h c).load, fun c => (h c).num, fun c => (h c).bounded⟩

theorem On.before (h : On pf s cpu) (htasks : ∀ j ∈ (s.rq cpu).normalTasks, t.tasks j = s.tasks j) :
    (s.rq cpu).normalTasks.Pairwise fun i j => t.before i j = true := by
  refine h.sorted.imp_of_mem fun hj hk hjk => ?_
  rw [before_congr (htasks _ hj) (htasks _ hk)]
  exact hjk

/-- A queue that does not change, and its tasks do not. -/
theorem On.congr (h : On pf s cpu) (hrq : t.rq cpu = s.rq cpu)
    (htasks : ∀ j ∈ (s.rq cpu).normalTasks, t.tasks j = s.tasks j) : On pf t cpu := by
  constructor <;> rw [hrq]
  · exact h.before htasks
  · exact fun j hj => htasks j hj ▸ h.ready j hj
  · exact fun j hj => htasks j hj ▸ h.hasEntity j hj
  · exact h.normal
  · exact h.realTime
  · exact h.load
  · exact h.num
  · exact h.bounded

section

variable (h : Coherent pf s)
include h

theorem queue (cpu : Nat) : On pf s cpu :=
  ⟨h.sorted cpu, h.ready cpu, h.hasEntity cpu, h.normal cpu, h.realTime cpu, h.load cpu, h.num cpu, h.bounded cpu⟩

theorem not_mem (hfree : s.linked pf i = false) (cpu : Nat) :
    i ∉ (s.rq cpu).realTimeTasks ∧ i ∉ (s.rq cpu).normalTasks := by
  by_cases hcpu : cpu < pf.numCpus
  · exact linked_false.mp hfree cpu hcpu
  · obtain ⟨hrt, hnormal⟩ := h.bounded cpu (Nat.le_of_not_lt hcpu)
    rw [hrt, hnormal]
    exact ⟨not_mem_nil, not_mem_nil⟩

theorem unlinked (hfree : s.linked pf i = false) (hrq : t.rq = s.rq)
    (htasks : ∀ j ≠ i, t.tasks j = s.tasks j) (hentity : ∀ v, (t.tasks i).schedEntity = some v → v.Of pf i) :
    Coherent pf t := by
  refine .of_on (fun j v hv => ?_) fun cpu => (h.queue cpu).congr (congrFun hrq cpu) fun j hj => htasks j fun hji => ?_
  · by_cases hji : j = i
    · subst hji
      exact hentity v hv
    · rw [htasks j hji] at hv
      exact h.entity j v hv
  · exact (h.not_mem hfree cpu).2 (hji ▸ hj)

theorem setRealTime (hrt : ∀ i ∈ tasks, pf.isRealTime i = true)
    (hcpu : pf.numCpus ≤ cpu → tasks = []) : Coherent pf (s.updRq cpu fun q => { q with realTimeTasks := tasks }) := by
  refine .of_on h.entity fun c => ?_
  by_cases hc : c = cpu
  · subst hc
    have hself := updRq_self s c fun q => { q with realTimeTasks := tasks }
    constructor <;> rw [hself]
    · exact h.sorted c
    · exact h.ready c
    · exact h.hasEntity c
    · exact h.normal c
    · exact hrt
    · exact h.load c
    · exact h.num c
    · exact fun hge => ⟨hcpu hge, (h.bounded c hge).2⟩
  · exact (h.queue c).congr (updRq_of_ne s _ hc) fun _ _ => rfl

/-- **A normal task is pushed.** -/
theorem pushed (hcpu : cpu < pf.numCpus) (hnormal : pf.isRealTime i = false)
    (hpushed : Pushed pf cpu i v s t) : Coherent pf t := by
  have hof : v.Of pf i := hpushed.entity.elim (h.entity i v) And.right
  have hself : t.tasks i = ⟨.ready cpu, false, some v⟩ := by rw [hpushed.tasks, update_self]
  have hother : ∀ {j : Nat}, j ≠ i → t.tasks j = s.tasks j := by
    intro j hj
    rw [hpushed.tasks, update_of_ne hj]
  have hlinked : ∀ c, ∀ j ∈ (s.rq c).normalTasks, j ≠ i := by
    intro c j hj hji
    exact (h.not_mem hpushed.free c).2 (hji ▸ hj)
  refine .of_on (fun j w hw => ?_) fun c => ?_
  · by_cases hji : j = i
    · subst hji
      rw [hself] at hw
      cases hw
      exact hof
    · rw [hother hji] at hw
      exact h.entity j w hw
  by_cases hc : c = cpu
  case neg => exact (h.queue c).congr (by rw [hpushed.rq, update_of_ne hc]) fun j hj => hother (hlinked c j hj)
  subst hc
  have hold := (h.queue c).before fun j hj => hother (hlinked c j hj)
  constructor <;> rw [hpushed.rq, update_self] <;> dsimp only
  · refine pairwise_orderedInsert before_trans (fun j hj => ?_) hold
    -- a task of the tree has a key of its own
    obtain ⟨w, hw⟩ := Option.isSome_iff_exists.mp (h.hasEntity c j hj)
    have hne : v.key ≠ w.key := by
      rw [hof.1, (h.entity j w hw).1]
      exact (hlinked c j hj).symm
    have hi : (t.tasks i).schedEntity = some v := by rw [hself]
    have hj' : (t.tasks j).schedEntity = some w := by rw [hother (hlinked c j hj), hw]
    rcases VRuntime.sortKey_lt_or_gt hne with hlt | hlt
    · exact .inl (before_iff.mpr ⟨v, w, hi, hj', hlt⟩)
    · exact .inr (before_iff.mpr ⟨w, v, hj', hi, hlt⟩)
  · simp only [mem_orderedInsert, forall_eq_or_imp, hself, true_and]
    intro j hj
    rw [hother (hlinked c j hj)]
    exact h.ready c j hj
  · simp only [mem_orderedInsert, forall_eq_or_imp, hself, Option.isSome_some, true_and]
    intro j hj
    rw [hother (hlinked c j hj)]
    exact h.hasEntity c j hj
  · simp only [mem_orderedInsert, forall_eq_or_imp]
    exact ⟨hnormal, h.normal c⟩
  · exact h.realTime c
  · have hperm := ((perm_orderedInsert (fun a b => t.before a b = true) i (s.rq c).normalTasks).map pf.weight).sum_eq
    rw [hperm, map_cons, sum_cons, ← h.load, hof.2, add_comm]
  · rw [orderedInsert_length, h.num]
  · exact fun hge => absurd hcpu (Nat.not_lt_of_le hge)

end

end Coherent

/-! ## Pop -/

section

variable (hready : ∀ i ∈ tasks, (s.tasks i).status = .ready cpu)
include hready

theorem popLoop_none
    (hfind : tasks.find? (fun i => pf.affine i target) = none) : popLoop pf cpu target tasks s = .ok none s := by
  induction tasks with
  | nil => rfl
  | cons i rest ih =>
    have hnone := find?_eq_none.mp hfind
    unfold popLoop
    rw [get_bind, if_neg (not_not_intro (hready i mem_cons_self)), if_neg (hnone i mem_cons_self)]
    exact ih (fun j hj => hready j (mem_cons_of_mem i hj))
      (find?_eq_none.mpr fun j hj => hnone j (mem_cons_of_mem i hj))

theorem popLoop_some
    (hfind : tasks.find? (fun i => pf.affine i target) = some i) (hv : (s.tasks i).schedEntity = some v) :
    popLoop pf cpu target tasks s = .ok (some i) (s.remove cpu i v.weight) := by
  induction tasks with
  | nil => cases hfind
  | cons j rest ih =>
    unfold popLoop
    rw [get_bind, if_neg (not_not_intro (hready j mem_cons_self))]
    cases haffine : pf.affine j target with
    | true =>
      rw [find?_cons, haffine] at hfind
      cases hfind
      refine bind_ok.mpr ⟨(), _, ?_, rfl⟩
      unfold treeRemove
      rw [get_bind, hv]
      rfl
    | false =>
      rw [find?_cons, haffine] at hfind
      exact ih (fun k hk => hready k (mem_cons_of_mem j hk)) hfind

end

structure Popped (cpu i : Nat) (v : VRuntime) (s t : State) : Prop where
  mem : i ∈ (s.rq cpu).normalTasks
  entity : (s.tasks i).schedEntity = some v
  tasks : ∃ now, t.tasks = Function.update s.tasks i
    { s.tasks i with status := .runnable, schedEntity := some { v with start := now } }
  rq : t.rq = Function.update s.rq cpu { s.rq cpu with
      normalTasks := (s.rq cpu).normalTasks.erase i
      load := (s.rq cpu).load - v.weight
      num := (s.rq cpu).num - 1 }

namespace Coherent

variable {cpu i target : Nat}

section

variable (h : Coherent pf s)
include h

/-- A task is in one queue, once. -/
theorem unique {c : Nat} (hi : i ∈ (s.rq cpu).normalTasks) :
    i ∉ (s.rq c).realTimeTasks ∧ (i ∈ (s.rq c).normalTasks → c = cpu) := by
  refine ⟨fun hrt => ?_, fun hc => ?_⟩
  · have hnormal := h.normal cpu i hi
    rw [h.realTime c i hrt] at hnormal
    cases hnormal
  · have hready := (h.ready c i hc).symm.trans (h.ready cpu i hi)
    exact TaskStatus.ready.inj hready

theorem nodup (cpu : Nat) : (s.rq cpu).normalTasks.Nodup := by
  refine (h.sorted cpu).imp fun {i j} hij heq => ?_
  subst heq
  exact before_irrefl i hij

theorem makeRunnable_ok (hmem : i ∈ (s.rq cpu).normalTasks) (hv : (s.tasks i).schedEntity = some v) :
    ∃ t, makeRunnable pf cpu i (s.remove cpu i v.weight) = .ok () t ∧ Popped cpu i v s t := by
  let s₁ : State := s.remove cpu i v.weight
  let s₂ : State := { s₁ with reads := s.reads + 1 }.updTask i fun t =>
    { t with schedEntity := t.schedEntity.map fun w : VRuntime => { w with start := pf.tsc s.reads } }
  let s₃ : State := s₂.updTask i fun t => { t with status := .runnable }
  have htask₂ : s₂.tasks i = { s.tasks i with schedEntity := some { v with start := pf.tsc s.reads } } := by
    refine (update_self ..).trans ?_
    exact congrArg (TaskState.mk _ _) (congrArg _ hv)
  have hfree : s₃.linked pf i = false := by
    refine linked_false.mpr fun c _ => ?_
    change i ∉ (s₁.rq c).realTimeTasks ∧ i ∉ (s₁.rq c).normalTasks
    unfold s₁ remove
    by_cases hc : c = cpu
    · subst hc
      rw [updRq_self]
      exact ⟨(h.unique hmem).1, (h.nodup c).not_mem_erase⟩
    · rw [updRq_of_ne s _ hc]
      exact ⟨(h.unique hmem).1, fun hin => hc ((h.unique hmem).2 hin)⟩
  refine ⟨s₃, ?_, hmem, hv, ⟨pf.tsc s.reads, ?_⟩, rfl⟩
  · unfold makeRunnable
    rw [get_bind]
    refine bind_ok.mpr ⟨(), s₂, ?_, ?_⟩
    · have hsome : (s₁.tasks i).schedEntity.isSome = true := Option.isSome_iff_exists.mpr ⟨v, hv⟩
      rw [hsome]
      rfl
    · rw [get_bind]
      refine bind_ok.mpr ⟨(), s₂, assert_ok.mpr ⟨?_, rfl⟩, ?_⟩
      · rw [htask₂, h.ready cpu i hmem]
        exact beq_self_eq_true _
      · rw [modify_bind, get_bind]
        refine assert_ok.mpr ⟨?_, rfl⟩
        exact congrArg (! ·) hfree
  · change update s₂.tasks i { s₂.tasks i with status := .runnable } = _
    rw [htask₂]
    exact update_idem ..

/-- **A pop without real-time tasks** gives the first task of the tree that may run on the target. -/
theorem rqPop_none (hrt : (s.rq cpu).realTimeTasks = [])
    (hfind : (s.rq cpu).normalTasks.find? (fun i => pf.affine i target) = none) :
    rqPop pf cpu target s = .ok none s := by
  unfold rqPop
  rw [get_bind, hrt]
  exact bind_ok.mpr ⟨none, s, popLoop_none (h.ready cpu) hfind, rfl⟩

theorem rqPop_some (hrt : (s.rq cpu).realTimeTasks = [])
    (hfind : (s.rq cpu).normalTasks.find? (fun i => pf.affine i target) = some i) :
    ∃ v t, rqPop pf cpu target s = .ok (some i) t ∧ Popped cpu i v s t := by
  have hmem : i ∈ (s.rq cpu).normalTasks := mem_of_find?_eq_some hfind
  obtain ⟨v, hv⟩ := Option.isSome_iff_exists.mp (h.hasEntity cpu i hmem)
  obtain ⟨t, hrunnable, hpopped⟩ := h.makeRunnable_ok hmem hv
  refine ⟨v, t, ?_, hpopped⟩
  unfold rqPop
  rw [get_bind, hrt]
  refine bind_ok.mpr ⟨some i, _, popLoop_some (h.ready cpu) hfind hv, ?_⟩
  exact bind_ok.mpr ⟨(), t, hrunnable, rfl⟩

/-- **A normal task is popped.** -/
theorem popped (hpopped : Popped cpu i v s t) : Coherent pf t := by
  obtain ⟨now, htasks⟩ := hpopped.tasks
  have hother : ∀ {j : Nat}, j ≠ i → t.tasks j = s.tasks j := by
    intro j hj
    rw [htasks, update_of_ne hj]
  refine .of_on (fun j w hw => ?_) fun c => ?_
  · by_cases hji : j = i
    · subst hji
      rw [htasks, update_self] at hw
      cases hw
      exact h.entity j v hpopped.entity
    · rw [hother hji] at hw
      exact h.entity j w hw
  by_cases hc : c = cpu
  case neg =>
    refine (h.queue c).congr (by rw [hpopped.rq, update_of_ne hc]) fun j hj => hother fun hji => ?_
    exact hc ((h.unique hpopped.mem).2 (hji ▸ hj))
  subst hc
  have hsame : ∀ j ∈ (s.rq c).normalTasks.erase i, t.tasks j = s.tasks j := by
    intro j hj
    exact hother fun hji => (h.nodup c).not_mem_erase (hji ▸ hj)
  have hsum := ((perm_cons_erase hpopped.mem).map pf.weight).sum_eq
  rw [map_cons, sum_cons, ← h.load, ← (h.entity i v hpopped.entity).2] at hsum
  constructor <;> rw [hpopped.rq, update_self] <;> dsimp only
  · refine ((h.sorted c).sublist erase_sublist).imp_of_mem fun hj hk hjk => ?_
    rw [before_congr (hsame _ hj) (hsame _ hk)]
    exact hjk
  · exact fun j hj => hsame j hj ▸ h.ready c j (mem_of_mem_erase hj)
  · exact fun j hj => hsame j hj ▸ h.hasEntity c j (mem_of_mem_erase hj)
  · exact fun j hj => h.normal c j (mem_of_mem_erase hj)
  · exact h.realTime c
  · omega
  · rw [length_erase_of_mem hpopped.mem, h.num]
  · intro hge
    have hnil := (h.bounded c hge).2
    exact ⟨(h.bounded c hge).1, by rw [hnil, erase_nil]⟩

end

variable {r : Option Nat}

section

variable (h : Coherent pf s) (hpop : rqPop pf cpu target s = .ok r t)
include h hpop

theorem rqPop_cases : r = none ∧ t = s ∨ (∃ i rest, r = some i ∧ (s.rq cpu).realTimeTasks = i :: rest ∧
        t = s.updRq cpu fun q => { q with realTimeTasks := rest }) ∨
      ∃ i v, r = some i ∧ Popped cpu i v s t := by
  cases hrt : (s.rq cpu).realTimeTasks with
  | cons i rest =>
    unfold rqPop at hpop
    rw [get_bind, hrt] at hpop
    cases hpop
    exact .inr (.inl ⟨i, rest, rfl, rfl, rfl⟩)
  | nil =>
    cases hfind : (s.rq cpu).normalTasks.find? (fun i => pf.affine i target) with
    | none =>
      rw [h.rqPop_none hrt hfind] at hpop
      cases hpop
      exact .inl ⟨rfl, rfl⟩
    | some i =>
      obtain ⟨v, t', hok, hpopped⟩ := h.rqPop_some hrt hfind
      rw [hok] at hpop
      cases hpop
      exact .inr (.inr ⟨i, v, rfl, hpopped⟩)

/-- A queue that does not give a real-time task gives its first task that may run on the target. -/
theorem rqPop_find (hnormal : ∀ i, r = some i → pf.isRealTime i = false) :
    r = (s.rq cpu).normalTasks.find? fun i => pf.affine i target := by
  have hrt : (s.rq cpu).realTimeTasks = [] := by
    by_contra hcons
    obtain ⟨i, rest, hrt⟩ := exists_cons_of_ne_nil hcons
    unfold Sched.rqPop at hpop
    rw [get_bind, hrt] at hpop
    cases hpop
    have := h.realTime cpu i (hrt ▸ mem_cons_self)
    rw [hnormal i rfl] at this
    cases this
  cases hfind : (s.rq cpu).normalTasks.find? (fun i => pf.affine i target) with
  | none =>
    rw [h.rqPop_none hrt hfind] at hpop
    cases hpop
    rfl
  | some i =>
    obtain ⟨v, t', hok, -⟩ := h.rqPop_some hrt hfind
    rw [hok] at hpop
    cases hpop
    rfl

theorem rqPop : Coherent pf t := by
  rcases h.rqPop_cases hpop with ⟨-, rfl⟩ | ⟨i, rest, -, hrt, rfl⟩ | ⟨i, v, -, hpopped⟩
  · exact h
  · refine h.setRealTime (fun j hj => h.realTime cpu j ?_) fun hcpu => ?_
    · rw [hrt]
      exact mem_cons_of_mem i hj
    · have hnil := (h.bounded cpu hcpu).1
      rw [hrt] at hnil
      cases hnil
  · exact h.popped hpopped

end

theorem rqPush (h : Coherent pf s) (hcpu : cpu < pf.numCpus)
    (hpush : rqPush pf cpu i s = .ok u t) : Coherent pf t := by
  by_cases hrt : pf.isRealTime i = true
  · obtain ⟨-, rfl⟩ := rqPush_realTime hrt hpush
    refine h.setRealTime (fun j hj => ?_) fun hge => absurd hcpu (Nat.not_lt_of_le hge)
    rcases mem_append.mp hj with hj | hj
    · exact h.realTime cpu j hj
    · rw [mem_singleton.mp hj]
      exact hrt
  · obtain ⟨v, hpushed⟩ := rqPush_normal hrt hpush
    exact h.pushed hcpu (Bool.eq_false_iff.mpr hrt) hpushed

end Coherent

/-! ## The tasks that are queued -/

def RunQueue.bag (q : RunQueue) : Multiset Nat := ↑(q.realTimeTasks ++ q.normalTasks)

def queued (pf : Platform) (s : State) : Multiset Nat := ∑ cpu ∈ Finset.range pf.numCpus, (s.rq cpu).bag

variable {q : RunQueue}

section

variable (hcpu : cpu < pf.numCpus) (hrq : t.rq = update s.rq cpu q)
include hcpu hrq

/-- One queue changes. -/
theorem queued_update : queued pf t + (s.rq cpu).bag = queued pf s + q.bag := by
  have hmem : cpu ∈ Finset.range pf.numCpus := Finset.mem_range.mpr hcpu
  have hbag : ∀ c, (t.rq c).bag = update (fun c => (s.rq c).bag) cpu q.bag c := by
    intro c
    rw [hrq]
    by_cases hc : c = cpu
    · subst hc
      rw [update_self, update_self]
    · rw [update_of_ne hc, update_of_ne hc]
  unfold queued
  simp only [hbag]
  rw [Finset.sum_update_of_mem hmem, Finset.sum_eq_add_sum_sdiff_singleton_of_mem hmem fun c => (s.rq c).bag]
  ac_rfl

theorem queued_cons
    (hperm : (q.realTimeTasks ++ q.normalTasks).Perm (i :: ((s.rq cpu).realTimeTasks ++ (s.rq cpu).normalTasks))) :
    queued pf t = i ::ₘ queued pf s := by
  have hbag : q.bag = i ::ₘ (s.rq cpu).bag := Multiset.coe_eq_coe.mpr hperm
  have hupdate := queued_update hcpu hrq
  rw [hbag, Multiset.add_cons, ← Multiset.cons_add] at hupdate
  exact add_right_cancel hupdate

theorem queued_uncons
    (hperm : ((s.rq cpu).realTimeTasks ++ (s.rq cpu).normalTasks).Perm (i :: (q.realTimeTasks ++ q.normalTasks))) :
    queued pf s = i ::ₘ queued pf t := by
  refine queued_cons hcpu (q := s.rq cpu) (by rw [hrq, update_idem, update_eq_self]) ?_
  rw [hrq, update_self]
  exact hperm

end

theorem queued_rqPush (hcpu : cpu < pf.numCpus) (hpush : rqPush pf cpu i s = .ok u t) :
    queued pf t = i ::ₘ queued pf s := by
  by_cases hrt : pf.isRealTime i = true
  · obtain ⟨-, rfl⟩ := rqPush_realTime hrt hpush
    refine queued_cons hcpu rfl ?_
    rw [append_assoc]
    exact perm_middle
  · obtain ⟨v, hpushed⟩ := rqPush_normal hrt hpush
    refine queued_cons hcpu hpushed.rq ?_
    exact ((perm_orderedInsert _ i _).append_left _).trans perm_middle

theorem queued_rqPop (h : Coherent pf s) {r : Option Nat} (hpop : rqPop pf cpu target s = .ok r t) :
    (r = none → queued pf t = queued pf s) ∧ ∀ i, r = some i → queued pf s = i ::ₘ queued pf t := by
  have hcpu : ∀ {i : Nat}, i ∈ (s.rq cpu).realTimeTasks ++ (s.rq cpu).normalTasks → cpu < pf.numCpus := by
    intro i hi
    by_contra hge
    obtain ⟨hrt, hnormal⟩ := h.bounded cpu (Nat.le_of_not_lt hge)
    rw [hrt, hnormal] at hi
    cases hi
  rcases h.rqPop_cases hpop with ⟨rfl, rfl⟩ | ⟨i, rest, rfl, hrt, rfl⟩ | ⟨i, v, rfl, hpopped⟩
  · exact ⟨fun _ => rfl, nofun⟩
  · refine ⟨nofun, fun j hj => ?_⟩
    cases hj
    refine queued_uncons (hcpu (i := i) ?_) rfl ?_
    · rw [hrt]
      exact mem_cons_self
    · rw [hrt]
      exact List.Perm.refl _
  · refine ⟨nofun, fun j hj => ?_⟩
    cases hj
    refine queued_uncons (hcpu (mem_append_right _ hpopped.mem)) hpopped.rq ?_
    exact ((perm_cons_erase hpopped.mem).append_left _).trans perm_middle

/-! ## Load balancing -/

/-- The tasks that balancing can move from `src` to `target`, in the order in which it moves them: those that may run
there, as long as the source keeps one task. -/
def movable (pf : Platform) (s : State) (src target : Nat) : List Nat :=
  ((s.rq src).normalTasks.filter fun i => pf.affine i target).take ((s.rq src).num - 1)

theorem filter_of_find? {α : Type} [DecidableEq α] {p : α → Bool} {a : α} {l : List α} (h : l.find? p = some a) :
    l.filter p = a :: (l.erase a).filter p := by
  have ha := List.find?_some h
  induction l with
  | nil => cases h
  | cons b l ih =>
    cases hb : p b with
    | true =>
      obtain rfl : b = a := by simpa [find?_cons, hb] using h
      rw [filter_cons_of_pos hb, erase_cons_head]
    | false =>
      have hne : ¬ b = a := fun heq => by rw [heq, ha] at hb; cases hb
      rw [find?_cons, hb] at h
      rw [filter_cons_of_neg (by simp [hb]), ih h, erase_cons_tail (by simpa using hne), filter_cons_of_neg (by simp [hb])]

/-- No task is moved that takes the weights which have been moved, `w` to begin with, beyond the gap between the loads.
Tasks are moved until the weights reach half the gap. -/
def NoOvershoot (weight : Nat → Nat) (gap w : Nat) (tasks : List Nat) : Prop :=
  ∀ before i, before ++ [i] <+: tasks → 2 * (w + (before.map weight).sum) < gap →
    w + (before.map weight).sum + weight i ≤ gap

section

variable {weight : Nat → Nat} {gap w : Nat} {tasks : List Nat}

theorem NoOvershoot.nil : NoOvershoot weight gap w [] := by
  intro before i hpre
  simp at hpre

theorem NoOvershoot.of_le (h : gap ≤ 2 * w) : NoOvershoot weight gap w tasks := by
  intro before i _ hlt
  omega

theorem noOvershoot_cons : NoOvershoot weight gap w (i :: tasks) ↔
    (2 * w < gap → w + weight i ≤ gap) ∧ NoOvershoot weight gap (w + weight i) tasks := by
  constructor
  · intro h
    refine ⟨fun hlt => h [] i (by simp) hlt, fun before j hpre hlt => ?_⟩
    have := h (i :: before) j (by simpa using hpre)
    rw [map_cons, sum_cons] at this
    omega
  · rintro ⟨hfirst, hrest⟩ before j hpre hlt
    cases before with
    | nil =>
      obtain rfl : j = i := by simpa using hpre
      exact hfirst hlt
    | cons k before =>
      obtain ⟨rfl, hbefore⟩ := cons_prefix_cons.mp hpre
      have := hrest before j hbefore
      rw [map_cons, sum_cons] at hlt ⊢
      omega

end

theorem rqPush_other {c : Nat} (hc : c ≠ cpu) (hpush : rqPush pf cpu i s = .ok u t) : t.rq c = s.rq c := by
  by_cases hrt : pf.isRealTime i = true
  · obtain ⟨-, rfl⟩ := rqPush_realTime hrt hpush
    exact updRq_of_ne s _ hc
  · obtain ⟨v, hpushed⟩ := rqPush_normal hrt hpush
    rw [hpushed.rq, update_of_ne hc]

section

variable {src fuel : Nat}

theorem balanceLoop_keeps {I : State → Prop}
    (hstep : ∀ s r s₁, I s → (s.rq target).load < (s.rq src).load → rqPop pf src target s = .ok r s₁ →
      (r = none → I s₁) ∧ ∀ i t, r = some i → rqPush pf target i s₁ = .ok () t → I t)
    (h : I s) (hloop : balanceLoop pf src target fuel s = .ok u t) : I t := by
  induction fuel generalizing s with
  | zero =>
    cases hloop
    exact h
  | succ fuel ih =>
    unfold balanceLoop at hloop
    rw [get_bind] at hloop
    split at hloop
    · rename_i hcond
      obtain ⟨r, s₁, hpop, hloop⟩ := bind_ok.mp hloop
      obtain ⟨hnone, hmove⟩ := hstep s r s₁ h hcond.1 hpop
      cases r with
      | none =>
        cases hloop
        exact hnone rfl
      | some i =>
        dsimp only at hloop
        rw [get_bind] at hloop
        obtain ⟨-, hloop⟩ := assert_bind_ok.mp hloop
        obtain ⟨_, s₂, hpush, hloop⟩ := bind_ok.mp hloop
        exact ih (hmove i s₂ rfl hpush) hloop
    · cases hloop
      exact h

theorem loadBalance_ok {this : Nat} (hbalance : loadBalance pf this s = .ok u t) :
    t = s ∨ ∃ src fuel, busiest pf s = some src ∧ src ≠ this ∧ this < pf.numCpus ∧
      balanceLoop pf src this fuel s = .ok u t := by
  unfold loadBalance at hbalance
  rw [get_bind] at hbalance
  cases hsrc : busiest pf s with
  | none =>
    rw [hsrc] at hbalance
    cases hbalance
    exact .inl rfl
  | some src =>
    rw [hsrc] at hbalance
    obtain ⟨hthis, hbalance⟩ := assert_bind_ok.mp hbalance
    split at hbalance
    · cases hbalance
      exact .inl rfl
    · rename_i hne
      exact .inr ⟨src, _, rfl, hne, of_decide_eq_true hthis, hbalance⟩

namespace Coherent

variable (h : Coherent pf s)
include h

/-- **The balancing loop** moves tasks between queues. -/
theorem balanceLoop (htarget : target < pf.numCpus) (hloop : balanceLoop pf src target fuel s = .ok u t) :
    Coherent pf t ∧ queued pf t = queued pf s := by
  refine balanceLoop_keeps (I := fun t => Coherent pf t ∧ queued pf t = queued pf s) ?_ ⟨h, rfl⟩ hloop
  rintro s r s₁ ⟨h, hqueued⟩ - hpop
  obtain ⟨hnone, hsome⟩ := queued_rqPop h hpop
  refine ⟨fun hr => ⟨h.rqPop hpop, (hnone hr).trans hqueued⟩, fun i t hr hpush => ?_⟩
  exact ⟨(h.rqPop hpop).rqPush htarget hpush, by rw [queued_rqPush htarget hpush, ← hsome i hr, hqueued]⟩

theorem loadBalance {this : Nat} (hbalance : loadBalance pf this s = .ok u t) :
    Coherent pf t ∧ queued pf t = queued pf s := by
  rcases loadBalance_ok hbalance with rfl | ⟨src, fuel, -, -, hthis, hloop⟩
  · exact ⟨h, rfl⟩
  · exact h.balanceLoop hthis hloop

section

variable {s₁ : State} (hne : src ≠ target) (hpop : Sched.rqPop pf src target s = .ok (some i) s₁)
  (hpush : Sched.rqPush pf target i s₁ = .ok u t)
include hne hpop hpush

/-- What a move does to the two queues. A real-time task has no part in the loads, and a normal one is the first that
may be moved. -/
theorem moved (hnum : 1 < (s.rq src).num) :
    (t.rq src).realTimeTasks.length + (t.rq src).normalTasks.length <
      (s.rq src).realTimeTasks.length + (s.rq src).normalTasks.length ∧
    ∃ w, (w = 0 ∧ movable pf t src target = movable pf s src target ∨
        w = pf.weight i ∧ movable pf s src target = i :: movable pf t src target) ∧
      (s.rq src).load = (t.rq src).load + w ∧ (t.rq target).load = (s.rq target).load + w := by
  have hsrc : t.rq src = s₁.rq src := rqPush_other hne hpush
  unfold movable
  rw [hsrc]
  rcases h.rqPop_cases hpop with ⟨hr, -⟩ | ⟨j, rest, hr, hrest, rfl⟩ | ⟨j, v, hr, hpopped⟩ <;> cases hr
  · have hrt := h.realTime src i (by simp [hrest])
    obtain ⟨-, rfl⟩ := rqPush_realTime hrt hpush
    simp [updRq, hne.symm, hrest]
  · have hrt := h.normal src i hpopped.mem
    obtain ⟨w, hpushed⟩ := rqPush_normal (by simp [hrt]) hpush
    have hv := (h.entity i v hpopped.entity).2
    have hw : w.Of pf i := hpushed.entity.elim ((h.rqPop hpop).entity i w) And.right
    have hsum := ((perm_cons_erase hpopped.mem).map pf.weight).sum_eq
    rw [map_cons, sum_cons, ← h.load] at hsum
    have hlen := length_pos_of_mem hpopped.mem
    have hfind := h.rqPop_find hpop fun j hj => Option.some.inj hj ▸ hrt
    rw [hpushed.rq, update_self, hpopped.rq, update_self, update_of_ne hne.symm]
    refine ⟨?_, pf.weight i, .inr ⟨rfl, ?_⟩, ?_, congrArg (_ + ·) hw.2⟩
    · dsimp only
      rw [length_erase_of_mem hpopped.mem]
      omega
    · obtain ⟨n, hn⟩ : ∃ n, (s.rq src).num = n + 2 := ⟨_, (Nat.sub_add_cancel hnum).symm⟩
      rw [filter_of_find? hfind.symm, hn]
      rfl
    · dsimp only
      omega

end

/-- **The balancing loop ends**: every move takes a task from the source. -/
theorem balanceLoop_enough (hne : src ≠ target) (htarget : target < pf.numCpus)
    (hfuel : (s.rq src).realTimeTasks.length + (s.rq src).normalTasks.length ≤ fuel) (k : Nat) :
    Sched.balanceLoop pf src target (fuel + k) s = Sched.balanceLoop pf src target fuel s := by
  induction fuel generalizing s with
  | zero =>
    have hnum := h.num src
    cases k with
    | zero => rfl
    | succ k =>
      unfold Sched.balanceLoop
      rw [get_bind, if_neg (by omega)]
  | succ fuel ih =>
    rw [Nat.succ_add]
    unfold Sched.balanceLoop
    rw [get_bind, get_bind]
    split
    · rename_i hcond
      refine bind_congr_ok fun r s₁ hpop => ?_
      cases r with
      | none => rfl
      | some i =>
        dsimp only
        rw [get_bind, get_bind]
        refine bind_congr_ok fun _ s' hrunnable => bind_congr_ok fun _ t hpush => ?_
        obtain ⟨-, rfl⟩ := assert_ok.mp hrunnable
        refine ih ((h.rqPop hpop).rqPush htarget hpush) ?_
        have hless := (h.moved hne hpop hpush hcond.2).1
        omega
    · rfl

end Coherent

end

theorem CpuSet.contains_first {set : CpuSet} (h : set.first = some cpu) : set.contains cpu = true := by
  obtain ⟨hlt, hset, -⟩ := findIdx?_eq_some_iff_getElem.mp h
  unfold CpuSet.contains
  rw [getElem?_eq_getElem hlt]
  exact beq_iff_eq.mpr (congrArg some hset)

theorem push_ok {this : Nat} (h : push pf this i s = .ok u t) :
    ∃ cpu, cpu < pf.numCpus ∧ pf.affine i cpu = true ∧ rqPush pf cpu i s = .ok u t := by
  unfold push at h
  split at h
  · rename_i haffine
    obtain ⟨hthis, h⟩ := assert_bind_ok.mp h
    exact ⟨this, of_decide_eq_true hthis, haffine, h⟩
  · obtain ⟨cpu, hfirst, h⟩ := (bind_ok_of expect_ok).mp h
    obtain ⟨hcpu, h⟩ := assert_bind_ok.mp h
    exact ⟨cpu, of_decide_eq_true hcpu, CpuSet.contains_first hfirst, h⟩

/-! ## Tasks outside the queues -/

theorem VRuntime.tick_of {profile : Profile} {load clks cur : Nat} (hv : v.Of pf i)
    (h : v.tick profile load clks cur = some (w, expired)) : w.Of pf i := by
  simp only [VRuntime.tick, bind, Option.bind_eq_some_iff] at h
  obtain ⟨_, -, _, -, _, -, _, -, h⟩ := h
  split at h
  · cases h
  · split at h <;> cases h <;> exact hv

/-- What is done to the task `i` alone, whose entity stays its own. -/
structure Touched (pf : Platform) (i : Nat) (s t : State) : Prop where
  rq : t.rq = s.rq
  others : ∀ j ≠ i, t.tasks j = s.tasks j
  entity : (∀ v, (s.tasks i).schedEntity = some v → v.Of pf i) → ∀ v, (t.tasks i).schedEntity = some v → v.Of pf i

namespace Touched

theorem refl (i : Nat) (s : State) : Touched pf i s s := ⟨rfl, fun _ _ => rfl, id⟩

theorem trans {u : State} (hst : Touched pf i s t) (htu : Touched pf i t u) : Touched pf i s u :=
  ⟨htu.rq.trans hst.rq, fun j hj => (htu.others j hj).trans (hst.others j hj), fun h => htu.entity (hst.entity h)⟩

theorem updTask {f : TaskState → TaskState} (hf : (∀ v, (s.tasks i).schedEntity = some v → v.Of pf i) →
      ∀ v, (f (s.tasks i)).schedEntity = some v → v.Of pf i) : Touched pf i s (s.updTask i f) := by
  refine ⟨rfl, fun j hj => update_of_ne hj .., fun h v hv => hf h v ?_⟩
  rwa [updTask_self] at hv

theorem reads {n : Nat} : Touched pf i s { s with reads := n } := ⟨rfl, fun _ _ => rfl, id⟩

end Touched

theorem tickEntity_ok (hv : (s.tasks i).schedEntity = some v)
    (h : tickEntity pf cpu i v s = .ok expired t) : Touched pf i s t := by
  unfold tickEntity at h
  rw [get_bind] at h
  obtain ⟨load, -, h⟩ := (bind_ok_of expect_ok).mp h
  obtain ⟨clks, -, h⟩ := (bind_ok_of expect_ok).mp h
  obtain ⟨now, s₁, hnow, h⟩ := bind_ok.mp h
  obtain ⟨-, rfl⟩ := tscClockNs_ok.mp hnow
  obtain ⟨⟨w, b⟩, hticked, h⟩ := (bind_ok_of expect_ok).mp h
  cases h
  refine Touched.reads.trans (Touched.updTask fun hof x hx => ?_)
  cases hx
  exact VRuntime.tick_of (hof v hv) hticked

theorem shouldPreempt_ok {r : Bool} (h : shouldPreempt pf cpu i s = .ok r t) : Touched pf i s t := by
  unfold shouldPreempt at h
  rw [get_bind] at h
  cases hv : (s.tasks i).schedEntity with
  | none =>
    rw [hv] at h
    cases h
    exact .refl i s
  | some v =>
    rw [hv] at h
    exact tickEntity_ok hv h

theorem rqTick_ok {forceYield : Bool} (h : rqTick pf cpu i forceYield s = .ok u t) : Touched pf i s t := by
  unfold rqTick at h
  rw [get_bind] at h
  cases hv : (s.tasks i).schedEntity with
  | none =>
    rw [hv] at h
    cases h
    exact .refl i s
  | some v =>
    rw [hv] at h
    dsimp only at h
    split at h
    · obtain ⟨now, s₁, hnow, h⟩ := bind_ok.mp h
      obtain ⟨-, rfl⟩ := tscClockNs_ok.mp hnow
      cases h
      refine Touched.reads.trans (Touched.updTask fun hof x hx => ?_)
      cases hx
      exact hof v hv
    · obtain ⟨expired, s₁, htick, h⟩ := bind_ok.mp h
      refine (tickEntity_ok hv htick).trans ?_
      rcases when_ok.mp h with ⟨-, h⟩ | ⟨-, rfl⟩
      · cases h
        exact Touched.updTask fun hof => hof
      · exact .refl i _

/-! ## Runs -/

/-- The queues, and the tasks that were pushed and popped. -/
structure Log where
  sched : State
  pushed : Multiset Nat
  popped : Multiset Nat

/-- Pushes, pops and balancing, and what happens to tasks that are not linked: the current task of a CPU gets ticks, an
entity is cleared, and the status changes. -/
inductive Op where
  | push (this i : Nat)
  | pop (cpu target : Nat)
  | loadBalance (this : Nat)
  | tick (cpu i : Nat) (forceYield : Bool)
  | shouldPreempt (cpu i : Nat)
  | clear (i : Nat)
  | setStatus (i : Nat) (status : TaskStatus) (needResched : Bool)

/-- What is done to a task that is not linked. -/
def Log.touch (pf : Platform) (l : Log) (i : Nat) (c : Call Unit) : Option Log :=
  if l.sched.linked pf i then none else (c l.sched).final.map fun t => { l with sched := t }

def Op.run (pf : Platform) : Op → Log → Option Log
  | .push this i, l => (Sched.push pf this i l.sched).final.map fun t => { l with sched := t, pushed := i ::ₘ l.pushed }
  | .pop cpu target, l =>
    match rqPop pf cpu target l.sched with
    | .ok none t => some { l with sched := t }
    | .ok (some i) t => some { l with sched := t, popped := i ::ₘ l.popped }
    | _ => none
  | .loadBalance this, l => (Sched.loadBalance pf this l.sched).final.map fun t => { l with sched := t }
  | .tick cpu i forceYield, l => l.touch pf i (rqTick pf cpu i forceYield)
  | .shouldPreempt cpu i, l => l.touch pf i (do let _ ← Sched.shouldPreempt pf cpu i)
  | .clear i, l => l.touch pf i (Sched.clear i)
  | .setStatus i status needResched, l =>
    l.touch pf i (modify fun s => s.updTask i fun t => { t with status := status, needResched := needResched })

/-- The states of a scheduler that starts with empty queues. -/
abbrev Reached (pf : Platform) : Log → Prop := Run (Op.run pf) (fun _ _ => True) ⟨.new, 0, 0⟩

/-- The queues are coherent and have what was pushed and not popped. -/
structure Log.Inv (pf : Platform) (l : Log) : Prop where
  coherent : Coherent pf l.sched
  accounted : queued pf l.sched + l.popped = l.pushed

theorem Call.of_final {α : Type} {c : Call α} (h : (c s).final = some t) : ∃ a, c s = .ok a t := by
  rcases final_cases h with hok | ⟨e, -⟩
  · exact hok
  · exact e.elim

theorem Log.Inv.touch {l l' : Log} {c : Call Unit} (h : l.Inv pf)
    (htouched : ∀ u t, c l.sched = .ok u t → Touched pf i l.sched t) (hrun : l.touch pf i c = some l') :
    l'.Inv pf := by
  unfold Log.touch at hrun
  split at hrun
  · cases hrun
  · rename_i hfree
    obtain ⟨t, hfinal, rfl⟩ := Option.map_eq_some_iff.mp hrun
    obtain ⟨u, hok⟩ := Call.of_final hfinal
    have ht := htouched u t hok
    refine ⟨h.coherent.unlinked (Bool.eq_false_iff.mpr hfree) ht.rq ht.others (ht.entity (h.coherent.entity i)), ?_⟩
    have hqueued : queued pf t = queued pf l.sched := by
      unfold queued
      rw [ht.rq]
    exact (congrArg (· + _) hqueued).trans h.accounted

/-- Every operation keeps the invariant. -/
theorem Log.Inv.run {l l' : Log} {op : Op} (h : l.Inv pf) (hrun : op.run pf l = some l') : l'.Inv pf := by
  cases op with
  | push this i =>
    obtain ⟨t, hfinal, rfl⟩ := Option.map_eq_some_iff.mp hrun
    obtain ⟨u, hok⟩ := Call.of_final hfinal
    obtain ⟨cpu, hcpu, -, hpush⟩ := push_ok hok
    refine ⟨h.coherent.rqPush hcpu hpush, ?_⟩
    rw [queued_rqPush hcpu hpush, Multiset.cons_add, h.accounted]
  | pop cpu target =>
    simp only [Op.run] at hrun
    split at hrun
    · rename_i t hpop
      cases hrun
      refine ⟨h.coherent.rqPop hpop, ?_⟩
      rw [(queued_rqPop h.coherent hpop).1 rfl]
      exact h.accounted
    · rename_i i t hpop
      cases hrun
      refine ⟨h.coherent.rqPop hpop, ?_⟩
      rw [Multiset.add_cons, ← Multiset.cons_add, ← (queued_rqPop h.coherent hpop).2 i rfl]
      exact h.accounted
    · cases hrun
  | loadBalance this =>
    obtain ⟨t, hfinal, rfl⟩ := Option.map_eq_some_iff.mp hrun
    obtain ⟨u, hok⟩ := Call.of_final hfinal
    obtain ⟨hcoherent, hqueued⟩ := h.coherent.loadBalance hok
    exact ⟨hcoherent, (congrArg (· + _) hqueued).trans h.accounted⟩
  | tick cpu i forceYield => exact h.touch (fun u t hok => rqTick_ok hok) hrun
  | shouldPreempt cpu i =>
    refine h.touch (fun u t hok => ?_) hrun
    obtain ⟨r, s₁, hpreempt, hok⟩ := bind_ok.mp hok
    cases hok
    exact shouldPreempt_ok hpreempt
  | clear i =>
    refine h.touch (fun u t hok => ?_) hrun
    cases hok
    exact Touched.updTask fun _ _ => nofun
  | setStatus i status needResched =>
    refine h.touch (fun u t hok => ?_) hrun
    cases hok
    exact Touched.updTask fun hof => hof

theorem Log.Inv.reached {l : Log} (h : Reached pf l) : l.Inv pf := by
  refine Run.invariant (I := fun l => l.Inv pf) ⟨.new, ?_⟩ (fun _ _ _ hl _ hrun => hl.run hrun) h
  unfold queued
  exact (congrArg (· + (0 : Multiset Nat)) (Finset.sum_eq_zero fun _ _ => rfl)).trans (add_zero 0)

/-- `(vruntime, start, address)` of a task. -/
def State.sortKey (s : State) (i : Nat) : Nat ×ₗ Nat ×ₗ Nat :=
  match (s.tasks i).schedEntity with
  | some v => toLex (v.vruntime, toLex (v.start, i))
  | none => toLex (0, toLex (0, i))

theorem Coherent.sortKey_lt (h : Coherent pf s) (hij : s.before i j = true) : s.sortKey i < s.sortKey j := by
  obtain ⟨v, w, hv, hw, hlt⟩ := before_iff.mp hij
  simp only [sortKey, hv, hw]
  unfold VRuntime.sortKey at hlt
  rwa [(h.entity i v hv).1, (h.entity j w hw).1] at hlt

/-- **The run queues refine multisets**: in every state that is reached `load` is the sum of the weights of the tasks of
the tree and `num` their number, the queues have the tasks that were pushed and not popped, and a pop from a queue
without real-time tasks returns the least task that may run on the target CPU, or none if there is none. -/
theorem run_queues_refine {pf : Platform} {l : Log} (h : Reached pf l) :
    (∀ cpu, (l.sched.rq cpu).load = ((l.sched.rq cpu).normalTasks.map pf.weight).sum ∧
      (l.sched.rq cpu).num = (l.sched.rq cpu).normalTasks.length) ∧
    queued pf l.sched + l.popped = l.pushed ∧
    ∀ cpu target, (l.sched.rq cpu).realTimeTasks = [] → ∃ r t, rqPop pf cpu target l.sched = .ok r t ∧
        (r = none ↔ ∀ i ∈ (l.sched.rq cpu).normalTasks, pf.affine i target = false) ∧
        ∀ i, r = some i → i ∈ (l.sched.rq cpu).normalTasks ∧ pf.affine i target = true ∧
          ∀ j ∈ (l.sched.rq cpu).normalTasks, pf.affine j target = true → j ≠ i →
            l.sched.sortKey i < l.sched.sortKey j := by
  have hinv := Log.Inv.reached h
  have hcoherent := hinv.coherent
  refine ⟨fun cpu => ⟨hcoherent.load cpu, hcoherent.num cpu⟩, hinv.accounted, fun cpu target hrt => ?_⟩
  cases hfind : (l.sched.rq cpu).normalTasks.find? (fun i => pf.affine i target) with
  | none =>
    refine ⟨none, l.sched, hcoherent.rqPop_none hrt hfind, ⟨fun _ i hi => ?_, fun _ => rfl⟩, nofun⟩
    exact Bool.eq_false_iff.mpr (List.find?_eq_none.mp hfind i hi)
  | some i =>
    obtain ⟨v, t, hpop, hpopped⟩ := hcoherent.rqPop_some hrt hfind
    have haffine : pf.affine i target = true := List.find?_some (p := fun i => pf.affine i target) hfind
    refine ⟨some i, t, hpop, ⟨nofun, fun hnone => ?_⟩, fun j hj => ?_⟩
    · exact absurd haffine (Bool.eq_false_iff.mp (hnone i hpopped.mem))
    · cases hj
      refine ⟨hpopped.mem, haffine, fun k hk hkaffine hne => ?_⟩
      have hbefore := (least_of_find? (hcoherent.sorted cpu) hfind k hk hkaffine).resolve_left hne
      exact hcoherent.sortKey_lt hbefore

set_option maxRecDepth 4000 in
/-- Two tasks with the nice value 0 wait, and one of them is popped. -/
theorem run_queues_refine_two :
    let pf : Platform := ⟨.release, 1, id, 0, 0, fun _ => ⟨⟨120, by decide⟩, ⟨[true]⟩⟩⟩
    ∃ l, Reached pf l ∧ (l.sched.rq 0).load = 2048 ∧ ∃ r t, rqPop pf 0 0 l.sched = .ok r t ∧ r ≠ none := by
  intro pf
  have hsteps : steps (Op.run pf) [.push 0 8, .push 0 4] ⟨.new, 0, 0⟩ = some _ := rfl
  have hreached : Reached pf _ := Run.stepsAny .start hsteps
  refine ⟨_, hreached, ((run_queues_refine hreached).1 0).1, ?_⟩
  obtain ⟨r, t, hpop, hnone, -⟩ := (run_queues_refine hreached).2.2 0 0 rfl
  refine ⟨r, t, hpop, fun hr => ?_⟩
  cases hnone.mp hr 8 (List.mem_of_getElem? (i := 0) rfl)

/-- **A normal task waits in one place**: in every state that is reached it is in the tree of one CPU at most, and
there once. The trees have no real-time tasks, and the other queues have nothing else. -/
theorem queued_once {pf : Platform} {l : Log} (h : Reached pf l) (cpu : Nat) :
    (l.sched.rq cpu).normalTasks.Nodup ∧ (∀ i ∈ (l.sched.rq cpu).realTimeTasks, pf.isRealTime i = true) ∧
      ∀ i ∈ (l.sched.rq cpu).normalTasks, pf.isRealTime i = false ∧
        ∀ cpu', i ∈ (l.sched.rq cpu').normalTasks → cpu' = cpu := by
  have hcoherent := (Log.Inv.reached h).coherent
  refine ⟨(hcoherent.sorted cpu).imp fun hij heq => ?_, hcoherent.realTime cpu, fun i hi => ⟨hcoherent.normal cpu i hi,
    fun cpu' hi' => ?_⟩⟩
  · exact State.before_irrefl _ (heq ▸ hij)
  · exact TaskStatus.ready.inj ((hcoherent.ready cpu' i hi').symm.trans (hcoherent.ready cpu i hi))

set_option maxRecDepth 4000 in
/-- Three tasks are at two CPUs. -/
theorem queued_once_three : let pf : Platform := ⟨.release, 2, id, 0, 0, fun _ => ⟨⟨120, by decide⟩, ⟨[true, true]⟩⟩⟩
    ∃ l, Reached pf l ∧ (l.sched.rq 0).num = 2 ∧ (l.sched.rq 1).num = 1 ∧
      ∀ i ∈ (l.sched.rq 0).normalTasks, i ∉ (l.sched.rq 1).normalTasks := by
  intro pf
  have hsteps : steps (Op.run pf) [.push 0 8, .push 1 4, .push 0 2] ⟨.new, 0, 0⟩ = some _ := rfl
  have hreached : Reached pf _ := Run.stepsAny .start hsteps
  refine ⟨_, hreached, rfl, rfl, fun i hi hi' => ?_⟩
  cases ((queued_once hreached 0).2.2 i hi).2 1 hi'

/-! ## What balancing is for -/

/-- How far the loads of two queues are apart. -/
def imbalance (s : State) (a b : Nat) : Nat := ((s.rq a).load - (s.rq b).load : Int).natAbs

/-- The weights that the balancing loop moves are at most the gap exactly if no task overshoots it. The weight `w` has
been moved before; every round moves the first one of the movable tasks, or a real-time task. -/
theorem balanceLoop_moves {pf : Platform} {src target fuel gap base w : Nat} {s t : State} {u : Unit}
    (h : Coherent pf s) (hne : src ≠ target) (htarget : target < pf.numCpus)
    (hfuel : (s.rq src).realTimeTasks.length + (s.rq src).normalTasks.length ≤ fuel)
    (hsrcLoad : (s.rq src).load + w = base + gap) (htargetLoad : (s.rq target).load = base + w)
    (hloop : balanceLoop pf src target fuel s = .ok u t) :
    ∃ w', (t.rq src).load + w' = base + gap ∧ (t.rq target).load = base + w' ∧
      (w' ≤ gap ↔ w ≤ gap ∧ NoOvershoot pf.weight gap w (movable pf s src target)) := by
  have hstop (hrest : movable pf s src target = [] ∨ gap ≤ 2 * w) :
      NoOvershoot pf.weight gap w (movable pf s src target) :=
    hrest.elim (fun hnil => hnil ▸ .nil) .of_le
  induction fuel generalizing s w with
  | zero =>
    have hnil : (s.rq src).normalTasks = [] := length_eq_zero_iff.mp (by omega)
    cases hloop
    refine ⟨w, hsrcLoad, htargetLoad, (and_iff_left (hstop (.inl ?_))).symm⟩
    rw [movable, hnil]
    exact take_nil
  | succ fuel ih =>
    unfold balanceLoop at hloop
    rw [get_bind] at hloop
    split at hloop
    case isFalse hcond =>
      cases hloop
      refine ⟨w, hsrcLoad, htargetLoad, (and_iff_left (hstop ?_)).symm⟩
      rcases Nat.lt_or_ge 1 (t.rq src).num with hnum | hnum
      · exact .inr (by omega)
      · exact .inl (by rw [movable, Nat.sub_eq_zero_of_le hnum, take_zero])
    case isTrue hcond =>
      obtain ⟨r, s₁, hpop, hmove⟩ := bind_ok.mp hloop
      cases r with
      | none =>
        obtain rfl : s₁ = s := by
          rcases h.rqPop_cases hpop with ⟨-, heq⟩ | ⟨_, _, hr, -⟩ | ⟨_, _, hr, -⟩
          · exact heq
          · cases hr
          · cases hr
        cases hmove
        refine ⟨w, hsrcLoad, htargetLoad, (and_iff_left (hstop (.inl ?_))).symm⟩
        have hfind := find?_eq_none.mp (h.rqPop_find hpop nofun).symm
        rw [movable, filter_eq_nil_iff.mpr hfind, take_nil]
      | some i =>
        dsimp only at hmove
        rw [get_bind] at hmove
        obtain ⟨-, hmove⟩ := assert_bind_ok.mp hmove
        obtain ⟨_, s₂, hpush, hrest⟩ := bind_ok.mp hmove
        obtain ⟨hless, m, hmoved, hsource, hdest⟩ := h.moved hne hpop hpush hcond.2
        obtain ⟨w', hsrc', htarget', hiff⟩ := ih (w := w + m) ((h.rqPop hpop).rqPush htarget hpush) (by omega) (by omega)
          (by omega) hrest fun hrest => hrest.elim (fun hnil => hnil ▸ .nil) .of_le
        refine ⟨w', hsrc', htarget', hiff.trans ?_⟩
        rcases hmoved with ⟨rfl, hmovable⟩ | ⟨rfl, hmovable⟩
        · rw [hmovable, add_zero]
        · rw [hmovable, noOvershoot_cons]
          have hlt : 2 * w < gap := by omega
          exact ⟨fun ⟨hle, hrest⟩ => ⟨by omega, fun _ => hle, hrest⟩, fun ⟨_, hle, hrest⟩ => ⟨hle hlt, hrest⟩⟩

theorem balanced (pf : Platform) (ops : List Op) {src a b : Nat}
    (hrun : ((steps (Op.run pf) ops ⟨.new, 0, 0⟩).bind fun l => (loadBalance pf 1 l.sched).final.map fun t =>
      (busiest pf l.sched, imbalance l.sched src 1, imbalance t src 1)) = some (some src, a, b)) :
    ∃ l t, Reached pf l ∧ busiest pf l.sched = some src ∧ loadBalance pf 1 l.sched = .ok () t ∧
      imbalance l.sched src 1 = a ∧ imbalance t src 1 = b := by
  obtain ⟨l, hsteps, hrun⟩ := Option.bind_eq_some_iff.mp hrun
  obtain ⟨t, hfinal, hrun⟩ := Option.map_eq_some_iff.mp hrun
  obtain ⟨_, hok⟩ := Call.of_final hfinal
  simp only [Prod.mk.injEq] at hrun
  exact ⟨l, t, .stepsAny .start hsteps, hrun.1, hok, hrun.2⟩

end AsterKernel.Sched
