import AsterKernel.Lib.Usize
import AsterKernel.Process.Table

/-!
# `Process.Clone` — what a failed `clone` leaves behind

A child thread is in the thread table, and in the list of its process, before the ids are written to the addresses that
the caller has given, and the main thread of a child process is in the thread table. If such a write fails, it stays
there; the tables of processes are changed last.
-/

namespace AsterKernel.Process

open Lib Lib.Comp

/-- The tables, the thread table, and the threads of the current process. Threads are told apart by a number, so that a
thread that takes the place of another one with the same id is seen. -/
structure Cloning where
  tables : Tables
  threadTable : BTreeMap Nat
  threads : List Nat
  /-- The number of threads that have been made. -/
  made : Nat
  known : ∀ tid n, threadTable.get? tid = some n → n < made

/-- The step whose error `clone_child` returns. -/
inductive CloneError where
  | forkVm
  | threadName
  | parentSettid
  | childSettid
deriving DecidableEq, Repr

abbrev CloneFlags := BitVec 32

namespace CloneFlags

def contains (flags flag : CloneFlags) : Bool := flags &&& flag == flag

def CLONE_VM : CloneFlags := 0x100
def CLONE_FILES : CloneFlags := 0x400
def CLONE_SIGHAND : CloneFlags := 0x800
def CLONE_THREAD : CloneFlags := 0x10000
def CLONE_PARENT_SETTID : CloneFlags := 0x100000
def CLONE_CHILD_SETTID : CloneFlags := 0x1000000

/-- The flags that are supported: these, and those for files, semaphores, the TLS and the id to clear. -/
def SUPPORTED : CloneFlags := 0x13d0f00

end CloneFlags

open CloneFlags

/-- What the steps that may fail meet: whether the memory can be forked, whether the path of the executable gives a
name, and which addresses of the parent and of the child can be written. -/
structure CloneEnv where
  forks : Bool
  named : Bool
  parentWritable : Nat → Bool
  childWritable : Nat → Bool

structure CloneArgs where
  newSp : Nat
  parentTidptr : Nat
  childTidptr : Nat
  cloneFlags : CloneFlags

variable (p : Profile) (env : CloneEnv) (current : Nat) (args : CloneArgs)

/-- `allocate_tid`. -/
def newTid : Comp Cloning CloneError Nat := fun s =>
  .ok s.tables.nextTid { s with tables := { s.tables with nextTid := (s.tables.nextTid + 1) % 2 ^ 32 } }

/-- `PosixThreadBuilder::build`. -/
def addThread (tid : Nat) : Comp Cloning CloneError Unit :=
  modify fun s => { s with
    threadTable := s.threadTable.insert tid s.made
    made := s.made + 1
    known := fun k n h => by
      rw [BTreeMap.get?_insert] at h
      split at h
      · cases h
        exact s.made.lt_succ_self
      · exact Nat.lt_succ_of_lt (s.known k n h) }

/-- `clone_parent_settid` and `clone_child_settid`; `clone_child_cleartid` between them does not fail. -/
def settids : Comp Cloning CloneError Unit := do
  when (args.cloneFlags.contains CLONE_PARENT_SETTID && !env.parentWritable args.parentTidptr) (fail .parentSettid)
  when (args.cloneFlags.contains CLONE_CHILD_SETTID && !env.childWritable args.childTidptr) (fail .childSettid)

/-- `clone_cpu_context`, as far as it can panic: who shares the memory needs a stack of its own. -/
def cloneCpuContext : Comp Cloning CloneError Unit :=
  debugAssert p (!args.cloneFlags.contains CLONE_VM || args.newSp != 0)

def cloneChildThread : Comp Cloning CloneError Nat := do
  debugAssert p (args.cloneFlags.contains (CLONE_VM ||| CLONE_FILES ||| CLONE_SIGHAND))
  cloneCpuContext p args
  let tid ← newTid
  addThread tid
  modify fun s => { s with threads := s.threads ++ [tid] }
  settids env args
  pure tid

/-- `set_parent_and_group`, at the end of `clone_child_process`. -/
def registerChild (tid : Nat) : Comp Cloning CloneError Nat := fun s =>
  match setParentAndGroup current tid s.tables with
  | .ok _ tables => .ok tid { s with tables := tables }
  | _ => .panic

def cloneChildProcess : Comp Cloning CloneError Nat := do
  when (!args.cloneFlags.contains CLONE_VM && !env.forks) (fail .forkVm)
  cloneCpuContext p args
  let tid ← newTid
  when (!env.named) (fail .threadName)
  addThread tid
  settids env args
  registerChild current tid

def cloneChild : Comp Cloning CloneError Nat := do
  assert (args.cloneFlags &&& ~~~SUPPORTED == 0)
  if args.cloneFlags.contains CLONE_THREAD then cloneChildThread p env args else cloneChildProcess p env current args

/-- What a failed clone must leave as it was: everything but the counters. -/
structure Cloning.Same (s t : Cloning) : Prop where
  tables : t.tables = { s.tables with nextTid := t.tables.nextTid }
  threadTable : t.threadTable = s.threadTable
  threads : t.threads = s.threads

/-- The addresses at which the ids are to be written can be written. -/
def TidsWritable : Prop :=
  (args.cloneFlags.contains CLONE_PARENT_SETTID && !env.parentWritable args.parentTidptr) = false ∧
    (args.cloneFlags.contains CLONE_CHILD_SETTID && !env.childWritable args.childTidptr) = false

/-- Everything before the ids are written succeeds: the flags are supported and meet the assertions of a `dev` build,
and a child process gets its memory and the name of its thread. -/
def GetsToSettids : Prop :=
  args.cloneFlags &&& ~~~SUPPORTED = 0 ∧
  (p = .dev → (!args.cloneFlags.contains CLONE_VM || args.newSp != 0) = true) ∧
  if args.cloneFlags.contains CLONE_THREAD then
    p = .dev → args.cloneFlags.contains (CLONE_VM ||| CLONE_FILES ||| CLONE_SIGHAND) = true
  else (!args.cloneFlags.contains CLONE_VM && !env.forks) = false ∧ env.named = true

variable {p env current args} {s t : Cloning} {e : CloneError}

theorem settids_of_writable (h : TidsWritable env args) : settids env args = pure () := by
  unfold settids
  rw [h.1, h.2]
  rfl

theorem settids_of_not_writable (h : ¬ TidsWritable env args) : ∃ e, settids env args = fail e := by
  unfold settids
  unfold TidsWritable at h
  revert h
  cases args.cloneFlags.contains CLONE_PARENT_SETTID && !env.parentWritable args.parentTidptr with
  | true => exact fun _ => ⟨_, rfl⟩
  | false =>
    cases args.cloneFlags.contains CLONE_CHILD_SETTID && !env.childWritable args.childTidptr with
    | true => exact fun _ => ⟨_, rfl⟩
    | false => exact fun h => absurd ⟨rfl, rfl⟩ h

theorem registerChild_not_err (tid : Nat) : ¬ registerChild current tid s = .err e t := by
  unfold registerChild
  split <;> nofun

/-- A clone that fails without an id that cannot be written has left everything as it was. -/
theorem cloneChild_same (hw : GetsToSettids p env args → TidsWritable env args)
    (h : cloneChild p env current args s = .err e t) : s.Same t := by
  rcases bind_err.mp h with h | ⟨_, s₁, hassert, h⟩
  · exact absurd h assert_not_err
  obtain ⟨hsupported, rfl⟩ := assert_ok.mp hassert
  have hgets (hrest) := settids_of_writable (hw ⟨eq_of_beq hsupported, hrest⟩)
  split at h
  case isTrue hthread =>
    -- a thread: nothing else fails
    obtain ⟨hflags, h⟩ := debugAssert_bind_err.mp h
    obtain ⟨hsp, h⟩ := debugAssert_bind_err.mp h
    rw [hgets ⟨hsp, (if_pos hthread).mpr hflags⟩] at h
    cases h
  case isFalse hthread =>
    rcases guard_bind_err.mp h with ⟨-, -, rfl⟩ | ⟨hfork, h⟩
    · exact ⟨rfl, rfl, rfl⟩
    obtain ⟨hsp, h⟩ := debugAssert_bind_err.mp h
    rcases guard_bind_err.mp (bind_of_ok (m := newTid) rfl ▸ h) with ⟨-, -, rfl⟩ | ⟨hnamed, h⟩
    · exact ⟨rfl, rfl, rfl⟩
    · rw [hgets ⟨hsp, (if_neg hthread).mpr ⟨hfork, by simpa using hnamed⟩⟩] at h
      exact absurd h (registerChild_not_err _)

/-- A clone that gets to the ids and cannot write them leaves its thread behind. -/
theorem cloneChild_leaves (current : Nat) (hgets : GetsToSettids p env args) (hw : ¬ TidsWritable env args) (s : Cloning) :
    ∃ e t, cloneChild p env current args s = .err e t ∧ ¬ s.Same t := by
  obtain ⟨e, hfail⟩ := settids_of_not_writable hw
  obtain ⟨hsupported, hsp, hrest⟩ := hgets
  simp only [cloneChild, hsupported, BEq.rfl, Comp.assert, if_true, pure_bind_apply]
  split
  case isTrue hthread =>
    have hflags := (if_pos hthread).mp hrest
    refine ⟨e, ?added, debugAssert_bind_err.mpr ⟨hflags, debugAssert_bind_err.mpr ⟨hsp, ?err⟩⟩, fun hsame => ?_⟩
    case err =>
      rw [hfail]
      rfl
    exact absurd hsame.threads (by simp)
  case isFalse hthread =>
    obtain ⟨hfork, hnamed⟩ := (if_neg hthread).mp hrest
    refine ⟨e, ?registered, guard_bind_err.mpr (.inr ⟨hfork, debugAssert_bind_err.mpr ⟨hsp, ?err⟩⟩), fun hsame => ?_⟩
    case err =>
      rw [hfail, hnamed]
      rfl
    -- the new thread was not in the table before
    have hin := congrArg (·.get? s.tables.nextTid) hsame.threadTable
    exact absurd (s.known _ _ (hin.symm.trans (BTreeMap.get?_insert_self ..))) (lt_irrefl _)

/-- **When a failed clone leaves no trace**: exactly if it does not get to an id that it cannot write. -/
theorem failed_clone_no_trace_iff (p : Profile) (env : CloneEnv) (current : Nat) (args : CloneArgs) (s : Cloning) :
    (∀ e t, cloneChild p env current args s = .err e t → s.Same t) ↔
      (GetsToSettids p env args → TidsWritable env args) := by
  constructor
  · intro hsame hgets
    by_contra hw
    obtain ⟨e, t, herr, hdiff⟩ := cloneChild_leaves current hgets hw s
    exact hdiff (hsame e t herr)
  · exact fun hw e t h => cloneChild_same hw h

/-- No process has been registered. -/
def initOnly : Cloning :=
  ⟨⟨.empty, .empty, .empty, .empty, fun _ => .new 1 none, fun _ => .new 1 0 1, 1, 1, 2⟩, .empty, [1], 1, nofun⟩

/-- `CLONE_PARENT_SETTID` with an address that is not mapped. -/
theorem thread_left_behind : ∃ t,
    cloneChild .dev ⟨true, true, fun _ => false, fun _ => true⟩ 1 ⟨4096, 0, 0, 0x110d00⟩ initOnly =
      .err .parentSettid t ∧ t.threads = [1, 2] ∧ t.threadTable.get? 2 = some 1 ∧ ¬ initOnly.Same t :=
  ⟨_, rfl, rfl, rfl, fun h => absurd h.threads (by decide)⟩

end AsterKernel.Process
