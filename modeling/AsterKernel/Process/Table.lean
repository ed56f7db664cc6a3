import AsterKernel.Lib.Registry
import AsterKernel.Process.Credentials

/-!
# `Process.Table` — processes, process groups and sessions

The process, group and session tables, and the operations that change them: `fork`, `setpgid`, `setsid`, `exit` and
`wait`. Processes, groups and sessions are objects on a heap. Groups and sessions are named by numbers that are not
used again, a process by its id. A `Weak` link to a group or a session is such a name, and can be upgraded as long as
a table holds the object; a process stays on the heap when it has left its table, for the threads that it still has.
-/

namespace AsterKernel.Process

open Lib Lib.Comp

/-! ## Objects -/

inductive TermStatus where
  | exited (status : UInt8)
  | killed (signum : UInt8)
deriving DecidableEq, Repr

def TermStatus.asU32 : TermStatus → UInt32
  | .exited status => status.toUInt32 <<< 8
  | .killed signum => signum.toUInt32

/-- `ProcessStatus`, of a process that has been built. -/
inductive Status where
  | runnable
  | zombie (term : TermStatus)
deriving DecidableEq, Repr

/-- `Process`: its links to other processes and to its group. -/
structure Proc where
  parent : Option Nat
  children : BTreeSet
  processGroup : Option Nat
  status : Status
deriving DecidableEq, Repr

def Proc.isZombie (p : Proc) : Bool :=
  match p.status with
  | .runnable => false
  | .zombie _ => true

def Proc.exitCode (p : Proc) : Option UInt32 :=
  match p.status with
  | .runnable => none
  | .zombie term => some term.asU32

/-- `ProcessGroup`. -/
structure Group where
  pgid : Nat
  processes : BTreeMap Nat
  leader : Option Nat
  session : Option Nat
deriving DecidableEq, Repr

/-- A group with one process, its leader. -/
def Group.new (pid : Nat) (session : Option Nat) : Group :=
  ⟨pid, BTreeMap.empty.insert pid pid, some pid, session⟩

def Group.isEmpty (g : Group) : Bool := g.processes.isEmpty

def Group.removeProcess (pid : Nat) (g : Group) : Group :=
  { g with
    processes := g.processes.remove pid
    leader := if (g.processes.get? pid).isSome && g.leader == some pid then none else g.leader }

structure Session where
  sid : Nat
  processGroups : BTreeMap Nat
  leader : Option Nat
deriving DecidableEq, Repr

/-- The session of one group, with its leader. -/
def Session.new (pgid group leader : Nat) : Session :=
  ⟨pgid, BTreeMap.empty.insert pgid group, some leader⟩

def Session.isEmpty (s : Session) : Bool := s.processGroups.isEmpty

def Session.removeProcess (pid : Nat) (s : Session) : Session :=
  { s with leader := if s.leader = some pid then none else s.leader }

def Session.removeProcessGroup (pgid : Nat) (s : Session) : Session :=
  { s with processGroups := s.processGroups.remove pgid }

/-! ## Tables -/

/-- The three tables, and the heap of processes, groups and sessions. -/
structure Tables where
  processes : BTreeMap Proc
  processTable : BTreeSet
  groupTable : BTreeMap Nat
  sessionTable : BTreeMap Nat
  groups : Nat → Group
  sessions : Nat → Session
  nextGroup : Nat
  nextSession : Nat
  nextTid : Nat

namespace Tables

def updProc (pid : Nat) (f : Proc → Proc) (s : Tables) : Tables :=
  match s.processes.get? pid with
  | some p => { s with processes := s.processes.insert pid (f p) }
  | none => s

def updGroup (g : Nat) (f : Group → Group) (s : Tables) : Tables :=
  { s with groups := Function.update s.groups g (f (s.groups g)) }

def updSession (σ : Nat) (f : Session → Session) (s : Tables) : Tables :=
  { s with sessions := Function.update s.sessions σ (f (s.sessions σ)) }

/-- The group that a process links to. -/
def link (s : Tables) (pid : Nat) : Option Nat := (s.processes.get? pid).bind Proc.processGroup

def setLink (pid : Nat) (g : Option Nat) : Tables → Tables := updProc pid fun p => { p with processGroup := g }

/-- A session is alive as long as the session table holds it. -/
def sessionAlive (s : Tables) (σ : Nat) : Bool := s.sessionTable.entries.any fun e => e.2 == σ

/-- A group is alive as long as the group table or a session holds it. -/
def groupAlive (s : Tables) (g : Nat) : Bool :=
  s.groupTable.entries.any (fun e => e.2 == g) ||
    s.sessionTable.entries.any fun e => (s.sessions e.2).processGroups.entries.any fun e => e.2 == g

/-- `Process::process_group`. -/
def processGroup (s : Tables) (pid : Nat) : Option Nat := (s.link pid).filter s.groupAlive

/-- `ProcessGroup::session`. -/
def groupSession (s : Tables) (g : Nat) : Option Nat := (s.groups g).session.filter s.sessionAlive

/-- `Process::session`. -/
def session (s : Tables) (pid : Nat) : Option Nat := (s.processGroup pid).bind s.groupSession

/-- `Process::pgid`. -/
def pgid (s : Tables) (pid : Nat) : Nat :=
  match s.processGroup pid with
  | some g => (s.groups g).pgid
  | none => 0

def isGroupLeader (s : Tables) (pid : Nat) : Bool :=
  match s.processGroup pid with
  | some g => (s.groups g).leader == some pid
  | none => false

/-- A process leaves its group, which leaves the tables with its last process; so does the session of the group with
its last group, unless it is kept. -/
def leave (keep : Bool) (pid g σ : Nat) (s : Tables) : Tables :=
  let s := (s.updGroup g (Group.removeProcess pid)).setLink pid none
  if (s.groups g).isEmpty then
    let pgid := (s.groups g).pgid
    let s := { s with groupTable := s.groupTable.remove pgid }.updSession σ (Session.removeProcessGroup pgid)
    if (s.sessions σ).isEmpty && !keep then { s with sessionTable := s.sessionTable.remove (s.sessions σ).sid }
    else s
  else s

def join (pid g : Nat) (s : Tables) : Tables :=
  (s.updGroup g fun grp => { grp with processes := grp.processes.insert pid pid }).setLink pid (some g)

/-- A process becomes the leader of a new group in a session. -/
def newGroup (pid σ : Nat) (s : Tables) : Tables :=
  let g := s.nextGroup
  let s := { s with groups := Function.update s.groups g (.new pid (some σ)), nextGroup := g + 1
                    groupTable := s.groupTable.insert pid g }
  (s.setLink pid (some g)).updSession σ fun ses => { ses with processGroups := ses.processGroups.insert pid g }

/-- A process becomes the leader of a new group in a new session. -/
def newSession (pid : Nat) (s : Tables) : Tables :=
  let g := s.nextGroup
  let σ := s.nextSession
  { s with groups := Function.update s.groups g (.new pid (some σ)), nextGroup := g + 1
           groupTable := s.groupTable.insert pid g
           sessions := Function.update s.sessions σ (.new pid g pid), nextSession := σ + 1
           sessionTable := s.sessionTable.insert pid σ }.setLink pid (some g)

end Tables

/-! ## Moving between groups -/

open Tables

def isSessionLeader (pid : Nat) : Comp Tables Error Bool := do
  let s ← Comp.get
  let σ ← expect (s.session pid)
  pure ((s.sessions σ).leader == some pid)

/-- A process leaves its old group, if it has one. -/
def leaveOld (keep : Bool) (pid σ : Nat) : Comp Tables Error Unit := do
  let s ← Comp.get
  match s.processGroup pid with
  | some g => modify (leave keep pid g σ)
  | none => pure ()

/-- `Process::to_new_session`, past the check for a session leader. -/
def makeNewSession (pid : Nat) : Comp Tables Error Nat := do
  let s ← Comp.get
  when (s.isGroupLeader pid) (fail (.withMessage .EPERM "process group leader cannot be moved to new session."))
  let σ ← expect (s.session pid)
  when (s.sessionTable.get? pid).isSome (fail (.withMessage .EPERM "cannot create new session"))
  when (s.groupTable.get? pid).isSome (fail (.withMessage .EPERM "cannot create process group"))
  leaveOld false pid σ
  modify (newSession pid)
  modify (updSession σ (Session.removeProcess pid))
  pure s.nextSession

def toNewSession (pid : Nat) : Comp Tables Error Nat := do
  let leads ← isSessionLeader pid
  if leads then do
    let s ← Comp.get
    expect (s.session pid)
  else makeNewSession pid

def toNewGroup (pid : Nat) : Comp Tables Error Unit := do
  let s ← Comp.get
  let σ ← expect (s.session pid)
  leaveOld true pid σ
  modify (newGroup pid σ)

/-- The old group of `to_specified_group`: it leaves the group table with its last process, but not its session. -/
def leaveForSpecified (pid old : Nat) (s : Tables) : Tables :=
  let s := (s.updGroup old (Group.removeProcess pid)).setLink pid none
  if (s.groups old).isEmpty then { s with groupTable := s.groupTable.remove (s.groups old).pgid } else s

def toSpecifiedGroup (pid g : Nat) : Comp Tables Error Unit := do
  let s ← Comp.get
  match s.processGroup pid with
  | some old =>
    if (s.groups old).pgid = (s.groups g).pgid then pure ()
    else modify fun s => join pid g (leaveForSpecified pid old s)
  | none => modify (join pid g)

/-- The group that a process is to move to, if it exists. -/
def toExistingOrNewGroup (pid pgid : Nat) : Comp Tables Error Unit := do
  let s ← Comp.get
  match s.groupTable.get? pgid with
  | some g => do
    let σ ← expect (s.session pid)
    when ((s.sessions σ).processGroups.get? (s.groups g).pgid).isNone
      (fail (.withMessage .EPERM "the group and process does not belong to same session"))
    toSpecifiedGroup pid g
  | none => do
    when (pgid != pid) (fail (.withMessage .EPERM "the new process group should have the same id as the process."))
    toNewGroup pid

/-- `Process::to_other_group`, of a process that is not in the group yet. -/
def leaveForOtherGroup (pid pgid : Nat) : Comp Tables Error Unit := do
  let leads ← isSessionLeader pid
  when leads (fail (.withMessage .EPERM "the process cannot be a session leader"))
  toExistingOrNewGroup pid pgid

def toOtherGroup (pid pgid : Nat) : Comp Tables Error Unit := do
  let s ← Comp.get
  if s.pgid pid = pgid then pure () else leaveForOtherGroup pid pgid

/-! ## System calls -/

/-- `sys_setpgid`, called by `current`. -/
def sysSetpgid (current pid pgid : Nat) : Comp Tables Error Unit := do
  let pid := if pid = 0 then current else pid
  let pgid := if pgid = 0 then pid else pgid
  let s ← Comp.get
  let proc ← expect (s.processes.get? current)
  when (pid != current && !proc.children.contains pid)
    (fail (.withMessage .ESRCH "cannot set pgid for process other than current or children of current"))
  when (pgid != pid && (s.groupTable.get? pgid).isNone) (fail (.withMessage .EPERM "process group must exist"))
  when (!s.processTable.contains pid) (fail (.withMessage .ESRCH "process does not exist"))
  toOtherGroup pid pgid

/-- `sys_setsid`: the id of the session. -/
def sysSetsid (current : Nat) : Comp Tables Error Nat := do
  let σ ← toNewSession current
  let s ← Comp.get
  pure (s.sessions σ).sid

/-- `allocate_tid`: the counter has 32 bits. -/
def allocateTid : Comp Tables Error Nat := do
  let s ← Comp.get
  modify fun s => { s with nextTid := (s.nextTid + 1) % 2 ^ 32 }
  pure s.nextTid

def setParentAndGroup (parent child : Nat) : Comp Tables Error Unit := do
  let s ← Comp.get
  let g ← expect (s.processGroup parent)
  modify (updProc parent fun p => { p with children := p.children.insert child })
  modify fun s => { s with
    processes := s.processes.insert child ⟨some parent, BTreeSet.empty, none, .runnable⟩
    processTable := s.processTable.insert child }
  modify (join child g)

/-- `clone_child_process`: the id of the child. -/
def fork (current : Nat) : Comp Tables Error Nat := do
  let child ← allocateTid
  setParentAndGroup current child
  pure child

/-! ## Exit and wait -/

def INIT_PROCESS_PID : Nat := 1

/-- A child becomes a child of the init process. -/
def giveToInit (child : Nat) (s : Tables) : Tables :=
  (s.updProc INIT_PROCESS_PID fun p => { p with children := p.children.insert child }).updProc child
    fun p => { p with parent := some INIT_PROCESS_PID }

def giveAll (children : List Nat) (s : Tables) : Tables := children.foldl (fun s child => giveToInit child s) s

def childrenOf (s : Tables) (pid : Nat) : BTreeSet :=
  match s.processes.get? pid with
  | some p => p.children
  | none => BTreeSet.empty

/-- A process that exits has the init process take its children. -/
def handsOver (s : Tables) (pid : Nat) : Bool := pid != INIT_PROCESS_PID && s.processTable.contains INIT_PROCESS_PID

/-- The part of `do_exit_group` that moves the children of a process to the init process. -/
def handOver (pid : Nat) (s : Tables) : Tables :=
  if handsOver s pid then
    (giveAll (childrenOf s pid).toList s).updProc pid fun p => { p with children := BTreeSet.empty }
  else s

def setZombie (pid : Nat) (term : TermStatus) : Tables → Tables :=
  updProc pid fun p => { p with status := .zombie term }

/-- `do_exit_group`, run at one go. Files and threads are not in the tables. -/
def doExitGroup (current : Nat) (term : TermStatus) : Comp Tables Error Unit := do
  let s ← Comp.get
  let proc ← expect (s.processes.get? current)
  when (!proc.isZombie) (modify fun s => handOver current (setZombie current term s))

inductive ProcessFilter where
  | any
  | withPid (pid : Nat)
  | withPgid (pgid : Nat)
deriving DecidableEq, Repr

def ProcessFilter.test (s : Tables) (child : Nat) : ProcessFilter → Bool
  | .any => true
  | .withPid pid => child == pid
  | .withPgid pgid => s.pgid child == pgid

/-- `WaitOptions`, of which the others are not supported. -/
structure WaitOptions where
  wnohang : Bool
  wnowait : Bool
deriving DecidableEq, Repr

/-- The children that a process waits for. -/
def unwaitedChildren (s : Tables) (pid : Nat) (filter : ProcessFilter) : List Nat :=
  (childrenOf s pid).toList.filter fun child => filter.test s child

def isZombie (s : Tables) (pid : Nat) : Bool := (s.processes.get? pid).any Proc.isZombie

def exitCode (s : Tables) (pid : Nat) : Option UInt32 := (s.processes.get? pid).bind Proc.exitCode

/-- The first step of `reap_zombie_child`: the child leaves the children of its parent. -/
def removeChild (parent child : Nat) : Comp Tables Error Unit := do
  let s ← Comp.get
  assert ((childrenOf s parent).contains child)
  modify (updProc parent fun p => { p with children := p.children.remove child })
  assert (isZombie s child)

/-- The second step of `reap_zombie_child`, under the locks of the three tables. -/
def removeFromTables (child : Nat) : Comp Tables Error UInt32 := do
  let s ← Comp.get
  let g ← expect (s.processGroup child)
  let σ ← expect (s.groupSession g)
  modify (updSession σ (Session.removeProcess child))
  modify (leave false child g σ)
  modify fun s => { s with processTable := s.processTable.remove child }
  expect (exitCode s child)

def reapZombieChild (parent child : Nat) : Comp Tables Error UInt32 := do
  removeChild parent child
  removeFromTables child

/-- What `wait_child_exit` does with the children that it waits for. -/
def waitFor (current : Nat) (options : WaitOptions) (children : List Nat) :
    Comp Tables Error (Option (Nat × UInt32)) := do
  let s ← Comp.get
  match children.find? (isZombie s) with
  | some child => do
    let code ← expect (exitCode s child)
    if options.wnowait then pure (some (child, code))
    else do
      let code ← reapZombieChild current child
      pure (some (child, code))
  | none => pure (if options.wnohang then some (0, 0) else none)

/-- The condition that `wait_child_exit` pauses on: `none` if the thread is to be paused. -/
def waitChildExit (current : Nat) (filter : ProcessFilter) (options : WaitOptions) :
    Comp Tables Error (Option (Nat × UInt32)) := do
  let s ← Comp.get
  when (unwaitedChildren s current filter).isEmpty (fail (.withMessage .ECHILD "the process has no child to wait"))
  waitFor current options (unwaitedChildren s current filter)

/-! ## The system -/

/-- No process, group or session. -/
def Tables.empty (nextTid : Nat) : Tables where
  processes := BTreeMap.empty
  processTable := BTreeSet.empty
  groupTable := BTreeMap.empty
  sessionTable := BTreeMap.empty
  groups _ := ⟨0, BTreeMap.empty, none, none⟩
  sessions _ := ⟨0, BTreeMap.empty, none⟩
  nextGroup := 0
  nextSession := 0
  nextTid := nextTid

/-- `create_user_process`: the first process, in a group and a session of its own. -/
def Tables.boot (pid : Nat) : Tables :=
  newSession pid { empty ((pid + 1) % 2 ^ 32) with
    processes := BTreeMap.empty.insert pid ⟨none, BTreeSet.empty, none, .runnable⟩
    processTable := BTreeSet.empty.insert pid }

/-- An operation of a process, or a thread that takes a number of the counter of process ids. -/
inductive Op where
  | fork (current : Nat)
  | cloneThread
  | setpgid (current pid pgid : Nat)
  | setsid (current : Nat)
  | exit (current : Nat) (term : TermStatus)
  | wait (current : Nat) (filter : ProcessFilter) (options : WaitOptions)
deriving DecidableEq, Repr

def Op.run : Op → Comp Tables Error Unit
  | .fork current => do let _ ← Process.fork current; pure ()
  | .cloneThread => do let _ ← allocateTid; pure ()
  | .setpgid current pid pgid => sysSetpgid current pid pgid
  | .setsid current => do let _ ← sysSetsid current; pure ()
  | .exit current term => doExitGroup current term
  | .wait current filter options => do let _ ← waitChildExit current filter options; pure ()

end AsterKernel.Process
