import AsterKernel.Lib.Threads
import AsterKernel.Process.Family

/-!
# `Process.ExitWait` — threads that exit and threads that wait

Any number of threads run `do_exit_group` and `wait_child_exit`, step by step and in any order. A step is what a
thread does under one lock, or between two of them. The state remembers which zombies have been reaped and, in a log,
when a process became a zombie or a child and when the waiting threads of a process were woken.

A process is marked as a zombie at the start of its exit, so a parent may reap it before the exit is done; and a
thread that has found a zombie does not hold on to it, so that two threads may reap the same one. Both are ruled out
by `Act.Apart`.
-/

namespace AsterKernel.Process

open Lib Lib.Comp Tables List Bool

/-! ## Threads -/

/-- Where a thread is in `do_exit_group`. -/
inductive ExitPc where
  /-- The process was not a zombie. -/
  | checked
  /-- `set_zombie` is done. -/
  | marked
  /-- Threads have exited and files are closed. -/
  | closed
  /-- Children are with the init process. -/
  | handedOver
  /-- The parent that is to be notified. -/
  | lookedUp (parent : Option Nat)
  | done
deriving DecidableEq, Repr

/-- A thread in `do_exit_group`. -/
structure Exiter where
  pid : Nat
  term : TermStatus
  pc : ExitPc
deriving DecidableEq, Repr

/-- Where a thread is in `wait_child_exit`. -/
inductive WaitPc where
  | start
  /-- The children that it waits for. -/
  | listed (children : List Nat)
  /-- The zombie that it is to reap. -/
  | found (child : Nat)
  /-- The zombie is not among the children of the process any more. -/
  | removed (child : Nat)
  | blocked
  | returned (pid : Nat) (code : UInt32)
  | failed (e : Error)
deriving DecidableEq, Repr

/-- A thread in `wait_child_exit`, and whether it was woken since it looked for children. -/
structure Waiter where
  pid : Nat
  filter : ProcessFilter
  options : WaitOptions
  pc : WaitPc
  woken : Bool
deriving DecidableEq, Repr

namespace Waiter

/-- The children that the thread waits for are listed, under the lock of the children. -/
def list (children : List Nat) (w : Waiter) : Waiter :=
  if children.isEmpty then { w with pc := .failed (.withMessage .ECHILD "the process has no child to wait") }
  else { w with pc := .listed children }

/-- The thread looks for a zombie among them. A thread that is woken before it sleeps tries again. -/
def find (s : Tables) (children : List Nat) (w : Waiter) : Waiter :=
  match children.find? (isZombie s) with
  | some child =>
    if w.options.wnowait then { w with pc := .returned child ((exitCode s child).getD 0) }
    else { w with pc := .found child }
  | none =>
    if w.options.wnohang then { w with pc := .returned 0 0 }
    else if w.woken then { w with pc := .start, woken := false }
    else { w with pc := .blocked }

/-- `resume_all` on the pauser of a process. -/
def wake (pid : Nat) (w : Waiter) : Waiter :=
  if w.pid = pid then
    match w.pc with
    | .blocked => { w with pc := .start }
    | _ => { w with woken := true }
  else w

/-- The thread has listed children and not removed one yet. -/
def busy (w : Waiter) : Bool :=
  match w.pc with
  | .listed _ | .found _ => true
  | _ => false

/-- The children that the thread has listed. -/
def candidates (w : Waiter) : List Nat :=
  match w.pc with
  | .listed children => children
  | _ => []

end Waiter

open Waiter

/-- What the log records. -/
inductive Event where
  | becameZombie (pid : Nat)
  | becameChild (parent child : Nat)
  | woken (pid : Nat)
deriving DecidableEq, Repr

structure Sys where
  tables : Tables
  exits : List Exiter
  waits : List Waiter
  reaped : List Nat
  /-- The last event comes first. -/
  log : List Event

namespace Sys

/-- The children that move when a process exits. -/
def moved (s : Sys) (pid : Nat) : List Nat := if handsOver s.tables pid then (childrenOf s.tables pid).toList else []

/-- The thread `i` gets on with its exit. -/
def setExit (i : Nat) (e : Exiter) (pc : ExitPc) (s : Sys) : Sys :=
    { s with exits := s.exits.set i { e with pc := pc } }

def setWait (j : Nat) (w : Waiter) (s : Sys) : Sys := { s with waits := s.waits.set j w }

/-- The parent of a process that has exited is notified. -/
def notifyParent (s : Sys) : Option Nat → Sys
  | some parent => { s with waits := s.waits.map (Waiter.wake parent), log := .woken parent :: s.log }
  | none => s

end Sys

/-! ## Steps -/

/-- Which step is taken: by a process, by the exiting thread `i` or by the waiting thread `j`. -/
inductive Act where
  | fork (pid : Nat)
  | exit (pid : Nat)
  | mark (i : Nat)
  | close (i : Nat)
  | handOver (i : Nat)
  | lookUp (i : Nat)
  | notify (i : Nat)
  | wait (pid : Nat)
  | list (j : Nat)
  | find (j : Nat)
  | remove (j : Nat)
  | reap (j : Nat)
  | interrupt (j : Nat)
deriving DecidableEq, Repr

inductive Step (s : Sys) : Act → Sys → Prop where
  | fork {pid child : Nat} {t : Tables} (h : Process.fork pid s.tables = .ok child t) :
      Step s (.fork pid) { s with tables := t, log := .becameChild pid child :: s.log }
  /-- `do_exit_group` goes on if the process is not a zombie. -/
  | exit {pid : Nat} {p : Proc} (term : TermStatus) (h : s.tables.processes.get? pid = some p)
      (hp : p.isZombie = false) : Step s (.exit pid) { s with exits := s.exits ++ [⟨pid, term, .checked⟩] }
  | mark {i : Nat} {e : Exiter} (h : s.exits[i]? = some e) (hpc : e.pc = .checked) :
      Step s (.mark i) ({ s with tables := setZombie e.pid e.term s.tables
                                 log := .becameZombie e.pid :: s.log }.setExit i e .marked)
  | close {i : Nat} {e : Exiter} (h : s.exits[i]? = some e) (hpc : e.pc = .marked) :
      Step s (.close i) (s.setExit i e .closed)
  | handOver {i : Nat} {e : Exiter} (h : s.exits[i]? = some e) (hpc : e.pc = .closed) : Step s (.handOver i)
        ({ s with tables := Process.handOver e.pid s.tables
                  log := (s.moved e.pid).map (Event.becameChild INIT_PROCESS_PID) ++ s.log }.setExit i e .handedOver)
  | lookUp {i : Nat} {e : Exiter} (h : s.exits[i]? = some e) (hpc : e.pc = .handedOver) :
      Step s (.lookUp i) (s.setExit i e (.lookedUp (parentOf s.tables e.pid)))
  | notify {i : Nat} {e : Exiter} {parent : Option Nat} (h : s.exits[i]? = some e) (hpc : e.pc = .lookedUp parent) :
      Step s (.notify i) ((s.notifyParent parent).setExit i e .done)
  | wait {pid : Nat} {p : Proc} (filter : ProcessFilter) (options : WaitOptions)
      (h : s.tables.processes.get? pid = some p) :
      Step s (.wait pid) { s with waits := s.waits ++ [⟨pid, filter, options, .start, false⟩] }
  | list {j : Nat} {w : Waiter} (h : s.waits[j]? = some w) (hpc : w.pc = .start) :
      Step s (.list j) (s.setWait j (w.list (unwaitedChildren s.tables w.pid w.filter)))
  | find {j : Nat} {w : Waiter} {children : List Nat} (h : s.waits[j]? = some w) (hpc : w.pc = .listed children) :
      Step s (.find j) (s.setWait j (w.find s.tables children))
  | remove {j : Nat} {w : Waiter} {child : Nat} {t : Tables} (h : s.waits[j]? = some w) (hpc : w.pc = .found child)
      (hrun : removeChild w.pid child s.tables = .ok () t) :
      Step s (.remove j) ({ s with tables := t }.setWait j { w with pc := .removed child })
  | reap {j : Nat} {w : Waiter} {child : Nat} {code : UInt32} {t : Tables} (h : s.waits[j]? = some w)
      (hpc : w.pc = .removed child) (hrun : removeFromTables child s.tables = .ok code t) :
      Step s (.reap j)
        ({ s with tables := t, reaped := child :: s.reaped }.setWait j { w with pc := .returned child code })
  | interrupt {j : Nat} {w : Waiter} (h : s.waits[j]? = some w) (hpc : w.pc = .blocked) : Step s (.interrupt j)
        (s.setWait j { w with pc := .failed (.withMessage .EINTR "interrupted by signal") })

/-- A thread that is to take a child out of a map or a table does not find it there. -/
def Sys.Panics (s : Sys) : Prop :=
  ∃ w ∈ s.waits, ∃ child, (w.pc = .found child ∧ removeChild w.pid child s.tables = .panic) ∨
    (w.pc = .removed child ∧ removeFromTables child s.tables = .panic)

/-- The first process, before any thread exits or waits. -/
def Sys.boot (pid : Nat) : Sys := ⟨.boot pid, [], [], [], []⟩

/-- The states after steps in `P`. -/
def SysReach (P : Sys → Act → Prop) (pid : Nat) : Sys → Prop :=
  Reach (· = Sys.boot pid) fun s t => ∃ act, P s act ∧ Step s act t

/-! ## Exits that are done -/

variable {s t : Sys} {act : Act} {c q : Nat}

/-- A child gets an id that no process has had. -/
def Act.Fresh (s : Sys) : Act → Prop
  | .fork _ => s.tables.processes.get? s.tables.nextTid = none
  | _ => True

/-- The process is a zombie and no thread of it is in the middle of its exit. -/
def Sys.Finished (s : Sys) (pid : Nat) : Prop :=
  isZombie s.tables pid = true ∧ ∀ e ∈ s.exits, e.pid = pid → e.pc = .done

/-- Zombies stay zombies. -/
theorem Step.zombie (h : Step s act t) (hfresh : act.Fresh s) (hq : isZombie s.tables q = true) :
    isZombie t.tables q = true := by
  cases h with
  | fork hfork =>
    show isZombie _ q = true
    rw [fork_isZombie hfork hfresh]
    exact hq
  | exit | close | lookUp | wait | list | find | interrupt => exact hq
  | mark =>
    show isZombie (setZombie _ _ _) q = true
    rw [isZombie_setZombie]
    split
    · subst q
      exact isSome_of_isZombie hq
    · exact hq
  | handOver => exact handOver_isZombie.trans hq
  | @notify i e parent =>
    cases parent with
    | none | some p => exact hq
  | remove _ _ hrun =>
    obtain ⟨-, -, rfl⟩ := removeChild_ok hrun
    refine Eq.trans (isZombie_updProc_of ?_) hq
    exact fun _ => rfl
  | reap _ _ hrun => exact (isZombie_kin (congrFun (removeFromTables_ok hrun).1 q)).trans hq

theorem Step.exiter (h : Step s act t) {e' : Exiter} (he' : e' ∈ t.exits) :
    e' ∈ s.exits ∨ ((s.tables.processes.get? e'.pid).isSome ∧ isZombie s.tables e'.pid = false) ∨
      ∃ e ∈ s.exits, e.pid = e'.pid ∧ e.pc ≠ .done := by
  have hset : ∀ {i : Nat} {e : Exiter} {pc : ExitPc} {exits : List Exiter}, exits = s.exits → s.exits[i]? = some e →
      e.pc ≠ .done → e' ∈ exits.set i { e with pc := pc } →
      e' ∈ s.exits ∨ ((s.tables.processes.get? e'.pid).isSome ∧ isZombie s.tables e'.pid = false) ∨
        ∃ e ∈ s.exits, e.pid = e'.pid ∧ e.pc ≠ .done := by
    rintro i e pc _ rfl hi hpc hmem
    rcases mem_or_eq_of_mem_set hmem with hold | rfl
    · exact .inl hold
    · exact .inr (.inr ⟨e, mem_of_getElem? hi, rfl, hpc⟩)
  cases h with
  | fork | wait | list | find | remove | reap | interrupt => exact .inl he'
  | exit _ hp hz =>
    rcases mem_append.mp he' with hold | hnew
    · exact .inl hold
    · rw [mem_singleton.mp hnew]
      refine .inr (.inl ⟨by rw [hp]; rfl, ?_⟩)
      unfold isZombie
      rw [hp]
      exact hz
  | mark hi hpc | close hi hpc | handOver hi hpc
  | lookUp hi hpc => exact hset rfl hi (by rw [hpc]; exact nofun) he'
  | @notify i e parent hi hpc =>
    refine hset ?_ hi (by rw [hpc]; exact nofun) he'
    cases parent with
    | none | some p => rfl

theorem Step.finished (h : Step s act t) (hfresh : act.Fresh s) (hc : s.Finished c) : t.Finished c := by
  refine ⟨h.zombie hfresh hc.1, ?_⟩
  intro e' he' hpid
  rcases h.exiter he' with hold | ⟨-, hz⟩ | ⟨e, he, hsame, hpc⟩
  · exact hc.2 e' hold hpid
  · rw [hpid, hc.1] at hz
    cases hz
  · exact absurd (hc.2 e he (hsame.trans hpid)) hpc

/-! ## Orderly runs -/

/-- Two threads are about to reap the same child, or may be. -/
def Waiter.Clash (w w' : Waiter) : Prop :=
  (w.busy = true ∧ w'.busy = true ∧ w.pid = w'.pid) ∨ ∃ c, w.pc = .removed c ∧ w'.pc = .removed c

/-- What a waiting thread relies on. -/
structure Sys.Relies (s : Sys) (w : Waiter) : Prop where
  listed : ∀ cs, w.pc = .listed cs → ∀ c ∈ cs, (childrenOf s.tables w.pid).contains c = true
  found : ∀ c, w.pc = .found c → (childrenOf s.tables w.pid).contains c = true ∧ s.Finished c
  removed : ∀ c, w.pc = .removed c → s.tables.processTable.contains c = true ∧ s.Finished c ∧
    ∀ p, (childrenOf s.tables p).contains c = false

/-- The tables agree with what has been reaped. -/
structure Sys.Settled (s : Sys) : Prop where
  consistent : s.tables.Consistent none
  kin : Kin s.tables
  linked : ∀ q, s.tables.processTable.contains q = true → s.tables.link q ≠ none
  tabled : ∀ p c, (childrenOf s.tables p).contains c = true → s.tables.processTable.contains c = true
  reaped : ∀ c ∈ s.reaped, s.Finished c ∧ s.tables.processTable.contains c = false
  left : ∀ c, (s.tables.processes.get? c).isSome → c ∉ s.reaped → s.tables.processTable.contains c = true
  nodup : s.reaped.Nodup
  exiters : ∀ e ∈ s.exits, (s.tables.processes.get? e.pid).isSome

structure Sys.Orderly (s : Sys) : Prop where
  settled : s.Settled
  waits : ∀ w ∈ s.waits, s.Relies w
  lone : Lone Waiter.Clash s.waits

/-- Searches of one process do not overlap, neither with each other nor with the exit of a child that they see or with
the moment at which the process itself hands its children over. -/
def Act.Apart (s : Sys) : Act → Prop
  | .fork _ => s.tables.processes.get? s.tables.nextTid = none
  | .handOver i => ∀ e ∈ s.exits[i]?, ∀ w ∈ s.waits, w.pid = e.pid → w.busy = false
  | .list j => ∀ w ∈ s.waits[j]?, ∀ w' ∈ s.waits, w'.pid = w.pid → w'.busy = false
  | .find j => ∀ w ∈ s.waits[j]?, ∀ c ∈ w.candidates, isZombie s.tables c = true →
      ∀ e ∈ s.exits, e.pid = c → e.pc = .done
  | _ => True

instance (s : Sys) (act : Act) : Decidable (act.Apart s) :=
  match act with
  | .fork _ => inferInstanceAs (Decidable (_ = none))
  | .handOver i => inferInstanceAs (Decidable (∀ e ∈ s.exits[i]?, ∀ w ∈ s.waits, w.pid = e.pid → w.busy = false))
  | .list j => inferInstanceAs (Decidable (∀ w ∈ s.waits[j]?, ∀ w' ∈ s.waits, w'.pid = w.pid → w'.busy = false))
  | .find j => inferInstanceAs (Decidable (∀ w ∈ s.waits[j]?, ∀ c ∈ w.candidates, isZombie s.tables c = true →
      ∀ e ∈ s.exits, e.pid = c → e.pc = .done))
  | .exit _ | .mark _ | .close _ | .lookUp _ | .notify _ | .wait _ | .remove _ | .reap _ | .interrupt _ =>
    inferInstanceAs (Decidable True)

theorem Act.Apart.fresh (h : act.Apart s) : act.Fresh s := by
  cases act with
  | fork pid => exact h
  | _ => trivial

variable {w w' : Waiter}

section

variable (h : s.Relies w) (hfin : ∀ c, s.Finished c → t.Finished c)
include h hfin

/-- A step that the waiting thread does not notice. -/
theorem Sys.Relies.frame (hkeep : ∀ c, w.busy = true → (childrenOf s.tables w.pid).contains c = true →
      (childrenOf t.tables w.pid).contains c = true)
    (htable : ∀ c, w.pc = .removed c → s.tables.processTable.contains c = true →
      t.tables.processTable.contains c = true)
    (hgone : ∀ c, w.pc = .removed c → s.Finished c → (∀ p, (childrenOf s.tables p).contains c = false) →
      ∀ p, (childrenOf t.tables p).contains c = false) : t.Relies w where
  listed cs hpc c hc := hkeep c (by unfold busy; rw [hpc]) (h.listed cs hpc c hc)
  found c hpc := ⟨hkeep c (by unfold busy; rw [hpc]) (h.found c hpc).1, hfin c (h.found c hpc).2⟩
  removed c hpc := by
    obtain ⟨hin, hc, hnone⟩ := h.removed c hpc
    exact ⟨htable c hpc hin, hfin c hc, hgone c hpc hc hnone⟩

theorem Sys.Relies.same (htables : t.tables = s.tables) : t.Relies w := by
  refine h.frame hfin ?_ ?_ ?_
  · rw [htables]
    exact fun _ _ hc => hc
  · rw [htables]
    exact fun _ _ hc => hc
  · rw [htables]
    exact fun _ _ _ hc => hc

end

theorem Waiter.Clash.symm (h : w.Clash w') : w'.Clash w :=
  h.imp (fun h => ⟨h.2.1, h.1, h.2.2.symm⟩) fun ⟨c, h⟩ => ⟨c, h.symm⟩

theorem Waiter.not_clash_of (h : ¬ w.Clash w') : ¬ w.Clash w' ∧ ¬ w'.Clash w := ⟨h, fun hc => h hc.symm⟩

section

variable (hbusy : w.busy = false) (hremoved : ∀ c, w.pc ≠ .removed c)
include hbusy hremoved

theorem Sys.Relies.idle : s.Relies w where
  listed cs hpc := by simp [busy, hpc] at hbusy
  found c hpc := by simp [busy, hpc] at hbusy
  removed c hpc := absurd hpc (hremoved c)

theorem Waiter.not_clash : ¬ w.Clash w' ∧ ¬ w'.Clash w := by
  refine not_clash_of ?_
  rintro (⟨h, -, -⟩ | ⟨c, h, -⟩)
  · rw [hbusy] at h
    cases h
  · exact hremoved c h

end

theorem Sys.Settled.same (h : s.Settled) (hfin : ∀ c, s.Finished c → t.Finished c) (htables : t.tables = s.tables)
    (hreaped : t.reaped = s.reaped) (hexits : ∀ e ∈ t.exits, (s.tables.processes.get? e.pid).isSome) : t.Settled where
  consistent := by rw [htables]; exact h.consistent
  kin := by rw [htables]; exact h.kin
  linked := by rw [htables]; exact h.linked
  tabled := by rw [htables]; exact h.tabled
  reaped := by
    rw [htables, hreaped]
    exact fun c hc => (h.reaped c hc).imp_left (hfin c)
  left := by rw [htables, hreaped]; exact h.left
  nodup := by rw [hreaped]; exact h.nodup
  exiters := by rw [htables]; exact hexits

theorem Step.exiters (h : Step s act t) (hs : ∀ e ∈ s.exits, (s.tables.processes.get? e.pid).isSome) :
    ∀ e ∈ t.exits, (s.tables.processes.get? e.pid).isSome := by
  intro e' he'
  rcases h.exiter he' with hold | ⟨hsome, -⟩ | ⟨e, he, hsame, -⟩
  · exact hs e' hold
  · exact hsome
  · rw [← hsame]
    exact hs e he

theorem Step.isSome (h : Step s act t) (hfresh : act.Fresh s) (hq : (s.tables.processes.get? q).isSome) :
    (t.tables.processes.get? q).isSome := by
  cases h with
  | fork hfork =>
    show (Option.isSome _) = true
    rw [fork_isSome hfork, hq, Bool.or_true]
  | exit | close | lookUp | wait | list | find | interrupt => exact hq
  | mark => exact isSome_updProc.trans hq
  | handOver => exact handOver_isSome.trans hq
  | @notify i e parent =>
    cases parent with
    | none | some p => exact hq
  | remove _ _ hrun =>
    obtain ⟨-, -, rfl⟩ := removeChild_ok hrun
    exact isSome_updProc.trans hq
  | reap _ _ hrun => exact (isSome_kin (congrFun (removeFromTables_ok hrun).1 q)).trans hq

theorem Step.kin (h : Step s act t) (hfresh : act.Fresh s) (hs : Kin s.tables)
    (hexits : ∀ e ∈ s.exits, (s.tables.processes.get? e.pid).isSome) : Kin t.tables := by
  cases h with
  | fork hfork => exact hs.fork hfork hfresh
  | exit | close | lookUp | wait | list | find | interrupt => exact hs
  | mark => exact hs.setZombie
  | @handOver i e hi hpc => exact hs.handOver (hexits e (mem_of_getElem? hi))
  | @notify i e parent =>
    cases parent with
    | none | some p => exact hs
  | remove _ _ hrun =>
    obtain ⟨hin, -, rfl⟩ := removeChild_ok hrun
    exact hs.removeChild (isSome_of_childrenOf hin)
  | @reap j w child code u _ _ hrun =>
    obtain ⟨hkin, htable, -⟩ := removeFromTables_ok hrun
    refine hs.congr hkin fun q hq => ?_
    have hq : u.processTable.contains q = true := hq
    rw [htable, BTreeSet.contains_remove, and_eq_true] at hq
    exact hq.2

theorem Sys.Settled.of_tables (h : s.Settled) (hstep : Step s act t) (hfresh : act.Fresh s)
    (halike : s.tables.Alike t.tables) (hreaped : t.reaped = s.reaped)
    (htable : t.tables.processTable = s.tables.processTable)
    (hsome : ∀ q, (t.tables.processes.get? q).isSome = (s.tables.processes.get? q).isSome)
    (hchildren : ∀ p c, (childrenOf t.tables p).contains c = true →
      ∃ p', (childrenOf s.tables p').contains c = true) : t.Settled where
  consistent := h.consistent.alike halike
  kin := hstep.kin hfresh h.kin h.exiters
  linked := by
    rw [htable, halike.link]
    exact h.linked
  tabled p c hc := by
    obtain ⟨p', hc⟩ := hchildren p c hc
    rw [htable]
    exact h.tabled p' c hc
  reaped := by
    rw [htable, hreaped]
    exact fun c hc => (h.reaped c hc).imp_left (hstep.finished hfresh)
  left := by
    rw [htable, hreaped]
    intro c hc
    rw [hsome] at hc
    exact h.left c hc
  nodup := by rw [hreaped]; exact h.nodup
  exiters e he := by
    rw [hsome]
    exact hstep.exiters h.exiters e he

theorem Sys.Settled.fork {pid child : Nat} {u : Tables} (h : s.Settled)
    (hfork : Process.fork pid s.tables = .ok child u) (hfresh : s.tables.processes.get? s.tables.nextTid = none) :
    Sys.Settled { s with tables := u, log := .becameChild pid child :: s.log } := by
  obtain ⟨hchild, -, htable, ⟨g, hlink⟩, -⟩ := fork_ok hfork
  have hnew : ∀ q, (s.tables.processes.get? q).isSome → q ≠ child := by
    rintro q hq rfl
    rw [hchild, hfresh] at hq
    cases hq
  have hfin : ∀ c, s.Finished c → Sys.Finished { s with tables := u, log := .becameChild pid child :: s.log } c :=
    fun c => (Step.fork hfork).finished hfresh
  refine ⟨?_, h.kin.fork hfork hfresh, ?_, ?_, ?_, ?_, h.nodup, ?_⟩
  · refine fork_consistent h.consistent ?_ (by rw [hfork]; rfl)
    by_contra hin
    have hsome := h.kin.objects _ (by simpa using hin)
    rw [hfresh] at hsome
    cases hsome
  · intro q hq
    dsimp only at hq ⊢
    rw [hlink]
    by_cases hqc : q = child
    · subst hqc
      rw [Function.update_self]
      exact nofun
    · rw [Function.update_of_ne hqc]
      rw [htable, BTreeSet.contains_insert, decide_eq_false hqc, Bool.false_or] at hq
      exact h.linked q hq
  · intro p c hc
    dsimp only at hc ⊢
    rw [htable, BTreeSet.contains_insert, or_eq_true, decide_eq_true_eq]
    rcases (fork_children hfork hfresh p c).mp hc with ⟨hc, -⟩ | ⟨-, rfl⟩
    · exact .inr (h.tabled p c hc)
    · exact .inl rfl
  · intro c hc
    obtain ⟨hdone, hout⟩ := h.reaped c hc
    refine ⟨hfin c hdone, ?_⟩
    dsimp only
    rw [htable, BTreeSet.contains_insert, hout, Bool.or_false, decide_eq_false_iff_not]
    exact hnew c (isSome_of_isZombie hdone.1)
  · intro c hc hout
    dsimp only at hc ⊢
    rw [fork_isSome hfork, or_eq_true] at hc
    rw [htable, BTreeSet.contains_insert, or_eq_true]
    exact hc.imp id fun hc => h.left c hc hout
  · intro e he
    dsimp only
    rw [fork_isSome hfork, h.exiters e he, Bool.or_true]

theorem Sys.Settled.reap {j child : Nat} {code : UInt32} {u : Tables} (h : s.Settled) (hj : s.waits[j]? = some w)
    (hpc : w.pc = .removed child) (hrun : removeFromTables child s.tables = .ok code u) (hw : s.Relies w) : Sys.Settled
      ({ s with tables := u, reaped := child :: s.reaped }.setWait j { w with pc := .returned child code }) := by
  obtain ⟨hkin, htable, hlink⟩ := removeFromTables_ok hrun
  obtain ⟨hin, hdone, hnone⟩ := hw.removed child hpc
  have hstep := Step.reap hj hpc hrun
  have hout : ∀ q, u.processTable.contains q = true ↔ q ≠ child ∧ s.tables.processTable.contains q = true := by
    intro q
    rw [htable, BTreeSet.contains_remove, and_eq_true, not_eq_true', decide_eq_false_iff_not]
  refine ⟨removeFromTables_consistent h.consistent (by rw [hrun]; rfl), h.kin.congr hkin ?_, ?_, ?_, ?_, ?_, ?_, ?_⟩
  · exact fun q hq => ((hout q).mp hq).2
  · intro q hq
    obtain ⟨hne, hq⟩ := (hout q).mp hq
    show u.link q ≠ none
    rw [hlink, Function.update_of_ne hne]
    exact h.linked q hq
  · intro p c hc
    have hold : (childrenOf s.tables p).contains c = true := by
      rw [← childrenOf_kin (congrFun hkin p)]
      exact hc
    refine (hout c).mpr ⟨?_, h.tabled p c hold⟩
    rintro rfl
    cases hold.symm.trans (hnone p)
  · intro c hc
    rcases mem_cons.mp hc with rfl | hc
    · exact ⟨hstep.finished trivial hdone, eq_false_iff.mpr fun hin' => ((hout c).mp hin').1 rfl⟩
    · obtain ⟨hdone', hnot⟩ := h.reaped c hc
      refine ⟨hstep.finished trivial hdone', eq_false_iff.mpr fun hin' => ?_⟩
      cases hnot.symm.trans ((hout c).mp hin').2
  · intro c hc hnot
    obtain ⟨hne, hnot⟩ := not_or.mp fun hmem => hnot (mem_cons.mpr hmem)
    refine (hout c).mpr ⟨hne, h.left c ?_ hnot⟩
    rw [← isSome_kin (congrFun hkin c)]
    exact hc
  · refine nodup_cons.mpr ⟨fun hc => ?_, h.nodup⟩
    cases (h.reaped child hc).2.symm.trans hin
  · intro e he
    show (u.processes.get? e.pid).isSome
    rw [isSome_kin (congrFun hkin e.pid)]
    exact h.exiters e he

/-- **The tables after a step.** -/
theorem Step.settled (h : Step s act t) (hs : s.Orderly) (hfresh : act.Fresh s) : t.Settled := by
  have hset := hs.settled
  have hfin : ∀ c, s.Finished c → t.Finished c := fun c => h.finished hfresh
  have hexits := h.exiters hset.exiters
  cases h with
  | fork hfork => exact hset.fork hfork hfresh
  | exit | close | lookUp | wait | list | find | interrupt => exact hset.same hfin rfl rfl hexits
  | mark hi hpc =>
    refine hset.of_tables (.mark hi hpc) hfresh (alike_updProc ?_) rfl updProc_processTable
      (fun _ => isSome_updProc) fun p c hc => ⟨p, ?_⟩
    · exact fun _ => rfl
    · rw [← childrenOf_setZombie]
      exact hc
  | @handOver i e hi hpc =>
    have hsome := hset.exiters e (mem_of_getElem? hi)
    refine hset.of_tables (.handOver hi hpc) hfresh alike_handOver rfl handOver_processTable
      (fun _ => handOver_isSome) fun p c hc => ?_
    have hc : (childrenOf (Process.handOver e.pid s.tables) p).contains c = true := hc
    cases hover : handsOver s.tables e.pid with
    | false =>
      rw [handOver_of_not hover] at hc
      exact ⟨p, hc⟩
    | true =>
      have hinit := hset.kin.objects _ (and_eq_true_iff.mp hover).2
      obtain ⟨-, hold | ⟨-, hmoved⟩⟩ := (handOver_children hsome hinit hover c).mp hc
      · exact ⟨p, hold⟩
      · exact ⟨e.pid, hmoved⟩
  | @notify i e parent =>
    cases parent with
    | none | some p => exact hset.same hfin rfl rfl hexits
  | @remove j w child u hj hpc hrun =>
    have hstep := Step.remove hj hpc hrun
    obtain ⟨hin, hz, rfl⟩ := removeChild_ok hrun
    have hsome := isSome_of_childrenOf hin
    refine hset.of_tables hstep hfresh (alike_updProc ?_) rfl updProc_processTable
      (fun _ => isSome_updProc) fun p c hc => ⟨p, ((removeChild_children hsome c).mp hc).1⟩
    exact fun _ => rfl
  | @reap j w child code u hj hpc hrun => exact hset.reap hj hpc hrun (hs.waits w (mem_of_getElem? hj))

/-! Waiting threads after a step. -/

theorem Sys.relies_set {j : Nat} {ws : List Waiter} (hall : ∀ w ∈ ws, t.Relies w) (hw' : t.Relies w') :
    ∀ w ∈ ws.set j w', t.Relies w := by
  intro w hw
  rcases mem_or_eq_of_mem_set hw with hold | rfl
  · exact hall w hold
  · exact hw'

theorem Waiter.wake_pid (p : Nat) (w : Waiter) : (w.wake p).pid = w.pid := by
  unfold wake
  split
  · split <;> rfl
  · rfl

theorem Waiter.wake_pc (p : Nat) (w : Waiter) : (w.wake p).pc = w.pc ∨ ((w.wake p).pc = .start ∧ w.pc = .blocked) := by
  unfold wake
  split
  · split
    · exact .inr ⟨rfl, ‹_›⟩
    · exact .inl rfl
  · exact .inl rfl

theorem Waiter.wake_busy (p : Nat) (w : Waiter) : (w.wake p).busy = w.busy := by
  unfold busy
  rcases w.wake_pc p with hpc | ⟨hpc, hblocked⟩
  · rw [hpc]
  · rw [hpc, hblocked]

theorem Waiter.wake_removed {p : Nat} (h : (w.wake p).pc = .removed c) : w.pc = .removed c := by
  rcases w.wake_pc p with hpc | ⟨hpc, -⟩
  · rw [← hpc]
    exact h
  · rw [hpc] at h
    cases h

theorem Waiter.Clash.of_wake {p : Nat} (h : (w.wake p).Clash (w'.wake p)) : w.Clash w' := by
  rcases h with ⟨hw, hw', hpid⟩ | ⟨c, hw, hw'⟩
  · rw [wake_busy] at hw hw'
    rw [wake_pid, wake_pid] at hpid
    exact .inl ⟨hw, hw', hpid⟩
  · exact .inr ⟨c, wake_removed hw, wake_removed hw'⟩

theorem Sys.Relies.wake (h : s.Relies w) (p : Nat) : s.Relies (w.wake p) := by
  rcases w.wake_pc p with hpc | ⟨hpc, -⟩
  · refine ⟨?_, ?_, ?_⟩
    · rw [hpc, wake_pid]
      exact h.listed
    · rw [hpc, wake_pid]
      exact h.found
    · rw [hpc]
      exact h.removed
  · refine .idle ?_ fun c => by rw [hpc]; exact nofun
    unfold busy
    rw [hpc]

theorem Waiter.find_cases (u : Tables) (children : List Nat) (w : Waiter) : (w.find u children).pid = w.pid ∧
      ((∃ child ∈ children, isZombie u child = true ∧ (w.find u children).pc = .found child) ∨
        ((w.find u children).busy = false ∧ ∀ c, (w.find u children).pc ≠ .removed c)) := by
  unfold find
  cases hfind : children.find? (isZombie u) with
  | some child =>
    cases hopt : w.options.wnowait with
    | true => exact ⟨rfl, .inr ⟨rfl, fun _ => nofun⟩⟩
    | false =>
      exact ⟨rfl, .inl ⟨child, mem_of_find?_eq_some hfind, find?_some hfind, rfl⟩⟩
  | none =>
    cases hopt : w.options.wnohang with
    | true => exact ⟨rfl, .inr ⟨rfl, fun _ => nofun⟩⟩
    | false =>
      cases hwoken : w.woken with
      | true | false => exact ⟨rfl, .inr ⟨rfl, fun _ => nofun⟩⟩

theorem Waiter.list_cases (children : List Nat) (w : Waiter) :
    (w.list children).pid = w.pid ∧ ((w.list children).pc = .listed children ∨
      ((w.list children).busy = false ∧ ∀ c, (w.list children).pc ≠ .removed c)) := by
  unfold list
  cases children.isEmpty with
  | true => exact ⟨rfl, .inr ⟨rfl, fun _ => nofun⟩⟩
  | false => exact ⟨rfl, .inl rfl⟩

section

variable (h : Step s act t) (hs : s.Orderly) (hapart : act.Apart s)
include h hs hapart

/-- **What the waiting threads rely on after a step.** -/
theorem Step.relies : ∀ w ∈ t.waits, t.Relies w := by
  have hfin : ∀ c, s.Finished c → t.Finished c := fun c => h.finished hapart.fresh
  have hsame : t.tables = s.tables → ∀ w ∈ s.waits, t.Relies w :=
    fun htables w hw => (hs.waits w hw).same hfin htables
  cases h with
  | @fork pid child u hfork =>
    intro w hw
    have hold := hs.waits w hw
    obtain ⟨hchild, -, htable, -, -⟩ := fork_ok hfork
    have hnew : ∀ q, (s.tables.processes.get? q).isSome → q ≠ child := by
      rintro q hq rfl
      rw [hchild, show s.tables.processes.get? s.tables.nextTid = none from hapart] at hq
      cases hq
    refine hold.frame hfin ?_ ?_ ?_
    · intro c _ hc
      exact (fork_children hfork hapart w.pid c).mpr (.inl ⟨hc, hnew _ (isSome_of_childrenOf hc)⟩)
    · intro c _ hc
      dsimp only
      rw [htable, BTreeSet.contains_insert, hc, Bool.or_true]
    · intro c _ hdone hnone p
      refine eq_false_iff.mpr fun hin => ?_
      rcases (fork_children hfork hapart p c).mp hin with ⟨hc, -⟩ | ⟨-, rfl⟩
      · cases hc.symm.trans (hnone p)
      · exact hnew c (isSome_of_isZombie hdone.1) rfl
  | exit | close | lookUp => exact hsame rfl
  | mark =>
    intro w hw
    refine (hs.waits w hw).frame hfin ?_ ?_ ?_
    · intro c _ hc
      exact (congrArg (·.contains c) childrenOf_setZombie).trans hc
    · intro c _ hc
      exact (congrArg (·.contains c) updProc_processTable).trans hc
    · intro c _ _ hnone p
      exact (congrArg (·.contains c) childrenOf_setZombie).trans (hnone p)
  | @handOver i e hi hpc =>
    intro w hw
    have hsome := hs.settled.exiters e (mem_of_getElem? hi)
    cases hover : handsOver s.tables e.pid with
    | false =>
      refine (hs.waits w hw).same hfin ?_
      exact handOver_of_not hover
    | true =>
      have hinit := hs.settled.kin.objects _ (and_eq_true_iff.mp hover).2
      refine (hs.waits w hw).frame hfin ?_ ?_ ?_
      · intro c hbusy hc
        refine (handOver_children hsome hinit hover c).mpr ⟨?_, .inl hc⟩
        intro hpid
        cases hbusy.symm.trans (hapart e hi w hw hpid)
      · intro c _ hc
        exact (congrArg (·.contains c) handOver_processTable).trans hc
      · intro c _ _ hnone p
        refine eq_false_iff.mpr fun hin => ?_
        obtain ⟨-, hold | ⟨-, hmoved⟩⟩ := (handOver_children hsome hinit hover c).mp hin
        · cases hold.symm.trans (hnone p)
        · cases hmoved.symm.trans (hnone e.pid)
  | @notify i e parent =>
    cases parent with
    | none => exact hsame rfl
    | some p =>
      intro w' hw'
      obtain ⟨w, hw, rfl⟩ := mem_map.mp hw'
      exact (hsame rfl w hw).wake p
  | wait =>
    intro w hw
    rcases mem_append.mp hw with hold | hnew
    · exact hsame rfl w hold
    · rw [mem_singleton.mp hnew]
      exact .idle rfl fun _ => nofun
  | @list j w hj hpc =>
    refine Sys.relies_set (hsame rfl) ?_
    obtain ⟨hpid, hlisted | ⟨hidle, hnot⟩⟩ := list_cases (unwaitedChildren s.tables w.pid w.filter) w
    · refine ⟨?_, fun c hc => (nomatch hlisted.symm.trans hc), fun c hc => (nomatch hlisted.symm.trans hc)⟩
      intro cs hcs c hc
      cases hlisted.symm.trans hcs
      rw [hpid]
      exact BTreeSet.mem_toList_iff.mp (mem_filter.mp hc).1
    · exact .idle hidle hnot
  | @find j w children hj hpc =>
    have hw := hsame rfl w (mem_of_getElem? hj)
    refine Sys.relies_set (hsame rfl) ?_
    obtain ⟨hpid, ⟨child, hmem, hz, hfound⟩ | ⟨hidle, hnot⟩⟩ := w.find_cases s.tables children
    · refine ⟨fun cs hcs => (nomatch hfound.symm.trans hcs), ?_, fun c hc => (nomatch hfound.symm.trans hc)⟩
      intro c hc
      cases hfound.symm.trans hc
      rw [hpid]
      refine ⟨hw.listed children hpc child hmem, hfin child ⟨hz, hapart w hj child ?_ hz⟩⟩
      unfold candidates
      rw [hpc]
      exact hmem
    · exact .idle hidle hnot
  | @remove j w child u hj hpc hrun =>
    obtain ⟨hin, hz, rfl⟩ := removeChild_ok hrun
    have hsome := isSome_of_childrenOf hin
    intro w' hw'
    rcases mem_set_or hw' with rfl | ⟨i, hij, hi⟩
    · -- the parent of the child was the only one to have it
      refine ⟨fun _ => nofun, fun _ => nofun, ?_⟩
      intro c hc
      cases hc
      have hdone := (hs.waits w (mem_of_getElem? hj)).found child hpc
      refine ⟨?_, hfin child hdone.2, fun p => eq_false_iff.mpr fun hp => ?_⟩
      · exact (congrArg (·.contains child) updProc_processTable).trans (hs.settled.tabled _ _ hin)
      · obtain ⟨hold, hne⟩ := (removeChild_children hsome child).mp hp
        have hsame := (hs.settled.kin.parent p child hold).symm.trans (hs.settled.kin.parent w.pid child hin)
        exact hne ⟨Option.some.inj hsame, rfl⟩
    · refine (hs.waits w' (mem_of_getElem? hi)).frame hfin ?_ ?_ ?_
      · intro c hbusy hc
        refine (removeChild_children hsome c).mpr ⟨hc, ?_⟩
        rintro ⟨hpid, -⟩
        have hbusy' : w.busy = true := by
          unfold busy
          rw [hpc]
        exact hij (hs.lone i j w' w hi hj (.inl ⟨hbusy, hbusy', hpid⟩))
      · intro c _ hc
        exact (congrArg (·.contains c) updProc_processTable).trans hc
      · intro c _ _ hnone p
        refine eq_false_iff.mpr fun hp => ?_
        cases ((removeChild_children hsome c).mp hp).1.symm.trans (hnone p)
  | @reap j w child code u hj hpc hrun =>
    obtain ⟨hkin, htable, -⟩ := removeFromTables_ok hrun
    have hchildren : ∀ p, childrenOf u p = childrenOf s.tables p := fun p => childrenOf_kin (congrFun hkin p)
    intro w' hw'
    rcases mem_set_or hw' with rfl | ⟨i, hij, hi⟩
    · exact .idle rfl fun _ => nofun
    · refine (hs.waits w' (mem_of_getElem? hi)).frame hfin ?_ ?_ ?_
      · intro c _ hc
        exact (congrArg (·.contains c) (hchildren w'.pid)).trans hc
      · intro c hpc' hc
        refine (congrArg (·.contains c) htable).trans ?_
        rw [BTreeSet.contains_remove, hc, Bool.and_true, Bool.not_eq_true', decide_eq_false_iff_not]
        rintro rfl
        exact hij (hs.lone i j w' w hi hj (.inr ⟨c, hpc', hpc⟩))
      · intro c _ _ hnone p
        exact (congrArg (·.contains c) (hchildren p)).trans (hnone p)
  | interrupt => exact Sys.relies_set (hsame rfl) (.idle rfl fun _ => nofun)

/-- **No two threads are about to reap the same child after a step.** -/
theorem Step.lone : Lone Waiter.Clash t.waits := by
  cases h with
  | fork | exit | mark | close | handOver | lookUp => exact hs.lone
  | @notify i e parent =>
    cases parent with
    | none => exact hs.lone
    | some p => exact hs.lone.map fun w w' => Waiter.Clash.of_wake
  | wait => exact hs.lone.append fun w => not_clash rfl fun _ => nofun
  | @list j w hj hpc =>
    obtain ⟨hpid, hlisted | ⟨hidle, hnot⟩⟩ := list_cases (unwaitedChildren s.tables w.pid w.filter) w
    · refine hs.lone.set fun i w' _ hi => not_clash_of ?_
      have hother : w'.pid = w.pid → w'.busy = false := hapart w hj w' (mem_of_getElem? hi)
      rintro (⟨-, hbusy, hsame⟩ | ⟨c, hc, -⟩)
      · cases hbusy.symm.trans (hother (hsame.symm.trans hpid))
      · rw [hlisted] at hc
        cases hc
    · exact hs.lone.set fun i w' _ _ => not_clash hidle hnot
  | @find j w children hj hpc =>
    have hbusy : w.busy = true := by
      unfold busy
      rw [hpc]
    obtain ⟨hpid, ⟨child, -, -, hfound⟩ | ⟨hidle, hnot⟩⟩ := w.find_cases s.tables children
    · have hclash : ∀ u, (w.find s.tables children).Clash u → w.Clash u := by
        rintro u (⟨-, hu, hsame⟩ | ⟨c, hc, -⟩)
        · exact .inl ⟨hbusy, hu, hpid.symm.trans hsame⟩
        · rw [hfound] at hc
          cases hc
      exact hs.lone.set_of_imp hj fun u => ⟨hclash u, fun hc => (hclash u hc.symm).symm⟩
    · exact hs.lone.set fun i w' _ _ => not_clash hidle hnot
  | @remove j w child u hj hpc hrun =>
    -- a thread that has removed the child would have left it to nobody
    have hin := (removeChild_ok hrun).1
    refine hs.lone.set fun i w' _ hi => not_clash_of ?_
    have hother : w'.pc ≠ .removed child := by
      intro hc
      have hnone := ((hs.waits w' (mem_of_getElem? hi)).removed child hc).2.2 w.pid
      cases hin.symm.trans hnone
    rintro (⟨hbusy, -, -⟩ | ⟨c, hc, hc'⟩)
    · cases hbusy
    · cases hc
      exact hother hc'
  | reap | interrupt => exact hs.lone.set fun i w' _ _ => not_clash rfl fun _ => nofun

/-- **A step of an orderly run.** -/
theorem Step.orderly : t.Orderly :=
  ⟨h.settled hs hapart.fresh, h.relies hs hapart, h.lone hs hapart⟩

end

theorem boot_contains (pid q : Nat) : (Tables.boot pid).processTable.contains q = decide (q = pid) := by
  refine (congrArg (·.contains q) updProc_processTable).trans ?_
  show (BTreeSet.empty.insert pid).contains q = _
  rw [BTreeSet.contains_insert, BTreeSet.contains_empty, Bool.or_false]

theorem boot_children (pid p c : Nat) : (childrenOf (Tables.boot pid) p).contains c = false := by
  unfold childrenOf
  rw [boot_get?]
  by_cases hp : p = pid
  · rw [if_pos hp]
    rfl
  · rw [if_neg hp]
    rfl

theorem boot_kin (pid : Nat) : Kin (Tables.boot pid) where
  objects q hq := by
    rw [boot_contains, decide_eq_true_eq] at hq
    rw [boot_get?, if_pos hq]
    rfl
  parent p c hc := absurd ((boot_children pid p c).symm.trans hc) nofun

theorem boot_orderly (pid : Nat) : (Sys.boot pid).Orderly := by
  refine ⟨⟨boot_consistent pid, boot_kin pid, ?_, ?_, ?_, ?_, nodup_nil, ?_⟩, ?_, ?_⟩
  · intro q hq
    have hq : q = pid := by simpa [Sys.boot, boot_contains] using hq
    show ((Tables.boot pid).processes.get? q).bind _ ≠ none
    rw [boot_get?, if_pos hq]
    exact nofun
  · exact fun p c hc => absurd ((boot_children pid p c).symm.trans hc) nofun
  · exact fun c hc => by cases hc
  · intro c hc _
    have hc : ((Tables.boot pid).processes.get? c).isSome := hc
    show (Tables.boot pid).processTable.contains c = true
    rw [boot_contains, decide_eq_true_eq]
    by_contra hne
    rw [boot_get?, if_neg hne] at hc
    cases hc
  · exact fun e he => by cases he
  · exact fun w hw => by cases hw
  · exact fun i j w w' hi => by cases hi

/-- Zombies are reaped once and after their exit, and no removal fails, if searches are kept apart from each other and
from exits. -/
theorem reaped_once (pid : Nat) (s : Sys) (h : SysReach (fun s act => act.Apart s) pid s) : s.reaped.Nodup ∧
      (∀ c, (s.tables.processes.get? c).isSome → (c ∈ s.reaped ↔ s.tables.processTable.contains c = false)) ∧
      (∀ c, (c ∈ s.reaped ∨ ∃ w ∈ s.waits, w.pc = .removed c) → s.Finished c) ∧ ¬ s.Panics := by
  have hs : s.Orderly := by
    refine h.invariant ?_ ?_
    · rintro _ rfl
      exact boot_orderly pid
    · rintro u v hu ⟨act, hapart, hstep⟩
      exact hstep.orderly hu hapart
  refine ⟨hs.settled.nodup, ?_, ?_, ?_⟩
  · intro c hc
    refine ⟨fun hin => (hs.settled.reaped c hin).2, fun hout => ?_⟩
    by_contra hnot
    cases hout.symm.trans (hs.settled.left c hc hnot)
  · rintro c (hc | ⟨w, hw, hpc⟩)
    · exact (hs.settled.reaped c hc).1
    · exact ((hs.waits w hw).removed c hpc).2.1
  · rintro ⟨w, hw, child, ⟨hpc, hpanic⟩ | ⟨hpc, hpanic⟩⟩
    · obtain ⟨hin, hdone⟩ := (hs.waits w hw).found child hpc
      exact removeChild_panic hin hdone.1 hpanic
    · obtain ⟨hin, hdone, -⟩ := (hs.waits w hw).removed child hpc
      exact removeFromTables_total hs.settled.consistent (hs.settled.linked child hin) hdone.1 hpanic

theorem SysReach.next {P : Sys → Act → Prop} {pid : Nat} (h : SysReach P pid s) (act : Act) (hstep : Step s act t)
    (hact : P s act := by decide) : SysReach P pid t := .step h ⟨act, hact, hstep⟩

/-- A child exits and its parent reaps it. -/
theorem reaped_once_child :
    ∃ s, SysReach (fun s act => act.Apart s) 3 s ∧ s.reaped = [4] ∧ s.Finished 4 ∧ ¬ s.Panics := by
  have h0 : SysReach (fun s act => act.Apart s) 3 (.boot 3) := .init rfl
  have h1 := h0.next (.fork 3) (.fork rfl)
  have h2 := h1.next (.exit 4) (.exit (.exited 0) rfl rfl)
  have h3 := h2.next (.mark 0) (.mark rfl rfl)
  have h4 := h3.next (.close 0) (.close rfl rfl)
  have h5 := h4.next (.handOver 0) (.handOver rfl rfl)
  have h6 := h5.next (.lookUp 0) (.lookUp rfl rfl)
  have h7 := h6.next (.notify 0) (.notify rfl rfl)
  have h8 := h7.next (.wait 3) (.wait .any ⟨false, false⟩ rfl)
  have h9 := h8.next (.list 0) (.list rfl rfl)
  have h10 := h9.next (.find 0) (.find rfl rfl)
  have h11 := h10.next (.remove 0) (.remove rfl rfl rfl)
  have h12 := h11.next (.reap 0) (.reap rfl rfl rfl)
  obtain ⟨-, -, hdone, hpanic⟩ := reaped_once 3 _ h12
  exact ⟨_, h12, rfl, hdone 4 (.inl (by decide)), hpanic⟩

/-- **A child has one parent**, and is in the process table and not reaped as long as it is a child, in the same runs. -/
theorem child_of_one {pid p c : Nat} (h : SysReach (fun s act => act.Apart s) pid s)
    (hc : (childrenOf s.tables p).contains c = true) : parentOf s.tables c = some p ∧
      s.tables.processTable.contains c = true ∧ c ∉ s.reaped := by
  have hs : s.Orderly := by
    refine h.invariant ?_ fun u v hu ⟨act, hapart, hstep⟩ => hstep.orderly hu hapart
    rintro _ rfl
    exact boot_orderly pid
  have htabled := hs.settled.tabled p c hc
  refine ⟨hs.settled.kin.parent p c hc, htabled, fun hin => ?_⟩
  cases htabled.symm.trans (hs.settled.reaped c hin).2

/-- Of two children one exits and is reaped; the other one is still a child. -/
theorem child_of_one_forked : ∃ s : Sys, SysReach (fun s act => act.Apart s) 3 s ∧ s.reaped = [4] ∧
    (childrenOf s.tables 3).contains 4 = false ∧ (childrenOf s.tables 3).contains 5 = true ∧
    parentOf s.tables 5 = some 3 ∧ 5 ∉ s.reaped := by
  have h0 : SysReach (fun s act => act.Apart s) 3 (.boot 3) := .init rfl
  have h1 := h0.next (.fork 3) (.fork rfl)
  have h2 := h1.next (.fork 3) (.fork rfl)
  have h3 := h2.next (.exit 4) (.exit (.exited 0) rfl rfl)
  have h4 := h3.next (.mark 0) (.mark rfl rfl)
  have h5 := h4.next (.wait 3) (.wait .any ⟨false, false⟩ rfl)
  have h6 := h5.next (.close 0) (.close rfl rfl)
  have h7 := h6.next (.handOver 0) (.handOver rfl rfl)
  have h8 := h7.next (.lookUp 0) (.lookUp rfl rfl)
  have h9 := h8.next (.notify 0) (.notify rfl rfl)
  have h10 := h9.next (.list 0) (.list rfl rfl)
  have h11 := h10.next (.find 0) (.find rfl rfl)
  have h12 := h11.next (.remove 0) (.remove rfl rfl rfl)
  have h13 := h12.next (.reap 0) (.reap rfl rfl rfl)
  obtain ⟨hparent, -, hleft⟩ := child_of_one h13 (p := 3) (c := 5) rfl
  exact ⟨_, h13, rfl, rfl, rfl, hparent, hleft⟩

/-- **A zombie is reaped in the middle of its exit, or twice.** In the first run the child has not closed its files
yet. In the second one its exit is done, but two threads of the parent find it. -/
theorem reaped_early : (∃ s, SysReach (fun _ _ => True) 3 s ∧ s.reaped = [4] ∧ s.exits = [⟨4, .exited 0, .marked⟩]) ∧
      ∃ s, SysReach (fun _ _ => True) 3 s ∧ s.Finished 4 ∧ s.Panics := by
  have h0 : SysReach (fun _ _ => True) 3 (.boot 3) := .init rfl
  have h1 := h0.next (.fork 3) (.fork rfl)
  have h2 := h1.next (.exit 4) (.exit (.exited 0) rfl rfl)
  have h3 := h2.next (.mark 0) (.mark rfl rfl)
  constructor
  · have h4 := h3.next (.wait 3) (.wait .any ⟨false, false⟩ rfl)
    have h5 := h4.next (.list 0) (.list rfl rfl)
    have h6 := h5.next (.find 0) (.find rfl rfl)
    have h7 := h6.next (.remove 0) (.remove rfl rfl rfl)
    have h8 := h7.next (.reap 0) (.reap rfl rfl rfl)
    exact ⟨_, h8, rfl, rfl⟩
  · have h4 := h3.next (.close 0) (.close rfl rfl)
    have h5 := h4.next (.handOver 0) (.handOver rfl rfl)
    have h6 := h5.next (.lookUp 0) (.lookUp rfl rfl)
    have h7 := h6.next (.notify 0) (.notify rfl rfl)
    have h8 := h7.next (.wait 3) (.wait .any ⟨false, false⟩ rfl)
    have h9 := h8.next (.wait 3) (.wait .any ⟨false, false⟩ rfl)
    have h10 := h9.next (.list 0) (.list rfl rfl)
    have h11 := h10.next (.list 1) (.list rfl rfl)
    have h12 := h11.next (.find 0) (.find rfl rfl)
    have h13 := h12.next (.find 1) (.find rfl rfl)
    have h14 := h13.next (.remove 0) (.remove rfl rfl rfl)
    refine ⟨_, h14, ⟨by decide, by decide⟩, ?_⟩
    exact ⟨⟨3, .any, ⟨false, false⟩, .found 4, false⟩, by decide, 4, .inl ⟨rfl, rfl⟩⟩

end AsterKernel.Process
