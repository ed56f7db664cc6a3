import AsterKernel.Epoll.Ready
import AsterKernel.Poll.Waiter

/-!
# `Epoll.Wait` — waiting for the ready list

`EpollFile::wait` pops ready entries in a loop. When there are none it makes a poller and polls the pollee of the
epoll file; if there is `IN`, it goes on with the loop, and otherwise it waits on the poller. The poller is made, and
polled, once. But `Pollee::poll` does not register the poller when its first read already finds `IN`: if the entries
that are ready then turn out to have no events, the thread waits on a poller that nobody notifies.

Threads run `wait`, and others `push_ready`, one atomic step of the pollee at a time. `pop_ready` is one step, as it
has the lock of the ready list all the time and touches the pollee once, at its end. `push_ready` has the lock while
it adds the event to the pollee. The interest list and the other files change at any time.
-/

namespace AsterKernel.Epoll
namespace Wait

open Lib Lib.Comp Poll Function Option

/-! ## Threads -/

/-- Where a thread is: in `wait` at the head of the loop, with or without a timeout of zero and with or without a
poller, in `poll`, waiting on the poller, or dropping it; or in `push_ready`. -/
inductive Pc where
  | outside
  | pop (maxEvents : Nat) (zero hasPoller : Bool)
  | poll (maxEvents : Nat)
  | blocked (maxEvents : Nat)
  | leaving
  | pushing
deriving DecidableEq, Repr

/-- The epoll file, the pollee in it, the lock of the ready list and the threads. The events are those of the pollee. -/
structure Sys where
  epoll : EpollFile
  pollee : Pollee
  lock : Option Nat
  pcs : Nat → Pc

namespace Sys

def new : Sys := ⟨.new, .new 0, none, fun _ => .outside⟩

/-- The epoll file with the events of its pollee. -/
def file (s : Sys) : EpollFile := { s.epoll with events := s.pollee.events }

def goto (s : Sys) (t : Nat) (pc : Pc) : Sys := { s with pcs := Function.update s.pcs t pc }

/-- `wait` returns, and drops its poller. -/
def leave (s : Sys) (t : Nat) (hasPoller : Bool) : Sys :=
  if hasPoller then { s.goto t .leaving with pollee := s.pollee.start t .drop } else s.goto t .outside

/-- The rest of an iteration after `pop_ready`. -/
def afterPop (s : Sys) (t maxEvents : Nat) (zero hasPoller : Bool) (reports : List (Nat × EpollEvent)) : Sys :=
  if reports ≠ [] then s.leave t hasPoller
  else if zero then s.leave t hasPoller
  else if hasPoller then s.goto t (.blocked maxEvents)
  else { s.goto t (.poll maxEvents) with pollee := s.pollee.start t (.poll .IN) }

def setFile (s : Sys) (file : EpollFile) : Sys := { s with epoll := file, pollee := { s.pollee with events := file.events } }

end Sys

inductive Action where
  | wait (t maxEvents : Nat) (zero : Bool)
  | pop (t : Nat) (files : Files)
  | polled (t : Nat)
  | wake (t : Nat)
  | timeout (t : Nat)
  | left (t : Nat)
  | push (t e : Nat)
  | pushed (t : Nat)
  | act (t : Nat)
  | registerObserver (t n : Nat) (mask : IoEvents)
  | unregisterObserver (t n : Nat)
  | free (n : Nat)
  | insert (files : Files) (fd : Nat) (epEvent : EpollEvent) (epFlags : EpollFlags)
  | update (fd : Nat) (epEvent : EpollEvent) (epFlags : EpollFlags)
  | delete (files : Files) (fd : Nat)

namespace Sys

def idle (s : Sys) (t : Nat) : Bool := s.pcs t = .outside && (s.pollee.calls t).returned

/-- The state after a step; `none` when the thread is not there, or has to wait. -/
def step (s : Sys) : Action → Option Sys
  | .wait t maxEvents zero => if s.idle t then some (s.goto t (.pop maxEvents zero false)) else none
  | .pop t files =>
    match s.pcs t, s.lock with
    | .pop maxEvents zero hasPoller, none =>
      match popReady files maxEvents s.file with
      | .ok reports file => some ((s.setFile file).afterPop t maxEvents zero hasPoller reports)
      | _ => none
    | _, _ => none
  | .polled t =>
    match s.pcs t, s.pollee.calls t with
    | .poll maxEvents, .idle =>
      if (s.pollee.polled t).revents? = some 0 then some (s.goto t (.blocked maxEvents))
      else some (s.goto t (.pop maxEvents false true))
    | _, _ => none
  | .wake t =>
    match s.pcs t with
    | .blocked maxEvents => (s.pollee.wait t).map fun pollee =>
      { s.goto t (.pop maxEvents false true) with pollee := pollee }
    | _ => none
  | .timeout t =>
    match s.pcs t with
    | .blocked _ => some (s.leave t true)
    | _ => none
  | .left t =>
    match s.pcs t, s.pollee.calls t with
    | .leaving, .idle => some (s.goto t .outside)
    | _, _ => none
  | .push t e =>
    if s.idle t ∧ s.lock = none ∧ e < s.epoll.count then
      if (s.epoll.entries e).isDeleted then some s
      else some { s.goto t .pushing with
        epoll := s.epoll.pushEntry e, pollee := s.pollee.start t (.addEvents .IN), lock := some t }
    else none
  | .pushed t =>
    match s.pcs t, s.pollee.calls t with
    | .pushing, .added _ _ => some { s.goto t .outside with lock := none }
    | _, _ => none
  | .act t => (s.pollee.act t).map fun pollee => { s with pollee := pollee }
  | .registerObserver t n mask =>
    if s.idle t then some { s with pollee := s.pollee.start t (.registerObserver n mask) } else none
  | .unregisterObserver t n =>
    if s.idle t then some { s with pollee := s.pollee.start t (.unregisterObserver n) } else none
  | .free n => some { s with pollee := { s.pollee with freed := Function.update s.pollee.freed n true } }
  | .insert files fd epEvent epFlags =>
    (insertInterest files fd epEvent epFlags s.epoll).final.map fun epoll => { s with epoll := epoll }
  | .update fd epEvent epFlags => (updateInterest fd epEvent epFlags s.epoll).final.map fun epoll =>
    { s with epoll := epoll }
  | .delete files fd => (delInterest files fd s.epoll).final.map fun epoll => { s with epoll := epoll }

end Sys

/-- The states that steps which meet a condition lead to. -/
inductive Run (cond : Sys → Action → Prop) : Sys → Prop
  | new : Run cond .new
  | step {s s' : Sys} (h : Run cond s) (a : Action) (hcond : cond s a) (hstep : s.step a = some s') : Run cond s'

def Sys.steps (s : Sys) : List Action → Option Sys
  | [] => some s
  | a :: actions => (s.step a).bind fun s' => s'.steps actions

/-! ## The invariant -/

/-- The mask with which `wait` polls. -/
def POLL_MASK : IoEvents := .IN ||| .ALWAYS_POLL

/-- The result of a `poll`. -/
abbrev Result (polled : Polled) : Prop := Poll.Result POLL_MASK polled

/-- Calls outside `wait` and `push_ready`. -/
inductive Other : Call → Prop
  | idle : Other .idle
  | added (events : IoEvents) (c : Notified) : Other (.added events c)
  | registerLock (n : Nat) (mask : IoEvents) : Other (.registerLock (.other n) mask)
  | registerInsert (n : Nat) (mask : IoEvents) : Other (.registerInsert (.other n) mask)
  | registerCount (n : Nat) (mask : IoEvents) : Other (.registerCount (.other n) mask)
  | registerUnlock (n : Nat) (mask : IoEvents) : Other (.registerUnlock (.other n) mask)
  | unregisterLock (n : Nat) : Other (.unregisterLock (.other n))
  | unregisterRemove (n : Nat) : Other (.unregisterRemove (.other n))
  | unregisterCount (n : Nat) : Other (.unregisterCount (.other n))
  | unregisterUnlock (n : Nat) : Other (.unregisterUnlock (.other n))

/-- The calls of `poll`. -/
abbrev Polling (t : Nat) (polled : Polled) : Call → Prop := Poll.Polling t POLL_MASK polled

/-- The calls of `add_events`. -/
abbrev Adding : Call → Prop := Poll.Adding .IN

/-- The call that a thread is in belongs to where it is. -/
def Fits (t : Nat) (polled : Polled) (pc : Pc) (call : Call) : Prop :=
  match pc with
  | .outside => Other call
  | .pop _ _ hasPoller => call.returned = true ∧ (hasPoller = true → Result polled)
  | .poll _ => Polling t polled call
  | .blocked _ => call.returned = true ∧ ∃ revents, polled = .late POLL_MASK revents
  | .leaving => Dropping t call
  | .pushing => Adding call

/-- A push that has not notified the poller of a thread yet, and will. -/
inductive Coming (t : Nat) : Call → Prop
  | set (events : IoEvents) : Coming t (.addSet events)
  | count (events : IoEvents) (c : Notified) : Coming t (.addCount events c)
  | lock (events : IoEvents) (c : Notified) : Coming t (.addLock events c)
  | visit {events : IoEvents} {c : Notified} {kept rest : Table} (h : (.poller t, POLL_MASK) ∈ rest) :
      Coming t (.addVisit events c kept rest)

namespace Sys

/-- There is nothing in the ready list, or it is just being pushed. -/
def Quiet (s : Sys) (t : Nat) : Prop :=
  match s.lock with
  | none => s.epoll.ready = []
  | some u => Coming t (s.pollee.calls u)

/-- The thread waits on its poller, or is about to. -/
def Waits (s : Sys) (t maxEvents : Nat) : Prop :=
  s.pcs t = .blocked maxEvents ∨
    (s.pcs t = .poll maxEvents ∧ s.pollee.calls t = .idle ∧ s.pollee.polled t = .late POLL_MASK 0)

structure Inv (s : Sys) : Prop where
  pollee : s.pollee.Inv
  holds : Holds [] s.epoll
  event : s.lock = none → (s.pollee.events.intersects .IN = true ↔ s.epoll.ready ≠ [])
  locked : ∀ u, s.pcs u = .pushing ↔ s.lock = some u
  pushed : ∀ u, s.lock = some u → s.epoll.ready ≠ [] ∧
    (s.pollee.calls u = .addSet .IN ∨ s.pollee.events.intersects .IN = true)
  fits : ∀ u, Fits u (s.pollee.polled u) (s.pcs u) (s.pollee.calls u)
  waiting : ∀ t maxEvents, s.Waits t maxEvents → 0 < maxEvents → 0 < s.pollee.counter t ∨ s.Quiet t

end Sys

variable {t : Nat} {s s' : Sys}

section

variable {s s' : Pollee}

theorem Other.act (hcall : Other (s.calls t)) (h : s.act t = some s') :
    Other (s'.calls t) ∧ s'.polled t = s.polled t ∧ s'.events = s.events := by
  have hacted := Pollee.act_acted h
  refine ⟨?_, hacted.polled ?_ ?_, hacted.events ?_ ?_⟩
  · have hnext := hacted.next
    generalize s.calls t = call at hnext hcall
    generalize s'.calls t = call' at hnext
    cases hcall <;> cases hnext <;> constructor
  all_goals
    intro x hx
    rw [hx] at hcall
    cases hcall

/-- The event is set from the first step of `add_events` on. -/
theorem adding_IN (hcall : Adding (s.calls t)) (h : s.act t = some s')
    (hset : s.calls t = .addSet .IN ∨ s.events.intersects .IN = true) : s'.events.intersects .IN = true := by
  by_cases hc : s.calls t = .addSet .IN
  · rw [(act_addSet hc h).1]
    exact IoEvents.intersects_or_IN _
  · rw [Poll.Adding.act_events hcall h hc]
    exact hset.resolve_left hc

theorem Coming.act (hinv : s.Inv) {v : Nat} {revents : IoEvents} (hlate : s.polled v = .late POLL_MASK revents)
    (hcall : Adding (s.calls t)) (hcoming : Coming v (s.calls t)) (h : s.act t = some s') :
    0 < s'.counter v ∨ Coming v (s'.calls t) := by
  have hin : POLL_MASK.intersects .IN = true := by decide
  have hdue : Due v POLL_MASK (s.calls t) → 0 < s'.counter v ∨ Coming v (s'.calls t) := by
    intro hdue
    refine (hdue.act hinv hlate h).imp_right fun hdue' => ?_
    generalize s'.calls t = call' at hdue'
    cases hdue' with
    | count => exact .count ..
    | lock => exact .lock ..
    | visit _ hmem => exact .visit hmem
  generalize hc : s.calls t = call at hcoming hcall hdue
  cases hcoming with
  | set events =>
    obtain ⟨-, c, hcount⟩ := act_addSet hc h
    rw [hcount]
    exact .inr (.count ..)
  | count events c =>
    cases hcall
    exact hdue (.count hin)
  | lock events c =>
    cases hcall
    exact hdue (.lock hin)
  | visit hmem =>
    cases hcall
    exact hdue (.visit hin hmem)

end

namespace Sys

variable {pc : Pc}

theorem intersects_IN_of_mask {events : IoEvents} (h : events &&& POLL_MASK = 0) : events.intersects .IN = false := by
  have hin : POLL_MASK &&& IoEvents.IN = IoEvents.IN := by decide
  unfold IoEvents.intersects
  rw [← hin, ← BitVec.and_assoc, h]
  rfl

variable {maxEvents : Nat} {u : Nat} {pollee : Pollee}

theorem Waits.of_ne (h : s'.Waits u maxEvents) (hpcs : s'.pcs u = s.pcs u)
    (hcalls : s'.pollee.calls u = s.pollee.calls u) (hpolled : s'.pollee.polled u = s.pollee.polled u) :
    s.Waits u maxEvents := by
  unfold Waits at h ⊢
  rwa [hpcs, hcalls, hpolled] at h

theorem Inv.late (h : Inv s) (hwaits : s.Waits u maxEvents) :
    ∃ revents, s.pollee.polled u = .late POLL_MASK revents := by
  rcases hwaits with hpc | ⟨-, -, hlate⟩
  · have hfits := h.fits u
    rw [hpc] at hfits
    exact hfits.2
  · exact ⟨0, hlate⟩

theorem Inv.outsideLock (h : Inv s) (pc : Pc) (hpollee : s'.pollee.Inv) (hholds : Holds [] s'.epoll)
    (hlock : s'.lock = s.lock)
    (hready : s'.epoll.ready = s.epoll.ready) (hevents : s'.pollee.events = s.pollee.events)
    (hpcs : s'.pcs = update s.pcs t pc) (hbefore : s.pcs t ≠ .pushing) (hafter : pc ≠ .pushing)
    (hothers : ∀ u, u ≠ t → s'.pollee.calls u = s.pollee.calls u ∧ s'.pollee.polled u = s.pollee.polled u ∧
      s.pollee.counter u ≤ s'.pollee.counter u) (hfits : Fits t (s'.pollee.polled t) pc (s'.pollee.calls t))
    (hwaits : ∀ maxEvents, s'.Waits t maxEvents → 0 < maxEvents → 0 < s'.pollee.counter t ∨ s'.Quiet t) : Inv s' := by
  have hother : ∀ u, u ≠ t → s'.pcs u = s.pcs u := fun u hu => by rw [hpcs, update_of_ne hu]
  have hself : s'.pcs t = pc := by rw [hpcs, update_self]
  have hholder : ∀ u, s.lock = some u → u ≠ t := by
    rintro u hl rfl
    exact hbefore ((h.locked u).mpr hl)
  have hquiet : ∀ u, s.Quiet u → s'.Quiet u := by
    intro u hq
    unfold Quiet at hq ⊢
    rw [hlock]
    cases hl : s.lock with
    | none =>
      rw [hl] at hq
      exact hready.trans hq
    | some w =>
      rw [hl] at hq
      show Coming u (s'.pollee.calls w)
      rw [(hothers w (hholder w hl)).1]
      exact hq
  refine ⟨hpollee, hholds, ?_, fun u => ?_, fun u hl => ?_, fun u => ?_, fun u maxEvents hw hpos => ?_⟩
  · rw [hlock, hevents, hready]
    exact h.event
  · rw [hlock]
    by_cases hu : u = t
    · subst hu
      rw [hself]
      exact ⟨fun heq => absurd heq hafter, fun hl => absurd rfl (hholder u hl)⟩
    · rw [hother u hu]
      exact h.locked u
  · rw [hlock] at hl
    rw [hready, hevents, (hothers u (hholder u hl)).1]
    exact h.pushed u hl
  · by_cases hu : u = t
    · subst hu
      rw [hself]
      exact hfits
    · obtain ⟨hcalls, hpolled, -⟩ := hothers u hu
      rw [hother u hu, hcalls, hpolled]
      exact h.fits u
  · by_cases hu : u = t
    · subst hu
      exact hwaits maxEvents hw hpos
    · obtain ⟨hcalls, hpolled, hcounter⟩ := hothers u hu
      rcases h.waiting u maxEvents (hw.of_ne (hother u hu) hcalls hpolled) hpos with hpos' | hq
      · exact .inl (lt_of_lt_of_le hpos' hcounter)
      · exact .inr (hquiet u hq)

theorem Inv.act (h : Inv s) (hact : s.pollee.act t = some pollee) : Inv { s with pollee := pollee } := by
  have hacted := Pollee.act_acted hact
  have hpollee := h.pollee.act hact
  have hfits := h.fits t
  have hsame : s.pcs = update s.pcs t (s.pcs t) := (update_eq_self t s.pcs).symm
  generalize hpc : s.pcs t = pc at hfits
  cases pc with
  | outside =>
    obtain ⟨hcall, -, hevents⟩ := Other.act hfits hact
    refine h.outsideLock (t := t) .outside hpollee h.holds rfl rfl hevents (hpc ▸ hsame) (by rw [hpc]; nofun) nofun
      hacted.others hcall ?_
    intro maxEvents hw
    rcases hw with hw | ⟨hw, -⟩
    · cases hpc.symm.trans hw
    · cases hpc.symm.trans hw
  | pop maxEvents zero hasPoller | blocked maxEvents =>
    rw [act_of_returned hfits.1] at hact
    cases hact
  | leaving =>
    obtain ⟨hcall, -, hevents⟩ := Dropping.act hfits hact
    refine h.outsideLock (t := t) .leaving hpollee h.holds rfl rfl hevents (hpc ▸ hsame) (by rw [hpc]; nofun) nofun
      hacted.others hcall ?_
    intro maxEvents hw
    rcases hw with hw | ⟨hw, -⟩
    · cases hpc.symm.trans hw
    · cases hpc.symm.trans hw
  | poll maxEvents =>
    obtain ⟨hcall, hevents, hlast⟩ := Polling.act hfits hact
    refine h.outsideLock (t := t) (.poll maxEvents) hpollee h.holds rfl rfl hevents (hpc ▸ hsame) (by rw [hpc]; nofun)
      nofun hacted.others hcall ?_
    intro max hw _
    rcases hw with hw | ⟨-, hidle, hlate⟩
    · cases hpc.symm.trans hw
    · -- The last read has not seen `IN`: the list is empty, or a push has yet to set it.
      right
      have hnone := intersects_IN_of_mask (hlast hidle hlate)
      unfold Quiet
      cases hl : s.lock with
      | none =>
        have hready : ¬ s.epoll.ready ≠ [] := fun hne => by
          rw [(h.event hl).mpr hne] at hnone
          cases hnone
        exact not_not.mp hready
      | some u =>
        have hne : u ≠ t := by
          rintro rfl
          cases hpc.symm.trans ((h.locked u).mpr hl)
        have hset : s.pollee.calls u = .addSet .IN := by
          refine (h.pushed u hl).2.resolve_right fun hin => ?_
          rw [hin] at hnone
          cases hnone
        show Coming t (pollee.calls u)
        rw [(hacted.others u hne).1, hset]
        exact .set _
  | pushing =>
    have hl := (h.locked t).mp hpc
    refine ⟨hpollee, h.holds, fun hfree => ?_, h.locked, fun u hu => ?_, fun u => ?_, fun u maxEvents hw hpos => ?_⟩
    · cases hl.symm.trans hfree
    · obtain rfl := some.inj (hl.symm.trans hu)
      exact ⟨(h.pushed t hl).1, .inr (adding_IN hfits hact (h.pushed t hl).2)⟩
    · by_cases hu : u = t
      · subst hu
        show Fits u (pollee.polled u) (s.pcs u) (pollee.calls u)
        rw [hpc]
        exact hfits.act hact
      · obtain ⟨hcalls, hpolled, -⟩ := hacted.others u hu
        show Fits u (pollee.polled u) (s.pcs u) (pollee.calls u)
        rw [hcalls, hpolled]
        exact h.fits u
    · have hu : u ≠ t := by
        rintro rfl
        rcases hw with hw | ⟨hw, -⟩
        · cases hpc.symm.trans hw
        · cases hpc.symm.trans hw
      obtain ⟨hcalls, hpolled, hcounter⟩ := hacted.others u hu
      have hw' : s.Waits u maxEvents := hw.of_ne rfl hcalls hpolled
      obtain ⟨revents, hlate⟩ := h.late hw'
      rcases h.waiting u maxEvents hw' hpos with hpos' | hq
      · exact .inl (lt_of_lt_of_le hpos' hcounter)
      · unfold Quiet at hq ⊢
        rw [hl] at hq ⊢
        exact Coming.act h.pollee hlate hfits hq hact

theorem Inv.goto (h : Inv s) (pc : Pc) (hpollee : pollee.Inv)
    (hevents : pollee.events = s.pollee.events) (hbefore : s.pcs t ≠ .pushing) (hafter : pc ≠ .pushing)
    (hothers : ∀ u, u ≠ t → pollee.calls u = s.pollee.calls u ∧ pollee.polled u = s.pollee.polled u ∧
      s.pollee.counter u ≤ pollee.counter u)
    (hfits : Fits t (pollee.polled t) pc (pollee.calls t)) (hblocked : ∀ maxEvents, pc ≠ .blocked maxEvents)
    (hpoll : ∀ maxEvents, pc = .poll maxEvents → pollee.calls t ≠ .idle) : Inv
      { s.goto t pc with pollee := pollee } := by
  refine h.outsideLock (t := t) pc hpollee h.holds rfl rfl hevents rfl hbefore hafter hothers hfits fun
    maxEvents hw _ => ?_
  have hself : ({ s.goto t pc with pollee := pollee } : Sys).pcs t = pc := update_self ..
  rcases hw with hw | ⟨hw, hidle, -⟩
  · exact absurd (hself.symm.trans hw) (hblocked maxEvents)
  · exact absurd hidle (hpoll maxEvents (hself.symm.trans hw))

theorem start_of_ne (p : Pollee) (r : Request) (hu : u ≠ t) :
    (p.start t r).calls u = p.calls u ∧ (p.start t r).polled u = p.polled u ∧ p.counter u ≤
      (p.start t r).counter u := by
  have hput : ∀ call, (p.put t call).calls u = p.calls u := fun call => update_of_ne hu ..
  cases r with
  | poll mask | drop => exact ⟨hput _, update_of_ne hu .., le_rfl⟩
  | _ => exact ⟨hput _, rfl, le_rfl⟩

theorem start_calls (p : Pollee) : (∀ mask, (p.start t (.poll mask)).calls t = .pollFirst (mask ||| .ALWAYS_POLL)) ∧
    (p.start t .drop).calls t = .unregisterLock (.poller t) := by
  exact ⟨fun mask => update_self .., update_self ..⟩

theorem Inv.leave (h : Inv s) {hasPoller : Bool} (hreturned : (s.pollee.calls t).returned = true)
    (hbefore : s.pcs t ≠ .pushing) : Inv (s.leave t hasPoller) := by
  unfold Sys.leave
  cases hasPoller with
  | true =>
    refine h.goto .leaving (h.pollee.start hreturned .drop) rfl hbefore nofun
      (fun u hu => start_of_ne _ _ hu) ?_ nofun nofun
    rw [(start_calls _).2]
    exact .lock
  | false =>
    refine h.goto .outside h.pollee rfl hbefore nofun (fun u hu => ⟨rfl, rfl, le_rfl⟩) ?_ nofun nofun
    cases hc : s.pollee.calls t with
    | idle => exact .idle
    | added events c => exact .added events c
    | _ =>
      rw [hc] at hreturned
      cases hreturned

theorem Inv.setFile (h : Inv s) (hl : s.lock = none) {file : EpollFile} (hsound : Sound file)
    (hsubset : file.ready ⊆ s.epoll.ready) : Inv (s.setFile file) := by
  have hpollee : (s.setFile file).pollee.Inv := h.pollee.of_calls rfl rfl rfl rfl rfl fun t => .quiet rfl
    rfl rfl rfl rfl
  refine ⟨hpollee, hsound.toHolds, fun _ => hsound.event, h.locked, fun u hu => ?_, h.fits, fun u
    maxEvents hw hpos => ?_⟩
  · cases hl.symm.trans hu
  · rcases h.waiting u maxEvents hw hpos with hpos' | hq
    · exact .inl hpos'
    · right
      unfold Quiet at hq ⊢
      rw [hl] at hq
      show match s.lock with
        | none => file.ready = []
        | some u => _
      rw [hl]
      dsimp only at hq ⊢
      rw [hq] at hsubset
      exact List.subset_nil.mp hsubset

theorem Inv.block (h : Inv s) (zero : Bool) (hpc : s.pcs t = .pop maxEvents zero true) (hl : s.lock = none)
    (hready : 0 < maxEvents → s.epoll.ready = []) {revents : IoEvents}
    (hlate : s.pollee.polled t = .late POLL_MASK revents) : Inv (s.goto t (.blocked maxEvents)) := by
  have hfits := h.fits t
  rw [hpc] at hfits
  refine h.outsideLock (t := t) (.blocked maxEvents) h.pollee h.holds rfl rfl rfl rfl (by rw [hpc]; nofun) nofun
    (fun u _ => ⟨rfl, rfl, le_rfl⟩) ⟨hfits.1, revents, hlate⟩ fun max hw hpos => ?_
  have hself : (s.goto t (.blocked maxEvents)).pcs t = .blocked maxEvents := update_self ..
  right
  unfold Quiet
  show match s.lock with
    | none => s.epoll.ready = []
    | some u => _
  rw [hl]
  rcases hw with hw | ⟨hw, -⟩
  · cases hself.symm.trans hw
    exact hready hpos
  · cases hself.symm.trans hw

end Sys

/-- A thread that has not registered its poller pops entries only when one of them has events. -/
def Eventful (s : Sys) : Action → Prop
  | .pop t files => ∀ maxEvents zero mask revents, s.pcs t = .pop maxEvents zero true → s.pollee.polled t =
      .early mask revents →
    0 < maxEvents ∧ ∃ e ∈ s.epoll.ready, (s.epoll.entries e).isDeleted = false ∧
      (s.epoll.entries e).readyEvents files ≠ 0
  | _ => True

namespace Sys

theorem Inv.pop (h : Inv s) {files : Files} (hcond : Eventful s (.pop t files))
    (hstep : s.step (.pop t files) = some s') : Inv s' := by
  rw [Sys.step] at hstep
  cases hpc : s.pcs t with
  | pop maxEvents zero hasPoller =>
    cases hl : s.lock with
    | some u =>
      rw [hpc, hl] at hstep
      cases hstep
    | none =>
      have hsound : Sound s.file := ⟨h.holds.withEvents _, h.event hl⟩
      obtain ⟨reports, file, hpop, hfile, -, -, -, -, hsubset, hempty⟩ := popReady_spec files hsound maxEvents
      rw [hpc, hl] at hstep
      dsimp only at hstep
      rw [hpop] at hstep
      cases hstep
      have hinv := h.setFile hl hfile hsubset
      have hfits := h.fits t
      rw [hpc] at hfits
      have hbefore : s.pcs t ≠ .pushing := by rw [hpc]; nofun
      unfold afterPop
      split
      case isTrue => exact hinv.leave hfits.1 hbefore
      case isFalse hnil =>
        have hnil' : reports = [] := not_not.mp hnil
        split
        case isTrue => exact hinv.leave hfits.1 hbefore
        case isFalse =>
          cases hasPoller with
          | false =>
            refine hinv.goto (.poll maxEvents) (hinv.pollee.start hfits.1 (.poll .IN)) rfl hbefore nofun
              (fun u hu => start_of_ne _ _ hu) ?_ nofun fun _ _ => ?_
            · rw [(start_calls _).1]
              exact .first
            · rw [(start_calls _).1]
              nofun
          | true =>
            obtain ⟨revents, hlate | hearly⟩ := hfits.2 rfl
            · exact hinv.block zero hpc hl (fun hpos => (hempty hnil' hpos).1) hlate
            · -- The poller is not registered, but then an event has been reported.
              obtain ⟨hpos, e, hmem, hdel, hevents⟩ := hcond maxEvents zero _ _ hpc hearly
              exact absurd ((hempty hnil' hpos).2 e hmem hdel) hevents
  | _ =>
    rw [hpc] at hstep
    cases hstep

theorem idle_iff : s.idle t = true ↔ s.pcs t = .outside ∧ (s.pollee.calls t).returned = true := by
  unfold idle
  rw [Bool.and_eq_true, decide_eq_true_eq]

section

variable (h : Inv s)
include h

/-- The interest list changes. -/
theorem Inv.setEpoll {epoll : EpollFile} (hkept : Kept s.epoll epoll) : Inv { s with epoll := epoll } := by
  have hready := hkept.ready
  refine ⟨h.pollee, hkept.holds, fun hl => ?_, h.locked, fun u hl => ?_, h.fits, fun u maxEvents hw hpos => ?_⟩
  · show _ ↔ epoll.ready ≠ []
    rw [hready]
    exact h.event hl
  · show epoll.ready ≠ [] ∧ _
    rw [hready]
    exact h.pushed u hl
  · rcases h.waiting u maxEvents hw hpos with hpos' | hq
    · exact .inl hpos'
    · right
      unfold Quiet at hq ⊢
      show match s.lock with
        | none => epoll.ready = []
        | some u => _
      rwa [hready]

theorem Inv.request {r : Request} {call : Call} (hidle : s.idle t = true)
    (hcalls : ∀ p : Pollee, (p.start t r).calls t = call) (hother : Other call) : Inv
      { s with pollee := s.pollee.start t r } := by
  obtain ⟨hpc, hreturned⟩ := idle_iff.mp hidle
  have hsame : s.pcs = update s.pcs t .outside := by
    rw [← hpc]
    exact (update_eq_self t s.pcs).symm
  refine h.outsideLock (t := t) .outside (h.pollee.start hreturned r) h.holds rfl rfl ?_ hsame
    (by rw [hpc]; nofun) nofun
    (fun u hu => start_of_ne _ _ hu) (by rw [hcalls]; exact hother) fun maxEvents hw => ?_
  · cases r <;> rfl
  · rcases hw with hw | ⟨hw, -⟩
    · cases hpc.symm.trans hw
    · cases hpc.symm.trans hw

theorem Inv.startWaiting {maxEvents : Nat} (hpc : s.pcs t = .poll maxEvents) (hc : s.pollee.calls t = .idle)
    (hresult : Result (s.pollee.polled t)) (hzero : (s.pollee.polled t).revents? = some 0) : Inv
      (s.goto t (.blocked maxEvents)) := by
  have hlate : s.pollee.polled t = .late POLL_MASK 0 := by
    obtain ⟨revents, hlate | hearly⟩ := hresult
    · rw [hlate] at hzero
      cases hzero
      exact hlate
    · have hne := h.pollee.early t _ _ hearly
      rw [hearly] at hzero
      exact absurd (some.inj hzero) hne
  refine h.outsideLock (t := t) (.blocked maxEvents) h.pollee h.holds rfl rfl rfl rfl (by rw [hpc]; nofun) nofun
    (fun u _ => ⟨rfl, rfl, le_rfl⟩) ⟨by show (s.pollee.calls t).returned = true; rw [hc]; rfl, 0, hlate⟩ fun
      max hw hpos => ?_
  have hself : (s.goto t (.blocked maxEvents)).pcs t = .blocked maxEvents := update_self ..
  have hmax : max = maxEvents := by
    rcases hw with hw | ⟨hw, -⟩
    · cases hself.symm.trans hw
      rfl
    · cases hself.symm.trans hw
  exact h.waiting t maxEvents (.inr ⟨hpc, hc, hlate⟩) (hmax ▸ hpos)

theorem Inv.push {e : Nat} (hstep : s.step (.push t e) = some s') : Inv s' := by
  rw [Sys.step] at hstep
  split at hstep
  case isFalse => cases hstep
  case isTrue hcan =>
    obtain ⟨hidle, hl, hlt⟩ := hcan
    obtain ⟨hpc, hreturned⟩ := idle_iff.mp hidle
    split at hstep
    case isTrue =>
      cases hstep
      exact h
    case isFalse hdel =>
      cases hstep
      obtain ⟨hholds, hne⟩ := h.holds.pushEntry hlt (Bool.eq_false_iff.mpr hdel)
      have hself : update s.pcs t .pushing t = .pushing := update_self ..
      have hcalls : (s.pollee.start t (.addEvents .IN)).calls t = .addSet .IN := update_self ..
      have hother : ∀ u, u ≠ t → update s.pcs t .pushing u = s.pcs u := fun u hu =>
        update_of_ne hu ..
      refine ⟨h.pollee.start hreturned (.addEvents .IN), hholds, nofun, fun u => ?_, fun u hu => ?_, fun u => ?_, fun
        u maxEvents hw _ => ?_⟩
      · show update s.pcs t .pushing u = .pushing ↔ some t = some u
        by_cases hu : u = t
        · subst hu
          exact ⟨fun _ => rfl, fun _ => hself⟩
        · rw [hother u hu, h.locked u, hl]
          exact ⟨nofun, fun heq => absurd (some.inj heq).symm hu⟩
      · cases hu
        exact ⟨hne, .inl hcalls⟩
      · show Fits u _ (update s.pcs t .pushing u) _
        by_cases hu : u = t
        · subst hu
          rw [hself]
          show Adding ((s.pollee.start u (.addEvents .IN)).calls u)
          rw [hcalls]
          exact .set
        · obtain ⟨hcall, hpolled, -⟩ := start_of_ne s.pollee (.addEvents .IN) hu
          show Fits u ((s.pollee.start t (.addEvents .IN)).polled u) _ ((s.pollee.start t (.addEvents .IN)).calls u)
          rw [hother u hu, hcall, hpolled]
          exact h.fits u
      · right
        show Coming u ((s.pollee.start t (.addEvents .IN)).calls t)
        rw [hcalls]
        exact .set _

theorem Inv.unlock (hstep : s.step (.pushed t) = some s') : Inv s' := by
  rw [Sys.step] at hstep
  cases hpc : s.pcs t with
  | pushing =>
    cases hc : s.pollee.calls t with
    | added events c =>
      rw [hpc, hc] at hstep
      cases hstep
      have hl := (h.locked t).mp hpc
      obtain ⟨hne, hset⟩ := h.pushed t hl
      have hin : s.pollee.events.intersects .IN = true := hset.resolve_left (by rw [hc]; nofun)
      have hself : update s.pcs t .outside t = .outside := update_self ..
      have hother : ∀ u, u ≠ t → update s.pcs t .outside u = s.pcs u := fun u hu =>
        update_of_ne hu ..
      refine ⟨h.pollee, h.holds, fun _ => ⟨fun _ => hne, fun _ => hin⟩, fun u => ?_, nofun, fun u => ?_, fun u
        maxEvents hw hpos => ?_⟩
      · show update s.pcs t .outside u = .pushing ↔ none = some u
        by_cases hu : u = t
        · subst hu
          rw [hself]
          exact ⟨nofun, nofun⟩
        · rw [hother u hu, h.locked u, hl]
          exact ⟨fun heq => absurd (some.inj heq).symm hu, nofun⟩
      · show Fits u _ (update s.pcs t .outside u) _
        by_cases hu : u = t
        · subst hu
          rw [hself]
          show Other (s.pollee.calls u)
          rw [hc]
          exact .added events c
        · rw [hother u hu]
          exact h.fits u
      · -- The push is over, so it has notified the threads that wait.
        left
        have hu : u ≠ t := by
          rintro rfl
          rcases hw with hw | ⟨hw, -⟩
          · cases hself.symm.trans hw
          · cases hself.symm.trans hw
        rcases h.waiting u maxEvents (hw.of_ne (hother u hu) rfl rfl) hpos with hpos' | hq
        · exact hpos'
        · unfold Quiet at hq
          rw [hl] at hq
          dsimp only at hq
          rw [hc] at hq
          cases hq
    | _ =>
      rw [hpc, hc] at hstep
      cases hstep
  | _ =>
    rw [hpc] at hstep
    cases hstep

theorem Inv.step {a : Action} (hcond : Eventful s a) (hstep : s.step a = some s') : Inv s' := by
  cases a with
  | pop t files => exact h.pop hcond hstep
  | act t =>
    obtain ⟨pollee, hact, rfl⟩ := map_eq_some_iff.mp hstep
    exact h.act hact
  | wait t maxEvents zero =>
    rw [Sys.step] at hstep
    split at hstep
    case isFalse => cases hstep
    case isTrue hidle =>
      obtain ⟨hpc, hreturned⟩ := idle_iff.mp hidle
      cases hstep
      exact h.goto (.pop maxEvents zero false) h.pollee rfl (by rw [hpc]; nofun) nofun
        (fun u _ => ⟨rfl, rfl, le_rfl⟩)
        ⟨hreturned, nofun⟩ nofun nofun
  | polled t =>
    rw [Sys.step] at hstep
    cases hpc : s.pcs t with
    | poll maxEvents =>
      cases hc : s.pollee.calls t with
      | idle =>
        have hfits := h.fits t
        rw [hpc, hc] at hfits
        rw [hpc, hc] at hstep
        have hresult : Result (s.pollee.polled t) := by
          cases hfits with
          | done hresult => exact hresult
        dsimp only at hstep
        split at hstep
        case isTrue hzero =>
          cases hstep
          exact h.startWaiting hpc hc hresult hzero
        case isFalse =>
          cases hstep
          exact h.goto (.pop maxEvents false true) h.pollee rfl (by rw [hpc]; nofun) nofun
            (fun u _ => ⟨rfl, rfl, le_rfl⟩)
            ⟨by rw [hc]; rfl, fun _ => hresult⟩ nofun nofun
      | _ =>
        rw [hpc, hc] at hstep
        cases hstep
    | _ =>
      rw [hpc] at hstep
      cases hstep
  | wake t =>
    rw [Sys.step] at hstep
    cases hpc : s.pcs t with
    | blocked maxEvents =>
      rw [hpc] at hstep
      obtain ⟨pollee, hwait, rfl⟩ := map_eq_some_iff.mp hstep
      have hfits := h.fits t
      rw [hpc] at hfits
      obtain ⟨hreturned, revents, hlate⟩ := hfits
      have hpollee := h.pollee.wait hwait
      obtain rfl := Pollee.wait_eq hwait
      exact h.goto (.pop maxEvents false true) hpollee rfl (by rw [hpc]; nofun) nofun
        (fun u hu => ⟨rfl, rfl, le_of_eq (update_of_ne hu ..).symm⟩)
        ⟨hreturned, fun _ => ⟨revents, .inl hlate⟩⟩ nofun nofun
    | _ =>
      rw [hpc] at hstep
      cases hstep
  | timeout t =>
    rw [Sys.step] at hstep
    cases hpc : s.pcs t with
    | blocked maxEvents =>
      rw [hpc] at hstep
      cases hstep
      have hfits := h.fits t
      rw [hpc] at hfits
      exact h.leave hfits.1 (by rw [hpc]; nofun)
    | _ =>
      rw [hpc] at hstep
      cases hstep
  | left t =>
    rw [Sys.step] at hstep
    cases hpc : s.pcs t with
    | leaving =>
      cases hc : s.pollee.calls t with
      | idle =>
        rw [hpc, hc] at hstep
        cases hstep
        exact h.goto .outside h.pollee rfl (by rw [hpc]; nofun) nofun (fun u _ => ⟨rfl, rfl, le_rfl⟩)
          (by rw [hc]; exact .idle) nofun nofun
      | _ =>
        rw [hpc, hc] at hstep
        cases hstep
    | _ =>
      rw [hpc] at hstep
      cases hstep
  | push t e => exact h.push hstep
  | pushed t => exact h.unlock hstep
  | registerObserver t n mask =>
    rw [Sys.step] at hstep
    split at hstep
    case isFalse => cases hstep
    case isTrue hidle =>
      cases hstep
      exact h.request hidle (fun p => update_self ..) (.registerLock n _)
  | unregisterObserver t n =>
    rw [Sys.step] at hstep
    split at hstep
    case isFalse => cases hstep
    case isTrue hidle =>
      cases hstep
      exact h.request hidle (fun p => update_self ..) (.unregisterLock n)
  | free n =>
    cases hstep
    exact ⟨h.pollee.of_calls rfl rfl rfl rfl rfl fun t => .quiet rfl rfl rfl rfl rfl, h.holds, h.event, h.locked,
      h.pushed, h.fits,
      h.waiting⟩
  | insert files fd epEvent epFlags =>
    obtain ⟨epoll, hrun, rfl⟩ := map_eq_some_iff.mp hstep
    exact h.setEpoll (insertInterest_kept h.holds hrun)
  | update fd epEvent epFlags =>
    obtain ⟨epoll, hrun, rfl⟩ := map_eq_some_iff.mp hstep
    exact h.setEpoll (updateInterest_kept h.holds hrun)
  | delete files fd =>
    obtain ⟨epoll, hrun, rfl⟩ := map_eq_some_iff.mp hstep
    exact h.setEpoll (delInterest_kept h.holds hrun)

end

theorem Inv.new : Inv .new where
  pollee := .new 0
  holds := Epoll.Run.new.sound.toHolds
  event := fun _ => Epoll.Run.new.sound.event
  locked := fun _ => ⟨nofun, nofun⟩
  pushed := nofun
  fits := fun _ => .idle
  waiting := by
    intro t maxEvents hw
    rcases hw with hw | ⟨hw, -⟩
    · cases hw
    · cases hw

end Sys

theorem Run.steps {cond : Sys → Action → Prop} (h : Run cond s) (actions : List Action)
    (hsteps : s.steps actions = some s') (hcond : ∀ a ∈ actions, ∀ s, cond s a) : Run cond s' := by
  induction actions generalizing s with
  | nil =>
    cases hsteps
    exact h
  | cons a actions ih =>
    obtain ⟨s₁, hstep, hrest⟩ := bind_eq_some_iff.mp hsteps
    exact ih (h.step a (hcond a List.mem_cons_self s) hstep) hrest fun b hb => hcond b (List.mem_cons_of_mem _ hb)

theorem Run.inv (h : Run Eventful s) : s.Inv := by
  induction h with
  | new => exact .new
  | step _ a hcond hstep ih => exact ih.step hcond hstep

/-- **A thread that waits is woken**: its poller is registered, every push that has set `IN` after the last read of
its `poll` has notified it, and when no push is under way and there are ready entries, the thread does not block.
This is so as long as no thread that has not registered its poller pops entries of which none has events. -/
theorem waiters_notified {s : Sys} (h : Run Eventful s) {t maxEvents : Nat}
    (hblocked : s.pcs t = .blocked maxEvents) :
    (∃ mask, (.poller t, mask) ∈ s.pollee.observers ∧ mask.intersects .IN = true) ∧
    (∀ u c, s.pollee.calls u = .added .IN c → c.reads t = s.pollee.reads t → c.hits t = true) ∧
    (s.lock = none → 0 < maxEvents → s.epoll.ready ≠ [] → (s.pollee.wait t).isSome = true) := by
  have hinv := h.inv
  obtain ⟨revents, hlate⟩ := hinv.late (.inl hblocked)
  refine ⟨⟨POLL_MASK, hinv.pollee.late t _ _ hlate, by decide⟩, fun u c hc hreads => ?_, fun hl hpos hne => ?_⟩
  · have hwithin := hinv.pollee.within u
    rw [hc] at hwithin
    exact hwithin.2.2 t POLL_MASK revents hlate hreads (by decide)
  · rcases hinv.waiting t maxEvents (.inl hblocked) hpos with hcounter | hq
    · unfold Pollee.wait
      rw [if_pos hcounter]
      rfl
    · unfold Sys.Quiet at hq
      rw [hl] at hq
      exact absurd hq hne

/-- A thread finds the list of ready entries empty, with a pipe of interest. -/
def foundEmpty : Sys := (Sys.new.steps [.insert pipe 3 ⟨.IN, 7⟩ 0, .wait 0 8 false, .pop 0 pipe]).getD .new

/-- It registers its poller and waits, and another thread pushes the entry of the pipe. -/
def waitThenPush : List Action :=
  List.replicate 6 (.act 0) ++ [.polled 0, .push 1 0] ++ List.replicate 5 (.act 1) ++ [.pushed 1]

def waitedThenPushed : Sys := (foundEmpty.steps waitThenPush).getD .new

theorem waiters_notified_pipe : Run Eventful waitedThenPushed ∧ waitedThenPushed.epoll.ready = [0] ∧
    (waitedThenPushed.pollee.wait 0).isSome = true := by
  have hwait : Run Eventful _ := .steps .new [.insert pipe 3 ⟨.IN, 7⟩ 0, .wait 0 8 false] rfl (by simp [Eventful])
  have hempty : Run Eventful foundEmpty := hwait.step (.pop 0 pipe) (fun _ _ _ _ hpc => by cases hpc) rfl
  have hrun : Run Eventful waitedThenPushed := hempty.steps waitThenPush rfl (by simp [waitThenPush, Eventful])
  exact ⟨hrun, by decide, (waiters_notified hrun (show waitedThenPushed.pcs 0 = .blocked 8 from rfl)).2.2 rfl (by decide) (by decide)⟩

def emptyPipe : Files := ⟨pipe.table, fun _ => some fun _ => 0, pipe.observable⟩

/-- A push between `pop_ready` and `poll`, of an entry that has no events any more when it is popped; and another one
while the thread waits. -/
def pushBeforePoll : List Action :=
  [.insert pipe 3 ⟨.IN, 7⟩ 0, .wait 0 8 false, .pop 0 pipe, .push 1 0, .act 1, .act 1, .pushed 1, .act 0, .polled 0,
    .pop 0 emptyPipe, .push 1 0, .act 1, .act 1, .pushed 1]

def pushedBeforePoll : Sys := (Sys.new.steps pushBeforePoll).getD .new

/-- **A thread waits on a poller that is not registered**, and is not woken by a push. -/
theorem waiter_not_registered : Run (fun _ _ => True) pushedBeforePoll ∧ pushedBeforePoll.pcs 0 = .blocked 8 ∧
    pushedBeforePoll.pollee.observers = [] ∧ pushedBeforePoll.lock = none ∧ pushedBeforePoll.epoll.ready = [0] ∧
    (pushedBeforePoll.pollee.wait 0).isSome = false := by
  have hsteps : Sys.new.steps pushBeforePoll = some pushedBeforePoll := rfl
  exact ⟨.steps .new _ hsteps (fun _ _ _ => trivial), by decide, by decide, by decide, by decide, by decide⟩

end Wait
end AsterKernel.Epoll
