import Mathlib.Logic.Function.Basic

/-!
# `Poll.Pollee` — polling and notification

A pollee has a set of events and a subject with a table of observers. `Pollee::poll` reads the events; if there are
none of the mask, it registers the poller and reads them again. `Pollee::add_events` sets events and notifies the
observers, but only if the number of observers, which it reads without the lock of the table, is not zero.

Each thread has a poller of its own, and takes one atomic step at a time: a read or an update of the events or of the
number of observers, an acquisition or a release of the lock, one operation on the table, or the notification of one
observer. Observers that are not pollers are registered, unregistered and freed at any time.

For every thread the number of its last reads is counted, and a call of `add_events` keeps the numbers at the time
when it has set the events, and the pollers it has notified.
-/

namespace AsterKernel.Poll

open Function List

theorem le_update_succ (f : Nat → Nat) (t u : Nat) : f u ≤ update f t (f t + 1) u := by
  by_cases hu : u = t
  · subst hu
    rw [update_self]
    omega
  · exact Nat.le_of_eq (update_of_ne hu ..).symm

/-! ## Events -/

abbrev IoEvents := BitVec 32

namespace IoEvents

def IN : IoEvents := 0x0001
def PRI : IoEvents := 0x0002
def OUT : IoEvents := 0x0004
def ERR : IoEvents := 0x0008
def HUP : IoEvents := 0x0010
def NVAL : IoEvents := 0x0020
def RDHUP : IoEvents := 0x2000

/-- Events that are always polled. -/
def ALWAYS_POLL : IoEvents := ERR ||| HUP

def all : IoEvents := IN ||| PRI ||| OUT ||| ERR ||| HUP ||| NVAL ||| RDHUP

/-- `intersects`, which is also the filter of an observer's mask. -/
def intersects (a b : IoEvents) : Bool := a &&& b ≠ 0

end IoEvents

/-! ## The pollee and its threads -/

/-- The poller of a thread, or another observer. -/
inductive Observer where
  | poller (thread : Nat)
  | other (n : Nat)
deriving DecidableEq, Repr

abbrev Table := List (Observer × IoEvents)

namespace Table

def has (table : Table) (o : Observer) : Bool := table.any fun entry => entry.1 = o

/-- `BTreeMap::insert`. -/
def insert (table : Table) (o : Observer) (mask : IoEvents) : Table :=
  if table.has o then table.map fun entry => if entry.1 = o then (o, mask) else entry else (o, mask) :: table

/-- `BTreeMap::remove_entry`. -/
def remove (table : Table) (o : Observer) : Table := table.eraseP fun entry => entry.1 = o

end Table

/-- What is known of a call of `add_events`: the number of last reads of each thread when the events were set, and the
threads whose pollers it has notified. -/
structure Notified where
  reads : Nat → Nat
  hits : Nat → Bool

def Notified.hit (c : Notified) : Observer → Notified
  | .poller t => { c with hits := Function.update c.hits t true }
  | .other _ => c

/-- Where a thread is in a call: at its next atomic step. -/
inductive Call where
  | idle
  | pollFirst (mask : IoEvents)
  | registerLock (o : Observer) (mask : IoEvents)
  | registerInsert (o : Observer) (mask : IoEvents)
  | registerCount (o : Observer) (mask : IoEvents)
  | registerUnlock (o : Observer) (mask : IoEvents)
  | pollLast (mask : IoEvents)
  | unregisterLock (o : Observer)
  | unregisterRemove (o : Observer)
  | unregisterCount (o : Observer)
  | unregisterUnlock (o : Observer)
  | addSet (events : IoEvents)
  | addCount (events : IoEvents) (c : Notified)
  | addLock (events : IoEvents) (c : Notified)
  | addVisit (events : IoEvents) (c : Notified) (kept rest : Table)
  | added (events : IoEvents) (c : Notified)
  | delClear (events : IoEvents)

/-- The last `poll` of a thread: none has returned, it has returned after the first read, or after the last read. -/
inductive Polled where
  | none
  | early (mask revents : IoEvents)
  | late (mask revents : IoEvents)
deriving DecidableEq, Repr

/-- The events that `poll` has returned. -/
def Polled.revents? : Polled → Option IoEvents
  | .none => Option.none
  | .early _ revents | .late _ revents => some revents

/-- A pollee, the event counters of the pollers, and the threads. A poller is `taken` when its counter has been read
since the last `poll`. -/
structure Pollee where
  events : IoEvents
  observers : Table
  numObservers : Nat
  lock : Option Nat
  freed : Nat → Bool
  counter : Nat → Nat
  calls : Nat → Call
  polled : Nat → Polled
  taken : Nat → Bool
  reads : Nat → Nat

namespace Pollee

def new (initEvents : IoEvents) : Pollee where
  events := initEvents
  observers := []
  numObservers := 0
  lock := none
  freed := fun _ => false
  counter := fun _ => 0
  calls := fun _ => .idle
  polled := fun _ => .none
  taken := fun _ => false
  reads := fun _ => 0

/-- A thread goes on with its call. -/
def put (s : Pollee) (t : Nat) (call : Call) : Pollee := { s with calls := Function.update s.calls t call }

/-- The weak reference to an observer is upgraded. -/
def alive (s : Pollee) : Observer → Bool
  | .poller _ => true
  | .other n => !s.freed n

/-- `PollerInner::on_events`; what other observers do has no effect here. -/
def onEvents (s : Pollee) : Observer → Pollee
  | .poller t => { s with counter := Function.update s.counter t (s.counter t + 1) }
  | .other _ => s

def acquire (s : Pollee) (t : Nat) (call : Call) : Option Pollee :=
  match s.lock with
  | none => some { s.put t call with lock := some t }
  | some _ => none

/-- The next atomic step of a thread's call; `none` when it has returned or has to wait for the lock. -/
def act (s : Pollee) (t : Nat) : Option Pollee :=
  match s.calls t with
  | .idle | .added _ _ => none
  -- `Pollee::poll`
  | .pollFirst mask =>
    if s.events &&& mask ≠ 0 then
      some { s.put t .idle with polled := Function.update s.polled t (.early mask (s.events &&& mask)) }
    else some (s.put t (.registerLock (.poller t) mask))
  | .pollLast mask =>
    some { s.put t .idle with
      polled := Function.update s.polled t (.late mask (s.events &&& mask))
      taken := Function.update s.taken t false
      reads := Function.update s.reads t (s.reads t + 1) }
  -- `Subject::register_observer`
  | .registerLock o mask => s.acquire t (.registerInsert o mask)
  | .registerInsert o mask =>
    some { s.put t (if s.observers.has o then .registerUnlock o mask else .registerCount o mask) with
      observers := s.observers.insert o mask }
  | .registerCount o mask => some { s.put t (.registerUnlock o mask) with numObservers := s.numObservers + 1 }
  | .registerUnlock o mask =>
    some { s.put t (match o with | .poller _ => .pollLast mask | .other _ => .idle) with lock := none }
  -- `Subject::unregister_observer`
  | .unregisterLock o => s.acquire t (.unregisterRemove o)
  | .unregisterRemove o =>
    if s.observers.has o then some { s.put t (.unregisterCount o) with observers := s.observers.remove o }
    else some (s.put t (.unregisterUnlock o))
  | .unregisterCount o => some { s.put t (.unregisterUnlock o) with numObservers := s.numObservers - 1 }
  | .unregisterUnlock o =>
    some { s.put t .idle with
      lock := none
      counter := match o with | .poller _ => Function.update s.counter t 0 | .other _ => s.counter }
  -- `Pollee::add_events` and `Subject::notify_observers`
  | .addSet events => some { s.put t (.addCount events ⟨s.reads, fun _ => false⟩) with events := s.events ||| events }
  | .addCount events c => some (s.put t (if s.numObservers = 0 then .added events c else .addLock events c))
  | .addLock events c => s.acquire t (.addVisit events c [] s.observers)
  | .addVisit events c _ [] => some { s.put t (.added events c) with lock := none }
  | .addVisit events c kept ((o, mask) :: rest) =>
    if s.alive o then
      if mask.intersects events then some ((s.put t
        (.addVisit events (c.hit o) (kept ++ [(o, mask)]) rest)).onEvents o)
      else some (s.put t (.addVisit events c (kept ++ [(o, mask)]) rest))
    else some { s.put t (.addVisit events c kept rest) with
      observers := kept ++ rest, numObservers := s.numObservers - 1 }
  -- `Pollee::del_events`
  | .delClear events => some { s.put t .idle with events := s.events &&& ~~~events }

end Pollee

/-- What a thread calls. Its poller is dropped with a new one in its place. -/
inductive Request where
  | poll (mask : IoEvents)
  | drop
  | registerObserver (n : Nat) (mask : IoEvents)
  | unregisterObserver (n : Nat)
  | addEvents (events : IoEvents)
  | delEvents (events : IoEvents)

namespace Pollee

def start (s : Pollee) (t : Nat) : Request → Pollee
  | .poll mask => { s.put t (.pollFirst (mask ||| .ALWAYS_POLL)) with polled := Function.update s.polled t .none }
  | .drop => { s.put t (.unregisterLock (.poller t)) with polled := Function.update s.polled t .none }
  | .registerObserver n mask => s.put t (.registerLock (.other n) (mask ||| .ALWAYS_POLL))
  | .unregisterObserver n => s.put t (.unregisterLock (.other n))
  | .addEvents events => s.put t (.addSet events)
  | .delEvents events => s.put t (.delClear events)

/-- `Poller::wait`: it returns when the event counter is not zero, which is reset. -/
def wait (s : Pollee) (t : Nat) : Option Pollee :=
  if 0 < s.counter t then
    some { s with counter := Function.update s.counter t 0, taken := Function.update s.taken t true }
  else none

end Pollee

def Call.returned : Call → Bool
  | .idle | .added _ _ => true
  | _ => false

inductive Action where
  | start (t : Nat) (r : Request)
  | act (t : Nat)
  | wait (t : Nat)
  | free (n : Nat)

def Pollee.step (s : Pollee) : Action → Option Pollee
  | .start t r => if (s.calls t).returned then some (s.start t r) else none
  | .act t => s.act t
  | .wait t => s.wait t
  | .free n => some { s with freed := Function.update s.freed n true }

/-- The states that the steps of the threads lead to. -/
inductive Run (initEvents : IoEvents) : Pollee → Prop
  | new : Run initEvents (.new initEvents)
  | step {s s' : Pollee} (h : Run initEvents s) (a : Action) (hstep : s.step a = some s') : Run initEvents s'

def Pollee.steps (s : Pollee) : List Action → Option Pollee
  | [] => some s
  | a :: actions => (s.step a).bind fun s' => s'.steps actions

variable {initEvents : IoEvents}

theorem Run.steps {s s' : Pollee} (h : Run initEvents s) {actions : List Action}
    (hsteps : s.steps actions = some s') : Run initEvents s' := by
  induction actions generalizing s with
  | nil =>
    cases hsteps
    exact h
  | cons a actions ih =>
    obtain ⟨s₁, hstep, hrest⟩ := Option.bind_eq_some_iff.mp hsteps
    exact ih (h.step a hstep) hrest

/-! ## The invariant -/

namespace Table

variable {table : Table} {o p : Observer} {mask m : IoEvents}

theorem mem_insert_self : (o, mask) ∈ table.insert o mask := by
  unfold insert
  split
  case isTrue h =>
    obtain ⟨entry, hmem, heq⟩ := any_eq_true.mp h
    exact mem_map.mpr ⟨entry, hmem, if_pos (of_decide_eq_true heq)⟩
  case isFalse => exact mem_cons_self

theorem mem_insert_of_ne (h : (p, m) ∈ table) (hne : p ≠ o) : (p, m) ∈ table.insert o mask := by
  unfold insert
  split
  case isTrue => exact mem_map.mpr ⟨(p, m), h, if_neg hne⟩
  case isFalse => exact mem_cons_of_mem _ h

theorem length_insert (mask : IoEvents) (h : table.has o = false) : (table.insert o mask).length =
    table.length + 1 := by
  unfold insert
  rw [h]
  rfl

theorem length_insert_of_has (h : table.has o = true) : (table.insert o mask).length = table.length := by
  unfold insert
  rw [if_pos h, length_map]

theorem mem_remove_of_ne (h : (p, m) ∈ table) (hne : p ≠ o) : (p, m) ∈ table.remove o :=
  (mem_eraseP_of_neg (by simpa using hne)).mpr h

theorem length_remove (h : table.has o = true) : (table.remove o).length + 1 = table.length := by
  obtain ⟨entry, hmem, heq⟩ := any_eq_true.mp h
  have hlen := length_eraseP_of_mem (p := fun entry => decide (entry.1 = o)) hmem heq
  have hpos := length_pos_of_mem hmem
  unfold remove
  omega

end Table

def Call.holds : Call → Bool
  | .registerInsert _ _ | .registerCount _ _ | .registerUnlock _ _ | .unregisterRemove _ | .unregisterCount _
  | .unregisterUnlock _ | .addVisit _ _ _ _ => true
  | _ => false

/-- An observer has been put into the table and is not counted yet. -/
def Call.uncounted : Call → Nat
  | .registerCount _ _ => 1
  | _ => 0

/-- An observer has been taken out of the table and is still counted. -/
def Call.overcounted : Call → Nat
  | .unregisterCount _ => 1
  | _ => 0

/-- The call of the thread that holds the lock. -/
def Pollee.holder (s : Pollee) : Call :=
  match s.lock with
  | none => .idle
  | some u => s.calls u

/-- Only the owner registers and unregisters a poller, and only while none of its polls has returned. -/
def Pollee.Own (s : Pollee) (u : Nat) (o : Observer) : Prop := ∀ v, o = .poller v → v = u ∧ s.polled u = .none

namespace Notified

/-- The events were set in the past. -/
def Past (c : Notified) (s : Pollee) : Prop := ∀ t, c.reads t ≤ s.reads t

/-- The notifications since a thread's last read are in its counter. -/
def Counted (c : Notified) (s : Pollee) : Prop := ∀ t mask revents, c.hits t = true → s.polled t =
    .late mask revents →
  c.reads t = s.reads t → s.taken t = false → 0 < s.counter t

end Notified

/-- What is known in the middle of a call. -/
def Pollee.Within (s : Pollee) (u : Nat) : Call → Prop
  | .idle | .addSet _ | .delClear _ => True
  | .pollFirst _ => s.polled u = .none
  | .registerLock o _ | .registerInsert o _ | .unregisterLock o | .unregisterRemove o | .unregisterCount o
  | .unregisterUnlock o => s.Own u o
  | .registerCount o mask | .registerUnlock o mask => s.Own u o ∧ (o, mask) ∈ s.observers
  | .pollLast mask => s.polled u = .none ∧ (.poller u, mask) ∈ s.observers
  | .addCount _ c | .addLock _ c => c.Past s ∧ c.Counted s
  | .addVisit events c kept rest => c.Past s ∧ c.Counted s ∧ s.observers = kept ++ rest ∧
    ∀ t mask revents, s.polled t = .late mask revents → c.reads t = s.reads t → mask.intersects events = true →
      c.hits t = true ∨ (.poller t, mask) ∈ rest
  | .added events c => c.Past s ∧ c.Counted s ∧
    ∀ t mask revents, s.polled t = .late mask revents → c.reads t = s.reads t → mask.intersects events = true →
      c.hits t = true

structure Pollee.Inv (s : Pollee) : Prop where
  locked : ∀ u, (s.calls u).holds = true ↔ s.lock = some u
  count : s.numObservers + s.holder.uncounted = s.observers.length + s.holder.overcounted
  within : ∀ u, s.Within u (s.calls u)
  early : ∀ u mask revents, s.polled u = .early mask revents → revents ≠ 0
  late : ∀ u mask revents, s.polled u = .late mask revents → (.poller u, mask) ∈ s.observers

/-- What a step of a thread leaves to the others. -/
structure Pollee.Frame (t : Nat) (s s' : Pollee) : Prop where
  polled : ∀ u, u ≠ t → s'.polled u = s.polled u
  pollers : ∀ u mask, u ≠ t → (.poller u, mask) ∈ s.observers → (.poller u, mask) ∈ s'.observers
  observers : ∀ u, u ≠ t → s.lock = some u → s'.observers = s.observers
  reads : ∀ u, s.reads u ≤ s'.reads u
  late : ∀ u mask revents, s'.polled u = .late mask revents → s'.reads u = s.reads u → s.polled u =
    .late mask revents ∧
    (s'.taken u = false → s.taken u = false ∧ s.counter u ≤ s'.counter u)

namespace Pollee

variable {s s' : Pollee} {t u : Nat} {call : Call}

variable {c : Notified}

theorem Frame.past (h : Frame t s s') (hc : c.Past s) : c.Past s' := fun v => Nat.le_trans (hc v) (h.reads v)

theorem Frame.counted (h : Frame t s s') (hpast : c.Past s) (hc : c.Counted s) : c.Counted s' := by
  intro v mask revents hhit hlate hreads htaken
  have hsame : s'.reads v = s.reads v := Nat.le_antisymm (hreads ▸ hpast v) (h.reads v)
  obtain ⟨hlate', hcounter⟩ := h.late v mask revents hlate hsame
  obtain ⟨htaken', hle⟩ := hcounter htaken
  exact Nat.lt_of_lt_of_le (hc v mask revents hhit hlate' (hreads.trans hsame) htaken') hle

/-- What holds for a thread's last read still does. -/
theorem Frame.sinceLast (h : Frame t s s') (hpast : c.Past s) {P : Nat → IoEvents → Prop}
    (hc : ∀ v mask revents, s.polled v = .late mask revents → c.reads v = s.reads v → P v mask) :
    ∀ v mask revents, s'.polled v = .late mask revents → c.reads v = s'.reads v → P v mask := by
  intro v mask revents hlate hreads
  have hsame : s'.reads v = s.reads v := Nat.le_antisymm (hreads ▸ hpast v) (h.reads v)
  exact hc v mask revents (h.late v mask revents hlate hsame).1 (hreads.trans hsame)

theorem Within.frame (h : Frame t s s') (hne : u ≠ t) (hheld : call.holds = true → s.lock = some u)
    (hw : s.Within u call) : s'.Within u call := by
  have hown : ∀ {o}, s.Own u o → s'.Own u o := by
    intro o ho v hv
    obtain ⟨rfl, hnone⟩ := ho v hv
    exact ⟨rfl, (h.polled v hne).trans hnone⟩
  cases call with
  | idle | addSet | delClear => trivial
  | pollFirst => exact (h.polled u hne).trans hw
  | registerLock | registerInsert | unregisterLock | unregisterRemove | unregisterCount
  | unregisterUnlock => exact hown hw
  | registerCount | registerUnlock => exact ⟨hown hw.1, by rw [h.observers u hne (hheld rfl)]; exact hw.2⟩
  | pollLast => exact ⟨(h.polled u hne).trans hw.1, h.pollers u _ hne hw.2⟩
  | addCount | addLock => exact ⟨h.past hw.1, h.counted hw.1 hw.2⟩
  | addVisit events c kept rest =>
    obtain ⟨hpast, hcounted, hobs, hrest⟩ := hw
    refine ⟨h.past hpast, h.counted hpast hcounted, by rw [h.observers u hne (hheld rfl)]; exact hobs, ?_⟩
    exact h.sinceLast hpast (P := fun v mask => mask.intersects events = true → c.hits v = true ∨
      (.poller v, mask) ∈ rest) hrest
  | added events c =>
    obtain ⟨hpast, hcounted, hrest⟩ := hw
    refine ⟨h.past hpast, h.counted hpast hcounted, ?_⟩
    exact h.sinceLast hpast (P := fun v mask => mask.intersects events = true → c.hits v = true) hrest

theorem Frame.quiet (hobs : s'.observers = s.observers) (hpolled : s'.polled = s.polled) (hreads : s'.reads = s.reads)
    (htaken : s'.taken = s.taken) (hcounter : s'.counter = s.counter) : Frame t s s' where
  polled := fun u _ => by rw [hpolled]
  pollers := fun u mask _ h => by rw [hobs]; exact h
  observers := fun u _ _ => hobs
  reads := fun u => Nat.le_of_eq (by rw [hreads])
  late := fun u mask revents h _ => by
    rw [hpolled] at h
    exact ⟨h, fun hfalse => ⟨by rw [← htaken]; exact hfalse, Nat.le_of_eq (by rw [hcounter])⟩⟩

namespace Inv

section Turn

/-! What a step of a thread has to show: it changes what it may, and its own call and poller are as they should be. -/

variable (h : Inv s) (call : Call) (hframe : Frame t s s') (hcalls : s'.calls = Function.update s.calls t call)
  (hwithin : s'.Within t call) (hearly : ∀ mask revents, s'.polled t = .early mask revents → revents ≠ 0)
  (hlate : ∀ mask revents, s'.polled t = .late mask revents → (.poller t, mask) ∈ s'.observers) {before : Call}

include h hframe hcalls hwithin hearly hlate

theorem of_frame (hlock : call.holds = true ↔ s'.lock = some t)
    (hothers : ∀ u, u ≠ t → (s'.lock = some u ↔ s.lock = some u))
    (hcount : s'.numObservers + s'.holder.uncounted = s'.observers.length + s'.holder.overcounted) : Inv s' where
  locked := by
    intro u
    rw [hcalls]
    by_cases hu : u = t
    · subst hu
      rw [update_self]
      exact hlock
    · rw [update_of_ne hu, hothers u hu]
      exact h.locked u
  count := hcount
  within := by
    intro u
    rw [hcalls]
    by_cases hu : u = t
    · subst hu
      rw [update_self]
      exact hwithin
    · rw [update_of_ne hu]
      exact (h.within u).frame hframe hu (h.locked u).mp
  early := by
    intro u mask revents hp
    by_cases hu : u = t
    · subst hu
      exact hearly mask revents hp
    · exact h.early u mask revents (hframe.polled u hu ▸ hp)
  late := by
    intro u mask revents hp
    by_cases hu : u = t
    · subst hu
      exact hlate mask revents hp
    · exact hframe.pollers u mask hu (h.late u mask revents (hframe.polled u hu ▸ hp))

theorem outside (hc : s.calls t = before) (hbefore : before.holds = false) (hafter : call.holds = false)
    (hlock : s'.lock = s.lock) (hobs : s'.observers = s.observers) (hnum : s'.numObservers = s.numObservers) :
    Inv s' := by
  have hnot : s.lock ≠ some t := fun hl => by
    rw [← hc, (h.locked t).mpr hl] at hbefore
    cases hbefore
  have hholder : s'.holder = s.holder := by
    unfold holder
    rw [hlock]
    cases hl : s.lock with
    | none => rfl
    | some u =>
      have hu : u ≠ t := fun heq => hnot (heq ▸ hl)
      show s'.calls u = s.calls u
      rw [hcalls, update_of_ne hu]
  refine h.of_frame call hframe hcalls hwithin hearly hlate ?_ (fun u _ => by rw [hlock]) ?_
  · rw [hafter, hlock]
    exact ⟨nofun, fun hl => absurd hl hnot⟩
  · rw [hnum, hholder, hobs]
    exact h.count

omit hframe hcalls hwithin hearly hlate in
theorem held (hc : s.calls t = before) (hbefore : before.holds = true) :
    s.lock = some t ∧ s.numObservers + before.uncounted = s.observers.length + before.overcounted := by
  have hl := (h.locked t).mp (hc ▸ hbefore)
  have hholder : s.holder = before := by
    unfold holder
    rw [hl, ← hc]
  exact ⟨hl, hholder ▸ h.count⟩

theorem inside (hc : s.calls t = before) (hbefore : before.holds = true) (hafter : call.holds = true)
    (hlock : s'.lock = s.lock) (hcount : s.numObservers + before.uncounted = s.observers.length + before.overcounted →
      s'.numObservers + call.uncounted = s'.observers.length + call.overcounted) : Inv s' := by
  obtain ⟨hl, hcount'⟩ := h.held hc hbefore
  have hholder : s'.holder = call := by
    unfold holder
    rw [hlock, hl, hcalls]
    exact update_self ..
  refine h.of_frame call hframe hcalls hwithin hearly hlate ?_ (fun u _ => by rw [hlock]) ?_
  · rw [hafter, hlock, hl]
    exact ⟨fun _ => rfl, fun _ => rfl⟩
  · rw [hholder]
    exact hcount hcount'

theorem release (hc : s.calls t = before) (hbefore : before.holds = true) (hafter : call.holds = false)
    (hlock : s'.lock = none) (hcount : s.numObservers + before.uncounted = s.observers.length + before.overcounted →
      s'.numObservers = s'.observers.length) : Inv s' := by
  obtain ⟨hl, hcount'⟩ := h.held hc hbefore
  have hholder : s'.holder = .idle := by
    unfold holder
    rw [hlock]
  refine h.of_frame call hframe hcalls hwithin hearly hlate ?_ (fun u hu => ?_) ?_
  · rw [hafter, hlock]
    exact ⟨nofun, nofun⟩
  · rw [hlock, hl]
    exact ⟨nofun, fun heq => absurd (Option.some.inj heq).symm hu⟩
  · rw [hholder]
    exact hcount hcount'

end Turn

theorem acquire (h : Inv s) (hacquire : s.acquire t call = some s') (hafter : call.holds = true)
    (hun : call.uncounted = 0) (hover : call.overcounted = 0)
    (hwithin : ({ s.put t call with lock := some t } : Pollee).Within t call) : Inv s' := by
  unfold Pollee.acquire at hacquire
  cases hl : s.lock with
  | some u =>
    rw [hl] at hacquire
    cases hacquire
  | none =>
    rw [hl] at hacquire
    cases hacquire
    have hcount := h.count
    unfold holder at hcount
    rw [hl] at hcount
    refine h.of_frame call (Frame.quiet rfl rfl rfl rfl rfl) rfl hwithin (h.early t) (h.late t) ?_ (fun u hu => ?_) ?_
    · rw [hafter]
      exact ⟨fun _ => rfl, fun _ => rfl⟩
    · rw [hl]
      exact ⟨fun heq => absurd (Option.some.inj heq).symm hu, nofun⟩
    · have hholder : ({ s.put t call with lock := some t } : Pollee).holder = call := update_self ..
      rw [hholder, hun, hover]
      exact hcount

/-- A thread whose last `poll` has returned after its last read keeps the number of observers above zero. -/
theorem numObservers_pos (h : Inv s) {v : Nat} {mask revents : IoEvents} (hlate : s.polled v = .late mask revents) :
    0 < s.numObservers := by
  have hmem := h.late v mask revents hlate
  have hlen := length_pos_of_mem hmem
  have hcount := h.count
  by_contra hzero
  -- The only observer of the table is the one that is about to be counted, and it is not this poller.
  unfold holder at hcount
  cases hl : s.lock with
  | none =>
    rw [hl] at hcount
    have hidle : Call.idle.uncounted = 0 := rfl
    dsimp only at hcount
    omega
  | some w =>
    rw [hl] at hcount
    dsimp only at hcount
    have hw := h.within w
    cases hc : s.calls w with
    | registerCount o m =>
      rw [hc] at hw hcount
      have hone : s.observers.length = 1 := by
        have hun : (Call.registerCount o m).uncounted = 1 := rfl
        omega
      obtain ⟨entry, hentry⟩ := length_eq_one_iff.mp hone
      obtain ⟨hown, hin⟩ := hw
      rw [hentry] at hin hmem
      have heq : (o, m) = (Observer.poller v, mask) := (mem_singleton.mp hin).trans (mem_singleton.mp hmem).symm
      obtain ⟨rfl, hnone⟩ := hown v (Prod.mk.inj heq).1
      cases hnone.symm.trans hlate
    | _ =>
      rw [hc] at hcount
      simp only [Call.uncounted] at hcount
      omega

variable {o : Observer} {mask events : IoEvents} {kept rest : Table}

section

variable (h : Inv s)
include h

theorem pollFirst (hc : s.calls t = .pollFirst mask) (hact : s.act t = some s') : Inv s' := by
  have hw := h.within t
  rw [hc] at hw
  unfold Pollee.act at hact
  rw [hc] at hact
  dsimp only at hact
  split at hact
  case isTrue hne =>
    cases hact
    have hpolled : update s.polled t (.early mask (s.events &&& mask)) t = .early mask (s.events &&& mask) :=
      update_self ..
    refine h.outside .idle ⟨fun u hu => update_of_ne hu .., fun _ _ _ hm => hm, fun _ _ _ => rfl,
      fun _ => Nat.le_refl _, fun u m r hlate _ => ?_⟩ rfl trivial ?_ ?_ hc rfl rfl rfl rfl rfl
    · by_cases hu : u = t
      · subst hu
        cases hpolled.symm.trans hlate
      · exact ⟨(update_of_ne hu ..).symm.trans hlate, fun hf => ⟨hf, Nat.le_refl _⟩⟩
    · intro m r hearly
      cases hpolled.symm.trans hearly
      exact hne
    · intro m r hlate
      cases hpolled.symm.trans hlate
  case isFalse =>
    cases hact
    refine h.outside (.registerLock (.poller t) mask) (Frame.quiet rfl rfl rfl rfl rfl) rfl ?_ (h.early t) (h.late t) hc
      rfl rfl rfl rfl rfl
    intro v hv
    cases hv
    exact ⟨rfl, hw⟩

theorem pollLast (hc : s.calls t = .pollLast mask) (hact : s.act t = some s') : Inv s' := by
  have hw := h.within t
  rw [hc] at hw
  unfold Pollee.act at hact
  rw [hc] at hact
  cases hact
  have hpolled : update s.polled t (.late mask (s.events &&& mask)) t = .late mask (s.events &&& mask) :=
    update_self ..
  refine h.outside .idle ⟨fun u hu => update_of_ne hu .., fun _ _ _ hm => hm, fun _ _ _ => rfl,
    le_update_succ s.reads t, fun u m r hlate hreads => ?_⟩ rfl trivial ?_ ?_ hc rfl rfl rfl rfl rfl
  · -- The reader's own number has changed, so nothing is claimed of it.
    by_cases hu : u = t
    · subst hu
      have hreads' : update s.reads u (s.reads u + 1) u = s.reads u := hreads
      rw [update_self] at hreads'
      omega
    · refine ⟨(update_of_ne hu ..).symm.trans hlate, fun hf => ⟨?_, Nat.le_refl _⟩⟩
      exact (update_of_ne hu ..).symm.trans hf
  · intro m r hearly
    cases hpolled.symm.trans hearly
  · intro m r hlate
    cases hpolled.symm.trans hlate
    exact hw.2

theorem frame_table (hheld : (s.calls t).holds = true) (hpolled : s'.polled = s.polled)
    (hreads : s'.reads = s.reads) (htaken : s'.taken = s.taken) (hcounter : ∀ u, s.counter u ≤ s'.counter u)
    (hpollers : ∀ u m, u ≠ t → (.poller u, m) ∈ s.observers → (.poller u, m) ∈ s'.observers) : Frame t s s' where
  polled := fun u _ => by rw [hpolled]
  pollers := fun u m hu hm => hpollers u m hu hm
  observers := fun u hu hl => by
    rw [(h.locked t).mp hheld] at hl
    exact absurd (Option.some.inj hl).symm hu
  reads := fun u => Nat.le_of_eq (by rw [hreads])
  late := fun u m r hlate _ => by
    rw [hpolled] at hlate
    exact ⟨hlate, fun hf => ⟨by rw [← htaken]; exact hf, hcounter u⟩⟩

theorem registerInsert (hc : s.calls t = .registerInsert o mask) (hact : s.act t = some s') : Inv s' := by
  have hw := h.within t
  rw [hc] at hw
  unfold Pollee.act at hact
  rw [hc] at hact
  cases hact
  have hheld : (s.calls t).holds = true := by rw [hc]; rfl
  have hother : ∀ u, u ≠ t → Observer.poller u ≠ o := fun u hu heq => hu (hw u heq.symm).1
  refine h.inside (if s.observers.has o then .registerUnlock o mask else .registerCount o mask)
    (h.frame_table hheld rfl rfl rfl (fun _ => Nat.le_refl _)
      (fun u m hu hm => Table.mem_insert_of_ne hm (hother u hu))) rfl ?_ (h.early t) ?_ hc rfl (by split <;> rfl) rfl ?_
  · split
    · exact ⟨hw, Table.mem_insert_self⟩
    · exact ⟨hw, Table.mem_insert_self⟩
  · intro m r hlate
    refine Table.mem_insert_of_ne (h.late t m r hlate) fun heq => ?_
    cases (hw t heq.symm).2.symm.trans hlate
  · intro hcount
    cases hhas : s.observers.has o with
    | true => exact hcount.trans (congrArg (· + 0) (Table.length_insert_of_has hhas).symm)
    | false =>
      have hlen := Table.length_insert mask hhas
      show s.numObservers + 1 = (s.observers.insert o mask).length
      rw [hlen]
      exact congrArg (· + 1) hcount

theorem registerUnlock (hc : s.calls t = .registerUnlock o mask) (hact : s.act t = some s') : Inv s' := by
  have hw := h.within t
  rw [hc] at hw
  unfold Pollee.act at hact
  rw [hc] at hact
  cases hact
  refine h.release _ (Frame.quiet rfl rfl rfl rfl rfl) rfl ?_ (h.early t) (h.late t) hc rfl (by cases o <;> rfl) rfl id
  cases o with
  | poller v =>
    obtain ⟨rfl, hnone⟩ := hw.1 v rfl
    exact ⟨hnone, hw.2⟩
  | other n => trivial

theorem unregisterRemove (hc : s.calls t = .unregisterRemove o) (hact : s.act t = some s') : Inv s' := by
  have hw := h.within t
  rw [hc] at hw
  unfold Pollee.act at hact
  rw [hc] at hact
  have hheld : (s.calls t).holds = true := by rw [hc]; rfl
  have hother : ∀ u, u ≠ t → Observer.poller u ≠ o := fun u hu heq => hu (hw u heq.symm).1
  dsimp only at hact
  split at hact
  case isTrue hhas =>
    cases hact
    refine h.inside (.unregisterCount o) (h.frame_table hheld rfl rfl rfl (fun _ => Nat.le_refl _)
      (fun u m hu hm => Table.mem_remove_of_ne hm (hother u hu))) rfl hw (h.early t) ?_ hc rfl rfl rfl
      fun hcount => hcount.trans (Table.length_remove hhas).symm
    intro m r hlate
    refine Table.mem_remove_of_ne (h.late t m r hlate) fun heq => ?_
    cases (hw t heq.symm).2.symm.trans hlate
  case isFalse =>
    cases hact
    exact h.inside (.unregisterUnlock o) (Frame.quiet rfl rfl rfl rfl rfl) rfl hw (h.early t) (h.late t) hc rfl rfl rfl id

theorem unregisterUnlock (hc : s.calls t = .unregisterUnlock o) (hact : s.act t = some s') : Inv s' := by
  have hw := h.within t
  rw [hc] at hw
  unfold Pollee.act at hact
  rw [hc] at hact
  cases hact
  refine h.release .idle ⟨fun _ _ => rfl, fun _ _ _ hm => hm, fun _ _ _ => rfl, fun _ => Nat.le_refl _,
    fun u m r hlate _ => ⟨hlate, fun hf => ⟨hf, ?_⟩⟩⟩ rfl trivial (h.early t) (h.late t) hc rfl rfl rfl id
  cases o with
  | other n => exact Nat.le_refl _
  | poller v =>
    obtain ⟨rfl, hnone⟩ := hw v rfl
    have hu : u ≠ v := fun heq => by
      subst heq
      cases hnone.symm.trans hlate
    exact Nat.le_of_eq (update_of_ne hu ..).symm

theorem addCount (hc : s.calls t = .addCount events c) (hact : s.act t = some s') : Inv s' := by
  have hw := h.within t
  rw [hc] at hw
  unfold Pollee.act at hact
  rw [hc] at hact
  cases hact
  refine h.outside _ (Frame.quiet rfl rfl rfl rfl rfl) rfl ?_ (h.early t) (h.late t) hc rfl (by split <;> rfl) rfl rfl rfl
  split
  case isTrue hzero =>
    refine ⟨hw.1, hw.2, fun v mask revents hlate _ _ => ?_⟩
    have hpos := h.numObservers_pos hlate
    omega
  case isFalse => exact hw

section

variable (hc : s.calls t = .addVisit events c kept ((o, mask) :: rest))
include hc

theorem visitFreed (hdead : s.alive o = false) :
    Inv { s.put t (.addVisit events c kept rest) with observers := kept ++ rest, numObservers := s.numObservers - 1 }
      := by
  have hw := h.within t
  rw [hc] at hw
  obtain ⟨hpast, hcounted, hobs, hrest⟩ := hw
  have hheld : (s.calls t).holds = true := by rw [hc]; rfl
  have hne : ∀ u, Observer.poller u ≠ o := by
    rintro u rfl
    cases hdead
  have hpollers : ∀ u m, (.poller u, m) ∈ s.observers → (.poller u, m) ∈ kept ++ rest := by
    intro u m hm
    rw [hobs] at hm
    rcases mem_append.mp hm with hm | hm
    · exact mem_append_left _ hm
    · rcases mem_cons.mp hm with heq | hm
      · exact absurd (Prod.mk.inj heq).1 (hne u)
      · exact mem_append_right _ hm
  refine h.inside (.addVisit events c kept rest) (h.frame_table hheld rfl rfl rfl (fun _ => Nat.le_refl _)
    (fun u m _ hm => hpollers u m hm)) rfl ?_ (h.early t) (fun m r hlate => hpollers t m (h.late t m r hlate)) hc rfl rfl
    rfl ?_
  · refine ⟨hpast, hcounted, rfl, fun v m r hlate hreads hint => ?_⟩
    rcases hrest v m r hlate hreads hint with hhit | hmem
    · exact .inl hhit
    · rcases mem_cons.mp hmem with heq | hmem
      · exact absurd (Prod.mk.inj heq).1 (hne v)
      · exact .inr hmem
  · intro hcount
    rw [hobs, length_append, length_cons] at hcount
    show s.numObservers - 1 + 0 = (kept ++ rest).length + 0
    have hzero : (Call.addVisit events c kept ((o, mask) :: rest)).uncounted = 0 := rfl
    have hzero' : (Call.addVisit events c kept ((o, mask) :: rest)).overcounted = 0 := rfl
    rw [length_append]
    omega

theorem visitFiltered (hout : mask.intersects events = false) :
    Inv (s.put t (.addVisit events c (kept ++ [(o, mask)]) rest)) := by
  have hw := h.within t
  rw [hc] at hw
  obtain ⟨hpast, hcounted, hobs, hrest⟩ := hw
  refine h.inside _ (Frame.quiet rfl rfl rfl rfl rfl) rfl ?_ (h.early t) (h.late t) hc rfl rfl rfl id
  refine ⟨hpast, hcounted, by rw [append_assoc]; exact hobs, fun v m r hlate hreads hint => ?_⟩
  rcases hrest v m r hlate hreads hint with hhit | hmem
  · exact .inl hhit
  · rcases mem_cons.mp hmem with heq | hmem
    · obtain ⟨-, rfl⟩ := Prod.mk.inj heq
      rw [hint] at hout
      cases hout
    · exact .inr hmem

theorem visitNotified : Inv ((s.put t (.addVisit events (c.hit o) (kept ++ [(o, mask)]) rest)).onEvents o) := by
  have hw := h.within t
  rw [hc] at hw
  obtain ⟨hpast, hcounted, hobs, hrest⟩ := hw
  have hheld : (s.calls t).holds = true := by rw [hc]; rfl
  have hobs' : s.observers = (kept ++ [(o, mask)]) ++ rest := by
    rw [append_assoc]
    exact hobs
  cases o with
  | other n =>
    refine h.inside (.addVisit events c (kept ++ [(.other n, mask)]) rest) (Frame.quiet rfl rfl rfl rfl rfl) rfl ?_
      (h.early t) (h.late t) hc rfl rfl rfl id
    refine ⟨hpast, hcounted, hobs', fun v m r hlate hreads hint => ?_⟩
    rcases hrest v m r hlate hreads hint with hhit | hmem
    · exact .inl hhit
    · rcases mem_cons.mp hmem with heq | hmem
      · cases heq
      · exact .inr hmem
  | poller w =>
    have hhit : ∀ v, (c.hit (.poller w)).hits v = true ↔ v = w ∨ c.hits v = true := by
      intro v
      show update c.hits w true v = true ↔ _
      by_cases hv : v = w
      · subst hv
        rw [update_self]
        exact ⟨fun _ => .inl rfl, fun _ => rfl⟩
      · rw [update_of_ne hv]
        exact ⟨.inr, fun hor => hor.resolve_left hv⟩
    have hup := le_update_succ s.counter w
    refine h.inside (.addVisit events (c.hit (.poller w)) (kept ++ [(.poller w, mask)]) rest)
      (h.frame_table hheld rfl rfl rfl hup fun _ _ _ hm => hm) rfl ?_ (h.early t) (h.late t) hc rfl rfl rfl id
    refine ⟨hpast, fun v m r hv hlate hreads htaken => ?_, hobs', fun v m r hlate hreads hint => ?_⟩
    · show 0 < update s.counter w (s.counter w + 1) v
      rcases (hhit v).mp hv with rfl | hold
      · rw [update_self]
        omega
      · exact Nat.lt_of_lt_of_le (hcounted v m r hold hlate hreads htaken) (hup v)
    · rcases hrest v m r hlate hreads hint with hold | hmem
      · exact .inl ((hhit v).mpr (.inr hold))
      · rcases mem_cons.mp hmem with heq | hmem
        · cases heq
          exact .inl ((hhit w).mpr (.inl rfl))
        · exact .inr hmem

end

/-- **A step of a thread keeps the invariant.** -/
theorem act (hact : s.act t = some s') : Inv s' := by
  have hw := h.within t
  cases hc : s.calls t with
  | pollFirst mask => exact h.pollFirst hc hact
  | pollLast mask => exact h.pollLast hc hact
  | registerInsert o mask => exact h.registerInsert hc hact
  | registerUnlock o mask => exact h.registerUnlock hc hact
  | unregisterRemove o => exact h.unregisterRemove hc hact
  | unregisterUnlock o => exact h.unregisterUnlock hc hact
  | addCount events c => exact h.addCount hc hact
  | idle | added events c =>
    unfold Pollee.act at hact
    rw [hc] at hact
    cases hact
  | registerLock o mask | unregisterLock o =>
    unfold Pollee.act at hact
    rw [hc] at hact hw
    exact h.acquire hact rfl rfl rfl hw
  | addLock events c =>
    unfold Pollee.act at hact
    rw [hc] at hact hw
    exact h.acquire hact rfl rfl rfl ⟨hw.1, hw.2, rfl, fun v mask revents hlate _ _ => .inr
      (h.late v mask revents hlate)⟩
  | registerCount o mask =>
    unfold Pollee.act at hact
    rw [hc] at hact hw
    cases hact
    exact h.inside (.registerUnlock o mask) (Frame.quiet rfl rfl rfl rfl rfl) rfl hw (h.early t) (h.late t) hc rfl rfl rfl
      id
  | unregisterCount o =>
    unfold Pollee.act at hact
    rw [hc] at hact hw
    cases hact
    refine h.inside (.unregisterUnlock o) (Frame.quiet rfl rfl rfl rfl rfl) rfl hw (h.early t) (h.late t) hc rfl rfl rfl
      fun hcount => ?_
    have hone : s.numObservers + 0 = s.observers.length + 1 := hcount
    show s.numObservers - 1 + 0 = s.observers.length + 0
    omega
  | addSet events =>
    unfold Pollee.act at hact
    rw [hc] at hact
    cases hact
    exact h.outside (.addCount events ⟨s.reads, fun _ => false⟩) (Frame.quiet rfl rfl rfl rfl rfl) rfl
      ⟨fun _ => Nat.le_refl _, nofun⟩ (h.early t) (h.late t) hc rfl rfl rfl rfl rfl
  | delClear events =>
    unfold Pollee.act at hact
    rw [hc] at hact
    cases hact
    exact h.outside .idle (Frame.quiet rfl rfl rfl rfl rfl) rfl trivial (h.early t) (h.late t) hc rfl rfl rfl rfl rfl
  | addVisit events c kept rest =>
    unfold Pollee.act at hact
    rw [hc] at hact
    cases rest with
    | nil =>
      rw [hc] at hw
      cases hact
      obtain ⟨hpast, hcounted, hobs, hrest⟩ := hw
      exact h.release (.added events c) (Frame.quiet rfl rfl rfl rfl rfl) rfl ⟨hpast, hcounted,
        fun v mask revents hlate hreads hint =>
          (hrest v mask revents hlate hreads hint).resolve_right not_mem_nil⟩ (h.early t) (h.late t) hc rfl rfl rfl id
    | cons entry rest =>
      obtain ⟨o, mask⟩ := entry
      dsimp only at hact
      split at hact
      case isTrue =>
        split at hact
        case isTrue =>
          cases hact
          exact h.visitNotified hc
        case isFalse hout =>
          cases hact
          exact h.visitFiltered hc (Bool.eq_false_iff.mpr hout)
      case isFalse hdead =>
        cases hact
        exact h.visitFreed hc (Bool.eq_false_iff.mpr hdead)

theorem start (hreturned : (s.calls t).returned = true) (r : Request) : Inv (s.start t r) := by
  have hbefore : (s.calls t).holds = false := by
    cases hc : s.calls t with
    | idle | added => rfl
    | _ =>
      rw [hc] at hreturned
      cases hreturned
  have hquiet : ∀ call : Call, call.holds = false → (s.put t call).Within t call → Inv (s.put t call) :=
    fun call hafter hwithin =>
      h.outside _ (Frame.quiet rfl rfl rfl rfl rfl) rfl hwithin (h.early t) (h.late t) rfl hbefore hafter rfl rfl rfl
  have hnone : update s.polled t .none t = .none := update_self ..
  -- The result of the previous `poll` is forgotten.
  have hfresh : ∀ call : Call, call.holds = false →
      ({ s.put t call with polled := update s.polled t .none } : Pollee).Within t call →
      Inv { s.put t call with polled := update s.polled t .none } := by
    intro call hafter hwithin
    refine h.outside _ ⟨fun u hu => update_of_ne hu .., fun _ _ _ hm => hm, fun _ _ _ => rfl,
      fun _ => Nat.le_refl _, fun u m r hlate _ => ?_⟩ rfl hwithin (fun m r he => ?_) (fun m r hl => ?_) rfl hbefore hafter
      rfl rfl rfl
    · by_cases hu : u = t
      · subst hu
        cases hnone.symm.trans hlate
      · exact ⟨(update_of_ne hu ..).symm.trans hlate, fun hf => ⟨hf, Nat.le_refl _⟩⟩
    · cases hnone.symm.trans he
    · cases hnone.symm.trans hl
  cases r with
  | poll mask => exact hfresh _ rfl hnone
  | drop =>
    refine hfresh _ rfl fun v hv => ?_
    cases hv
    exact ⟨rfl, hnone⟩
  | registerObserver n mask | unregisterObserver n => exact hquiet _ rfl nofun
  | addEvents events | delEvents events => exact hquiet _ rfl trivial

theorem of_calls (hcalls : s'.calls = s.calls) (hlock : s'.lock = s.lock) (hobs : s'.observers = s.observers)
    (hnum : s'.numObservers = s.numObservers) (hpolled : s'.polled = s.polled)
      (hframe : ∀ t, Frame t s s') : Inv s' where
  locked := by
    intro u
    rw [hcalls, hlock]
    exact h.locked u
  count := by
    have hholder : s'.holder = s.holder := by
      unfold holder
      rw [hlock, hcalls]
    rw [hnum, hholder, hobs]
    exact h.count
  within := by
    intro u
    rw [hcalls]
    exact (h.within u).frame (hframe (u + 1)) (Nat.ne_of_lt (Nat.lt_succ_self u)) (h.locked u).mp
  early := by
    intro u mask revents hp
    rw [hpolled] at hp
    exact h.early u mask revents hp
  late := by
    intro u mask revents hp
    rw [hpolled] at hp
    rw [hobs]
    exact h.late u mask revents hp

theorem wait (hwait : s.wait t = some s') : Inv s' := by
  unfold Pollee.wait at hwait
  split at hwait
  case isFalse => cases hwait
  case isTrue =>
    cases hwait
    refine h.of_calls rfl rfl rfl rfl rfl fun v =>
      ⟨fun _ _ => rfl, fun _ _ _ hm => hm, fun _ _ _ => rfl, fun _ => Nat.le_refl _,
      fun u m r hlate _ => ⟨hlate, fun hf => ?_⟩⟩
    by_cases hu : u = t
    · subst hu
      have htrue : update s.taken u true u = true := update_self ..
      cases htrue.symm.trans hf
    · exact ⟨(update_of_ne hu ..).symm.trans hf, Nat.le_of_eq (update_of_ne hu ..).symm⟩

end

end Inv

theorem Inv.step (h : Inv s) {a : Action} (hstep : s.step a = some s') : Inv s' := by
  cases a with
  | start t r =>
    unfold Pollee.step at hstep
    dsimp only at hstep
    split at hstep
    case isTrue hreturned =>
      cases hstep
      exact h.start hreturned r
    case isFalse => cases hstep
  | act t => exact h.act hstep
  | wait t => exact h.wait hstep
  | free n =>
    cases hstep
    exact h.of_calls rfl rfl rfl rfl rfl fun t => .quiet rfl rfl rfl rfl rfl

theorem Inv.new (initEvents : IoEvents) : Inv (.new initEvents) where
  locked := fun _ => ⟨nofun, nofun⟩
  count := rfl
  within := fun _ => trivial
  early := nofun
  late := nofun

end Pollee

theorem Run.inv {s : Pollee} (h : Run initEvents s) : s.Inv := by
  induction h with
  | new => exact .new initEvents
  | step _ a hstep ih => exact ih.step hstep

/-- **A `poll` without events registers its poller**, and every `add_events` of an event of the mask that has set the
events after the last read of `poll` notifies it, so that `Poller::wait` does not block. -/
theorem poll_registers {initEvents : IoEvents} {s : Pollee} (h : Run initEvents s) {t : Nat}
    (hpoll : (s.polled t).revents? = some 0) :
    ∃ mask, s.polled t = .late mask 0 ∧ (.poller t, mask) ∈ s.observers ∧
      ∀ u events c, s.calls u = .added events c → c.reads t = s.reads t → mask.intersects events = true →
        c.hits t = true ∧ (s.taken t = false → (s.wait t).isSome = true) := by
  have hinv := h.inv
  generalize hp : s.polled t = x at hpoll ⊢
  cases x with
  | none =>
    cases hpoll
  | early mask revents =>
    exact absurd (Option.some.inj hpoll) (hinv.early t mask revents hp)
  | late mask revents =>
    cases hpoll
    refine ⟨mask, rfl, hinv.late t mask 0 hp, fun u events c hc hreads hint => ?_⟩
    have hw := hinv.within u
    rw [hc] at hw
    obtain ⟨hpast, hcounted, hhits⟩ := hw
    have hhit := hhits t mask 0 hp hreads hint
    refine ⟨hhit, fun htaken => ?_⟩
    have hpos := hcounted t mask 0 hhit hp hreads htaken
    unfold Pollee.wait
    rw [if_pos hpos]
    rfl

/-- Thread 0 polls `IN`, and thread 1 adds it afterwards. -/
def pollThenAdd : List Action :=
  [.start 0 (.poll .IN)] ++ List.replicate 6 (.act 0) ++ [.start 1 (.addEvents .IN)] ++ List.replicate 5 (.act 1)

def polledThenAdded : Pollee := ((Pollee.new 0).steps pollThenAdd).getD (.new 0)

theorem poll_registers_add : Run 0 polledThenAdded ∧ (.poller 0, .IN ||| .ALWAYS_POLL) ∈ polledThenAdded.observers ∧
    (polledThenAdded.wait 0).isSome = true := by
  have hrun : Run 0 polledThenAdded := Run.steps .new
    (show (Pollee.new 0).steps pollThenAdd = some polledThenAdded from rfl)
  have hpolled : polledThenAdded.polled 0 = .late (.IN ||| .ALWAYS_POLL) 0 := by decide
  obtain ⟨mask, hmask, hmem, hadded⟩ := poll_registers hrun (t := 0) (by rw [hpolled]; rfl)
  obtain ⟨rfl, -⟩ := Polled.late.inj (hpolled.symm.trans hmask)
  exact ⟨hrun, hmem, (hadded 1 .IN _ rfl rfl (by decide)).2 (by decide)⟩

end AsterKernel.Poll
