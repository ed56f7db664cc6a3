import AsterKernel.Poll.Pollee
import AsterKernel.Lib.Outcome
import Mathlib.Data.List.Nodup

/-!
# `Epoll.Ready` — the ready list of an epoll file

An epoll file has an interest list, which maps descriptors to entries, and a ready list of the entries whose files may
have events. An entry that is deleted is only marked; it leaves the ready list when that is next scanned. `pop_ready`
takes entries from the front of the list in rounds, asks their files for events, and puts the entries that are neither
edge-triggered nor one-shot back at the end, where the quota keeps it from coming to them again.

What happens under the lock of the ready list is one step. `add_interest` and `mod_interest` first change the
interest list and then push the entry when its file has events; these are two steps, with anything in between. The
other files change between any two steps.
-/

namespace AsterKernel.Epoll

open Lib Lib.Comp Poll Function List

/-! ## Epoll files -/

inductive Errno where
  | EBADF
  | EEXIST
  | EINVAL
  | ENOENT
deriving DecidableEq, Repr

abbrev EpollFlags := BitVec 32

namespace EpollFlags

def ONE_SHOT : EpollFlags := 1 <<< 30
def EDGE_TRIGGER : EpollFlags := 1 <<< 31

def intersects (a b : EpollFlags) : Bool := a &&& b ≠ 0

end EpollFlags

structure EpollEvent where
  events : IoEvents
  userData : BitVec 64
deriving DecidableEq, Repr

/-- `EpollEntry`, and whether it is registered as an observer of its file. -/
structure EpollEntry where
  fd : Nat
  file : Nat
  event : EpollEvent
  flags : EpollFlags
  isReady : Bool
  isDeleted : Bool
  isRegistered : Bool
deriving DecidableEq, Repr

/-- `EpollFile`: entries are numbered in the order in which they are created, and `events` are those of the pollee. -/
structure EpollFile where
  interest : Nat → Option Nat
  ready : List Nat
  events : IoEvents
  entries : Nat → EpollEntry
  count : Nat

/-- What the epoll file sees of other files: the file table, what `poll` returns without a poller for a mask, if the
file still exists, and whether it has observers. -/
structure Files where
  table : Nat → Option Nat
  poll : Nat → Option (IoEvents → IoEvents)
  observable : Nat → Bool

/-- `poll` of the file of a weak reference. -/
def Files.pollWeak (files : Files) (file : Nat) (mask : IoEvents) : IoEvents :=
  match files.poll file with
  | none => 0
  | some poll => poll mask

namespace EpollEntry

/-- The events of the entry that are reported: those of its mask, `HUP` and `ERR`. -/
def readyEvents (files : Files) (entry : EpollEntry) : IoEvents :=
  files.pollWeak entry.file .all &&& (entry.event.events ||| .HUP ||| .ERR)

end EpollEntry

namespace EpollFile

def new : EpollFile := ⟨fun _ => none, [], 0, fun _ => ⟨0, 0, ⟨0, 0⟩, 0, false, false, false⟩, 0⟩

def setEntry (s : EpollFile) (e : Nat) (f : EpollEntry → EpollEntry) : EpollFile :=
  { s with entries := Function.update s.entries e (f (s.entries e)) }

/-- An entry that is not ready is put into the ready list. -/
def pushEntry (s : EpollFile) (e : Nat) : EpollFile :=
  if (s.entries e).isReady then s
  else { s.setEntry e fun entry => { entry with isReady := true } with ready := s.ready ++ [e] }

end EpollFile

open EpollFile

def pushReady (e : Nat) : Comp EpollFile Errno Unit := do
  let s ← get
  if (s.entries e).isDeleted then pure ()
  else do
    modify fun s => s.pushEntry e
    modify fun s => { s with events := s.events ||| .IN }

/-- The end of `add_interest` and `mod_interest`: the entry is pushed if its file has events of the mask. -/
def pushPolled (files : Files) (e : Nat) (mask : IoEvents) : Comp EpollFile Errno Unit := do
  let s ← get
  when (files.pollWeak (s.entries e).file mask != 0) (pushReady e)

/-- The part of `add_interest` under the lock of the interest list. -/
def insertInterest (files : Files) (fd : Nat) (epEvent : EpollEvent) (epFlags : EpollFlags) : Comp
    EpollFile Errno Nat :=
  match files.table fd with
  | none => fail .EBADF
  | some file => do
    let s ← get
    when (s.interest fd).isSome (fail .EEXIST)
    when (!files.observable file) (fail .EINVAL)
    set { s with
      interest := Function.update s.interest fd (some s.count)
      entries := Function.update s.entries s.count ⟨fd, file, epEvent, epFlags, false, false, true⟩
      count := s.count + 1 }
    pure s.count

def addInterest (files : Files) (fd : Nat) (epEvent : EpollEvent) (epFlags : EpollFlags) : Comp EpollFile
    Errno Unit := do
  let e ← insertInterest files fd epEvent epFlags
  pushPolled files e epEvent.events

def delInterest (files : Files) (fd : Nat) : Comp EpollFile Errno Unit := do
  let s ← get
  match s.interest fd with
  | none => fail .ENOENT
  | some e => do
    set { s.setEntry e fun entry => { entry with isDeleted := true } with interest := Function.update s.interest fd none }
    when (files.poll (s.entries e).file).isSome do
      assert (s.entries e).isRegistered
      modify fun s => s.setEntry e fun entry => { entry with isRegistered := false }

/-- The part of `mod_interest` under the lock of the interest list. -/
def updateInterest (fd : Nat) (newEpEvent : EpollEvent) (newEpFlags : EpollFlags) : Comp EpollFile Errno Nat := do
  let s ← get
  match s.interest fd with
  | none => fail .ENOENT
  | some e => do
    when (s.entries e).isDeleted (fail .ENOENT)
    modify fun s => s.setEntry e fun entry => { entry with event := newEpEvent, flags := newEpFlags }
    pure e

def modInterest (files : Files) (fd : Nat) (newEpEvent : EpollEvent) (newEpFlags : EpollFlags) :
    Comp EpollFile Errno Unit := do
  let e ← updateInterest fd newEpEvent newEpFlags
  pushPolled files e newEpEvent.events

/-- `EpollEntry::on_events`. -/
def onEvents (e : Nat) : Comp EpollFile Errno Unit := do
  let s ← get
  if (s.entries e).isDeleted then pure () else pushReady e

/-! ## `pop_ready` -/

/-- The entry is removed from the ready list, and from the interest list if it is one-shot. -/
def dropReady (files : Files) (e : Nat) : Comp EpollFile Errno Unit := do
  modify fun s => s.setEntry e fun entry => { entry with isReady := false }
  let s ← get
  when ((s.entries e).flags.intersects .ONE_SHOT) (unwrap (delInterest files (s.entries e).fd))

/-- The body of the inner loop: an event is reported if the file has one. -/
def examine (files : Files) (e : Nat) : Comp EpollFile Errno (Option EpollEvent) := do
  let s ← get
  let entry := s.entries e
  if entry.readyEvents files = 0 then do
    dropReady files e
    pure none
  else do
    if entry.flags.intersects (.ONE_SHOT ||| .EDGE_TRIGGER) then dropReady files e
    else modify fun s => { s with ready := s.ready ++ [e] }
    pure (some ⟨entry.readyEvents files, entry.event.userData⟩)

/-- The inner loop; each event is reported together with its entry. -/
def popEntries (files : Files) : List Nat → Comp EpollFile Errno (List (Nat × EpollEvent))
  | [] => pure []
  | e :: es => do
    let event ← examine files e
    let rest ← popEntries files es
    pure (event.toList.map (fun ev => (e, ev)) ++ rest)

/-- The outer loop: `room` more events may be reported, and `quota` more entries may be popped. -/
def popRounds (files : Files) : Nat → Nat → Nat → Comp EpollFile Errno (List (Nat × EpollEvent))
  | fuel, room, quota =>
    let popCount := min room quota
    if popCount = 0 then pure []
    else match fuel with
      | 0 => abort
      | fuel + 1 => do
        let s ← get
        assert (popCount ≤ s.ready.length)
        set { s with ready := s.ready.drop popCount }
        let events ← popEntries files ((s.ready.take popCount).filter fun e => !(s.entries e).isDeleted)
        let rest ← popRounds files fuel (room - events.length) (quota - popCount)
        pure (events ++ rest)

def popReady (files : Files) (maxEvents : Nat) : Comp EpollFile Errno (List (Nat × EpollEvent)) := do
  let s ← get
  let events ← popRounds files s.ready.length maxEvents s.ready.length
  let s ← get
  when s.ready.isEmpty (modify fun s => { s with events := s.events &&& ~~~.IN })
  pure events

/-! ## Runs -/

/-- A step: the two parts of `add_interest` and `mod_interest`, `del_interest`, the notification of an entry, and
`pop_ready`. -/
inductive Op where
  | insert (fd : Nat) (epEvent : EpollEvent) (epFlags : EpollFlags)
  | update (fd : Nat) (epEvent : EpollEvent) (epFlags : EpollFlags)
  | pushPolled (e : Nat) (mask : IoEvents)
  | delete (fd : Nat)
  | notify (e : Nat)
  | pop (maxEvents : Nat)

/-- The entry of a step has been created. -/
def Op.Known (s : EpollFile) : Op → Prop
  | .pushPolled e _ | .notify e => e < s.count
  | _ => True

def Op.run (files : Files) : Op → Comp EpollFile Errno Unit
  | .insert fd epEvent epFlags => do
    let _ ← insertInterest files fd epEvent epFlags
  | .update fd epEvent epFlags => do
    let _ ← updateInterest fd epEvent epFlags
  | .pushPolled e mask => Epoll.pushPolled files e mask
  | .delete fd => delInterest files fd
  | .notify e => onEvents e
  | .pop maxEvents => do
    let _ ← popReady files maxEvents

/-- The states that the steps lead to, with files that change at any time. -/
inductive Run : EpollFile → Prop
  | new : Run .new
  | step {s s' : EpollFile} (h : Run s) (files : Files) (op : Op) (hknown : op.Known s)
      (hrun : (op.run files s).final = some s') : Run s'

/-! ## The invariant -/

/-- The flags of the entries agree with the lists, while some ready entries have been popped and not yet examined. -/
structure Holds (held : List Nat) (s : EpollFile) : Prop where
  nodup : (held ++ s.ready).Nodup
  flag : ∀ e, e < s.count → (s.entries e).isDeleted = false → ((s.entries e).isReady = true ↔ e ∈ held ++ s.ready)
  known : ∀ e ∈ held ++ s.ready, e < s.count
  interest : ∀ fd e, s.interest fd = some e ↔ e < s.count ∧ (s.entries e).fd = fd ∧ (s.entries e).isDeleted = false
  registered : ∀ e, e < s.count → (s.entries e).isDeleted = false → (s.entries e).isRegistered = true

/-- The invariant when the lock is free. -/
structure Sound (s : EpollFile) : Prop extends Holds [] s where
  event : s.events.intersects .IN = true ↔ s.ready ≠ []

namespace EpollFile

variable {s : EpollFile} {e e' : Nat} {f : EpollEntry → EpollEntry}

@[simp] theorem setEntry_self : (s.setEntry e f).entries e = f (s.entries e) := update_self ..

theorem setEntry_of_ne (h : e' ≠ e) : (s.setEntry e f).entries e' = s.entries e' := update_of_ne h ..

end EpollFile

variable {s s' : EpollFile} {held : List Nat} {e : Nat} {files : Files}

variable {fd : Nat}

/-- An entry that is deleted, whether its file still exists or not. -/
theorem delInterest_spec (files : Files) (h : Holds held s) (hfd : s.interest fd = some e) :
    ∃ s', delInterest files fd s = .ok () s' ∧ Holds held s' ∧ s'.ready = s.ready ∧ s'.events = s.events ∧
      s'.count = s.count ∧
      ∀ e', e' ≠ e → s'.entries e' = s.entries e' := by
  obtain ⟨hlt, hfd', hdel⟩ := (h.interest fd e).mp hfd
  have hreg := h.registered e hlt hdel
  -- Whatever becomes of its registration, the entry is now deleted.
  have hholds : ∀ f : EpollEntry → EpollEntry, (∀ entry, (f entry).isDeleted = true) →
      Holds held { s.setEntry e f with interest := update s.interest fd none } := by
    intro f hf
    have hsame : ∀ {e'}, ((s.setEntry e f).entries e').isDeleted = false → e' ≠ e ∧ (s.setEntry e f).entries e' =
      s.entries e' := by
      intro e' hdel'
      have hne : e' ≠ e := by
        rintro rfl
        rw [setEntry_self, hf] at hdel'
        cases hdel'
      exact ⟨hne, setEntry_of_ne hne⟩
    refine ⟨h.nodup, fun e' hlt' hdel' => ?_, h.known, fun fd' e' => ?_, fun e' hlt' hdel' => ?_⟩
    · obtain ⟨-, heq⟩ := hsame hdel'
      show ((s.setEntry e f).entries e').isReady = true ↔ _
      rw [heq]
      exact h.flag e' hlt' (heq ▸ hdel')
    · show update s.interest fd none fd' = some e' ↔ e' < s.count ∧ ((s.setEntry e f).entries e').fd = fd' ∧
        ((s.setEntry e f).entries e').isDeleted = false
      constructor
      · intro hin
        have hne : fd' ≠ fd := by
          rintro rfl
          rw [update_self] at hin
          cases hin
        rw [update_of_ne hne] at hin
        have hin' := (h.interest fd' e').mp hin
        have hne' : e' ≠ e := by
          rintro rfl
          exact hne (hin'.2.1.symm.trans hfd')
        rw [setEntry_of_ne hne']
        exact hin'
      · rintro ⟨hlt', hfd'', hdel'⟩
        obtain ⟨hne', heq⟩ := hsame hdel'
        rw [heq] at hfd'' hdel'
        have hin := (h.interest fd' e').mpr ⟨hlt', hfd'', hdel'⟩
        have hne : fd' ≠ fd := by
          rintro rfl
          exact hne' (Option.some.inj (hin.symm.trans hfd))
        rw [update_of_ne hne]
        exact hin
    · obtain ⟨-, heq⟩ := hsame hdel'
      show ((s.setEntry e f).entries e').isRegistered = true
      rw [heq]
      exact h.registered e' hlt' (heq ▸ hdel')
  unfold delInterest
  rw [get_bind, hfd]
  dsimp only
  rw [set_bind]
  cases hfile : (files.poll (s.entries e).file).isSome with
  | false =>
    refine ⟨_, rfl, hholds (fun entry => { entry with isDeleted := true }) (fun _ => rfl), rfl, rfl, rfl,
      fun e' hne => ?_⟩
    exact update_of_ne hne ..
  | true =>
    refine ⟨_, bind_ok.mpr ⟨(), _, assert_ok.mpr ⟨hreg, rfl⟩, rfl⟩, ?_, rfl, rfl, rfl, fun e' hne => ?_⟩
    · have heq := hholds (fun entry => { entry with isDeleted := true, isRegistered := false }) fun _ => rfl
      unfold setEntry at heq ⊢
      simpa using heq
    · exact (update_of_ne hne ..).trans (update_of_ne hne ..)

theorem Holds.setEntry (h : Holds held s) {f : EpollEntry → EpollEntry}
    (hf : ∀ entry, (f entry).isDeleted = entry.isDeleted ∧ (f entry).fd = entry.fd ∧ (f entry).isRegistered =
      entry.isRegistered)
    {held' ready' : List Nat} (hnodup : (held' ++ ready').Nodup) (hknown : ∀ e' ∈ held' ++ ready', e' < s.count)
    (hflag : ∀ e', e' < s.count → (s.entries e').isDeleted = false →
      (((s.setEntry e f).entries e').isReady = true ↔ e' ∈ held' ++ ready')) :
    Holds held' { s.setEntry e f with ready := ready' } := by
  have hsame : ∀ e', ((s.setEntry e f).entries e').isDeleted = (s.entries e').isDeleted ∧
      ((s.setEntry e f).entries e').fd = (s.entries e').fd ∧
      ((s.setEntry e f).entries e').isRegistered = (s.entries e').isRegistered := by
    intro e'
    by_cases hne : e' = e
    · subst hne
      rw [setEntry_self]
      exact hf _
    · rw [setEntry_of_ne hne]
      exact ⟨rfl, rfl, rfl⟩
  refine ⟨hnodup, fun e' hlt' hdel' => ?_, hknown, fun fd e' => ?_, fun e' hlt' hdel' => ?_⟩
  · exact hflag e' hlt' ((hsame e').1 ▸ hdel')
  · show s.interest fd = some e' ↔ e' < s.count ∧ ((s.setEntry e f).entries e').fd = fd ∧
      ((s.setEntry e f).entries e').isDeleted = false
    rw [(hsame e').1, (hsame e').2.1]
    exact h.interest fd e'
  · show ((s.setEntry e f).entries e').isRegistered = true
    rw [(hsame e').2.2]
    exact h.registered e' hlt' ((hsame e').1 ▸ hdel')

theorem dropReady_spec (files : Files) (h : Holds (e :: held) s) (hdel : (s.entries e).isDeleted = false) :
    ∃ s', dropReady files e s = .ok () s' ∧ Holds held s' ∧ s'.ready = s.ready ∧ s'.events = s.events ∧
      s'.count = s.count ∧
      ∀ e', e' ≠ e → s'.entries e' = s.entries e' := by
  have hlt := h.known e mem_cons_self
  have hout : e ∉ held ++ s.ready := (nodup_cons.mp h.nodup).1
  have hholds : Holds held (s.setEntry e fun entry => { entry with isReady := false }) := by
    refine h.setEntry (f := fun entry => { entry with isReady := false }) (fun _ => ⟨rfl, rfl, rfl⟩)
      (nodup_cons.mp h.nodup).2
      (fun e' he' => h.known e' (mem_cons_of_mem _ he')) fun e' hlt' hdel' => ?_
    by_cases hne : e' = e
    · subst hne
      rw [setEntry_self]
      exact ⟨nofun, fun hin => absurd hin hout⟩
    · rw [setEntry_of_ne hne, h.flag e' hlt' hdel', cons_append, mem_cons]
      exact ⟨fun hin => hin.resolve_left hne, .inr⟩
  unfold dropReady
  rw [modify_bind, get_bind]
  cases hshot : ((s.setEntry e fun entry => { entry with isReady := false }).entries
    e).flags.intersects .ONE_SHOT with
  | false => exact ⟨_, rfl, hholds, rfl, rfl, rfl, fun e' hne => setEntry_of_ne hne⟩
  | true =>
    have hfd : (s.setEntry e fun entry => { entry with isReady := false }).interest
        ((s.setEntry e fun entry => { entry with isReady := false }).entries e).fd = some e := by
      rw [setEntry_self]
      exact (h.interest _ e).mpr ⟨hlt, rfl, hdel⟩
    obtain ⟨s', hdelete, hholds', hready, hevents, hcount, hentries⟩ := delInterest_spec files hholds hfd
    refine ⟨s', ?_, hholds', hready, hevents, hcount, fun e' hne => (hentries e' hne).trans (setEntry_of_ne hne)⟩
    show unwrap _ _ = _
    unfold unwrap
    rw [hdelete]

/-- What is reported for an entry. -/
def Reported (files : Files) (s : EpollFile) (report : Nat × EpollEvent) : Prop :=
  report.2 = ⟨(s.entries report.1).readyEvents files, (s.entries report.1).event.userData⟩ ∧
    (s.entries report.1).readyEvents files ≠ 0

/-- **The body of the inner loop.** -/
theorem examine_spec (files : Files) (h : Holds (e :: held) s) (hdel : (s.entries e).isDeleted = false) :
    ∃ event s' requeued, examine files e s = .ok event s' ∧ Holds held s' ∧ s'.ready = s.ready ++ requeued ∧
      requeued.Sublist (event.toList.map fun _ => e) ∧ s'.events = s.events ∧ s'.count = s.count ∧
      (∀ ev ∈ event.toList, Reported files s (e, ev)) ∧ (event = none → (s.entries e).readyEvents files = 0) ∧
      ∀ e', e' ≠ e → s'.entries e' = s.entries e' := by
  unfold examine
  rw [get_bind]
  dsimp only
  split
  case isTrue hzero =>
    obtain ⟨s', hdrop, hholds, hready, hevents, hcount, hentries⟩ := dropReady_spec files h hdel
    exact ⟨none, s', [], bind_ok.mpr ⟨(), s', hdrop, rfl⟩, hholds,
      by rw [hready, append_nil], .slnil, hevents, hcount, nofun,
      fun _ => hzero, hentries⟩
  case isFalse hne =>
    have hreport : ∀ ev ∈ (some (EpollEvent.mk ((s.entries e).readyEvents files)
      (s.entries e).event.userData)).toList, Reported files s (e, ev) := by
      intro ev hev
      obtain rfl := Option.some.inj (Option.mem_toList.mp hev)
      exact ⟨rfl, hne⟩
    split
    case isTrue =>
      obtain ⟨s', hdrop, hholds, hready, hevents, hcount, hentries⟩ := dropReady_spec files h hdel
      exact ⟨_, s', [], bind_ok.mpr ⟨(), s', hdrop, rfl⟩, hholds, by rw [hready, append_nil], nil_sublist _, hevents,
        hcount, hreport, nofun, hentries⟩
    case isFalse =>
      have hperm : (held ++ (s.ready ++ [e])).Perm (e :: held ++ s.ready) := by
        rw [← append_assoc]
        exact perm_append_singleton e (held ++ s.ready)
      refine ⟨_, _, [e], bind_ok.mpr ⟨(), _, rfl, rfl⟩,
        ⟨hperm.nodup_iff.mpr h.nodup, fun e' hlt' hdel' => ?_, fun e' he' => ?_,
        h.interest, h.registered⟩, rfl, List.Sublist.refl _, rfl, rfl, hreport, nofun, fun _ _ => rfl⟩
      · exact (h.flag e' hlt' hdel').trans hperm.mem_iff.symm
      · exact h.known e' (hperm.mem_iff.mp he')

theorem Reported.congr (hentries : s'.entries e = s.entries e) {ev : EpollEvent} (h : Reported files s' (e, ev)) :
    Reported files s (e, ev) := by
  unfold Reported at h ⊢
  rwa [hentries] at h

/-- **The inner loop** examines each entry that has been popped once. -/
theorem popEntries_spec (files : Files) (h : Holds held s) (hdel : ∀ e ∈ held, (s.entries e).isDeleted = false) :
    ∃ reports s' requeued, popEntries files held s = .ok reports s' ∧ Holds [] s' ∧ s'.ready = s.ready ++ requeued ∧
      requeued.Sublist (reports.map Prod.fst) ∧ (reports.map Prod.fst).Sublist held ∧ s'.events = s.events ∧
      s'.count = s.count ∧ (∀ report ∈ reports, Reported files s report) ∧
      (reports = [] → ∀ e ∈ held, (s.entries e).readyEvents files = 0) ∧ ∀ e, e ∉ held → s'.entries e =
        s.entries e := by
  induction held generalizing s with
  | nil =>
    exact ⟨[], s, [], rfl, h, (append_nil _).symm, .slnil, .slnil, rfl, rfl, nofun, fun _ => nofun,
      fun _ _ => rfl⟩
  | cons e held ih =>
    obtain ⟨event, s₁, requeued₁, hexamine, hholds, hready, hsub, hevents, hcount, hreport, hnone, hentries⟩ :=
      examine_spec files h (hdel e mem_cons_self)
    have hout : ∀ e' ∈ held, e' ≠ e := by
      rintro e' he' rfl
      exact (nodup_cons.mp h.nodup).1 (mem_append_left _ he')
    obtain ⟨rest, s₂, requeued₂, hpop, hholds₂, hready₂, hsub₂, hheld, hevents₂, hcount₂, hreport₂, hnone₂,
      hentries₂⟩ := ih hholds
      fun e' he' => by
        rw [hentries e' (hout e' he')]
        exact hdel e' (mem_cons_of_mem _ he')
    have hmap : (event.toList.map (fun ev => (e, ev)) ++ rest).map Prod.fst = event.toList.map (fun _ => e) ++
      rest.map Prod.fst := by
      rw [map_append, map_map]
      rfl
    refine ⟨_, s₂, requeued₁ ++ requeued₂, bind_ok.mpr
      ⟨event, s₁, hexamine, bind_ok.mpr ⟨rest, s₂, hpop, rfl⟩⟩, hholds₂,
      by rw [hready₂, hready, append_assoc], ?_, ?_, hevents₂.trans hevents, hcount₂.trans hcount, ?_,
      fun hnil e' he' => ?_, fun e' he' => ?_⟩
    · rw [hmap]
      exact hsub.append hsub₂
    · rw [hmap]
      cases event with
      | none => exact hheld.cons e
      | some ev => exact hheld.cons_cons e
    · intro report hin
      rcases mem_append.mp hin with hin | hin
      · obtain ⟨ev, hev, rfl⟩ := mem_map.mp hin
        exact hreport ev hev
      · have hin' : report.1 ∈ held := hheld.subset (mem_map_of_mem hin)
        exact (hreport₂ report hin).congr (hentries _ (hout _ hin'))
    · obtain ⟨hevent, rfl⟩ := append_eq_nil_iff.mp hnil
      rcases mem_cons.mp he' with rfl | hin
      · cases event with
        | none => exact hnone rfl
        | some ev => cases hevent
      · rw [← hentries e' (hout e' hin)]
        exact hnone₂ rfl e' hin
    · rw [mem_cons, not_or] at he'
      exact (hentries₂ e' he'.2).trans (hentries e' he'.1)

theorem Holds.drain (h : Holds [] s) (popCount : Nat) :
    Holds ((s.ready.take popCount).filter fun e => !(s.entries e).isDeleted)
      { s with ready := s.ready.drop popCount } := by
  have hsplit : s.ready = s.ready.take popCount ++ s.ready.drop popCount := (take_append_drop ..).symm
  have hsub : ((s.ready.take popCount).filter fun e => !(s.entries e).isDeleted).Sublist (s.ready.take popCount) :=
    filter_sublist
  have hsub' : (((s.ready.take popCount).filter fun e => !(s.entries e).isDeleted) ++ s.ready.drop
    popCount).Sublist s.ready := by
    conv_rhs => rw [hsplit]
    exact hsub.append (List.Sublist.refl _)
  refine ⟨hsub'.nodup h.nodup, fun e hlt hdel => ?_, fun e he => h.known e (hsub'.subset he),
    h.interest, h.registered⟩
  show (s.entries e).isReady = true ↔ _
  rw [h.flag e hlt hdel, nil_append, mem_append, mem_filter]
  conv_lhs => rw [hsplit, mem_append]
  rw [hdel]
  simp

/-- **The outer loop** pops at most its quota, so that no entry that has been put back is examined again. -/
theorem popRounds_spec (files : Files) {fuel : Nat} (room : Nat) {quota : Nat} (h : Holds [] s)
    (hquota : quota ≤ s.ready.length) (hfuel : quota ≤ fuel) :
    ∃ reports s', popRounds files fuel room quota s = .ok reports s' ∧ Holds [] s' ∧ s'.events = s.events ∧
      s'.count = s.count ∧ s'.ready ⊆ s.ready ∧ reports.length ≤ room ∧
      (reports.map Prod.fst).Sublist (s.ready.take quota) ∧ (∀ report ∈ reports, Reported files s report) ∧
      (reports = [] → 0 < room → s'.ready = s.ready.drop quota ∧
        ∀ e ∈ s.ready.take quota, (s.entries e).isDeleted = false → (s.entries e).readyEvents files = 0) := by
  induction fuel generalizing s room quota with
  | zero =>
    obtain rfl := Nat.le_zero.mp hfuel
    refine ⟨[], s, ?_, h, rfl, rfl, fun _ he => he, Nat.zero_le _, nil_sublist _, nofun, fun _ _ => ⟨rfl, nofun⟩⟩
    unfold popRounds
    rw [Nat.min_zero]
    rfl
  | succ fuel ih =>
    unfold popRounds
    dsimp only
    split
    case isTrue hzero =>
      refine ⟨[], s, rfl, h, rfl, rfl, fun _ he => he, Nat.zero_le _, nil_sublist _, nofun, fun _ hroom => ?_⟩
      have hq : quota = 0 := by omega
      rw [hq, drop_zero]
      exact ⟨rfl, nofun⟩
    case isFalse hpos =>
      generalize hcount : min room quota = popCount at hpos
      obtain ⟨events, s₁, requeued, hpop, hholds, hready, hsub, hheld, hevents, hcnt, hreport, hnone, hentries⟩ :=
        popEntries_spec files (h.drain popCount) fun e he => by simpa using (mem_filter.mp he).2
      have hlen : events.length ≤ popCount := by
        have hle := hheld.length_le
        rw [length_map] at hle
        have hle' := (filter_sublist (p := fun e => !(s.entries e).isDeleted) (l := s.ready.take popCount)).length_le
        rw [length_take] at hle'
        omega
      have hfront : s₁.ready.take (quota - popCount) = (s.ready.drop popCount).take (quota - popCount) := by
        rw [hready]
        exact take_append_of_le_length (by rw [length_drop]; omega)
      have hlen₁ : quota - popCount ≤ s₁.ready.length := by
        rw [hready, length_append, length_drop]
        omega
      obtain ⟨rest, s₂, hrest, hholds₂, hevents₂, hcnt₂, hsubset, hroom, hsub₂, hreport₂, hempty⟩ :=
        ih (room - events.length) hholds hlen₁ (by omega)
      have hpart : s.ready.take quota = s.ready.take popCount ++ (s.ready.drop popCount).take (quota - popCount) := by
        rw [← take_add]
        congr 1
        omega
      -- The entries of the later rounds have not been examined before.
      have hlater : ∀ e ∈ s.ready.drop popCount, s₁.entries e = s.entries e := by
        intro e he
        refine hentries e fun hmem => ?_
        have hnodup : (s.ready.take popCount ++ s.ready.drop popCount).Nodup := by
          rw [take_append_drop]
          exact h.nodup
        exact (nodup_append.mp hnodup).2.2 _ (mem_of_mem_filter hmem) _ he rfl
      refine ⟨events ++ rest, s₂, ?_, hholds₂, hevents₂.trans hevents, hcnt₂.trans hcnt, fun e he => ?_, ?_, ?_, fun
        report hin => ?_, ?_⟩
      · rw [get_bind]
        refine bind_ok.mpr ⟨(), s, assert_ok.mpr ⟨decide_eq_true (by omega), rfl⟩, ?_⟩
        rw [set_bind]
        exact bind_ok.mpr ⟨events, s₁, hpop, bind_ok.mpr ⟨rest, s₂, hrest, rfl⟩⟩
      · have he₁ := hsubset he
        rw [hready] at he₁
        rcases mem_append.mp he₁ with he₁ | he₁
        · exact mem_of_mem_drop he₁
        · exact mem_of_mem_take (mem_of_mem_filter (hheld.subset (hsub.subset he₁)))
      · rw [length_append]
        omega
      · rw [map_append, hpart]
        exact (hheld.trans filter_sublist).append (hfront ▸ hsub₂)
      · rcases mem_append.mp hin with hin | hin
        · exact hreport report hin
        · have hin' : report.1 ∈ s.ready.drop popCount :=
            mem_of_mem_take (hfront ▸ hsub₂.subset (mem_map_of_mem hin))
          exact (hreport₂ report hin).congr (hlater _ hin')
      · intro hnil hroom'
        obtain ⟨rfl, rfl⟩ := append_eq_nil_iff.mp hnil
        have hrequeued : requeued = [] := sublist_nil.mp hsub
        obtain ⟨hready₂, hnone₂⟩ := hempty rfl (by simpa using hroom')
        constructor
        · rw [hready₂, hready, hrequeued, append_nil, drop_drop]
          congr 1
          omega
        · intro e he hdel
          rw [hpart] at he
          rcases mem_append.mp he with he | he
          · exact hnone rfl e (mem_filter.mpr ⟨he, by rw [hdel]; rfl⟩)
          · have heq := hlater e (mem_of_mem_take he)
            have hzero := hnone₂ e (hfront ▸ he) (by rw [heq]; exact hdel)
            rwa [heq] at hzero

theorem IoEvents.intersects_or_IN (events : IoEvents) : (events ||| .IN).intersects .IN = true := by
  unfold IoEvents.intersects
  rw [decide_eq_true_eq]
  intro hzero
  have hbit : ((events ||| IoEvents.IN) &&& IoEvents.IN).getLsbD 0 = false := by
    rw [hzero]
    rfl
  rw [BitVec.getLsbD_and, BitVec.getLsbD_or] at hbit
  simp [IoEvents.IN] at hbit

theorem IoEvents.intersects_and_not_IN (events : IoEvents) : (events &&& ~~~.IN).intersects .IN = false := by
  unfold IoEvents.intersects
  rw [BitVec.and_assoc]
  have hnone : ~~~IoEvents.IN &&& IoEvents.IN = 0#32 := by decide
  rw [hnone, BitVec.and_zero]
  rfl

/-- **`pop_ready` returns** what it reports, and leaves the epoll file sound. -/
theorem popReady_spec (files : Files) (h : Sound s) (maxEvents : Nat) :
    ∃ reports s', popReady files maxEvents s = .ok reports s' ∧ Sound s' ∧ s'.count = s.count ∧
      reports.length ≤ maxEvents ∧ (reports.map Prod.fst).Sublist s.ready ∧
        (∀ report ∈ reports, Reported files s report) ∧
      s'.ready ⊆ s.ready ∧ (reports = [] → 0 < maxEvents → s'.ready = [] ∧
        ∀ e ∈ s.ready, (s.entries e).isDeleted = false → (s.entries e).readyEvents files = 0) := by
  obtain ⟨reports, s₁, hrounds, hholds, hevents, hcount, hsubset, hlen, hsub, hreport, hempty⟩ :=
    popRounds_spec files maxEvents h.toHolds le_rfl le_rfl
  rw [take_length] at hsub hempty
  rw [drop_length] at hempty
  unfold popReady
  rw [get_bind]
  cases hnil : s₁.ready.isEmpty with
  | true =>
    have hready : s₁.ready = [] := isEmpty_iff.mp hnil
    refine ⟨reports, { s₁ with events := s₁.events &&& ~~~.IN }, bind_ok.mpr ⟨reports, s₁, hrounds, ?_⟩,
      ⟨⟨hholds.nodup, hholds.flag, hholds.known, hholds.interest, hholds.registered⟩, ?_⟩, hcount, hlen, hsub,
        hreport, hsubset, hempty⟩
    · rw [get_bind, hnil]
      rfl
    · show (s₁.events &&& ~~~.IN).intersects .IN = true ↔ s₁.ready ≠ []
      rw [IoEvents.intersects_and_not_IN, hready]
      exact ⟨nofun, fun hne => absurd rfl hne⟩
  | false =>
    have hready : s₁.ready ≠ [] := fun heq => by
      rw [heq] at hnil
      cases hnil
    refine ⟨reports, s₁, bind_ok.mpr ⟨reports, s₁, hrounds, ?_⟩, ⟨hholds, ?_⟩, hcount, hlen, hsub, hreport,
      hsubset, hempty⟩
    · rw [get_bind, hnil]
      rfl
    · rw [hevents, h.event]
      refine ⟨fun _ => hready, fun _ heq => hready ?_⟩
      rw [heq] at hsubset
      exact subset_nil.mp hsubset

/-! ## Steps -/

theorem Holds.pushEntry (h : Holds [] s) (hlt : e < s.count) (hdel : (s.entries e).isDeleted = false) :
    Holds [] (s.pushEntry e) ∧ (s.pushEntry e).ready ≠ [] := by
  unfold EpollFile.pushEntry
  cases hready : (s.entries e).isReady with
  | true =>
    rw [if_pos rfl]
    exact ⟨h, ne_nil_of_mem ((h.flag e hlt hdel).mp hready)⟩
  | false =>
    have hout : e ∉ s.ready := fun hmem => by
      rw [(h.flag e hlt hdel).mpr hmem] at hready
      cases hready
    rw [if_neg nofun]
    refine ⟨h.setEntry (f := fun entry => { entry with isReady := true }) (fun _ => ⟨rfl, rfl, rfl⟩) ?_
      (fun e' he' => ?_)
      fun e' hlt' hdel' => ?_, append_ne_nil_of_right_ne_nil _ (cons_ne_nil _ _)⟩
    · rw [nil_append, ← concat_eq_append, nodup_concat]
      exact ⟨hout, h.nodup⟩
    · rw [nil_append, mem_append, mem_singleton] at he'
      rcases he' with he' | rfl
      · exact h.known e' he'
      · exact hlt
    · rw [nil_append, mem_append, mem_singleton]
      by_cases hne : e' = e
      · subst hne
        rw [EpollFile.setEntry_self]
        exact ⟨fun _ => .inr rfl, fun _ => rfl⟩
      · rw [EpollFile.setEntry_of_ne hne, h.flag e' hlt' hdel']
        exact ⟨.inl, fun hor => hor.resolve_right hne⟩

/-- The events of the pollee are not part of what the flags agree with. -/
theorem Holds.withEvents (h : Holds held s) (events : IoEvents) : Holds held { s with events := events } :=
  ⟨h.nodup, h.flag, h.known, h.interest, h.registered⟩

theorem pushReady_sound (h : Sound s) (hlt : e < s.count) : ∃ s', pushReady e s = .ok () s' ∧ Sound s' := by
  unfold pushReady
  rw [get_bind]
  by_cases hdel : (s.entries e).isDeleted = true
  · rw [if_pos hdel]
    exact ⟨s, rfl, h⟩
  · rw [if_neg hdel]
    obtain ⟨hholds, hne⟩ := h.toHolds.pushEntry hlt (Bool.eq_false_iff.mpr hdel)
    exact ⟨_, rfl, ⟨hholds.withEvents _, ⟨fun _ => hne, fun _ => IoEvents.intersects_or_IN _⟩⟩⟩

/-- What the operations on the interest list leave alone. -/
structure Kept (s s' : EpollFile) : Prop where
  holds : Holds [] s'
  ready : s'.ready = s.ready
  events : s'.events = s.events
  count : s.count ≤ s'.count

theorem Kept.sound (hkept : Kept s s') (h : Sound s) : Sound s' :=
  ⟨hkept.holds, by rw [hkept.events, hkept.ready]; exact h.event⟩

theorem Kept.refl (h : Holds [] s) : Kept s s := ⟨h, rfl, rfl, le_rfl⟩

variable {epEvent : EpollEvent} {epFlags : EpollFlags}

theorem insertInterest_kept (h : Holds [] s)
    (hrun : (insertInterest files fd epEvent epFlags s).final = some s') : Kept s s' := by
  unfold insertInterest at hrun
  cases hfile : files.table fd with
  | none =>
    rw [hfile] at hrun
    cases hrun
    exact .refl h
  | some file =>
    rw [hfile] at hrun
    dsimp only at hrun
    rw [get_bind] at hrun
    rcases guard_bind_final hrun with rfl | ⟨hnew, hrun⟩
    · exact .refl h
    rcases guard_bind_final hrun with rfl | ⟨-, hrun⟩
    · exact .refl h
    rw [set_bind] at hrun
    cases hrun
    have hnone : s.interest fd = none := by simpa using hnew
    have hnew : update s.entries s.count ⟨fd, file, epEvent, epFlags, false, false, true⟩ s.count =
        ⟨fd, file, epEvent, epFlags, false, false, true⟩ := update_self ..
    have hold : ∀ {e'}, e' ≠ s.count → update s.entries s.count ⟨fd, file, epEvent, epFlags, false, false, true⟩ e' =
        s.entries e' := fun hne => update_of_ne hne ..
    refine ⟨⟨h.nodup, fun e' hlt' hdel' => ?_, fun e' he' => Nat.lt_succ_of_lt (h.known e' he'), fun fd' e' => ?_,
      fun e' hlt' hdel' => ?_⟩, rfl, rfl, Nat.le_succ _⟩
    · dsimp only at hlt' hdel' ⊢
      by_cases hne : e' = s.count
      · subst hne
        rw [hnew]
        exact ⟨nofun, fun hin => absurd (h.known _ hin) (lt_irrefl _)⟩
      · rw [hold hne] at hdel' ⊢
        exact h.flag e' (by omega) hdel'
    · show update s.interest fd (some s.count) fd' = some e' ↔ e' < s.count + 1 ∧
        (update s.entries s.count _ e').fd = fd' ∧ (update s.entries s.count _ e').isDeleted = false
      by_cases hne : e' = s.count
      · subst hne
        rw [hnew]
        by_cases hfd : fd' = fd
        · subst hfd
          rw [update_self]
          exact ⟨fun _ => ⟨Nat.lt_succ_self _, rfl, rfl⟩, fun _ => rfl⟩
        · rw [update_of_ne hfd]
          refine ⟨fun hin => absurd ((h.interest fd' _).mp hin).1 (lt_irrefl _), fun hand => absurd
            hand.2.1.symm hfd⟩
      · rw [hold hne]
        by_cases hfd : fd' = fd
        · subst hfd
          rw [update_self]
          refine ⟨fun heq => absurd (Option.some.inj heq).symm hne, fun hand => ?_⟩
          have hin := (h.interest fd' e').mpr ⟨by omega, hand.2⟩
          cases hnone.symm.trans hin
        · rw [update_of_ne hfd, h.interest fd' e']
          exact ⟨fun hand => ⟨by omega, hand.2⟩, fun hand => ⟨by omega, hand.2⟩⟩
    · dsimp only at hlt' hdel' ⊢
      by_cases hne : e' = s.count
      · subst hne
        rw [hnew]
      · rw [hold hne] at hdel' ⊢
        exact h.registered e' (by omega) hdel'

theorem updateInterest_kept (h : Holds [] s)
    (hrun : (updateInterest fd epEvent epFlags s).final = some s') : Kept s s' := by
  unfold updateInterest at hrun
  rw [get_bind] at hrun
  cases hfd : s.interest fd with
  | none =>
    rw [hfd] at hrun
    cases hrun
    exact .refl h
  | some e =>
    rw [hfd] at hrun
    dsimp only at hrun
    rcases guard_bind_final hrun with rfl | ⟨-, hrun⟩
    · exact .refl h
    cases hrun
    refine ⟨h.setEntry (f := fun entry => { entry with event := epEvent, flags := epFlags })
      (fun _ => ⟨rfl, rfl, rfl⟩)
      h.nodup h.known fun e' hlt' hdel' => ?_, rfl, rfl, le_rfl⟩
    by_cases hne : e' = e
    · subst hne
      rw [setEntry_self]
      exact h.flag e' hlt' hdel'
    · rw [setEntry_of_ne hne]
      exact h.flag e' hlt' hdel'

theorem delInterest_kept (h : Holds [] s) (hrun : (delInterest files fd s).final = some s') : Kept s s' := by
  cases hfd : s.interest fd with
  | none =>
    unfold delInterest at hrun
    rw [get_bind, hfd] at hrun
    cases hrun
    exact .refl h
  | some e =>
    obtain ⟨s₁, hdelete, hholds, hready, hevents, hcount, -⟩ := delInterest_spec files h hfd
    rw [hdelete] at hrun
    cases hrun
    exact ⟨hholds, hready, hevents, le_of_eq hcount.symm⟩

/-- A step keeps the epoll file sound. -/
theorem Sound.run (h : Sound s) {op : Op} (hknown : op.Known s) (hrun : (op.run files s).final = some s')
    : Sound s' := by
  have hpush : ∀ {e}, e < s.count → (pushReady e s).final = some s' → Sound s' := by
    intro e hlt hpush
    obtain ⟨s₁, hok, hsound⟩ := pushReady_sound h hlt
    rw [hok] at hpush
    cases hpush
    exact hsound
  have hdiscard : ∀ {α : Type} (m : Comp EpollFile Errno α), ((m >>= fun _ => pure ()) s).final = (m s).final := by
    intro α m
    rw [bind_eq]
    cases m s <;> rfl
  cases op with
  | insert fd epEvent epFlags => exact (insertInterest_kept h.toHolds (hdiscard _ ▸ hrun)).sound h
  | update fd epEvent epFlags => exact (updateInterest_kept h.toHolds (hdiscard _ ▸ hrun)).sound h
  | delete fd => exact (delInterest_kept h.toHolds hrun).sound h
  | pushPolled e mask =>
    have hcall : (when (files.pollWeak (s.entries e).file mask != 0) (pushReady e) s).final = some s' := hrun
    unfold when at hcall
    split at hcall
    · exact hpush hknown hcall
    · rw [pure_final.mp hcall]
      exact h
  | notify e =>
    have hcall : ((if (s.entries e).isDeleted then pure () else pushReady e : Comp EpollFile Errno Unit) s).final =
      some s' := hrun
    split at hcall
    · rw [pure_final.mp hcall]
      exact h
    · exact hpush hknown hcall
  | pop maxEvents =>
    obtain ⟨reports, s₁, hpop, hsound, -⟩ := popReady_spec files h maxEvents
    have hcall : (popReady files maxEvents s).final = some s' := hdiscard _ ▸ hrun
    rw [hpop] at hcall
    cases hcall
    exact hsound

theorem Run.sound (h : Run s) : Sound s := by
  induction h with
  | new =>
    refine ⟨⟨nodup_nil, fun e hlt => absurd hlt (Nat.not_lt_zero e), nofun, fun fd e => ?_, fun e hlt =>
      absurd hlt (Nat.not_lt_zero e)⟩, ⟨nofun, fun hne => absurd rfl hne⟩⟩
    exact ⟨nofun, fun hand => absurd hand.1 (Nat.not_lt_zero e)⟩
  | step _ files op hknown hrun ih => exact ih.run hknown hrun

theorem insertInterest_lt (h : insertInterest files fd epEvent epFlags s = .ok e s') : e < s'.count := by
  unfold insertInterest at h
  cases hfile : files.table fd with
  | none =>
    rw [hfile] at h
    cases h
  | some file =>
    rw [hfile] at h
    obtain ⟨-, h⟩ := guard_bind_ok.mp h
    obtain ⟨-, h⟩ := guard_bind_ok.mp h
    cases h
    exact Nat.lt_succ_self _

theorem updateInterest_interest (h : updateInterest fd epEvent epFlags s = .ok e s') :
    s.interest fd = some e ∧ s'.count = s.count := by
  unfold updateInterest at h
  rw [get_bind] at h
  cases hfd : s.interest fd with
  | none =>
    rw [hfd] at h
    cases h
  | some e' =>
    rw [hfd] at h
    obtain ⟨-, h⟩ := guard_bind_ok.mp h
    cases h
    exact ⟨rfl, rfl⟩

/-- A change of the interest list and the push of the entry are two steps of a run. -/
theorem Run.thenPush {m : Comp EpollFile Errno Nat} {op : Op} {mask : IoEvents} (h : Run s)
    (hop : op.run files = m >>= fun _ => pure ()) (hknown : op.Known s) (hlt : ∀ e s₁, m s = .ok e s₁ → e < s₁.count)
    (hrun : ((m >>= fun e => pushPolled files e mask) s).final = some s') : Run s' := by
  rcases bind_final.mp hrun with ⟨err, herr⟩ | ⟨e, s₁, hok, hpush⟩
  · exact h.step files op hknown (by rw [hop, bind_eq, herr]; rfl)
  · have h₁ : Run s₁ := h.step files op hknown (by rw [hop, bind_eq, hok]; rfl)
    exact h₁.step files (.pushPolled e mask) (hlt e s₁ hok) hpush

/-- A whole `add_interest`: the new entry may be deleted or notified between the steps. -/
theorem Run.addInterest (h : Run s) (hrun : (Epoll.addInterest files fd epEvent epFlags s).final = some s') : Run s' :=
  h.thenPush (rfl : (Op.insert fd epEvent epFlags).run files = _) trivial (fun _ _ => insertInterest_lt) hrun

theorem Run.modInterest (h : Run s) (hrun : (Epoll.modInterest files fd epEvent epFlags s).final = some s') :
    Run s' := by
  refine h.thenPush (rfl : (Op.update fd epEvent epFlags).run files = _) trivial (fun e s₁ hok => ?_) hrun
  obtain ⟨hfd, hcount⟩ := updateInterest_interest hok
  rw [hcount]
  exact ((h.sound.interest fd e).mp hfd).1

/-- **The ready list**: the flag of an entry says whether it is in the list, where it is once, and the epoll file has
`IN` while the list is not empty. `pop_ready` reports at most as many events as it is asked for, one for an entry,
and only those that the files have. -/
theorem ready_list (h : Run s) : (∀ e, e < s.count → (s.entries e).isDeleted = false →
      ((s.entries e).isReady = true ↔ e ∈ s.ready) ∧ s.ready.count e ≤ 1) ∧
    (s.events.intersects .IN = true ↔ s.ready ≠ []) ∧
    ∀ files maxEvents, ∃ reports s', popReady files maxEvents s = .ok reports s' ∧ reports.length ≤ maxEvents ∧
      (reports.map Prod.fst).Nodup ∧ ∀ report ∈ reports, report.2.events ≠ 0 ∧ report.2.events =
        files.pollWeak (s.entries report.1).file .all &&& ((s.entries report.1).event.events ||| .HUP ||| .ERR) := by
  have hsound := h.sound
  refine ⟨fun e hlt hdel => ⟨hsound.flag e hlt hdel, List.nodup_iff_count_le_one.mp hsound.nodup e⟩, hsound.event,
    fun files maxEvents => ?_⟩
  obtain ⟨reports, s', hpop, -, -, hlen, hsub, hreport, -⟩ := popReady_spec files hsound maxEvents
  refine ⟨reports, s', hpop, hlen, hsub.nodup hsound.nodup, fun report hin => ?_⟩
  obtain ⟨hevent, hne⟩ := hreport report hin
  rw [hevent]
  exact ⟨hne, rfl⟩

/-- A pipe with data. -/
def pipe : Files := ⟨fun fd => if fd = 3 then some 0 else none, fun _ => some fun mask => .IN &&& mask, fun _ => true⟩

/-- The pipe is in the interest list. -/
def pipeAdded : EpollFile := ((Op.insert 3 ⟨.IN, 7⟩ 0).run pipe .new).final.getD .new

/-- The pipe is in the ready list. -/
def pipeReady : EpollFile := ((Op.pushPolled 0 .IN).run pipe pipeAdded).final.getD .new

theorem ready_list_pipe : Run pipeReady ∧ pipeReady.events.intersects .IN = true ∧
    ∃ reports s', popReady pipe 1 pipeReady = .ok reports s' ∧ reports.length ≤ 1 := by
  have hadded : Run pipeAdded := .step .new pipe (.insert 3 ⟨.IN, 7⟩ 0) trivial rfl
  have hrun : Run pipeReady := .step hadded pipe (.pushPolled 0 .IN) (show 0 < 1 by decide) rfl
  obtain ⟨-, hevent, hpops⟩ := ready_list hrun
  obtain ⟨reports, s', hpop, hlen, -⟩ := hpops pipe 1
  exact ⟨hrun, hevent.mpr (by decide), reports, s', hpop, hlen⟩

/-- **Nothing is overlooked**: when `pop_ready` may report events and reports none, no file of a ready entry has events,
the ready list is empty and the epoll file has lost `IN`. -/
theorem pop_overlooks_nothing (h : Run s) {maxEvents : Nat} (hpos : 0 < maxEvents)
    (hpop : popReady files maxEvents s = .ok [] s') : s'.ready = [] ∧ s'.events.intersects .IN = false ∧
      ∀ e ∈ s.ready, (s.entries e).isDeleted = false → (s.entries e).readyEvents files = 0 := by
  obtain ⟨reports, t, hpop', hsound, -, -, -, -, -, hnone⟩ := popReady_spec files h.sound maxEvents
  cases hpop.symm.trans hpop'
  obtain ⟨hempty, hquiet⟩ := hnone rfl hpos
  exact ⟨hempty, Bool.eq_false_iff.mpr fun hin => hsound.event.mp hin hempty, hquiet⟩

/-- The pipe has been closed. -/
theorem pop_overlooks_nothing_closed : ∃ files s', popReady files 1 pipeReady = .ok [] s' ∧ s'.ready = [] := by
  have hadded : Run pipeAdded := .step .new pipe (.insert 3 ⟨.IN, 7⟩ 0) trivial rfl
  have hrun : Run pipeReady := .step hadded pipe (.pushPolled 0 .IN) (show 0 < 1 by decide) rfl
  have hpop : popReady { pipe with poll := fun _ => none } 1 pipeReady = .ok [] _ := rfl
  exact ⟨_, _, hpop, (pop_overlooks_nothing hrun Nat.one_pos hpop).1⟩

end AsterKernel.Epoll
