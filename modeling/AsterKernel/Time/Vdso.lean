import AsterKernel.Lib.Run
import Mathlib

/-!
# `Time.Vdso` — the clock data that user space reads from the vDSO

`Vdso::update_instant` writes the fields of the vDSO data one by one into the VMO that all processes map: first `1` to
the sequence counter, then the fields, then `0` to the counter. A reader follows the protocol of a sequence counter: it
reads the counter until it is even, reads the fields, and accepts them if the counter has not changed. But the counter
only ever is `0` or `1`: a reader that is overtaken by a whole update finds the `0` that it has seen before.

Calls of `update_instant` do not overlap; each write to the VMO is a step. The fields that no update changes are left
out, and the seconds do not reach `2 ^ 64`.
-/

namespace AsterKernel.Time

open Lib List

inductive ClockID where
  | CLOCK_REALTIME
  | CLOCK_MONOTONIC
  | CLOCK_PROCESS_CPUTIME_ID
  | CLOCK_THREAD_CPUTIME_ID
  | CLOCK_MONOTONIC_RAW
  | CLOCK_REALTIME_COARSE
  | CLOCK_MONOTONIC_COARSE
  | CLOCK_BOOTTIME
deriving DecidableEq, Repr

namespace ClockID

def index : ClockID → Nat
  | CLOCK_REALTIME => 0
  | CLOCK_MONOTONIC => 1
  | CLOCK_PROCESS_CPUTIME_ID => 2
  | CLOCK_THREAD_CPUTIME_ID => 3
  | CLOCK_MONOTONIC_RAW => 4
  | CLOCK_REALTIME_COARSE => 5
  | CLOCK_MONOTONIC_COARSE => 6
  | CLOCK_BOOTTIME => 7

def ALL_SUPPORTED_CLOCK_IDS : List ClockID :=
  [CLOCK_REALTIME, CLOCK_REALTIME_COARSE, CLOCK_MONOTONIC, CLOCK_MONOTONIC_COARSE, CLOCK_MONOTONIC_RAW, CLOCK_BOOTTIME]

def REALTIME_IDS : List ClockID := [CLOCK_REALTIME, CLOCK_REALTIME_COARSE]

end ClockID

open ClockID

structure Instant where
  secs : Nat
  nanos : Nat
deriving DecidableEq, Repr

/-- What no update changes: the shift of the clock source's coefficient and `START_SECS_COUNT`. -/
structure VdsoConfig where
  shift : Nat
  startSecs : Nat

structure VdsoInstant where
  secs : Nat
  nanosLshift : Nat
deriving DecidableEq, Repr

structure VdsoData where
  lastCycles : Nat
  basetime : ClockID → VdsoInstant

/-- The arguments of a call of `update_instant`. -/
structure Update where
  instant : Instant
  cycles : Nat
deriving DecidableEq, Repr

variable (c : VdsoConfig)

/-- What an update stores for a clock. -/
def Update.basetime (u : Update) (clock : ClockID) : VdsoInstant where
  secs := if REALTIME_IDS.contains clock then u.instant.secs + c.startSecs else u.instant.secs
  nanosLshift := (u.instant.nanos <<< c.shift) % 2 ^ 64

def VdsoData.updateClockInstant (data : VdsoData) (clock : ClockID) (i : VdsoInstant) : VdsoData :=
  { data with basetime := Function.update data.basetime clock i }

def VdsoData.updateInstant (data : VdsoData) (u : Update) : VdsoData :=
  ALL_SUPPORTED_CLOCK_IDS.foldl (fun data clock => data.updateClockInstant clock (u.basetime c clock))
    { data with lastCycles := u.cycles }

/-- The offsets of the fields in the VMO. -/
def SEQ : Nat := 0x80
def LAST_CYCLES : Nat := 0x88
def secsOffset (clock : ClockID) : Nat := 0xA0 + clock.index * 0x10
def nanosLshiftOffset (clock : ClockID) : Nat := 0xA8 + clock.index * 0x10

/-- The values in the VMO, by the offset of their field. -/
abbrev Vmo := Nat → Nat

/-- A call of `write_val`: an offset and a value. -/
abbrev Write := Nat × Nat

def Vmo.writeVal (vmo : Vmo) (w : Write) : Vmo := Function.update vmo w.1 w.2

/-- The writes of `update_vmo_instant`. -/
def VdsoData.updateVmoInstant (data : VdsoData) (clock : ClockID) : List Write :=
  [(secsOffset clock, (data.basetime clock).secs), (nanosLshiftOffset clock, (data.basetime clock).nanosLshift)]

/-- The writes of `Vdso::update_instant`, after it has updated the data. -/
def VdsoData.updateWrites (data : VdsoData) (u : Update) : List Write :=
  [(SEQ, 1), (LAST_CYCLES, u.cycles)] ++ ALL_SUPPORTED_CLOCK_IDS.flatMap data.updateVmoInstant ++ [(SEQ, 0)]

/-- What a reader returns. -/
structure Triple where
  lastCycles : Nat
  secs : Nat
  nanosLshift : Nat
deriving DecidableEq, Repr

/-- What an update has to show to the readers of a clock. -/
def Update.triple (u : Update) (clock : ClockID) : Triple :=
  ⟨u.cycles, (u.basetime c clock).secs, (u.basetime c clock).nanosLshift⟩

/-- Where a reader is, with what it has read: outside, or behind the read of the counter, of `last_cycles`, of the
seconds, of the nanoseconds; or it has accepted what it has read. -/
inductive Reader where
  | idle
  | seq (clock : ClockID) (seq : Nat)
  | cycles (clock : ClockID) (seq lastCycles : Nat)
  | secs (clock : ClockID) (seq lastCycles secs : Nat)
  | nanos (clock : ClockID) (seq : Nat) (triple : Triple)
  | accepted (clock : ClockID) (triple : Triple)
deriving DecidableEq, Repr

/-- The reader is between its first and its last read of the counter. -/
def Reader.inside : Reader → Bool
  | idle => false
  | accepted .. => false
  | _ => true

/-- The data, the VMO, the writes that the running update has still to do, the reader, and all updates so far. -/
structure VdsoSys where
  data : VdsoData
  vmo : Vmo
  writes : List Write
  reader : Reader
  updates : List Update

inductive VdsoAct where
  | update (u : Update)
  | write
  | begin (clock : ClockID)
  | read
deriving DecidableEq, Repr

/-- The read that comes next. -/
def Reader.next (vmo : Vmo) : Reader → Option Reader
  | seq clock q => some (.cycles clock q (vmo LAST_CYCLES))
  | cycles clock q last => some (.secs clock q last (vmo (secsOffset clock)))
  | secs clock q last sec => some (.nanos clock q ⟨last, sec, vmo (nanosLshiftOffset clock)⟩)
  | nanos clock q triple => some (if vmo SEQ = q then .accepted clock triple else .idle)
  | _ => none

/-- A step. A reader that finds an odd counter, or a changed one at the end, begins again. -/
def VdsoSys.step : VdsoAct → VdsoSys → Option VdsoSys
  | .update u, s =>
    if s.writes = [] then
      let data := s.data.updateInstant c u
      some { s with data, writes := data.updateWrites u, updates := u :: s.updates }
    else none
  | .write, s =>
    match s.writes with
    | [] => none
    | w :: writes => some { s with vmo := s.vmo.writeVal w, writes }
  | .begin clock, s =>
    if s.reader.inside = false ∧ clock ∈ ALL_SUPPORTED_CLOCK_IDS then
      some { s with reader := if s.vmo SEQ % 2 = 0 then .seq clock (s.vmo SEQ) else .idle }
    else none
  | .read, s => (s.reader.next s.vmo).map fun reader => { s with reader }

/-- `Vdso::new`: the data of the first update is written as a whole. -/
def VdsoSys.new (u : Update) : VdsoSys :=
  let data := VdsoData.updateInstant c ⟨0, fun _ => ⟨0, 0⟩⟩ u
  { data, vmo := (data.updateWrites u).foldl Vmo.writeVal fun _ => 0, writes := [], reader := .idle, updates := [u] }

/-- What the reader has accepted comes from one update. -/
def VdsoSys.Consistent (s : VdsoSys) : Prop :=
  ∀ clock triple, s.reader = .accepted clock triple → ∃ u ∈ s.updates, triple = u.triple c clock

/-- No update does its last write while the reader is between its reads of the counter. -/
def VdsoSys.EndsOutside (s : VdsoSys) : VdsoAct → Prop
  | .write => s.writes.length = 1 → s.reader.inside = false
  | _ => True

instance (s : VdsoSys) (a : VdsoAct) : Decidable (s.EndsOutside a) := by
  cases a <;> unfold VdsoSys.EndsOutside <;> infer_instance

/-! ## The writes of an update -/

variable {c} {s t : VdsoSys} {vmo : Vmo} {u : Update}

/-- The VMO shows an update. -/
structure Shows (c : VdsoConfig) (vmo : Vmo) (u : Update) : Prop where
  seq : vmo SEQ = 0
  lastCycles : vmo LAST_CYCLES = u.cycles
  secs : ∀ clock ∈ ALL_SUPPORTED_CLOCK_IDS, vmo (secsOffset clock) = (u.basetime c clock).secs
  nanos : ∀ clock ∈ ALL_SUPPORTED_CLOCK_IDS, vmo (nanosLshiftOffset clock) = (u.basetime c clock).nanosLshift

theorem VdsoData.basetime_updateInstant (data : VdsoData) (u : Update) {clock : ClockID}
    (h : clock ∈ ALL_SUPPORTED_CLOCK_IDS) : (data.updateInstant c u).basetime clock = u.basetime c clock := by
  cases clock <;> first | rfl | exact absurd h (by decide)

/-- The writes in the middle of an update leave the counter alone. -/
theorem VdsoData.updateWrites_eq (data : VdsoData) (u : Update) :
    ∃ mid, data.updateWrites u = (SEQ, 1) :: (mid ++ [(SEQ, 0)]) ∧ ∀ w ∈ mid, w.1 ≠ SEQ := by
  refine ⟨(LAST_CYCLES, u.cycles) :: ALL_SUPPORTED_CLOCK_IDS.flatMap data.updateVmoInstant, rfl, ?_⟩
  intro w hw
  simp only [ALL_SUPPORTED_CLOCK_IDS, updateVmoInstant, flatMap_cons, flatMap_nil, cons_append,
    nil_append, append_nil, mem_cons, not_mem_nil, or_false] at hw
  rcases hw with rfl | rfl | rfl | rfl | rfl | rfl | rfl | rfl | rfl | rfl | rfl | rfl | rfl <;>
    simp only [SEQ, LAST_CYCLES, secsOffset, nanosLshiftOffset, index] <;> decide

theorem VdsoData.shows_updateWrites (data : VdsoData) (vmo : Vmo) (u : Update) :
    Shows c (((data.updateInstant c u).updateWrites u).foldl Vmo.writeVal vmo) u := by
  have hall : ∀ clock ∈ ALL_SUPPORTED_CLOCK_IDS, (data.updateInstant c u).basetime clock = u.basetime c clock :=
    fun clock h => data.basetime_updateInstant u h
  constructor
  · rfl
  · rfl
  all_goals
    intro clock hclock
    rw [← hall clock hclock]
    cases clock <;> first | rfl | exact absurd hclock (by decide)

/-! ## The invariant -/

/-- An update that has written to the counter, and not yet for the second time: what remains to be written leads to
what the update shows. -/
structure Amid (c : VdsoConfig) (s : VdsoSys) : Prop where
  seq : s.vmo SEQ = 1
  writes : ∃ mid, s.writes = mid ++ [(SEQ, 0)] ∧ ∀ w ∈ mid, w.1 ≠ SEQ
  shows_ : ∃ u ∈ s.updates, Shows c (s.writes.foldl Vmo.writeVal s.vmo) u

/-- No update has written since the last one ended; one may have begun. -/
structure Settled (c : VdsoConfig) (s : VdsoSys) : Prop where
  shown : ∃ u ∈ s.updates, Shows c s.vmo u
  writes : s.writes = [] ∨ ∃ data : VdsoData, ∃ u ∈ s.updates, s.writes = (data.updateInstant c u).updateWrites u

/-- What the reader has read is what is in the VMO. -/
def Reader.Agrees (vmo : Vmo) : Reader → Prop
  | idle => True
  | seq .. => True
  | cycles _ _ last => last = vmo LAST_CYCLES
  | secs clock _ last sec => last = vmo LAST_CYCLES ∧ sec = vmo (secsOffset clock)
  | nanos clock _ triple => triple = ⟨vmo LAST_CYCLES, vmo (secsOffset clock), vmo (nanosLshiftOffset clock)⟩
  | accepted .. => True

/-- What the reader knows of the counter. -/
def Reader.Began : Reader → Prop
  | seq clock q | cycles clock q _ | secs clock q _ _ | nanos clock q _ => q = 0 ∧ clock ∈ ALL_SUPPORTED_CLOCK_IDS
  | _ => True

structure VdsoSys.Inv (c : VdsoConfig) (s : VdsoSys) : Prop where
  phase : Settled c s ∨ Amid c s
  began : s.reader.Began
  agrees : s.vmo SEQ = 1 ∨ s.reader.Agrees s.vmo
  consistent : s.Consistent c

theorem Settled.seq (h : Settled c s) : s.vmo SEQ = 0 := by
  obtain ⟨u, -, hshows⟩ := h.shown
  exact hshows.seq

theorem Reader.agrees_of_outside {r : Reader} (h : r.inside = false) : r.Agrees vmo := by
  cases r <;> first | exact trivial | cases h

theorem VdsoSys.inv_new (u : Update) : (VdsoSys.new c u).Inv c where
  phase := .inl ⟨⟨u, mem_singleton_self u, VdsoData.shows_updateWrites ..⟩, .inl rfl⟩
  began := trivial
  agrees := .inr trivial
  consistent := nofun

namespace VdsoSys.Inv

theorem consistent_mono (h : s.Consistent c) (hreader : t.reader = s.reader)
    (hupdates : ∀ u ∈ s.updates, u ∈ t.updates) : t.Consistent c := by
  intro clock triple haccepted
  obtain ⟨u, hu, htriple⟩ := h clock triple (hreader ▸ haccepted)
  exact ⟨u, hupdates u hu, htriple⟩

theorem update (h : s.Inv c) (hidle : s.writes = []) (u : Update) :
    Inv c { s with data := s.data.updateInstant c u, writes := (s.data.updateInstant c u).updateWrites u,
                   updates := u :: s.updates } := by
  have hsettled : Settled c s := by
    rcases h.phase with hsettled | hamid
    · exact hsettled
    · obtain ⟨mid, hmid, -⟩ := hamid.writes
      rw [hidle] at hmid
      exact absurd hmid.symm (by simp)
  obtain ⟨v, hv, hshows⟩ := hsettled.shown
  exact ⟨.inl ⟨⟨v, .tail _ hv, hshows⟩, .inr ⟨s.data, u, .head _, rfl⟩⟩, h.began, h.agrees,
    consistent_mono h.consistent rfl fun _ => .tail _⟩

/-- A write: the first one, to the counter; one in the middle; or the last one, while the reader is outside. -/
theorem write (h : s.Inv c) {w : Write} {writes : List Write} (hwrites : s.writes = w :: writes)
    (hout : s.writes.length = 1 → s.reader.inside = false) : Inv c { s with vmo := s.vmo.writeVal w, writes } := by
  have hsame : Consistent c { s with vmo := s.vmo.writeVal w, writes } :=
    consistent_mono h.consistent rfl fun _ => id
  rcases h.phase with hsettled | hamid
  · obtain ⟨data, u, hu, hdata⟩ := hsettled.writes.resolve_left (by rw [hwrites]; nofun)
    obtain ⟨mid, hmid, hseq⟩ := (data.updateInstant c u).updateWrites_eq u
    have hcons : w :: writes = (SEQ, 1) :: (mid ++ [(SEQ, 0)]) := hwrites.symm.trans (hdata.trans hmid)
    obtain ⟨rfl, rfl⟩ := cons.inj hcons
    have hone : s.vmo.writeVal (SEQ, 1) SEQ = 1 := Function.update_self ..
    refine ⟨.inr ⟨hone, ⟨mid, rfl, hseq⟩, u, hu, ?_⟩, h.began, .inl hone, hsame⟩
    have hshows := data.shows_updateWrites (c := c) s.vmo u
    rw [hmid] at hshows
    exact hshows
  · obtain ⟨mid, hmid, hseq⟩ := hamid.writes
    obtain ⟨u, hu, hshows⟩ := hamid.shows_
    rw [hwrites] at hshows
    cases mid with
    | nil =>
      obtain ⟨rfl, rfl⟩ := cons.inj (hwrites.symm.trans hmid)
      have hreader := hout (by rw [hwrites]; rfl)
      exact ⟨.inl ⟨⟨u, hu, hshows⟩, .inl rfl⟩, h.began, .inr (Reader.agrees_of_outside hreader), hsame⟩
    | cons v mid =>
      obtain ⟨rfl, rfl⟩ := cons.inj (hwrites.symm.trans hmid)
      have hone : s.vmo.writeVal w SEQ = 1 :=
        (Function.update_of_ne (hseq w (.head _)).symm ..).trans hamid.seq
      exact ⟨.inr ⟨hone, ⟨mid, rfl, fun x hx => hseq x (.tail _ hx)⟩, u, hu, hshows⟩, h.began, .inl hone, hsame⟩

theorem begin_ (h : s.Inv c) {clock : ClockID} (hclock : clock ∈ ALL_SUPPORTED_CLOCK_IDS) :
    Inv c { s with reader := if s.vmo SEQ % 2 = 0 then .seq clock (s.vmo SEQ) else .idle } := by
  have hphase : ∀ r, Settled c { s with reader := r } ∨ Amid c { s with reader := r } := fun _ =>
    h.phase.imp (fun h => ⟨h.shown, h.writes⟩) fun h => ⟨h.seq, h.writes, h.shows_⟩
  split
  · rename_i heven
    have hzero : s.vmo SEQ = 0 := by
      rcases h.phase with hsettled | hamid
      · exact hsettled.seq
      · rw [hamid.seq] at heven
        cases heven
    exact ⟨hphase _, ⟨hzero, hclock⟩, .inr trivial, nofun⟩
  · exact ⟨hphase _, trivial, .inr trivial, nofun⟩

/-- A read. The last one accepts only what has been in the VMO all the time. -/
theorem read (h : s.Inv c) {r : Reader} (hnext : s.reader.next s.vmo = some r) : Inv c { s with reader := r } := by
  have hphase : Settled c { s with reader := r } ∨ Amid c { s with reader := r } :=
    h.phase.imp (fun h => ⟨h.shown, h.writes⟩) fun h => ⟨h.seq, h.writes, h.shows_⟩
  have hbegan := h.began
  have hagrees := h.agrees
  cases hr : s.reader with
  | idle | accepted => rw [hr] at hnext; cases hnext
  | seq =>
    rw [hr] at hnext hbegan
    cases hnext
    exact ⟨hphase, hbegan, .inr rfl, nofun⟩
  | cycles =>
    rw [hr] at hnext hbegan hagrees
    cases hnext
    exact ⟨hphase, hbegan, hagrees.imp_right fun h => ⟨h, rfl⟩, nofun⟩
  | secs =>
    rw [hr] at hnext hbegan hagrees
    cases hnext
    refine ⟨hphase, hbegan, hagrees.imp_right fun h => ?_, nofun⟩
    obtain ⟨rfl, rfl⟩ := h
    rfl
  | nanos clock q triple =>
    rw [hr] at hnext hbegan hagrees
    cases hnext
    obtain ⟨rfl, hclock⟩ := hbegan
    split
    · rename_i hzero
      refine ⟨by rwa [if_pos hzero] at hphase, trivial, .inr trivial, ?_⟩
      intro clock' triple' haccepted
      obtain ⟨rfl, rfl⟩ := Reader.accepted.inj haccepted
      obtain rfl := hagrees.resolve_left (by omega)
      rcases h.phase with hsettled | hamid
      · obtain ⟨u, hu, hshows⟩ := hsettled.shown
        exact ⟨u, hu, by rw [hshows.lastCycles, hshows.secs _ hclock, hshows.nanos _ hclock]; rfl⟩
      · have := hamid.seq
        omega
    · rename_i hchanged
      exact ⟨by rwa [if_neg hchanged] at hphase, trivial, .inr trivial, nofun⟩

theorem step {a : VdsoAct} (h : s.Inv c) (hcond : s.EndsOutside a) (hstep : VdsoSys.step c a s = some t) : t.Inv c := by
  cases a with
  | update u =>
    obtain ⟨hidle, ⟨⟩⟩ := Option.ite_none_right_eq_some.mp hstep
    exact h.update hidle u
  | write =>
    cases hwrites : s.writes with
    | nil => simp [VdsoSys.step, hwrites] at hstep
    | cons w writes =>
      simp only [VdsoSys.step, hwrites, Option.some.injEq] at hstep
      exact hstep ▸ h.write hwrites hcond
  | begin clock =>
    obtain ⟨⟨-, hclock⟩, ⟨⟩⟩ := Option.ite_none_right_eq_some.mp hstep
    exact h.begin_ hclock
  | read =>
    obtain ⟨r, hnext, rfl⟩ := Option.map_eq_some_iff.mp hstep
    exact h.read hnext

end VdsoSys.Inv

/-! ## Whole runs -/

/-- While no update ends between a reader's first and last read of the counter, what the reader accepts comes from one
update. -/
theorem snapshot_single (c : VdsoConfig) (first : Update) {s : VdsoSys}
    (h : Run (VdsoSys.step c) VdsoSys.EndsOutside (VdsoSys.new c first) s) : s.Consistent c :=
  (Run.invariant (I := VdsoSys.Inv c) (VdsoSys.inv_new first) (fun _ _ _ hs hcond hstep => hs.step hcond hstep)
    h).consistent

/-- A clock source that started in second 1000, and its first instants. -/
def exampleConfig : VdsoConfig := ⟨0, 1000⟩
def exampleFirst : Update := ⟨⟨1, 5⟩, 10⟩
def exampleSecond : Update := ⟨⟨2, 6⟩, 20⟩

/-- A reader between two updates. -/
theorem snapshot_single_later : ∃ s, Run (VdsoSys.step exampleConfig) VdsoSys.EndsOutside
    (VdsoSys.new exampleConfig exampleFirst) s ∧ s.Consistent exampleConfig ∧
    s.reader = .accepted .CLOCK_MONOTONIC ⟨20, 2, 6⟩ := by
  refine Run.checked_and ([.update exampleSecond] ++ List.replicate 15 .write ++
    [.begin .CLOCK_MONOTONIC, .read, .read, .read, .read]) ?_ fun s => snapshot_single exampleConfig exampleFirst
  decide +kernel

/-- A reader reads `last_cycles`, is overtaken by an update, and accepts the cycles of the first update with the time
of the second. -/
theorem snapshot_torn : ∃ s, Run (VdsoSys.step exampleConfig) (fun _ _ => True)
    (VdsoSys.new exampleConfig exampleFirst) s ∧ s.reader = .accepted .CLOCK_MONOTONIC ⟨10, 2, 6⟩ ∧
    ∀ u ∈ s.updates, (⟨10, 2, 6⟩ : Triple) ≠ u.triple exampleConfig .CLOCK_MONOTONIC := by
  refine Run.checked ([.begin .CLOCK_MONOTONIC, .read, .update exampleSecond] ++ List.replicate 15 .write ++
    [.read, .read, .read]) ?_
  decide +kernel

end AsterKernel.Time
