import AsterKernel.Channel.Steps

/-!
# `Channel.Stream` — one writer and one reader

What a reader returns is what a writer has written, in order and without gaps. The end of the stream is another matter:
`try_read` pops first and looks at the flag of the writer afterwards. If the writer writes and drops its end in between,
the reader takes an empty pop for the end of the stream, and what was written is not read.
-/

namespace AsterKernel.Channel

open Lib Poll Function List

variable {α : Type} {s s' : Sys α} {cfg : Config} {t : Nat}

/-! ## Data -/

def Res.data : Res α → List α
  | ok data => data
  | _ => []

/-- What the reads of a log have returned. -/
def readData (log : List (Nat × Op α × Res α)) : List α :=
  log.flatMap fun entry => match entry with | (_, .read _, res) => res.data | _ => []

/-- What the writes of a log have accepted. -/
def writeData (log : List (Nat × Op α × Res α)) : List α :=
  log.flatMap fun entry => match entry with | (_, .write _, res) => res.data | _ => []

namespace Pc

/-- The data that a call has moved and not returned yet. -/
def data : Pc α → List α
  | lockRb _ data | seeSelf _ data | del _ data | seePeer _ data | add _ data | unlockRb _ data | recheck _ data => data
  | _ => []

/-- The call has moved no data and has not returned `EAGAIN` yet. -/
def foundNothing : Pc α → Bool
  | lockRb _ data | seeSelf _ data | del _ data | seePeer _ data | add _ data | unlockRb _ data
  | recheck _ data => data.isEmpty
  | _ => false

end Pc

section

variable (log : List (Nat × Op α × Res α)) (t : Nat) (op : Op α) (res : Res α)

theorem readData_append :
    readData (log ++ [(t, op, res)]) = readData log ++ (if op.side = .consumer then res.data else []) := by
  cases op <;> simp [readData, Op.side]

theorem writeData_append :
    writeData (log ++ [(t, op, res)]) = writeData log ++ (if op.side = .producer then res.data else []) := by
  cases op <;> simp [writeData, Op.side]

end

/-- What an atomic step does to the data: nothing, or a push, a pop, the return of a call, or the store of a flag. -/
inductive Flow (s : Sys α) (t : Nat) (s' : Sys α) : Prop
  | quiet (hring : s'.ring = s.ring) (hwritten : s'.written = s.written) (hlog : s'.log = s.log) (hshut : s'.shut = s.shut)
      (hdata : (s'.pcs t).data = (s.pcs t).data)
      (hnothing : (s'.pcs t).foundNothing = true → (s.pcs t).foundNothing = true)
  | push (data : List α) (hring : s'.ring = s.ring ++ data) (hwritten : s'.written = s.written ++ data)
      (hlog : s'.log = s.log) (hshut : s'.shut = s.shut) (hold : (s.pcs t).data = []) (hdata : (s'.pcs t).data = data)
      (hside : (s.pcs t).side = some .producer)
  | pop (data : List α) (hring : s.ring = data ++ s'.ring) (hwritten : s'.written = s.written)
      (hlog : s'.log = s.log) (hshut : s'.shut = s.shut) (hold : (s.pcs t).data = []) (hdata : (s'.pcs t).data = data)
      (hside : (s.pcs t).side = some .consumer) (hnothing : data = [] → s.ring = [])
  | returned (op : Op α) (res : Res α) (hring : s'.ring = s.ring) (hwritten : s'.written = s.written)
      (hlog : s'.log = s.log ++ [(t, op, res)]) (hshut : s'.shut = s.shut) (hold : (s.pcs t).data = res.data)
      (hdata : (s'.pcs t).data = []) (hnothing : (s'.pcs t).foundNothing = false)
      (hside : (s.pcs t).side = some op.side)
      (hend : ∀ len, op = .read len → 0 < len → res = .ok [] →
        (s.pcs t).foundNothing = true ∧ s.shut .producer = true)
  | store (side : Side) (hpc : s.pcs t = .dropShut side) (hring : s'.ring = s.ring) (hwritten : s'.written = s.written)
      (hlog : s'.log = s.log) (hshut : s'.shut = Function.update s.shut side true) (hdata : (s'.pcs t).data = [])
      (hnothing : (s'.pcs t).foundNothing = false)

section

/-- The call returns. -/
theorem Flow.finish {pc : Pc α} (hpc : s.pcs t = pc) (io : Io α) (res : Res α) (hold : pc.data = res.data)
    (hside : pc.side = some io.side)
    (hend : ∀ len, io.op = .read len → 0 < len → res = .ok [] → pc.foundNothing = true ∧ s.shut .producer = true) :
    Flow s t (s.finish t io res) := by
  subst hpc
  have hpcs : (s.finish t io res).pcs t = if io.slow then .leave io.side else .idle := by
    rw [Sys.finish_pcs, update_self]
  refine .returned io.op res (s.finish_ring t io res) (s.finish_written t io res) (s.finish_log t io res)
    (s.finish_shut t io res) hold ?_ ?_ hside hend
  · rw [hpcs]
    split <;> rfl
  · rw [hpcs]
    split <;> rfl

theorem Flow.goto {r : Sys α} {pc pc' : Pc α} (hpc : s.pcs t = pc) (hring : r.ring = s.ring)
    (hwritten : r.written = s.written) (hlog : r.log = s.log) (hshut : r.shut = s.shut) (hdata : pc'.data = pc.data)
    (hnothing : pc'.foundNothing = true → pc.foundNothing = true) : Flow s t (r.goto t pc') := by
  subst hpc
  refine .quiet hring hwritten hlog hshut ?_ ?_
  · rw [Sys.goto_pcs_self, hdata]
  · rw [Sys.goto_pcs_self]
    exact hnothing

theorem Flow.attempted (io : Io α) (data : List α) (hold : (s.pcs t).data = data) (hside : (s.pcs t).side = some io.side) :
    Flow s t (s.attempted t io data) := by
  unfold Sys.attempted
  split
  · rename_i hempty
    rw [isEmpty_iff.mp hempty] at hold
    rcases s.again_cases t io with heq | heq | heq
    · rw [heq]
      exact .finish rfl io .EAGAIN hold hside fun _ _ _ h => by cases h
    · rw [heq]
      exact .goto rfl rfl rfl rfl rfl hold.symm nofun
    · rw [heq]
      exact .goto rfl rfl rfl rfl rfl hold.symm nofun
  · rename_i hempty
    refine .finish rfl io (.ok data) hold hside fun _ _ _ h => ?_
    cases h
    exact absurd rfl hempty

theorem Flow.of_rb {rb : Side → Option Nat} (h : Flow { s with rb := rb } t s') : Flow s t s' := by
  cases h with
  | quiet hring hwritten hlog hshut hdata hnothing =>
    exact .quiet hring hwritten hlog hshut hdata hnothing
  | push data hring hwritten hlog hshut hold hdata hside =>
    exact .push data hring hwritten hlog hshut hold hdata hside
  | pop data hring hwritten hlog hshut hold hdata hside hnothing =>
    exact .pop data hring hwritten hlog hshut hold hdata hside hnothing
  | returned op res hring hwritten hlog hshut hold hdata hnothing hside hend =>
    exact .returned op res hring hwritten hlog hshut hold hdata hnothing hside hend
  | store side hpc hring hwritten hlog hshut hdata hnothing =>
    exact .store side hpc hring hwritten hlog hshut hdata hnothing

/-- **What the atomic steps do to the data.** -/
theorem Flow.of_act (hmoves : (s.pcs t).Moves) (hact : Act cfg s t s') : Flow s t s' := by
  cases hact with
  | selfShut io hpc hshut | peerShut io hpc hshut => exact .finish hpc io _ rfl rfl fun _ _ _ h => by cases h
  | selfWrite io buf hpc hshut hop | selfRead io len hpc hshut hop hlen | peerOpen io hpc hshut hempty
  | polledNone io hpc hreturned hnone | polledSome io hpc hreturned | woken io p hpc hwait
  | left side hpc hreturned | dropDone side hpc hreturned => exact .goto hpc rfl rfl rfl rfl rfl nofun
  | selfEmpty io hpc hop =>
    refine .finish hpc io _ rfl rfl fun len hlen hpos => ?_
    rw [hop] at hlen
    cases hlen
    exact absurd hpos (Nat.lt_irrefl 0)
  | peerEmpty io hpc hempty =>
    refine .finish hpc io _ rfl rfl fun len hlen hpos => ?_
    rw [hlen] at hempty
    exact absurd (beq_iff_eq.mp hempty) (Nat.ne_of_gt hpos)
  | push io buf data hpc hop hdata =>
    have hside : io.side = .producer := by rw [Io.side, hop]; rfl
    have hpcs : ({ s.goto t (.lockRb io data) with ring := s.ring ++ data, written := s.written ++ data } : Sys α).pcs t =
        .lockRb io data := Sys.goto_pcs_self ..
    refine .push data rfl rfl rfl rfl (by rw [hpc]; rfl) ?_ ?_
    · rw [hpcs]; rfl
    · rw [hpc, ← hside]; rfl
  | pop io len hpc hop =>
    have hside : io.side = .consumer := by rw [Io.side, hop]; rfl
    have hpcs : ({ s.goto t (.lockRb io (s.ring.take len)) with ring := s.ring.drop len } : Sys α).pcs t =
        .lockRb io (s.ring.take len) := Sys.goto_pcs_self ..
    refine .pop (s.ring.take len) (take_append_drop len s.ring).symm rfl rfl rfl (by rw [hpc]; rfl) ?_ ?_ ?_
    · rw [hpcs]; rfl
    · rw [hpc, ← hside]; rfl
    · intro hnil
      -- the buffer of the call is not empty
      rw [hpc] at hmoves
      have hlen : io.op.isEmpty = false := hmoves
      rw [hop] at hlen
      exact (take_eq_nil_iff.mp hnil).resolve_left (beq_eq_false_iff_ne.mp hlen)
  | lock io data hpc => exact .goto (r := { s with rb := _ }) hpc rfl rfl rfl rfl rfl id
  | seeBlocked io data hpc hblocked | seeFree io data hpc | del io data p hpc hact
  | peerBlocked io data hpc hblocked | peerFree io data hpc | added io data hpc hreturned
  | unlockRead io data len hpc hop => exact .goto hpc rfl rfl rfl rfl rfl id
  | adding io data p hpc hact | polling io p hpc hact | leaving side p hpc hact
  | dropping side p hpc hact => exact .quiet rfl rfl rfl rfl rfl id
  | unlockWrite io data buf hpc hop => exact .of_rb (.attempted io data (congrArg Pc.data hpc) (congrArg Pc.side hpc))
  | recheckShut io data hpc hshut =>
    refine .finish hpc io _ rfl rfl fun len hop _ hres => ?_
    have hside : io.side.peer = .producer := by rw [Io.side, hop]; rfl
    cases hres
    rw [← hside]
    exact ⟨rfl, hshut⟩
  | recheckOpen io data hpc hshut => exact .attempted io data (by rw [hpc]; rfl) (by rw [hpc]; rfl)
  | dropStore side hpc =>
    refine .store side hpc rfl rfl rfl rfl ?_ ?_
    all_goals rw [Sys.goto_pcs_self]; rfl

theorem interrupt_cases (hstep : step cfg (.interrupt t) s = some s') :
    ∃ io, s.pcs t = .sleep io ∧ s' = s.finish t io .EINTR := by
  unfold step at hstep
  dsimp only at hstep
  split at hstep
  · rename_i io hpc
    exact ⟨io, hpc, (Option.some.inj hstep).symm⟩
  · cases hstep

theorem Flow.interrupt (io : Io α) (hpc : s.pcs t = .sleep io) : Flow s t (s.finish t io .EINTR) := by
  exact .finish hpc io _ rfl rfl fun _ _ _ h => by cases h

end

/-! ## One writer and one reader -/

/-- The writer is thread 0, and the reader thread 1. -/
def Side.thread : Side → Nat
  | .producer => 0
  | .consumer => 1

/-- The writer writes and drops its end, and the reader reads and drops its end. -/
def Action.single : Action α → Bool
  | .call t op _ => t = op.side.thread
  | .drop t side => t = side.thread
  | .act _ | .interrupt _ => true
  | .shutdown _ => false

/-- The action stores the flag of the writer. -/
def Action.endsStream (s : Sys α) : Action α → Bool
  | .act t => match s.pcs t with | .dropShut .producer => true | _ => false
  | _ => false

/-- When the writer sets its flag, the ring is empty, or the reader is not between an empty pop and its look at the
flag. -/
def Settled (s : Sys α) (a : Action α) : Prop :=
  a.single = true ∧ (a.endsStream s = true → (s.pcs 1).foundNothing = true → s.ring.isEmpty = true)

instance (s : Sys α) (a : Action α) : Decidable (Settled s a) :=
  inferInstanceAs (Decidable (_ ∧ _))

structure Kept (s : Sys α) : Prop where
  read : readData s.log ++ (s.pcs 1).data ++ s.ring = s.written
  write : s.written = writeData s.log ++ (s.pcs 0).data
  moves : ∀ t, (s.pcs t).Moves
  threads : ∀ t side, (s.pcs t).side = some side → t = side.thread
  drops : ∀ t side, s.pcs t = .dropShut side → t = side.thread ∧ s.dropped side = true
  closed : s.dropped .producer = true → (s.pcs 0).side = none
  flag : s.shut .producer = true → s.dropped .producer = true
  ended : s.shut .producer = true → (s.pcs 1).foundNothing = true → s.ring = []

theorem Pc.data_of_foundNothing {pc : Pc α} (h : pc.foundNothing = true) : pc.data = [] := by
  cases pc <;> first | exact isEmpty_iff.mp h | cases h

namespace Kept

section

variable (h : Kept s)
include h

/-- A step that moves data as it should. -/
theorem flow (hflow : Flow s t s') (hothers : ∀ u ≠ t, s'.pcs u = s.pcs u)
    (hdropped : s'.dropped = s.dropped) (hmoves : (s'.pcs t).Moves) (hshut : (s'.pcs t).isDropShut = false)
    (hside : (s'.pcs t).side = (s.pcs t).side ∨ (s'.pcs t).side = none)
    (hsettled : s.pcs t = .dropShut .producer → (s.pcs 1).foundNothing = true → s.ring = []) : Kept s' := by
  have hmoves' := forall_of_others (P := fun _ pc => pc.Moves) hothers hmoves h.moves
  have hdrops := forall_of_others (P := fun u pc => ∀ side, pc = .dropShut side → u = side.thread ∧ s.dropped side = true)
    hothers (fun side hpc => by rw [hpc] at hshut; cases hshut) h.drops
  rw [← hdropped] at hdrops
  -- threads keep to their ends, and those that have left an end do not come back to it
  have hsides := forall_of_others (P := fun u pc => pc.side = (s.pcs u).side ∨ pc.side = none) hothers hside
    fun _ => .inl rfl
  have hthreads : ∀ u side, (s'.pcs u).side = some side → u = side.thread := by
    intro u side hu
    rcases hsides u with hsame | hnone
    · exact h.threads u side (hsame ▸ hu)
    · cases hnone.symm.trans hu
  have hclosed : s'.dropped .producer = true → (s'.pcs 0).side = none := by
    intro hd
    rcases hsides 0 with hsame | hnone
    · rw [hsame]
      exact h.closed (hdropped ▸ hd)
    · exact hnone
  have hkept := forall_of_others (P := fun u pc => (s'.pcs t).data = (s.pcs t).data → pc.data = (s.pcs u).data) hothers id
    fun _ _ => rfl
  have hfound : ((s'.pcs t).foundNothing = true → (s.pcs t).foundNothing = true) →
      (s'.pcs 1).foundNothing = true → (s.pcs 1).foundNothing = true := fun hself =>
    forall_of_others (P := fun u pc => pc.foundNothing = true → (s.pcs u).foundNothing = true) hothers hself
      (fun _ => id) 1
  cases hflow with
  | quiet hring hwritten hlog hshut' hdata hnothing =>
    refine ⟨?_, ?_, hmoves', hthreads, hdrops, hclosed, ?_, ?_⟩
    · rw [hlog, hkept 1 hdata, hring, hwritten]
      exact h.read
    · rw [hlog, hkept 0 hdata, hwritten]
      exact h.write
    · rw [hshut', hdropped]
      exact h.flag
    · rw [hshut', hring]
      exact fun hs hn => h.ended hs (hfound hnothing hn)
  | push data hring hwritten hlog hshut' hold hdata hend =>
    obtain rfl : t = 0 := h.threads t .producer hend
    have hone : s'.pcs 1 = s.pcs 1 := hothers 1 nofun
    -- nothing is pushed after the drop
    have hopen : ¬ s.dropped .producer = true := by
      intro hd
      rw [h.closed hd] at hend
      cases hend
    refine ⟨?_, ?_, hmoves', hthreads, hdrops, fun hd => ?_, fun hs => ?_, fun hs => ?_⟩
    · rw [hlog, hone, hring, hwritten, ← h.read]
      simp only [append_assoc]
    · have hwrite := h.write
      rw [hold, append_nil] at hwrite
      rw [hlog, hwritten, hdata, hwrite]
    · exact absurd (hdropped ▸ hd) hopen
    · exact absurd (h.flag (hshut' ▸ hs)) hopen
    · exact absurd (h.flag (hshut' ▸ hs)) hopen
  | pop data hring hwritten hlog hshut' hold hdata hend hnothing =>
    obtain rfl : t = 1 := h.threads t .consumer hend
    have hzero : s'.pcs 0 = s.pcs 0 := hothers 0 nofun
    refine ⟨?_, ?_, hmoves', hthreads, hdrops, hclosed, ?_, fun _ hn => ?_⟩
    · have hread := h.read
      rw [hold, append_nil, hring] at hread
      rw [hlog, hdata, hwritten, ← hread, append_assoc]
    · rw [hlog, hwritten, hzero]
      exact h.write
    · rw [hshut', hdropped]
      exact h.flag
    · have hnil : data = [] := hdata.symm.trans (Pc.data_of_foundNothing hn)
      have hempty := hnothing hnil
      rw [hempty, hnil] at hring
      exact hring.symm
  | returned op res hring hwritten hlog hshut' hold hdata hnothing hop hend =>
    have hthread := h.threads t op.side hop
    refine ⟨?_, ?_, hmoves', hthreads, hdrops, hclosed, ?_, ?_⟩
    · rw [hlog, readData_append, hring, hwritten, ← h.read]
      cases op with
      | read len =>
        obtain rfl : t = 1 := hthread
        rw [hdata, hold]
        simp [Op.side]
      | write buf =>
        obtain rfl : t = 0 := hthread
        rw [hothers 1 nofun]
        simp [Op.side]
    · rw [hlog, writeData_append, hwritten, h.write]
      cases op with
      | read len =>
        obtain rfl : t = 1 := hthread
        rw [hothers 0 nofun]
        simp [Op.side]
      | write buf =>
        obtain rfl : t = 0 := hthread
        rw [hdata, hold]
        simp [Op.side]
    · rw [hshut', hdropped]
      exact h.flag
    · rw [hshut', hring]
      exact fun hs hn => h.ended hs (hfound (by rw [hnothing]; nofun) hn)
  | store side hpc hring hwritten hlog hshut' hdata hnothing =>
    have hdata : (s'.pcs t).data = (s.pcs t).data := by rw [hdata, hpc]; rfl
    obtain ⟨hthread, hdrop⟩ := h.drops t side hpc
    refine ⟨?_, ?_, hmoves', hthreads, hdrops, hclosed, ?_, ?_⟩
    · rw [hlog, hkept 1 hdata, hring, hwritten]
      exact h.read
    · rw [hlog, hkept 0 hdata, hwritten]
      exact h.write
    · rw [hshut', hdropped]
      intro hs
      cases side with
      | producer => exact hdrop
      | consumer => exact h.flag hs
    · rw [hshut', hring]
      intro hs hn
      have hn' := hfound (by rw [hnothing]; nofun) hn
      cases side with
      | producer => exact hsettled hpc hn'
      | consumer => exact h.ended hs hn'

/-- What was returned, what the reader has, and what is in the ring make up what was written. -/
theorem act (hact : s.act cfg t = some s') (hsettled : Settled s (.act t)) : Kept s' := by
  have hact := Act.of_act hact
  have hflow := Flow.of_act (h.moves t) hact
  refine h.flow hflow (fun _ => hact.others) hact.dropped (hact.moves (h.moves t)) hact.not_dropShut hact.side ?_
  intro hpc hnothing
  have hends : (Action.act t : Action α).endsStream s = true := by
    simp only [Action.endsStream, hpc]
  exact isEmpty_iff.mp (hsettled.2 hends hnothing)

theorem interrupt (hstep : step cfg (.interrupt t) s = some s') : Kept s' := by
  obtain ⟨io, hpc, rfl⟩ := interrupt_cases hstep
  refine h.flow (.interrupt io hpc) (fun u hu => ?_) (s.finish_dropped t io _) (s.finish_moves t io _)
    (s.finish_not_dropShut t io _) ?_ fun hdrop => ?_
  · rw [Sys.finish_pcs, update_of_ne hu]
  · rw [hpc]
    exact s.finish_side t io _
  · rw [hpc] at hdrop
    cases hdrop

theorem start {pc : Pc α} {dropped : Side → Bool} (hidle : (s.pcs t).isIdle = true) (hdata : pc.data = [])
    (hmoves : pc.Moves) (hfound : pc.foundNothing = false) (hthread : ∀ side, pc.side = some side → t = side.thread)
    (hdrop : ∀ side, pc = .dropShut side → t = side.thread ∧ dropped side = true)
    (hmore : ∀ d, s.dropped d = true → dropped d = true)
    (hclosed : dropped .producer = true → if t = 0 then pc.side = none else s.dropped .producer = true) :
    Kept ({ s with dropped := dropped }.goto t pc) := by
  have hpc : s.pcs t = .idle := by
    cases hpc : s.pcs t <;> rw [hpc] at hidle <;> first | rfl | cases hidle
  have hpcs : ∀ u, ({ s with dropped := dropped }.goto t pc).pcs u = s.pcs u ∧ u ≠ t ∨
      ({ s with dropped := dropped }.goto t pc).pcs u = pc ∧ u = t := by
    intro u
    by_cases hu : u = t
    · subst hu
      exact .inr ⟨Sys.goto_pcs_self .., rfl⟩
    · exact .inl ⟨Sys.goto_pcs_of_ne _ _ hu, hu⟩
  have hsame : ∀ u, (({ s with dropped := dropped }.goto t pc).pcs u).data = (s.pcs u).data := by
    intro u
    rcases hpcs u with ⟨heq, _⟩ | ⟨heq, rfl⟩
    · rw [heq]
    · rw [heq, hpc, hdata]; rfl
  refine ⟨?_, ?_, fun u => ?_, fun u side hside => ?_, fun u side hshut => ?_, fun hd => ?_, fun hs => hmore _ (h.flag hs),
    fun hs hn => ?_⟩
  · rw [hsame]
    exact h.read
  · rw [hsame]
    exact h.write
  · rcases hpcs u with ⟨heq, _⟩ | ⟨heq, rfl⟩ <;> rw [heq]
    · exact h.moves u
    · exact hmoves
  · rcases hpcs u with ⟨heq, _⟩ | ⟨heq, rfl⟩ <;> rw [heq] at hside
    · exact h.threads u side hside
    · exact hthread side hside
  · rcases hpcs u with ⟨heq, _⟩ | ⟨heq, rfl⟩ <;> rw [heq] at hshut
    · exact ⟨(h.drops u side hshut).1, hmore side (h.drops u side hshut).2⟩
    · exact hdrop side hshut
  · have hd := hclosed hd
    rcases hpcs 0 with ⟨heq, hne⟩ | ⟨heq, rfl⟩ <;> rw [heq]
    · exact h.closed (by rwa [if_neg hne.symm] at hd)
    · exact hd
  · rcases hpcs 1 with ⟨heq, _⟩ | ⟨heq, rfl⟩ <;> rw [heq] at hn
    · exact h.ended hs hn
    · cases hfound.symm.trans hn

theorem call {op : Op α} {nonblocking : Bool} (hstep : step cfg (.call t op nonblocking) s = some s')
    (hthread : t = op.side.thread) : Kept s' := by
  obtain ⟨⟨-, hidle, hopen⟩, ⟨⟩⟩ := Option.ite_none_right_eq_some.mp hstep
  refine h.start hidle rfl trivial rfl (fun side hside => ?_) nofun (fun _ => id) fun hd => ?_
  · cases hside
    exact hthread
  · -- a call on an end that is dropped is not possible
    cases op with
    | write buf => cases hopen.symm.trans hd
    | read len => exact (if_neg (by rw [hthread]; nofun)).mpr hd

theorem drop {side : Side} (hstep : step cfg (.drop t side) s = some s') (hthread : t = side.thread) : Kept s' := by
  obtain ⟨⟨-, hidle, -⟩, ⟨⟩⟩ := Option.ite_none_right_eq_some.mp hstep
  refine h.start hidle rfl trivial rfl nofun (fun d hd => ?_) (fun d hd => ?_) fun hd => ?_
  · cases hd
    exact ⟨hthread, update_self ..⟩
  · by_cases hside : d = side
    · subst hside
      exact update_self ..
    · rw [update_of_ne hside]
      exact hd
  · split
    · rfl
    · cases side with
      | producer => contradiction
      | consumer => exact hd

end

theorem new : Kept (Sys.new : Sys α) := by
  refine ⟨rfl, rfl, fun _ => trivial, ?_, ?_, fun _ => rfl, ?_, ?_⟩ <;> nofun

theorem step {a : Action α} (h : Kept s) (hsettled : Settled s a) (hstep : step cfg a s = some s') : Kept s' := by
  cases a with
  | call t op nonblocking => exact h.call hstep (of_decide_eq_true hsettled.1)
  | act t => exact h.act hstep hsettled
  | interrupt t => exact h.interrupt hstep
  | shutdown side => exact absurd hsettled.1 nofun
  | drop t side => exact h.drop hstep (of_decide_eq_true hsettled.1)

theorem read_end {u len : Nat} (h : Kept s) (hflow : Flow s t s') (hlog : s'.log = s.log ++ [(u, .read len, .ok [])])
    (hlen : 0 < len) : s.shut .producer = true ∧ readData s'.log = s'.written := by
  have hne : s'.log ≠ s.log := by
    rw [hlog]
    simp
  cases hflow with
  | quiet _ _ hsame | push _ _ _ hsame | pop _ _ _ hsame | store _ _ _ _ hsame => exact absurd hsame hne
  | returned op res _ hwritten hlog' _ hold _ _ hside hend =>
    obtain ⟨rfl, rfl, rfl⟩ : t = u ∧ op = .read len ∧ res = .ok [] := by
      simpa using hlog'.symm.trans hlog
    obtain rfl : t = 1 := h.threads t .consumer hside
    obtain ⟨hnothing, hshut⟩ := hend len rfl hlen rfl
    refine ⟨hshut, ?_⟩
    have hread := h.read
    rw [hold, h.ended hshut hnothing] at hread
    rw [hlog, hwritten, readData_append, ← hread]
    simp [Op.side]

end Kept

theorem step_flow {a : Action α} (h : Kept s) (hstep : step cfg a s = some s') :
    s'.log = s.log ∨ ∃ t, Flow s t s' := by
  cases a with
  | act t => exact .inr ⟨t, .of_act (h.moves t) (.of_act hstep)⟩
  | interrupt t =>
    obtain ⟨io, hpc, rfl⟩ := interrupt_cases hstep
    exact .inr ⟨t, .interrupt io hpc⟩
  | call t op nonblocking | drop t side =>
    simp only [step, Option.ite_none_right_eq_some, Option.some.injEq] at hstep
    obtain ⟨_, rfl⟩ := hstep
    exact .inl rfl
  | shutdown side =>
    simp only [step, Option.ite_none_left_eq_some, Option.some.injEq] at hstep
    obtain ⟨_, rfl⟩ := hstep
    exact .inl rfl

/-- **What has been read is the beginning of what was written, and a read returns the end of the stream only when the
writer has gone and everything has been read.** What the writes have accepted is what they returned and what the write
in progress has pushed. -/
theorem stream_kept {cfg : Config} {s : Sys α} (h : Run (step cfg) Settled .new s) :
    readData s.log <+: s.written ∧ s.written = writeData s.log ++ (s.pcs 0).data ∧
      ∀ a s' t len, Settled s a → step cfg a s = some s' → s'.log = s.log ++ [(t, .read len, .ok [])] → 0 < len →
        s.shut .producer = true ∧ readData s'.log = s'.written := by
  have hkept : Kept s := Run.invariant (I := Kept) .new (fun _ _ _ h => h.step) h
  refine ⟨?_, hkept.write, fun a s' t len _ hstep hlog hlen => ?_⟩
  · rw [← hkept.read, List.append_assoc]
    exact List.prefix_append ..
  · rcases step_flow hkept hstep with hsame | ⟨u, hflow⟩
    · rw [hlog] at hsame
      simp at hsame
    · exact hkept.read_end hflow hlog hlen

/-- A byte is written, the writer drops its end, and the second read returns the end of the stream. -/
theorem stream_kept_byte : ∃ s s' : Sys Nat, Run (step ⟨2, 2⟩) Settled .new s ∧
    step ⟨2, 2⟩ (.act 1) s = some s' ∧ s'.log = s.log ++ [(1, .read 4, .ok [])] ∧
    s.shut .producer = true ∧ readData s'.log = s'.written := by
  have hsteps : (stepsMeeting (step ⟨2, 2⟩) Settled
      (.call 0 (.write [7]) false :: List.replicate 10 (.act 0) ++ .drop 0 .producer :: List.replicate 4 (.act 0) ++
        .call 1 (.read 4) false :: List.replicate 11 (.act 1) ++
        .call 1 (.read 4) false :: List.replicate 10 (.act 1)) (Sys.new : Sys Nat)).any (fun s =>
      Settled s (.act 1) ∧ ((step ⟨2, 2⟩ (.act 1) s).map (·.log) = some (s.log ++ [(1, .read 4, .ok [])]))) = true := by
    decide +kernel
  obtain ⟨s, hrun, hsettled, hlog⟩ := Run.checked _ hsteps
  obtain ⟨s', hstep, hlog⟩ := Option.map_eq_some_iff.mp hlog
  exact ⟨s, s', hrun, hstep, hlog, (stream_kept hrun).2.2 _ _ _ _ hsettled hstep hlog (by decide)⟩

/-- The reader pops from an empty ring, the writer writes a byte and drops its end, and the read returns the end of the
stream. -/
theorem stream_cut : ∃ s s' : Sys Nat, Run (step ⟨2, 2⟩) (fun _ a => a.single = true) .new s ∧
    step ⟨2, 2⟩ (.act 1) s = some s' ∧ s'.log = s.log ++ [(1, .read 4, .ok [])] ∧
    readData s'.log = [] ∧ writeData s'.log = [7] ∧ s'.written = [7] := by
  have hsteps : (stepsMeeting (step ⟨2, 2⟩) (fun _ a => a.single = true)
      (.call 1 (.read 4) false :: List.replicate 2 (.act 1) ++ .call 0 (.write [7]) false :: List.replicate 10 (.act 0) ++
        .drop 0 .producer :: .act 0 :: List.replicate 7 (.act 1)) (Sys.new : Sys Nat)).any (fun s =>
      (step ⟨2, 2⟩ (.act 1) s).any fun s' => s'.log = s.log ++ [(1, .read 4, .ok [])] ∧ readData s'.log = [] ∧
        writeData s'.log = [7] ∧ s'.written = [7]) = true := by
    decide +kernel
  obtain ⟨s, hsteps, hnext⟩ := (Option.any_eq_true ..).mp hsteps
  obtain ⟨s', hstep, hcut⟩ := exists_of_any hnext
  exact ⟨s, s', .stepsMeeting .start hsteps, hstep, hcut⟩

end AsterKernel.Channel
