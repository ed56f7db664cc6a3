import AsterKernel.Lib.Run
import AsterKernel.Poll.Waiter

/-!
# `Channel.Steps` — readers and writers of a channel

A channel is a bounded ring buffer with a pollee at each end. A reader that finds the buffer empty, and a writer that
finds it full, poll the pollee of their end and wait on their poller. Whoever has used the buffer then updates both
pollees: its own event is deleted if its end is blocked, and the event of the peer is added if the peer is not. The lock
that is meant to make this a critical region is released at once, so that it does not appear here; the buffer of the own
end is locked meanwhile.

Threads take one atomic step at a time: a load or a store of a flag, an acquisition of a lock, a look at the buffer, a
push or a pop, or a step of a call of a pollee. A push and a pop have the lock of their end for one step. An end is
dropped when no thread is in a call on it; a `shutdown` without a drop happens at any time before. `written` and
`log` record what the calls have done.
-/

namespace AsterKernel.Channel

open Lib Poll Function

/-! ## Ends -/

/-- `Producer` and `Consumer`. -/
inductive Side where
  | producer
  | consumer
deriving DecidableEq, Repr

namespace Side

def peer : Side → Side
  | producer => consumer
  | consumer => producer

/-- The event of an end that is not blocked. -/
def event : Side → IoEvents
  | producer => .OUT
  | consumer => .IN

/-- The event that the drop of an end adds to the pollee of its peer. -/
def dropEvent : Side → IoEvents
  | producer => .HUP
  | consumer => .ERR

/-- The mask with which `poll` registers. -/
def mask (side : Side) : IoEvents := side.event ||| .ALWAYS_POLL

@[simp] theorem peer_peer (side : Side) : side.peer.peer = side := by cases side <;> rfl

theorem peer_ne (side : Side) : side.peer ≠ side := by cases side <;> nofun

theorem eq_or_eq_peer (side d : Side) : d = side ∨ d = side.peer := by cases side <;> cases d <;> simp [peer]

end Side

/-! ## Calls -/

/-- What is called: `Producer::write` or `Consumer::read` with a buffer. -/
inductive Op (α : Type) where
  | write (buf : List α)
  | read (len : Nat)
deriving DecidableEq

variable {α : Type}

namespace Op

def side : Op α → Side
  | write _ => .producer
  | read _ => .consumer

/-- `buf.is_empty()`. -/
def isEmpty : Op α → Bool
  | write buf => buf.isEmpty
  | read len => len == 0

end Op

/-- A call, in its fast path or in its slow path. -/
structure Io (α : Type) where
  op : Op α
  nonblocking : Bool
  slow : Bool
deriving DecidableEq

def Io.side {α : Type} (io : Io α) : Side := io.op.side

/-- What a call returns; the data is what was accepted or read. -/
inductive Res (α : Type) where
  | ok (data : List α)
  | EPIPE
  | EAGAIN
  | EINTR
deriving DecidableEq

/-- Where a thread is: at its next atomic step. -/
inductive Pc (α : Type) where
  | idle
  -- `try_write` and `try_read`
  | checkSelf (io : Io α)
  | checkPeer (io : Io α)
  | transfer (io : Io α)
  -- `update_pollee`
  | lockRb (io : Io α) (data : List α)
  | seeSelf (io : Io α) (data : List α)
  | del (io : Io α) (data : List α)
  | seePeer (io : Io α) (data : List α)
  | add (io : Io α) (data : List α)
  | unlockRb (io : Io α) (data : List α)
  -- the last look of `try_read` at the flag of the peer
  | recheck (io : Io α) (data : List α)
  -- the slow path, and the drop of its poller
  | poll (io : Io α)
  | sleep (io : Io α)
  | leave (side : Side)
  -- the drop of an end
  | dropShut (side : Side)
  | dropAdd (side : Side)
deriving DecidableEq

namespace Pc

/-- The end on which a thread is in a call. -/
def side : Pc α → Option Side
  | checkSelf io | checkPeer io | transfer io | poll io | sleep io => some io.side
  | lockRb io _ | seeSelf io _ | del io _ | seePeer io _ | add io _ | unlockRb io _ | recheck io _ => some io.side
  | leave side => some side
  | idle | dropShut _ | dropAdd _ => none

def isIdle : Pc α → Bool
  | idle => true
  | _ => false

end Pc

/-! ## The channel -/

structure Config where
  capacity : Nat
  threads : Nat

structure Sys (α : Type) where
  ring : List α
  shut : Side → Bool
  dropped : Side → Bool
  rb : Side → Option Nat
  pollee : Side → Pollee
  pcs : Nat → Pc α
  written : List α
  log : List (Nat × Op α × Res α)

namespace Sys

/-- `Channel::with_capacity`. -/
def new : Sys α where
  ring := []
  shut := fun _ => false
  dropped := fun _ => false
  rb := fun _ => none
  pollee := fun side => match side with | .producer => .new .OUT | .consumer => .new 0
  pcs := fun _ => .idle
  written := []
  log := []

/-- `is_full` for a producer, `is_empty` for a consumer. -/
def blocked (cfg : Config) (s : Sys α) : Side → Bool
  | .producer => cfg.capacity ≤ s.ring.length
  | .consumer => s.ring.isEmpty

def goto (s : Sys α) (t : Nat) (pc : Pc α) : Sys α := { s with pcs := Function.update s.pcs t pc }

def setPollee (s : Sys α) (side : Side) (p : Pollee) : Sys α := { s with pollee := Function.update s.pollee side p }

def request (s : Sys α) (side : Side) (t : Nat) (r : Request) : Sys α := s.setPollee side ((s.pollee side).start t r)

/-- The call returns; the poller of the slow path is dropped. -/
def finish (s : Sys α) (t : Nat) (io : Io α) (res : Res α) : Sys α :=
  let s' := { s with log := s.log ++ [(t, io.op, res)] }
  if io.slow then (s'.request io.side t .drop).goto t (.leave io.side) else s'.goto t .idle

/-- After `EAGAIN` the slow path begins with another attempt, and then polls. -/
def again (s : Sys α) (t : Nat) (io : Io α) : Sys α :=
  if io.nonblocking then s.finish t io .EAGAIN
  else if io.slow then (s.request io.side t (.poll io.side.event)).goto t (.poll io)
  else s.goto t (.checkSelf { io with slow := true })

/-- The result of an attempt that has moved some data. -/
def attempted (s : Sys α) (t : Nat) (io : Io α) (data : List α) : Sys α :=
  if data.isEmpty then s.again t io else s.finish t io (.ok data)

/-- A step of the call of a pollee, which goes to `next` when it has returned. -/
def within (s : Sys α) (t : Nat) (side : Side) (next : Sys α) : Option (Sys α) :=
  if ((s.pollee side).calls t).returned then some next else ((s.pollee side).act t).map (s.setPollee side)

/-- The next atomic step of a thread; `none` when it is in no call or has to wait. -/
def act (cfg : Config) (s : Sys α) (t : Nat) : Option (Sys α) :=
  match s.pcs t with
  | .idle => none
  | .checkSelf io =>
    if s.shut io.side then some (s.finish t io .EPIPE)
    else match io.op with
      | .write _ => some (s.goto t (.checkPeer io))
      | .read len => if len = 0 then some (s.finish t io (.ok [])) else some (s.goto t (.transfer io))
  | .checkPeer io =>
    if s.shut io.side.peer then some (s.finish t io .EPIPE)
    else if io.op.isEmpty then some (s.finish t io (.ok []))
    else some (s.goto t (.transfer io))
  | .transfer io =>
    if (s.rb io.side).isSome then none
    else match io.op with
      | .write buf =>
        let data := buf.take (cfg.capacity - s.ring.length)
        some { s.goto t (.lockRb io data) with ring := s.ring ++ data, written := s.written ++ data }
      | .read len => some { s.goto t (.lockRb io (s.ring.take len)) with ring := s.ring.drop len }
  | .lockRb io data =>
    if (s.rb io.side).isSome then none
    else some { s.goto t (.seeSelf io data) with rb := Function.update s.rb io.side (some t) }
  | .seeSelf io data =>
    if s.blocked cfg io.side then some ((s.request io.side t (.delEvents io.side.event)).goto t (.del io data))
    else some (s.goto t (.seePeer io data))
  | .del io data => ((s.pollee io.side).act t).map fun p => (s.setPollee io.side p).goto t (.seePeer io data)
  | .seePeer io data =>
    if s.blocked cfg io.side.peer then some (s.goto t (.unlockRb io data))
    else some ((s.request io.side.peer t (.addEvents io.side.peer.event)).goto t (.add io data))
  | .add io data => s.within t io.side.peer (s.goto t (.unlockRb io data))
  | .unlockRb io data =>
    let s' := { s with rb := Function.update s.rb io.side none }
    match io.op with
    | .write _ => some (s'.attempted t io data)
    | .read _ => some (s'.goto t (.recheck io data))
  | .recheck io data =>
    if s.shut io.side.peer then some (s.finish t io (.ok data)) else some (s.attempted t io data)
  | .poll io =>
    s.within t io.side
      (if ((s.pollee io.side).polled t).revents? = some 0 then s.goto t (.sleep io) else s.goto t (.checkSelf io))
  | .sleep io => ((s.pollee io.side).wait t).map fun p => (s.setPollee io.side p).goto t (.checkSelf io)
  | .leave side => s.within t side (s.goto t .idle)
  | .dropShut side =>
    some (({ s with shut := Function.update s.shut side true }.request side.peer t (.addEvents side.dropEvent)).goto t
      (.dropAdd side))
  | .dropAdd side => s.within t side.peer (s.goto t .idle)

end Sys

open Sys

/-- What happens next: a call, a step of a thread, a signal that ends a wait, `shutdown`, or the start of a drop. -/
inductive Action (α : Type) where
  | call (t : Nat) (op : Op α) (nonblocking : Bool)
  | act (t : Nat)
  | interrupt (t : Nat)
  | shutdown (side : Side)
  | drop (t : Nat) (side : Side)

def step {α : Type} (cfg : Config) (a : Action α) (s : Sys α) : Option (Sys α) :=
  match a with
  | .call t op nonblocking =>
    if t < cfg.threads ∧ (s.pcs t).isIdle = true ∧ s.dropped op.side = false then
      some (s.goto t (.checkSelf ⟨op, nonblocking, false⟩))
    else none
  | .act t => s.act cfg t
  | .interrupt t =>
    match s.pcs t with
    | .sleep io => some (s.finish t io .EINTR)
    | _ => none
  | .shutdown side =>
    if s.dropped side then none else some { s with shut := Function.update s.shut side true }
  | .drop t side =>
    if t < cfg.threads ∧ (s.pcs t).isIdle = true ∧ s.dropped side = false ∧
        (List.range cfg.threads).all (fun u => (s.pcs u).side ≠ some side) = true then
      some ({ s with dropped := Function.update s.dropped side true }.goto t (.dropShut side))
    else none

/-! ## The steps of a thread -/

variable {cfg : Config} {s s' : Sys α} {t u : Nat}

@[simp] theorem Sys.goto_pcs_self (s : Sys α) (t : Nat) (pc : Pc α) : (s.goto t pc).pcs t = pc :=
  update_self ..

theorem Sys.goto_pcs_of_ne (s : Sys α) (pc : Pc α) (hu : u ≠ t) : (s.goto t pc).pcs u = s.pcs u :=
  update_of_ne hu ..

section

variable (s : Sys α) (t : Nat) (io : Io α) (res : Res α) (data : List α)

@[simp] theorem Sys.finish_ring : (s.finish t io res).ring = s.ring := by unfold finish; split <;> rfl
@[simp] theorem Sys.finish_written : (s.finish t io res).written = s.written := by unfold finish; split <;> rfl
@[simp] theorem Sys.finish_shut : (s.finish t io res).shut = s.shut := by unfold finish; split <;> rfl
@[simp] theorem Sys.finish_dropped : (s.finish t io res).dropped = s.dropped := by unfold finish; split <;> rfl
@[simp] theorem Sys.finish_log : (s.finish t io res).log = s.log ++ [(t, io.op, res)] := by
  unfold finish; split <;> rfl

theorem Sys.finish_pcs : (s.finish t io res).pcs = update s.pcs t (if io.slow then .leave io.side else .idle) := by
  unfold finish
  split <;> rfl

/-- After `EAGAIN` the call returns, or it goes on. -/
theorem Sys.again_cases : s.again t io = s.finish t io .EAGAIN ∨
    s.again t io = (s.request io.side t (.poll io.side.event)).goto t (.poll io) ∨
    s.again t io = s.goto t (.checkSelf { io with slow := true }) := by
  unfold again
  split
  · exact .inl rfl
  · split
    · exact .inr (.inl rfl)
    · exact .inr (.inr rfl)

end

/-- An attempt returns, polls, or goes on in the slow path. -/
theorem Sys.attempted_ind {io : Io α} {data : List α} {P : Sys α → Prop} (hfinish : ∀ res, P (s.finish t io res))
    (hpoll : P ((s.request io.side t (.poll io.side.event)).goto t (.poll io)))
    (hslow : P (s.goto t (.checkSelf { io with slow := true }))) : P (s.attempted t io data) := by
  unfold attempted
  split
  · rcases s.again_cases t io with heq | heq | heq <;> rw [heq]
    · exact hfinish _
    · exact hpoll
    · exact hslow
  · exact hfinish _

inductive Act (cfg : Config) (s : Sys α) (t : Nat) : Sys α → Prop
  | selfShut (io : Io α) (hpc : s.pcs t = .checkSelf io) (hshut : s.shut io.side = true) :
      Act cfg s t (s.finish t io .EPIPE)
  | selfWrite (io : Io α) (buf : List α) (hpc : s.pcs t = .checkSelf io) (hshut : s.shut io.side = false)
      (hop : io.op = .write buf) : Act cfg s t (s.goto t (.checkPeer io))
  | selfEmpty (io : Io α) (hpc : s.pcs t = .checkSelf io) (hop : io.op = .read 0) :
      Act cfg s t (s.finish t io (.ok []))
  | selfRead (io : Io α) (len : Nat) (hpc : s.pcs t = .checkSelf io) (hshut : s.shut io.side = false)
      (hop : io.op = .read len) (hlen : len ≠ 0) : Act cfg s t (s.goto t (.transfer io))
  | peerShut (io : Io α) (hpc : s.pcs t = .checkPeer io) (hshut : s.shut io.side.peer = true) :
      Act cfg s t (s.finish t io .EPIPE)
  | peerEmpty (io : Io α) (hpc : s.pcs t = .checkPeer io) (hempty : io.op.isEmpty = true) :
      Act cfg s t (s.finish t io (.ok []))
  | peerOpen (io : Io α) (hpc : s.pcs t = .checkPeer io) (hshut : s.shut io.side.peer = false)
      (hempty : io.op.isEmpty = false) : Act cfg s t (s.goto t (.transfer io))
  | push (io : Io α) (buf data : List α) (hpc : s.pcs t = .transfer io) (hop : io.op = .write buf)
      (hdata : data = buf.take (cfg.capacity - s.ring.length)) :
      Act cfg s t { s.goto t (.lockRb io data) with ring := s.ring ++ data, written := s.written ++ data }
  | pop (io : Io α) (len : Nat) (hpc : s.pcs t = .transfer io) (hop : io.op = .read len) :
      Act cfg s t { s.goto t (.lockRb io (s.ring.take len)) with ring := s.ring.drop len }
  | lock (io : Io α) (data : List α) (hpc : s.pcs t = .lockRb io data) :
      Act cfg s t { s.goto t (.seeSelf io data) with rb := Function.update s.rb io.side (some t) }
  | seeBlocked (io : Io α) (data : List α) (hpc : s.pcs t = .seeSelf io data)
      (hblocked : s.blocked cfg io.side = true) :
      Act cfg s t ((s.request io.side t (.delEvents io.side.event)).goto t (.del io data))
  | seeFree (io : Io α) (data : List α) (hpc : s.pcs t = .seeSelf io data) : Act cfg s t (s.goto t (.seePeer io data))
  | del (io : Io α) (data : List α) (p : Pollee) (hpc : s.pcs t = .del io data)
      (hact : (s.pollee io.side).act t = some p) :
      Act cfg s t ((s.setPollee io.side p).goto t (.seePeer io data))
  | peerBlocked (io : Io α) (data : List α) (hpc : s.pcs t = .seePeer io data)
      (hblocked : s.blocked cfg io.side.peer = true) : Act cfg s t (s.goto t (.unlockRb io data))
  | peerFree (io : Io α) (data : List α) (hpc : s.pcs t = .seePeer io data) :
      Act cfg s t ((s.request io.side.peer t (.addEvents io.side.peer.event)).goto t (.add io data))
  | adding (io : Io α) (data : List α) (p : Pollee) (hpc : s.pcs t = .add io data)
      (hact : (s.pollee io.side.peer).act t = some p) : Act cfg s t (s.setPollee io.side.peer p)
  | added (io : Io α) (data : List α) (hpc : s.pcs t = .add io data)
      (hreturned : ((s.pollee io.side.peer).calls t).returned = true) : Act cfg s t (s.goto t (.unlockRb io data))
  | unlockWrite (io : Io α) (data buf : List α) (hpc : s.pcs t = .unlockRb io data) (hop : io.op = .write buf) :
      Act cfg s t ({ s with rb := Function.update s.rb io.side none }.attempted t io data)
  | unlockRead (io : Io α) (data : List α) (len : Nat) (hpc : s.pcs t = .unlockRb io data) (hop : io.op = .read len) :
      Act cfg s t ({ s with rb := Function.update s.rb io.side none }.goto t (.recheck io data))
  | recheckShut (io : Io α) (data : List α) (hpc : s.pcs t = .recheck io data) (hshut : s.shut io.side.peer = true) :
      Act cfg s t (s.finish t io (.ok data))
  | recheckOpen (io : Io α) (data : List α) (hpc : s.pcs t = .recheck io data) (hshut : s.shut io.side.peer = false) :
      Act cfg s t (s.attempted t io data)
  | polling (io : Io α) (p : Pollee) (hpc : s.pcs t = .poll io) (hact : (s.pollee io.side).act t = some p) :
      Act cfg s t (s.setPollee io.side p)
  | polledNone (io : Io α) (hpc : s.pcs t = .poll io) (hreturned : ((s.pollee io.side).calls t).returned = true)
      (hnone : ((s.pollee io.side).polled t).revents? = some 0) : Act cfg s t (s.goto t (.sleep io))
  | polledSome (io : Io α) (hpc : s.pcs t = .poll io) (hreturned : ((s.pollee io.side).calls t).returned = true) :
      Act cfg s t (s.goto t (.checkSelf io))
  | woken (io : Io α) (p : Pollee) (hpc : s.pcs t = .sleep io) (hwait : (s.pollee io.side).wait t = some p) :
      Act cfg s t ((s.setPollee io.side p).goto t (.checkSelf io))
  | leaving (side : Side) (p : Pollee) (hpc : s.pcs t = .leave side) (hact : (s.pollee side).act t = some p) :
      Act cfg s t (s.setPollee side p)
  | left (side : Side) (hpc : s.pcs t = .leave side) (hreturned : ((s.pollee side).calls t).returned = true) :
      Act cfg s t (s.goto t .idle)
  | dropStore (side : Side) (hpc : s.pcs t = .dropShut side) :
      Act cfg s t (({ s with shut := Function.update s.shut side true }.request side.peer t
        (.addEvents side.dropEvent)).goto t (.dropAdd side))
  | dropping (side : Side) (p : Pollee) (hpc : s.pcs t = .dropAdd side)
      (hact : (s.pollee side.peer).act t = some p) : Act cfg s t (s.setPollee side.peer p)
  | dropDone (side : Side) (hpc : s.pcs t = .dropAdd side)
      (hreturned : ((s.pollee side.peer).calls t).returned = true) : Act cfg s t (s.goto t .idle)

/-- A step in the middle of a call of a pollee. -/
theorem within_cases {side : Side} {next : Sys α} (h : s.within t side next = some s') :
    ((s.pollee side).calls t).returned = true ∧ s' = next ∨
      ∃ p, (s.pollee side).act t = some p ∧ s' = s.setPollee side p := by
  unfold within at h
  split at h
  · rename_i hreturned
    exact .inl ⟨hreturned, (Option.some.inj h).symm⟩
  · obtain ⟨p, hact, rfl⟩ := Option.map_eq_some_iff.mp h
    exact .inr ⟨p, hact, rfl⟩

/-- **Every step of a thread is one of the atomic steps.** -/
theorem Act.of_act (h : s.act cfg t = some s') : Act cfg s t s' := by
  unfold act at h
  generalize hpc : s.pcs t = pc at h ⊢
  cases pc with
  | idle =>
    cases h
  | checkSelf io =>
    dsimp only at h
    split at h
    · rename_i hshut
      cases h
      exact .selfShut io hpc hshut
    · rename_i hshut
      have hopen := Bool.eq_false_iff.mpr hshut
      cases hop : io.op with
      | write buf =>
        rw [hop] at h
        cases h
        exact .selfWrite io buf hpc hopen hop
      | read len =>
        rw [hop] at h
        dsimp only at h
        split at h
        · rename_i hlen
          subst hlen
          cases h
          exact .selfEmpty io hpc hop
        · rename_i hlen
          cases h
          exact .selfRead io len hpc hopen hop hlen
  | checkPeer io =>
    dsimp only at h
    split at h
    · rename_i hshut
      cases h
      exact .peerShut io hpc hshut
    · rename_i hshut
      split at h
      · rename_i hempty
        cases h
        exact .peerEmpty io hpc hempty
      · rename_i hempty
        cases h
        exact .peerOpen io hpc (Bool.eq_false_iff.mpr hshut) (Bool.eq_false_iff.mpr hempty)
  | transfer io =>
    dsimp only at h
    split at h
    · cases h
    · cases hop : io.op with
      | write buf =>
        rw [hop] at h
        cases h
        exact .push io buf _ hpc hop rfl
      | read len =>
        rw [hop] at h
        cases h
        exact .pop io len hpc hop
  | lockRb io data =>
    dsimp only at h
    split at h
    · cases h
    · cases h
      exact .lock io data hpc
  | seeSelf io data =>
    dsimp only at h
    split at h
    · rename_i hblocked
      cases h
      exact .seeBlocked io data hpc hblocked
    · cases h
      exact .seeFree io data hpc
  | del io data =>
    obtain ⟨p, hact, rfl⟩ := Option.map_eq_some_iff.mp h
    exact .del io data p hpc hact
  | seePeer io data =>
    dsimp only at h
    split at h
    · rename_i hblocked
      cases h
      exact .peerBlocked io data hpc hblocked
    · cases h
      exact .peerFree io data hpc
  | add io data =>
    rcases within_cases h with ⟨hreturned, rfl⟩ | ⟨p, hact, rfl⟩
    · exact .added io data hpc hreturned
    · exact .adding io data p hpc hact
  | unlockRb io data =>
    dsimp only at h
    cases hop : io.op with
    | write buf =>
      rw [hop] at h
      cases h
      exact .unlockWrite io data buf hpc hop
    | read len =>
      rw [hop] at h
      cases h
      exact .unlockRead io data len hpc hop
  | recheck io data =>
    dsimp only at h
    split at h
    · rename_i hshut
      cases h
      exact .recheckShut io data hpc hshut
    · rename_i hshut
      cases h
      exact .recheckOpen io data hpc (Bool.eq_false_iff.mpr hshut)
  | poll io =>
    rcases within_cases h with ⟨hreturned, rfl⟩ | ⟨p, hact, rfl⟩
    · split
      · rename_i hnone
        exact .polledNone io hpc hreturned hnone
      · exact .polledSome io hpc hreturned
    · exact .polling io p hpc hact
  | sleep io =>
    obtain ⟨p, hwait, rfl⟩ := Option.map_eq_some_iff.mp h
    exact .woken io p hpc hwait
  | leave side =>
    rcases within_cases h with ⟨hreturned, rfl⟩ | ⟨p, hact, rfl⟩
    · exact .left side hpc hreturned
    · exact .leaving side p hpc hact
  | dropShut side =>
    cases h
    exact .dropStore side hpc
  | dropAdd side =>
    rcases within_cases h with ⟨hreturned, rfl⟩ | ⟨p, hact, rfl⟩
    · exact .dropDone side hpc hreturned
    · exact .dropping side p hpc hact

/-- A call that has come to move data has a buffer that is not empty. -/
def Pc.Moves : Pc α → Prop
  | transfer io | poll io | sleep io => io.op.isEmpty = false
  | lockRb io _ | seeSelf io _ | del io _ | seePeer io _ | add io _ | unlockRb io _ | recheck io _ =>
    io.op.isEmpty = false
  | _ => True

theorem Sys.finish_moves (s : Sys α) (t : Nat) (io : Io α) (res : Res α) : ((s.finish t io res).pcs t).Moves := by
  rw [finish_pcs, update_self]
  split <;> trivial

theorem Sys.attempted_moves (s : Sys α) (t : Nat) (io : Io α) (data : List α) (hop : io.op.isEmpty = false) :
    ((s.attempted t io data).pcs t).Moves := by
  refine attempted_ind (P := fun u => (u.pcs t).Moves) (s.finish_moves t io) ?_ ?_ <;> rw [goto_pcs_self]
  · exact hop
  · trivial

theorem Act.moves (h : (s.pcs t).Moves) (hact : Act cfg s t s') : (s'.pcs t).Moves := by
  cases hact with
  | selfShut io hpc | selfEmpty io hpc | peerShut io hpc | peerEmpty io hpc
  | recheckShut io data hpc => exact s.finish_moves t io _
  | recheckOpen io data hpc =>
    rw [hpc] at h
    exact s.attempted_moves t io data h
  | unlockWrite io data buf hpc =>
    rw [hpc] at h
    exact attempted_moves _ t io data h
  | selfRead io len hpc _ hop hlen =>
    rw [goto_pcs_self]
    show io.op.isEmpty = false
    rw [hop]
    exact beq_eq_false_iff_ne.mpr hlen
  | peerOpen io hpc _ hempty =>
    rw [goto_pcs_self]
    exact hempty
  | adding io data p hpc | polling io p hpc | leaving side p hpc | dropping side p hpc => exact h
  | push io buf data hpc | pop io len hpc | lock io data hpc =>
    rw [hpc] at h
    show (update s.pcs t _ t).Moves
    rw [update_self]
    exact h
  | selfWrite io buf hpc | polledSome io hpc | woken io p hpc | left side hpc | dropStore side hpc
  | dropDone side hpc => rw [goto_pcs_self]; trivial
  | seeBlocked io data hpc | seeFree io data hpc | del io data p hpc | peerBlocked io data hpc
  | peerFree io data hpc | added io data hpc | unlockRead io data len hpc
  | polledNone io hpc => rw [hpc] at h; rw [goto_pcs_self]; exact h

/-- A step of a thread leaves the others where they are. -/
theorem Sys.attempted_others (s : Sys α) (io : Io α) (data : List α) (hu : u ≠ t) :
    (s.attempted t io data).pcs u = s.pcs u := by
  refine attempted_ind (P := fun v => v.pcs u = s.pcs u) (fun res => ?_) (update_of_ne hu ..) (update_of_ne hu ..)
  rw [finish_pcs, update_of_ne hu]

theorem Act.others (hact : Act cfg s t s') (hu : u ≠ t) : s'.pcs u = s.pcs u := by
  have hfinish : ∀ io res, (s.finish t io res).pcs u = s.pcs u := by
    intro io res
    rw [finish_pcs, update_of_ne hu]
  cases hact with
  | selfShut io | selfEmpty io | peerShut io | peerEmpty io | recheckShut io => exact hfinish io _
  | recheckOpen io data => exact s.attempted_others io data hu
  | unlockWrite io data => exact attempted_others _ io data hu
  | adding | polling | leaving | dropping => rfl
  | _ => exact update_of_ne hu ..

theorem Sys.attempted_ring (s : Sys α) (t : Nat) (io : Io α) (data : List α) : (s.attempted t io data).ring = s.ring :=
  attempted_ind (P := (·.ring = s.ring)) (s.finish_ring t io) rfl rfl

theorem Sys.attempted_dropped (s : Sys α) (t : Nat) (io : Io α) (data : List α) :
    (s.attempted t io data).dropped = s.dropped :=
  attempted_ind (P := (·.dropped = s.dropped)) (s.finish_dropped t io) rfl rfl

theorem Act.dropped (hact : Act cfg s t s') : s'.dropped = s.dropped := by
  cases hact with
  | selfShut io | selfEmpty io | peerShut io | peerEmpty io | recheckShut io => exact s.finish_dropped t io _
  | recheckOpen io data => exact s.attempted_dropped t io data
  | unlockWrite io data => exact attempted_dropped _ t io data
  | _ => rfl

def Pc.isDropShut : Pc α → Bool
  | dropShut _ => true
  | _ => false

theorem Sys.finish_not_dropShut (s : Sys α) (t : Nat) (io : Io α) (res : Res α) :
    ((s.finish t io res).pcs t).isDropShut = false := by
  rw [finish_pcs, update_self]
  split <;> rfl

theorem Sys.attempted_not_dropShut (s : Sys α) (t : Nat) (io : Io α) (data : List α) :
    ((s.attempted t io data).pcs t).isDropShut = false := by
  refine attempted_ind (P := fun u => (u.pcs t).isDropShut = false) (s.finish_not_dropShut t io) ?_ ?_ <;>
    rw [goto_pcs_self] <;> rfl

theorem Act.not_dropShut (hact : Act cfg s t s') : (s'.pcs t).isDropShut = false := by
  cases hact with
  | selfShut io | selfEmpty io | peerShut io | peerEmpty io
  | recheckShut io => exact s.finish_not_dropShut t io _
  | recheckOpen io data => exact s.attempted_not_dropShut t io data
  | unlockWrite io data => exact attempted_not_dropShut _ t io data
  | adding io data p hpc | polling io p hpc | leaving side p hpc
  | dropping side p hpc => exact congrArg Pc.isDropShut hpc
  | _ =>
    show (update s.pcs t _ t).isDropShut = false
    rw [update_self]
    rfl

theorem Sys.finish_side (s : Sys α) (t : Nat) (io : Io α) (res : Res α) :
    ((s.finish t io res).pcs t).side = some io.side ∨ ((s.finish t io res).pcs t).side = none := by
  rw [finish_pcs, update_self]
  split
  · exact .inl rfl
  · exact .inr rfl

theorem Sys.attempted_side (s : Sys α) (t : Nat) (io : Io α) (data : List α) :
    ((s.attempted t io data).pcs t).side = some io.side ∨ ((s.attempted t io data).pcs t).side = none := by
  refine attempted_ind (P := fun u => (u.pcs t).side = some io.side ∨ (u.pcs t).side = none) (s.finish_side t io)
    ?_ ?_ <;> rw [goto_pcs_self] <;> exact .inl rfl

theorem Act.side (hact : Act cfg s t s') : (s'.pcs t).side = (s.pcs t).side ∨ (s'.pcs t).side = none := by
  have hgoto : ∀ {u : Sys α} {pc pc' : Pc α}, s.pcs t = pc → pc'.side = pc.side →
      ((u.goto t pc').pcs t).side = (s.pcs t).side ∨ ((u.goto t pc').pcs t).side = none := by
    intro u pc pc' hpc hside
    rw [hpc, goto_pcs_self]
    exact .inl hside
  cases hact with
  | selfShut io hpc | selfEmpty io hpc | peerShut io hpc | peerEmpty io hpc
  | recheckShut io data hpc => rw [hpc]; exact s.finish_side t io _
  | recheckOpen io data hpc => rw [hpc]; exact s.attempted_side t io data
  | unlockWrite io data buf hpc => rw [hpc]; exact attempted_side _ t io data
  | adding | polling | leaving | dropping => exact .inl rfl
  | left side hpc | dropStore side hpc | dropDone side hpc => rw [goto_pcs_self]; exact .inr rfl
  | push io buf data hpc | pop io len hpc | lock io data hpc =>
    show (update s.pcs t _ t).side = _ ∨ _
    rw [hpc, update_self]
    exact .inl rfl
  | selfWrite io buf hpc | selfRead io len hpc | peerOpen io hpc | seeBlocked io data hpc
  | seeFree io data hpc | del io data p hpc | peerBlocked io data hpc | peerFree io data hpc
  | added io data hpc | unlockRead io data len hpc | polledNone io hpc | polledSome io hpc
  | woken io p hpc => exact hgoto hpc rfl

end AsterKernel.Channel
