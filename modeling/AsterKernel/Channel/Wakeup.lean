import AsterKernel.Channel.Steps

/-!
# `Channel.Wakeup` — sleepers of a channel

A thread sleeps when its `poll` has found no events. It is woken by an event of its mask: by the event of its end, which
is to be set whenever the end is not blocked, or by the event that the drop of the peer adds. Two things go wrong. The
event of an end is deleted after a look at the buffer, and what the peer has set in between is lost. And `shutdown`
stores its flag and adds no event.
-/

namespace AsterKernel.Channel

open Lib Poll Function Sys List Option Bool

variable {α : Type} {cfg : Config} {s s' : Sys α} {t u : Nat}

/-! ## Attempts and wake-ups -/

/-- `try_write` and `try_read`, without interruption. -/
def Sys.tryNow (cfg : Config) (s : Sys α) : Op α → Res α
  | .write buf =>
    if s.shut .producer || s.shut .consumer then .EPIPE
    else if buf.isEmpty then .ok []
    else
      let data := buf.take (cfg.capacity - s.ring.length)
      if data.isEmpty then .EAGAIN else .ok data
  | .read len =>
    if s.shut .consumer then .EPIPE
    else if len = 0 then .ok []
    else
      let data := s.ring.take len
      if s.shut .producer then .ok data
      else if data.isEmpty then .EAGAIN else .ok data

/-- An attempt at an open end that is blocked. -/
theorem Sys.tryNow_EAGAIN {op : Op α} (hop : op.isEmpty = false) (hopen : ∀ d, s.shut d = false)
    (hblocked : s.blocked cfg op.side = true) : s.tryNow cfg op = .EAGAIN := by
  cases op with
  | write buf =>
    have hfull : cfg.capacity - s.ring.length = 0 := Nat.sub_eq_zero_of_le (of_decide_eq_true hblocked)
    have hbuf : buf.isEmpty = false := hop
    simp [tryNow, hopen, hbuf, hfull]
  | read len =>
    have hempty : s.ring = [] := isEmpty_iff.mp hblocked
    have hlen : len ≠ 0 := beq_eq_false_iff_ne.mp hop
    simp [tryNow, hopen, hlen, hempty]

/-- A thread that has still to set the event of an end: it will look at the buffer, or is about to set the event. -/
def Sys.raising (s : Sys α) (d : Side) (u : Nat) : Bool :=
  match s.pcs u with
  | .lockRb io _ | .seeSelf io _ | .del io _ | .seePeer io _ => io.side.peer = d
  | .add io _ => io.side.peer = d && ((s.pollee d).calls u).isAddSet
  | _ => false

/-- A thread that may still wake the sleepers of an end. -/
def Sys.pending (s : Sys α) (d : Side) (u : Nat) : Bool :=
  match s.pcs u with
  | .lockRb io _ | .seeSelf io _ | .del io _ | .seePeer io _ | .add io _ => io.side.peer = d
  | .dropAdd side => side.peer = d
  | _ => false

/-- The thread goes to sleep without another look at the flag of an end. -/
def Pc.committed (d : Side) : Pc α → Bool
  | .checkPeer io => io.slow && io.side = d
  | .transfer io => io.slow && (io.side = d || io.side = .producer)
  | .lockRb io data | .seeSelf io data | .del io data | .seePeer io data | .add io data | .unlockRb io data =>
    io.slow && data.isEmpty && (io.side = d || io.side = .producer)
  | .recheck io data => io.slow && data.isEmpty && io.side = d
  | .poll _ | .sleep _ => true
  | _ => false

/-- The event of an end is deleted only while the end is blocked, or while a thread has still to set it; and `shutdown`
is called only when no thread goes to sleep without another look at the flag. -/
def Careful (cfg : Config) (s : Sys α) : Action α → Bool
  | .act t =>
    match s.pcs t with
    | .del io _ => s.blocked cfg io.side || (List.range cfg.threads).any (s.raising io.side)
    | _ => true
  | .shutdown d => (List.range cfg.threads).all fun u => !(s.pcs u).committed d
  | _ => true

/-! ## The calls of the pollees -/

/-- The pollee in whose call a thread is. -/
def Pc.pollee? : Pc α → Option Side
  | .del io _ | .poll io | .sleep io => some io.side
  | .add io _ => some io.side.peer
  | .leave side => some side
  | .dropAdd side => some side.peer
  | _ => none

/-- Where a thread is in its call of a pollee. -/
def Pc.Inside (t : Nat) (p : Pollee) : Pc α → Prop
  | .del io _ => p.calls t = .delClear io.side.event
  | .add io _ => Adding io.side.peer.event (p.calls t)
  | .poll io => Polling t io.side.mask (p.polled t) (p.calls t) ∧
      ∀ revents, p.polled t = .late io.side.mask revents → p.taken t = false
  | .sleep io => (p.calls t).returned = true ∧ p.polled t = .late io.side.mask 0 ∧ p.taken t = false
  | .leave _ => Dropping t (p.calls t)
  | .dropAdd side => Adding side.dropEvent (p.calls t)
  | _ => True

/-- A thread is in the calls that its program says. -/
structure Fits (s : Sys α) (t : Nat) : Prop where
  inside : ∀ d, (s.pcs t).pollee? = some d → (s.pcs t).Inside t (s.pollee d)
  outside : ∀ d, (s.pcs t).pollee? ≠ some d → ((s.pollee d).calls t).returned = true

theorem Pc.Inside.congr {pc : Pc α} {p p' : Pollee} (h : pc.Inside t p) (hcalls : p'.calls t = p.calls t)
    (hpolled : p'.polled t = p.polled t) (htaken : p'.taken t = p.taken t) : pc.Inside t p' := by
  cases pc <;> first | exact trivial | (simp only [Inside, hcalls, hpolled, htaken] at h ⊢; exact h)

namespace Fits

theorem of_returned (hpc : (s.pcs t).pollee? = none) (h : ∀ d, ((s.pollee d).calls t).returned = true) : Fits s t where
  inside := fun d hd => by rw [hpc] at hd; cases hd
  outside := fun d _ => h d

theorem returned (h : Fits s t) {pc : Pc α} (hpc : s.pcs t = pc) (hnone : pc.pollee? = none) (d : Side) :
    ((s.pollee d).calls t).returned = true :=
  h.outside d (by rw [hpc, hnone]; nofun)

/-- The call in which a thread is has returned. -/
theorem all_returned (h : Fits s t) {pc : Pc α} {d : Side} (hpc : s.pcs t = pc) (hsome : pc.pollee? = some d)
    (hd : ((s.pollee d).calls t).returned = true) (d' : Side) : ((s.pollee d').calls t).returned = true := by
  by_cases heq : d' = d
  · exact heq ▸ hd
  · exact h.outside d' (by rw [hpc, hsome]; exact fun hsome => heq (some.inj hsome).symm)

theorem sleep_returned (h : Fits s t) {io : Io α} (hpc : s.pcs t = .sleep io) (d : Side) :
    ((s.pollee d).calls t).returned = true := by
  have hin := h.inside io.side (by rw [hpc]; rfl)
  rw [hpc] at hin
  exact h.all_returned hpc rfl hin.1 d

theorem request {r : Request} {d : Side} {pc : Pc α} (h : ∀ d, ((s.pollee d).calls t).returned = true)
    (hpc : pc.pollee? = some d) (hin : pc.Inside t ((s.pollee d).start t r)) : Fits ((s.request d t r).goto t pc) t := by
  constructor
  · intro d' hd'
    rw [goto_pcs_self, hpc] at hd'
    cases hd'
    rw [goto_pcs_self]
    show pc.Inside t (update s.pollee d _ d)
    rw [update_self]
    exact hin
  · intro d' hd'
    rw [goto_pcs_self, hpc] at hd'
    show ((update s.pollee d _ d').calls t).returned = true
    rw [update_of_ne fun heq => hd' (congrArg some heq.symm)]
    exact h d'

theorem inner (h : Fits s t) {d : Side} {p : Pollee} (hpc : (s.pcs t).pollee? = some d)
    (hin : (s.pcs t).Inside t p) : Fits (s.setPollee d p) t := by
  constructor
  · intro d' hd'
    obtain rfl := some.inj (hpc.symm.trans hd')
    show (s.pcs t).Inside t (update s.pollee d p d)
    rw [update_self]
    exact hin
  · intro d' hd'
    show ((update s.pollee d p d').calls t).returned = true
    rw [update_of_ne fun heq => hd' (hpc.trans (congrArg some heq.symm))]
    exact h.outside d' hd'

section

variable (h : ∀ d, ((s.pollee d).calls t).returned = true)
include h

theorem finish (io : Io α) (res : Res α) : Fits (s.finish t io res) t := by
  unfold Sys.finish
  split
  · have hcalls : ((s.pollee io.side).start t .drop).calls t = .unregisterLock (.poller t) := update_self ..
    refine .request (s := { s with log := _ }) h rfl ?_
    show Dropping t (((s.pollee io.side).start t .drop).calls t)
    rw [hcalls]
    exact .lock
  · refine .of_returned ?_ h
    rw [Sys.goto_pcs_self]
    rfl

theorem goto {pc : Pc α} (hpc : pc.pollee? = none) : Fits (s.goto t pc) t := by
  refine .of_returned ?_ h
  rw [goto_pcs_self]
  exact hpc

theorem attempted (io : Io α) (data : List α) : Fits (s.attempted t io data) t := by
  refine attempted_ind (P := (Fits · t)) (.finish h io) (.request h rfl ?_) (.goto h rfl)
  have hcalls : ((s.pollee io.side).start t (.poll io.side.event)).calls t = .pollFirst io.side.mask := update_self ..
  have hpolled : ((s.pollee io.side).start t (.poll io.side.event)).polled t = .none := update_self ..
  refine ⟨?_, ?_⟩
  · rw [hcalls]
    exact .first
  · intro revents hlate
    cases hpolled.symm.trans hlate

end

end Fits

/-- What a step of a thread does to the pollees. -/
inductive Touch (t : Nat) (p p' : Side → Pollee) : Prop
  | none (h : p' = p)
  | start (d : Side) (r : Request) (hreturned : ((p d).calls t).returned = true)
      (h : p' = Function.update p d ((p d).start t r))
  | act (d : Side) (q : Pollee) (hact : (p d).act t = some q) (h : p' = Function.update p d q)
  | wait (d : Side) (q : Pollee) (hwait : (p d).wait t = some q) (h : p' = Function.update p d q)

namespace Touch

variable {p p' : Side → Pollee}

section

variable (h : ∀ d, ((s.pollee d).calls t).returned = true) (io : Io α)
include h

theorem finish (res : Res α) : Touch t s.pollee (s.finish t io res).pollee := by
  unfold Sys.finish
  split
  · exact .start io.side .drop (h io.side) rfl
  · exact .none rfl

theorem attempted (data : List α) : Touch t s.pollee (s.attempted t io data).pollee :=
  attempted_ind (P := (Touch t s.pollee ·.pollee)) (.finish h io)
    (.start io.side (.poll io.side.event) (h io.side) rfl) (.none rfl)

end

/-- What holds of every pollee, before and after a step of its calls. -/
theorem each (h : Touch t p p') {P : Side → Pollee → Prop} (hold : ∀ d, P d (p d))
    (hstart : ∀ d r, ((p d).calls t).returned = true → P d ((p d).start t r))
    (hact : ∀ d q, (p d).act t = some q → P d q) (hwait : ∀ d q, (p d).wait t = some q → P d q) (d : Side) :
    P d (p' d) := by
  have hupdate : ∀ {d₁ : Side} {q : Pollee}, P d₁ q → p' = update p d₁ q → P d (p' d) := by
    rintro d₁ q hq rfl
    exact (forall_update_iff p P).mpr ⟨hq, fun d _ => hold d⟩ d
  cases h with
  | none h => exact h ▸ hold d
  | start d₁ r hreturned h => exact hupdate (hstart d₁ r hreturned) h
  | act d₁ q hq h => exact hupdate (hact d₁ q hq) h
  | wait d₁ q hq h => exact hupdate (hwait d₁ q hq) h

theorem others (h : Touch t p p') (hu : u ≠ t) (d : Side) : (p' d).calls u = (p d).calls u ∧
    (p' d).polled u = (p d).polled u ∧ (p' d).taken u = (p d).taken u := by
  refine h.each (P := fun d q => q.calls u = (p d).calls u ∧ q.polled u = (p d).polled u ∧ q.taken u = (p d).taken u)
    (fun _ => ⟨rfl, rfl, rfl⟩) (fun d r _ => ?_) (fun d q hact => ?_) (fun d q hwait => ?_) d
  · cases r with
    | poll m | drop => exact ⟨update_of_ne hu .., update_of_ne hu .., rfl⟩
    | registerObserver n m | unregisterObserver n | addEvents e
    | delEvents e => exact ⟨update_of_ne hu .., rfl, rfl⟩
  · obtain ⟨hcalls, hpolled, _⟩ := (Pollee.act_acted hact).others u hu
    exact ⟨hcalls, hpolled, act_taken_of_ne hact hu⟩
  · obtain rfl := Pollee.wait_eq hwait
    exact ⟨rfl, rfl, update_of_ne hu ..⟩

theorem sound (h : Touch t p p') (hinv : ∀ d, (p d).Inv) (hheard : ∀ d, (p d).Heard) (d : Side) :
    (p' d).Inv ∧ (p' d).Heard :=
  h.each (P := fun _ q => q.Inv ∧ q.Heard) (fun d => ⟨hinv d, hheard d⟩)
    (fun d r hreturned => ⟨(hinv d).start hreturned r, (hheard d).start hreturned r⟩)
    (fun d _ hact => ⟨(hinv d).act hact, (hheard d).act (hinv d) hact⟩)
    (fun d _ hwait => ⟨(hinv d).wait hwait, (hheard d).wait hwait⟩) d

end Touch

/-- **What the atomic steps do to the pollees.** -/
theorem Act.touch (hfits : Fits s t) (hact : Act cfg s t s') : Touch t s.pollee s'.pollee := by
  cases hact with
  | selfShut io hpc | selfEmpty io hpc | peerShut io hpc | peerEmpty io hpc
  | recheckShut io data hpc => exact .finish (hfits.returned hpc rfl) io _
  | recheckOpen io data hpc => exact .attempted (hfits.returned hpc rfl) io data
  | unlockWrite io data buf hpc =>
    exact .attempted (s := { s with rb := update s.rb io.side none }) (hfits.returned hpc rfl) io data
  | seeBlocked io data hpc => exact .start io.side _ (hfits.returned hpc rfl io.side) rfl
  | peerFree io data hpc => exact .start io.side.peer _ (hfits.returned hpc rfl io.side.peer) rfl
  | dropStore side hpc => exact .start side.peer _ (hfits.returned hpc rfl side.peer) rfl
  | del io data p hpc hact | polling io p hpc hact => exact .act io.side p hact rfl
  | adding io data p hpc hact => exact .act io.side.peer p hact rfl
  | leaving side p hpc hact => exact .act side p hact rfl
  | dropping side p hpc hact => exact .act side.peer p hact rfl
  | woken io p hpc hwait => exact .wait io.side p hwait rfl
  | _ => exact .none rfl

variable {mask : IoEvents} {d : Side}

theorem Polling.late {p : Pollee} (hinv : p.Inv) (h : Polling t mask (p.polled t) (p.calls t))
    (hreturned : (p.calls t).returned = true) (hnone : (p.polled t).revents? = some 0) : p.polled t = .late mask 0 := by
  generalize hc : p.calls t = call at h hreturned
  cases h with
  | done h =>
    obtain ⟨revents, hlate | hearly⟩ := h
    · rw [hlate] at hnone ⊢
      rw [some.inj hnone]
    · rw [hearly] at hnone
      exact absurd (some.inj hnone) (hinv.early t mask revents hearly)
  | _ => cases hreturned

/-- **A thread is in the calls that its program says**, after each of its steps. -/
theorem Fits.act (hinv : ∀ d, (s.pollee d).Inv) (hfits : Fits s t) (hact : Act cfg s t s') : Fits s' t := by
  have hin : ∀ {pc : Pc α} {d : Side}, s.pcs t = pc → pc.pollee? = some d → pc.Inside t (s.pollee d) := by
    intro pc d hpc hsome
    subst hpc
    exact hfits.inside d hsome
  cases hact with
  | selfShut io hpc | selfEmpty io hpc | peerShut io hpc | peerEmpty io hpc
  | recheckShut io data hpc => exact .finish (hfits.returned hpc rfl) io _
  | recheckOpen io data hpc => exact .attempted (hfits.returned hpc rfl) io data
  | unlockWrite io data buf hpc =>
    exact .attempted (s := { s with rb := update s.rb io.side none }) (hfits.returned hpc rfl) io data
  | selfWrite io buf hpc | selfRead io len hpc | peerOpen io hpc | seeFree io data hpc
  | peerBlocked io data hpc => exact .goto (hfits.returned hpc rfl) rfl
  | push io buf data hpc =>
    exact .goto (s := { s with ring := s.ring ++ data, written := s.written ++ data }) (hfits.returned hpc rfl) rfl
  | pop io len hpc => exact .goto (s := { s with ring := s.ring.drop len }) (hfits.returned hpc rfl) rfl
  | lock io data hpc =>
    exact .goto (s := { s with rb := update s.rb io.side (some t) }) (hfits.returned hpc rfl) rfl
  | unlockRead io data len hpc =>
    exact .goto (s := { s with rb := update s.rb io.side none }) (hfits.returned hpc rfl) rfl
  | added io data hpc hreturned | left side hpc hreturned | dropDone side hpc hreturned
  | polledSome io hpc hreturned => exact .goto (hfits.all_returned hpc rfl hreturned) rfl
  | seeBlocked io data hpc =>
    exact .request (hfits.returned hpc rfl) rfl (update_self ..)
  | peerFree io data hpc =>
    exact .request (hfits.returned hpc rfl) rfl (Adding.start ..)
  | dropStore side hpc =>
    exact .request (s := { s with shut := _ }) (hfits.returned hpc rfl) rfl (Adding.start ..)
  | del io data p hpc hact =>
    have hcalls := (act_delClear (hin hpc rfl) hact).2
    refine .of_returned ?_ fun d => ?_
    · rw [goto_pcs_self]
      rfl
    · show ((update s.pollee io.side p d).calls t).returned = true
      by_cases hd : d = io.side
      · subst hd
        rw [update_self, hcalls]
        rfl
      · rw [update_of_ne hd]
        exact hfits.outside d (by rw [hpc]; exact fun heq => hd (some.inj heq).symm)
  | adding io data p hpc hact | dropping side p hpc hact =>
    refine hfits.inner (by rw [hpc]; rfl) ?_
    rw [hpc]
    exact Adding.act (hin hpc rfl) hact
  | leaving side p hpc hact =>
    refine hfits.inner (by rw [hpc]; rfl) ?_
    rw [hpc]
    exact (Dropping.act (hin hpc rfl) hact).1
  | polling io p hpc hact =>
    obtain ⟨hpolling, htaken⟩ := hin hpc rfl
    refine hfits.inner (by rw [hpc]; rfl) ?_
    rw [hpc]
    exact ⟨(hpolling.act hact).1, Polling.act_taken hact htaken⟩
  | polledNone io hpc hreturned hnone =>
    obtain ⟨hpolling, htaken⟩ := hin hpc rfl
    have hlate := Polling.late (hinv io.side) hpolling hreturned hnone
    constructor
    · intro d hd
      rw [goto_pcs_self] at hd ⊢
      cases hd
      exact ⟨hreturned, hlate, htaken 0 hlate⟩
    · intro d _
      exact hfits.all_returned hpc rfl hreturned d
  | woken io p hpc hwait =>
    refine .of_returned ?_ fun d => ?_
    · rw [goto_pcs_self]
      rfl
    · have hcalls := congrArg Pollee.calls (Pollee.wait_eq hwait)
      show ((update s.pollee io.side p d).calls t).returned = true
      by_cases hd : d = io.side
      · subst hd
        rw [update_self, hcalls]
        exact hfits.sleep_returned hpc io.side
      · rw [update_of_ne hd]
        exact hfits.sleep_returned hpc d

theorem Fits.other (hfits : Fits s u) (htouch : Touch t s.pollee s'.pollee) (hu : u ≠ t)
    (hpcs : s'.pcs u = s.pcs u) : Fits s' u := by
  constructor
  · intro d hd
    rw [hpcs] at hd ⊢
    obtain ⟨hcalls, hpolled, htaken⟩ := htouch.others hu d
    exact (hfits.inside d hd).congr hcalls hpolled htaken
  · intro d hd
    rw [hpcs] at hd
    rw [(htouch.others hu d).1]
    exact hfits.outside d hd

theorem Fits.delClear (hfits : Fits s t) {events : IoEvents} (h : (s.pollee d).calls t = .delClear events) :
    ∃ io data, s.pcs t = .del io data ∧ d = io.side ∧ events = io.side.event := by
  by_cases hd : (s.pcs t).pollee? = some d
  · have hin := hfits.inside d hd
    generalize hpc : s.pcs t = pc at hd hin
    cases pc with
    | del io data => exact ⟨io, data, rfl, (some.inj hd).symm, Call.delClear.inj (h.symm.trans hin)⟩
    | add io data | dropAdd side =>
      have hin : Adding _ _ := hin
      rw [h] at hin
      cases hin
    | poll io =>
      have hin : Polling _ _ _ _ := hin.1
      rw [h] at hin
      cases hin
    | sleep io =>
      have hin := hin.1
      rw [h] at hin
      cases hin
    | leave side =>
      have hin : Dropping _ _ := hin
      rw [h] at hin
      cases hin
    | _ => cases hd
  · have hret := hfits.outside d hd
    rw [h] at hret
    cases hret

theorem Fits.pending (hfits : Fits s t) {v : Nat} (h : Due v mask ((s.pollee d).calls t)) : s.pending d t = true := by
  by_cases hd : (s.pcs t).pollee? = some d
  · have hin := hfits.inside d hd
    unfold Sys.pending
    generalize s.pcs t = pc at hd hin
    cases pc with
    | del io data =>
      have hin : _ = Call.delClear _ := hin
      rw [hin] at h
      cases h
    | add io data | dropAdd side => exact decide_eq_true (some.inj hd)
    | poll io =>
      have hin : Polling _ _ _ _ := hin.1
      generalize (s.pollee d).calls t = call at h hin
      cases h <;> cases hin
    | sleep io => cases h.not_returned.symm.trans hin.1
    | leave side =>
      have hin : Dropping _ _ := hin
      generalize (s.pollee d).calls t = call at h hin
      cases h <;> cases hin
    | _ => cases hd
  · cases h.not_returned.symm.trans (hfits.outside d hd)

/-- Events stay, except those that a thread deletes at its own end. -/
theorem Touch.bits (htouch : Touch t s.pollee s'.pollee) (hfits : Fits s t) {e : IoEvents}
    (he : (s.pollee d).events &&& e ≠ 0)
    (hdel : ∀ io data, s.pcs t = .del io data → d = io.side → ~~~io.side.event &&& e = e) :
    (s'.pollee d).events &&& e ≠ 0 := by
  refine htouch.each (P := fun d' q => d' = d → q.events &&& e ≠ 0) (fun _ hd => ?_) (fun d' r _ hd => ?_)
    (fun d' p hact hd => ?_) (fun d' p hwait hd => ?_) d rfl <;> subst hd
  · exact he
  · cases r <;> exact he
  · refine act_bits hact he fun events hclear => ?_
    obtain ⟨io, data, hpc, hd, rfl⟩ := hfits.delClear hclear
    exact hdel io data hpc hd
  · obtain rfl := Pollee.wait_eq hwait
    exact he

/-! ## Events of an end -/

theorem Side.event_ne_zero (d : Side) : d.event ≠ 0 := by cases d <;> decide

/-- An end that is not blocked has its event, or a thread has still to set it. -/
def Awake (cfg : Config) (s : Sys α) : Prop :=
  ∀ d, s.blocked cfg d = false → (s.pollee d).events &&& d.event ≠ 0 ∨ ∃ u, s.raising d u = true

theorem Sys.raising_congr (d : Side) (hpcs : s'.pcs u = s.pcs u) (hcalls : (s'.pollee d).calls u = (s.pollee d).calls u) :
    s'.raising d u = s.raising d u := by
  unfold raising
  rw [hpcs, hcalls]

theorem Sys.blocked_congr (cfg : Config) (d : Side) (hring : s'.ring = s.ring) : s'.blocked cfg d = s.blocked cfg d := by
  cases d <;> simp only [blocked, hring]

/-- The thread may be about to set an event. -/
def Pc.raises : Pc α → Bool
  | .lockRb _ _ | .seeSelf _ _ | .del _ _ | .seePeer _ _ | .add _ _ => true
  | _ => false

theorem Sys.raising_of_not_raises {pc : Pc α} (hpc : s.pcs t = pc) (h : pc.raises = false) :
    s.raising d t = false := by
  unfold raising
  rw [hpc]
  cases pc <;> first | rfl | cases h

namespace Awake

theorem step (h : Awake cfg s) (hothers : ∀ u ≠ t, ∀ d, s'.raising d u = s.raising d u)
    (hblocked : ∀ d, s'.blocked cfg d = false → s.blocked cfg d = false ∨ s'.raising d t = true)
    (hbits : ∀ d, (s.pollee d).events &&& d.event ≠ 0 → (s'.pollee d).events &&& d.event ≠ 0)
    (hraise : ∀ d, s.blocked cfg d = false → s.raising d t = true →
      s'.raising d t = true ∨ (s'.pollee d).events &&& d.event ≠ 0) : Awake cfg s' := by
  intro d hd
  rcases hblocked d hd with hfree | hnew
  · rcases h d hfree with hbit | ⟨u, hu⟩
    · exact .inl (hbits d hbit)
    · by_cases hut : u = t
      · subst hut
        exact (hraise d hfree hu).symm.imp_right fun hu => ⟨u, hu⟩
      · exact .inr ⟨u, by rw [hothers u hut]; exact hu⟩
  · exact .inr ⟨t, hnew⟩

/-- The buffer stays, and the thread sets no event. -/
theorem quiet (h : Awake cfg s) (hfits : Fits s t) (htouch : Touch t s.pollee s'.pollee)
    (hothers : ∀ u ≠ t, s'.pcs u = s.pcs u) {pc : Pc α} (hpc : s.pcs t = pc) (hnot : pc.raises = false)
    (hring : s'.ring = s.ring) : Awake cfg s' := by
  refine h.step (t := t) (fun u hu d => raising_congr d (hothers u hu) (htouch.others hu d).1) (fun d hd => .inl ?_)
    (fun d hd => htouch.bits hfits hd fun io data hdel => ?_) fun d _ hraise => ?_
  · rw [← blocked_congr cfg d hring]
    exact hd
  · rw [← hpc, hdel] at hnot
    cases hnot
  · rw [raising_of_not_raises hpc hnot] at hraise
    cases hraise

/-- **An end that is not blocked has its event, or a thread has still to set it**, after each step that does not delete
an event which is due. -/
theorem act (h : Awake cfg s) (hfits : Fits s t) (hact : Act cfg s t s') (hcareful : Careful cfg s (.act t) = true) :
    Awake cfg s' := by
  have hothers : ∀ v ≠ t, ∀ d, s'.raising d v = s.raising d v := fun v hv d =>
    raising_congr d (hact.others hv) ((hact.touch hfits).others hv d).1
  have hbits : ∀ {pc : Pc α}, s.pcs t = pc → (∀ io data, pc ≠ .del io data) → ∀ d,
      (s.pollee d).events &&& d.event ≠ 0 → (s'.pollee d).events &&& d.event ≠ 0 := by
    intro pc hpc hnot d hd
    exact (hact.touch hfits).bits hfits hd fun io data hdel => absurd (hpc.symm.trans hdel) (hnot io data)
  have hquiet : ∀ {pc : Pc α}, s.pcs t = pc → pc.raises = false → s'.ring = s.ring → Awake cfg s' :=
    h.quiet hfits (hact.touch hfits) fun u => hact.others
  -- the buffer stays, and the thread has still to set the event
  have hkeep : ∀ {pc : Pc α}, s.pcs t = pc → (∀ io data, pc ≠ .del io data) → s'.ring = s.ring →
      (∀ d, s.raising d t = true → s'.raising d t = true) → Awake cfg s' := by
    intro pc hpc hnot hring hraise
    refine h.step hothers (fun d hd => .inl ?_) (hbits hpc hnot) fun d _ hr => .inl (hraise d hr)
    rw [← blocked_congr cfg d hring]
    exact hd
  cases hact with
  | selfShut io hpc | selfEmpty io hpc | peerShut io hpc | peerEmpty io hpc
  | recheckShut io data hpc => exact hquiet hpc rfl (s.finish_ring t io _)
  | recheckOpen io data hpc => exact hquiet hpc rfl (s.attempted_ring t io data)
  | unlockWrite io data buf hpc => exact hquiet hpc rfl (attempted_ring _ t io data)
  | selfWrite io buf hpc | selfRead io len hpc | peerOpen io hpc | unlockRead io data len hpc
  | polling io p hpc | polledNone io hpc | polledSome io hpc | woken io p hpc | leaving side p hpc
  | left side hpc | dropStore side hpc | dropping side p hpc | dropDone side hpc => exact hquiet hpc rfl rfl
  | push io buf data hpc hop =>
    refine h.step hothers (fun d hd => ?_) (hbits hpc nofun) fun d _ hraise => ?_
    · cases d with
      | consumer =>
        right
        simp only [raising, goto, update_self, Io.side, hop]
        rfl
      | producer =>
        left
        have hroom := of_decide_eq_false hd
        rw [length_append] at hroom
        exact decide_eq_false (by omega)
    · rw [raising_of_not_raises hpc rfl] at hraise
      cases hraise
  | pop io len hpc hop =>
    refine h.step hothers (fun d hd => ?_) (hbits hpc nofun) fun d _ hraise => ?_
    · cases d with
      | producer =>
        right
        simp only [raising, goto, update_self, Io.side, hop]
        rfl
      | consumer =>
        left
        have hrest : s.ring.drop len ≠ [] := fun hnil => eq_false_iff.mp hd (isEmpty_iff.mpr hnil)
        refine eq_false_iff.mpr fun hempty => hrest ?_
        rw [isEmpty_iff.mp hempty, drop_nil]
    · rw [raising_of_not_raises hpc rfl] at hraise
      cases hraise
  | lock io data hpc | seeBlocked io data hpc | seeFree io data hpc =>
    refine hkeep hpc nofun rfl fun d hr => ?_
    simp only [raising, hpc, goto, update_self] at hr ⊢
    exact hr
  | peerFree io data hpc =>
    refine hkeep hpc nofun rfl fun d hr => ?_
    simp only [raising, hpc, decide_eq_true_eq] at hr
    subst hr
    simp [raising, goto, request, setPollee, Pollee.start, Pollee.put, Call.isAddSet]
  | peerBlocked io data hpc hblocked =>
    refine h.step hothers (fun d hd => .inl hd) (hbits hpc nofun) fun d hd hr => ?_
    simp only [raising, hpc, decide_eq_true_eq] at hr
    subst hr
    cases hblocked.symm.trans hd
  | adding io data p hpc hact =>
    refine h.step hothers (fun d hd => .inl hd) (hbits hpc nofun) fun d _ hr => .inr ?_
    simp only [raising, hpc, and_eq_true, decide_eq_true_eq] at hr
    obtain ⟨rfl, hset⟩ := hr
    have hin := hfits.inside io.side.peer (by rw [hpc]; rfl)
    rw [hpc] at hin
    show (update s.pollee io.side.peer p io.side.peer).events &&& io.side.peer.event ≠ 0
    rw [update_self, Adding.act_set hin hset hact]
    exact Side.event_ne_zero _
  | added io data hpc hreturned =>
    refine h.step hothers (fun d hd => .inl hd) (hbits hpc nofun) fun d _ hr => ?_
    simp only [raising, hpc, and_eq_true, decide_eq_true_eq] at hr
    obtain ⟨rfl, hset⟩ := hr
    obtain ⟨events, heq⟩ := Call.eq_addSet hset
    rw [heq] at hreturned
    cases hreturned
  | del io data p hpc hact =>
    intro d hd
    by_cases hside : d = io.side
    · subst hside
      -- the event is deleted: the end is blocked, or somebody else has still to set it
      simp only [Careful, hpc, or_eq_true] at hcareful
      rcases hcareful with hblocked | hraising
      · cases hblocked.symm.trans hd
      · obtain ⟨u, -, hu⟩ := any_eq_true.mp hraising
        have hut : u ≠ t := by
          rintro rfl
          simp only [raising, hpc, decide_eq_true_eq] at hu
          exact io.side.peer_ne hu
        exact .inr ⟨u, by rw [hothers u hut]; exact hu⟩
    · refine .inr ⟨t, ?_⟩
      have hpeer : io.side.peer = d := ((io.side.eq_or_eq_peer d).resolve_left hside).symm
      simp [raising, goto, hpeer]

end Awake

/-! ## Flags -/

theorem Sys.finish_committed (s : Sys α) (t : Nat) (io : Io α) (res : Res α) (d : Side) :
    ((s.finish t io res).pcs t).committed d = false := by
  rw [finish_pcs, update_self]
  split <;> rfl

theorem Sys.attempted_committed {io : Io α} {data : List α}
    (h : ((s.attempted t io data).pcs t).committed d = true) : io.slow = true ∧ data.isEmpty = true := by
  unfold attempted at h
  split at h
  · rename_i hempty
    refine ⟨?_, hempty⟩
    unfold again at h
    split at h
    · rw [s.finish_committed t io _ d] at h
      cases h
    · split at h
      · assumption
      · rw [goto_pcs_self] at h
        cases h
  · rw [s.finish_committed t io _ d] at h
    cases h

/-- A thread relies on a flag that it has seen unset. -/
theorem Act.committed (hact : Act cfg s t s') (h : (s'.pcs t).committed d = true) :
    (s.pcs t).committed d = true ∨ s.shut d = false := by
  have hfinish : ∀ {io : Io α} {res : Res α} {P : Prop}, ((s.finish t io res).pcs t).committed d = true → P := by
    intro io res P h
    rw [s.finish_committed t io res d] at h
    cases h
  cases hact with
  | selfShut | selfEmpty | peerShut | peerEmpty | recheckShut => exact hfinish h
  | selfWrite io buf hpc hshut hop =>
    rw [goto_pcs_self] at h
    simp only [Pc.committed, and_eq_true, decide_eq_true_eq] at h
    exact .inr (h.2 ▸ hshut)
  | selfRead io len hpc hshut hop =>
    rw [goto_pcs_self] at h
    have hside : io.side = .consumer := by rw [Io.side, hop]; rfl
    simp only [Pc.committed, hside, reduceCtorEq, decide_false, Bool.or_false, Bool.and_eq_true, decide_eq_true_eq] at h
    rw [hside, h.2] at hshut
    exact .inr hshut
  | peerOpen io hpc hshut =>
    rw [goto_pcs_self] at h
    rcases io.side.eq_or_eq_peer d with rfl | rfl
    · left
      simp only [Pc.committed, and_eq_true] at h
      simp [hpc, Pc.committed, h.1]
    · exact .inr hshut
  | recheckOpen io data hpc hshut =>
    obtain ⟨hslow, hempty⟩ := attempted_committed h
    rcases io.side.eq_or_eq_peer d with rfl | rfl
    · left
      simp [hpc, Pc.committed, hslow, hempty]
    · exact .inr hshut
  | unlockWrite io data buf hpc hop =>
    obtain ⟨hslow, hempty⟩ := attempted_committed h
    have hside : io.side = .producer := by rw [Io.side, hop]; rfl
    left
    simp [hpc, Pc.committed, hslow, hempty, hside]
  | unlockRead io data len hpc hop =>
    rw [goto_pcs_self] at h
    simp only [Pc.committed, and_eq_true, decide_eq_true_eq] at h
    left
    simp [hpc, Pc.committed, h]
  | adding | polling | leaving | dropping => exact .inl h
  | push io buf data hpc =>
    have h : (update s.pcs t (.lockRb io data) t).committed d = true := h
    rw [update_self] at h
    simp only [Pc.committed, and_eq_true] at h
    left
    simp only [hpc, Pc.committed, h, Bool.and_self]
  | pop io len hpc =>
    have h : (update s.pcs t (.lockRb io (s.ring.take len)) t).committed d = true := h
    rw [update_self] at h
    simp only [Pc.committed, and_eq_true] at h
    left
    simp only [hpc, Pc.committed, h, Bool.and_self]
  | lock io data hpc =>
    have h : (update s.pcs t (.seeSelf io data) t).committed d = true := h
    rw [update_self] at h
    rw [hpc]
    exact .inl h
  | seeBlocked io data hpc | seeFree io data hpc | del io data p hpc | peerBlocked io data hpc
  | peerFree io data hpc | added io data hpc
  | polledNone io hpc => rw [goto_pcs_self] at h; rw [hpc]; exact .inl h
  | polledSome io hpc | woken io p hpc | left side hpc | dropStore side hpc
  | dropDone side hpc => rw [goto_pcs_self] at h; cases h

theorem Sys.attempted_shut (s : Sys α) (t : Nat) (io : Io α) (data : List α) : (s.attempted t io data).shut = s.shut :=
  attempted_ind (P := (·.shut = s.shut)) (s.finish_shut t io) rfl rfl

theorem Act.shut (hact : Act cfg s t s') : s'.shut = s.shut ∨ ∃ side, s.pcs t = .dropShut side ∧
    s'.shut = update s.shut side true ∧ s'.pcs t = .dropAdd side ∧
      ((s'.pollee side.peer).calls t).isAddSet = true := by
  cases hact with
  | selfShut io | selfEmpty io | peerShut io | peerEmpty io
  | recheckShut io => exact .inl (s.finish_shut t io _)
  | recheckOpen io data => exact .inl (s.attempted_shut t io data)
  | unlockWrite io data => exact .inl (attempted_shut _ t io data)
  | dropStore side hpc =>
    refine .inr ⟨side, hpc, rfl, goto_pcs_self .., ?_⟩
    simp [goto, request, setPollee, Pollee.start, Pollee.put, Call.isAddSet]
  | _ => exact .inl rfl

/-- The drop of an end adds its event, which wakes the sleepers of the peer. -/
def Sys.dropWakes (s : Sys α) (d : Side) : Prop :=
  (s.pollee d.peer).events &&& d.dropEvent ≠ 0 ∨
    ∃ u, s.pcs u = .dropAdd d ∧ ((s.pollee d.peer).calls u).isAddSet = true

/-- Nobody goes to sleep on a flag that is stored, or the drop of the end wakes them. -/
def Ended (s : Sys α) : Prop :=
  ∀ d, s.shut d = true → (∀ u, (s.pcs u).committed d = false) ∨ s.dropped d = true ∧ s.dropWakes d

theorem Side.dropEvent_ne_zero (d : Side) : d.dropEvent ≠ 0 := by cases d <;> decide

/-- The event of a drop stays. -/
theorem Sys.dropWakes.step (h : s.dropWakes d) (hfits : Fits s t) (htouch : Touch t s.pollee s'.pollee)
    (hothers : ∀ u ≠ t, s'.pcs u = s.pcs u)
    (hself : s.pcs t = .dropAdd d → ((s.pollee d.peer).calls t).isAddSet = true → s'.dropWakes d) : s'.dropWakes d := by
  rcases h with hbit | ⟨u, hpc, hset⟩
  · exact .inl (htouch.bits hfits hbit fun io _ _ _ => by cases d <;> cases io.side <;> decide)
  · by_cases hu : u = t
    · subst hu
      exact hself hpc hset
    · refine .inr ⟨u, ?_, ?_⟩
      · rw [hothers u hu, hpc]
      · rw [(htouch.others hu d.peer).1]
        exact hset

theorem Sys.dropWakes.act (h : s.dropWakes d) (hfits : Fits s t) (hact : Act cfg s t s') : s'.dropWakes d := by
  refine h.step hfits (hact.touch hfits) (fun u => hact.others) fun hpc hset => ?_
  have hin := hfits.inside d.peer (by rw [hpc]; rfl)
  rw [hpc] at hin
  have honly : ∀ {pc : Pc α}, s.pcs t = pc → .dropAdd d = pc := fun h => hpc.symm.trans h
  clear hpc
  cases hact with
  | dropping side p hpc hact =>
    obtain rfl : d = side := Pc.dropAdd.inj (honly hpc)
    left
    show (update s.pollee d.peer p d.peer).events &&& d.dropEvent ≠ 0
    rw [update_self, Adding.act_set hin hset hact]
    exact d.dropEvent_ne_zero
  | dropDone side hpc hreturned =>
    obtain rfl : d = side := Pc.dropAdd.inj (honly hpc)
    obtain ⟨events, heq⟩ := Call.eq_addSet hset
    rw [heq] at hreturned
    cases hreturned
  | _ =>
    have hpc := honly ‹_›
    cases hpc

theorem Ended.step (h : Ended s) (hshut : s'.shut = s.shut) (hdropped : ∀ d, s.dropped d = true → s'.dropped d = true)
    (hothers : ∀ u ≠ t, s'.pcs u = s.pcs u)
    (hcommitted : ∀ d, (s'.pcs t).committed d = true → (s.pcs t).committed d = true ∨ s.shut d = false)
    (hwakes : ∀ d, s.dropWakes d → s'.dropWakes d) : Ended s' := by
  intro d hd
  rw [hshut] at hd
  rcases h d hd with hnone | ⟨hdrop, hwake⟩
  · left
    refine forall_of_others (P := fun _ pc => pc.committed d = false) hothers (eq_false_iff.mpr fun hc => ?_) hnone
    rcases hcommitted d hc with hc | hopen
    · cases (hnone t).symm.trans hc
    · cases hopen.symm.trans hd
  · exact .inr ⟨hdropped d hdrop, hwakes d hwake⟩

/-- **Nobody goes to sleep on a flag that is stored, or the drop of the end wakes them.** -/
theorem Ended.act (h : Ended s) (hfits : Fits s t) (hact : Act cfg s t s')
    (hdrops : ∀ side, s.pcs t = .dropShut side → s.dropped side = true) : Ended s' := by
  have hwakes : ∀ d, s.dropWakes d → s'.dropWakes d := fun d hwake => hwake.act hfits hact
  rcases hact.shut with hsame | ⟨side, hpc, hshut, hpc', hset⟩
  · exact h.step hsame (fun d hd => by rw [hact.dropped]; exact hd) (fun u => hact.others) (fun d => hact.committed) hwakes
  · intro d hd
    by_cases hside : d = side
    · subst hside
      right
      rw [hact.dropped]
      exact ⟨hdrops d hpc, .inr ⟨t, hpc', hset⟩⟩
    · rw [hshut, update_of_ne hside] at hd
      have hnone : ∀ d, (s'.pcs t).committed d = false := fun d => by rw [hpc']; rfl
      rcases h d hd with hc | ⟨hdrop, hwake⟩
      · exact .inl (forall_of_others (P := fun _ pc => pc.committed d = false) (fun u => hact.others) (hnone d) hc)
      · right
        rw [hact.dropped]
        exact ⟨hdrop, hwakes d hwake⟩

/-! ## Sleepers -/

structure Waking (cfg : Config) (s : Sys α) : Prop where
  inv : ∀ d, (s.pollee d).Inv
  heard : ∀ d, (s.pollee d).Heard
  fits : ∀ t, Fits s t
  awake : Awake cfg s
  ended : Ended s
  moves : ∀ t, (s.pcs t).Moves
  drops : ∀ t side, s.pcs t = .dropShut side → s.dropped side = true
  closed : ∀ d, s.dropped d = true → ∀ t, (s.pcs t).side ≠ some d
  idle : ∀ t, cfg.threads ≤ t → s.pcs t = .idle

namespace Waking

section

variable (h : Waking cfg s)
include h

theorem step_of (htouch : Touch t s.pollee s'.pollee) (hothers : ∀ u ≠ t, s'.pcs u = s.pcs u)
    (ht : t < cfg.threads) (hfits : Fits s' t) (hawake : Awake cfg s') (hended : Ended s')
    (hmoves : (s'.pcs t).Moves) (hdrops : ∀ side, s'.pcs t = .dropShut side → s'.dropped side = true)
    (hdropped : ∀ d, s.dropped d = true → s'.dropped d = true)
    (hclosed : ∀ d, s'.dropped d = true → ∀ u, (s'.pcs u).side ≠ some d) : Waking cfg s' := by
  have hsound := htouch.sound h.inv h.heard
  refine ⟨fun d => (hsound d).1, fun d => (hsound d).2, fun u => ?_, hawake, hended,
    forall_of_others (P := fun _ pc => pc.Moves) hothers hmoves h.moves,
    forall_of_others (P := fun _ pc => ∀ side, pc = .dropShut side → s'.dropped side = true) hothers hdrops
      fun u side hpc => hdropped side (h.drops u side hpc), hclosed, fun u hu => ?_⟩
  · by_cases hu : u = t
    · exact hu ▸ hfits
    · exact (h.fits u).other htouch hu (hothers u hu)
  · rw [hothers u (by omega)]
    exact h.idle u hu

theorem closed_of (hothers : ∀ u ≠ t, s'.pcs u = s.pcs u)
    (hside : (s'.pcs t).side = (s.pcs t).side ∨ (s'.pcs t).side = none) (hdropped : s'.dropped = s.dropped) :
    ∀ d, s'.dropped d = true → ∀ u, (s'.pcs u).side ≠ some d := by
  intro d hd
  rw [hdropped] at hd
  refine forall_of_others (P := fun _ pc => pc.side ≠ some d) hothers ?_ (h.closed d hd)
  rcases hside with hsame | hnone
  · rw [hsame]
    exact h.closed d hd t
  · rw [hnone]
    nofun

theorem act (hstep : s.act cfg t = some s') (hcareful : Careful cfg s (.act t) = true) : Waking cfg s' := by
  have hact := Act.of_act hstep
  have ht : t < cfg.threads := by
    by_contra hge
    unfold Sys.act at hstep
    rw [h.idle t (Nat.le_of_not_lt hge)] at hstep
    cases hstep
  refine h.step_of (hact.touch (h.fits t)) (fun u => hact.others) ht (.act h.inv (h.fits t) hact)
    (h.awake.act (h.fits t) hact hcareful) (h.ended.act (h.fits t) hact (h.drops t)) (hact.moves (h.moves t))
    (fun side hpc => ?_) (fun d hd => by rw [hact.dropped]; exact hd)
    (h.closed_of (fun u => hact.others) hact.side hact.dropped)
  have hnot := hact.not_dropShut
  rw [hpc] at hnot
  cases hnot

theorem interrupt {io : Io α} (hpc : s.pcs t = .sleep io) : Waking cfg (s.finish t io .EINTR) := by
  have hret := (h.fits t).sleep_returned hpc
  have htouch : Touch t s.pollee (s.finish t io .EINTR).pollee := .finish hret io _
  have hothers : ∀ u ≠ t, (s.finish t io .EINTR).pcs u = s.pcs u := by
    intro u hu
    rw [finish_pcs, update_of_ne hu]
  have ht : t < cfg.threads := by
    by_contra hge
    rw [h.idle t (Nat.le_of_not_lt hge)] at hpc
    cases hpc
  refine h.step_of htouch hothers ht (.finish hret io _)
    (h.awake.quiet (h.fits t) htouch hothers hpc rfl (s.finish_ring t io _)) ?_ (s.finish_moves t io _) (fun side hpc => ?_)
    (fun d hd => by rw [finish_dropped]; exact hd) (h.closed_of hothers ?_ (s.finish_dropped t io _))
  · refine h.ended.step (t := t) (s.finish_shut t io _) (fun d hd => by rw [finish_dropped]; exact hd) hothers
      (fun d hc => ?_) fun d hwake => hwake.step (h.fits t) htouch hothers fun hdrop => ?_
    · rw [s.finish_committed t io _ d] at hc
      cases hc
    · cases hpc.symm.trans hdrop
  · have hnot := s.finish_not_dropShut t io .EINTR
    rw [hpc] at hnot
    cases hnot
  · rw [hpc]
    exact s.finish_side t io _

theorem enter {pc : Pc α} (hidle : s.pcs t = .idle) (ht : t < cfg.threads)
    (hpcs : s'.pcs = update s.pcs t pc) (hpollee : s'.pollee = s.pollee) (hring : s'.ring = s.ring)
    (hshut : s'.shut = s.shut) (hdropped : ∀ d, s.dropped d = true → s'.dropped d = true) (hnone : pc.pollee? = none)
    (hcommitted : ∀ d, pc.committed d = false) (hmoves : pc.Moves)
    (hdrops : ∀ side, pc = .dropShut side → s'.dropped side = true)
    (hclosed : ∀ d, s'.dropped d = true → ∀ u, (s'.pcs u).side ≠ some d) : Waking cfg s' := by
  have hself : s'.pcs t = pc := by rw [hpcs, update_self]
  have hothers : ∀ u ≠ t, s'.pcs u = s.pcs u := fun u hu => by rw [hpcs, update_of_ne hu]
  have htouch : Touch t s.pollee s'.pollee := .none hpollee
  refine h.step_of htouch hothers ht ?_ (h.awake.quiet (h.fits t) htouch hothers hidle rfl hring) ?_
    (by rw [hself]; exact hmoves) (by rw [hself]; exact hdrops) hdropped hclosed
  · refine .of_returned (by rw [hself]; exact hnone) fun d => ?_
    rw [hpollee]
    exact (h.fits t).returned hidle rfl d
  · refine h.ended.step (t := t) hshut hdropped hothers (fun d hc => ?_) fun d hwake =>
      hwake.step (h.fits t) htouch hothers fun hdrop => ?_
    · rw [hself, hcommitted] at hc
      cases hc
    · cases hidle.symm.trans hdrop

end

theorem new : Waking cfg (new : Sys α) where
  inv := fun d => by cases d <;> exact .new _
  heard := fun d => by cases d <;> exact .new _
  fits := fun t => .of_returned rfl fun d => by cases d <;> rfl
  awake := by
    intro d hd
    cases d with
    | producer => exact .inl (show IoEvents.OUT &&& IoEvents.OUT ≠ 0 by decide)
    | consumer => cases hd
  ended := nofun
  moves := fun _ => trivial
  drops := nofun
  closed := nofun
  idle := fun _ _ => rfl

theorem shutdown (h : Waking cfg s) (hnone : ∀ u, (s.pcs u).committed d = false) :
    Waking cfg { s with shut := update s.shut d true } := by
  refine ⟨h.inv, h.heard, fun t => ⟨(h.fits t).inside, (h.fits t).outside⟩, h.awake, fun d' hd' => ?_, h.moves, h.drops,
    h.closed, h.idle⟩
  by_cases heq : d' = d
  · subst heq
    exact .inl hnone
  · exact h.ended d' ((update_of_ne heq ..).symm.trans hd')

theorem step {a : Action α} (h : Waking cfg s) (hcareful : Careful cfg s a = true) (hstep : step cfg a s = some s') :
    Waking cfg s' := by
  have hidle : ∀ {t : Nat}, (s.pcs t).isIdle = true → s.pcs t = .idle := by
    intro t hidle
    cases hpc : s.pcs t <;> rw [hpc] at hidle <;> first | rfl | cases hidle
  cases a with
  | act t => exact h.act hstep hcareful
  | interrupt t =>
    simp only [Channel.step] at hstep
    split at hstep
    · rename_i io hpc
      cases hstep
      exact h.interrupt hpc
    · cases hstep
  | call t op nonblocking =>
    simp only [Channel.step, ite_none_right_eq_some, some.injEq] at hstep
    obtain ⟨⟨ht, hpc, hopen⟩, rfl⟩ := hstep
    refine h.enter (hidle hpc) ht rfl rfl rfl rfl (fun _ hd => hd) rfl (fun _ => rfl) trivial nofun fun d hd u => ?_
    by_cases hu : u = t
    · subst hu
      rw [goto_pcs_self]
      intro hside
      obtain rfl : op.side = d := some.inj hside
      cases hopen.symm.trans hd
    · rw [goto_pcs_of_ne _ _ hu]
      exact h.closed d hd u
  | shutdown d =>
    simp only [Channel.step, ite_none_left_eq_some, some.injEq] at hstep
    obtain ⟨-, rfl⟩ := hstep
    refine h.shutdown fun u => ?_
    by_cases hu : u < cfg.threads
    · simpa using all_eq_true.mp hcareful u (mem_range.mpr hu)
    · rw [h.idle u (Nat.le_of_not_lt hu)]
      rfl
  | drop t side =>
    simp only [Channel.step, ite_none_right_eq_some, some.injEq] at hstep
    obtain ⟨⟨ht, hpc, hopen, hleft⟩, rfl⟩ := hstep
    have hdropped : ∀ d, s.dropped d = true → update s.dropped side true d = true := by
      intro d hd
      by_cases heq : d = side
      · rw [heq, update_self]
      · rw [update_of_ne heq]
        exact hd
    refine h.enter (hidle hpc) ht rfl rfl rfl rfl hdropped rfl (fun _ => rfl) trivial (fun d hd => ?_) fun d hd u => ?_
    · cases hd
      exact update_self ..
    · by_cases hu : u = t
      · subst hu
        rw [goto_pcs_self]
        nofun
      · rw [goto_pcs_of_ne _ _ hu]
        by_cases heq : d = side
        · subst heq
          -- no thread is in a call on the end
          by_cases hlt : u < cfg.threads
          · exact of_decide_eq_true (all_eq_true.mp hleft u (mem_range.mpr hlt))
          · show (s.pcs u).side ≠ some d
            rw [h.idle u (Nat.le_of_not_lt hlt)]
            nofun
        · exact h.closed d ((update_of_ne heq ..).symm.trans hd) u

theorem no_events (h : Waking cfg s) {io : Io α} (hpc : s.pcs t = .sleep io)
    (hcounter : (s.pollee io.side).counter t = 0) (hpending : ∀ u, s.pending io.side u = false) :
    (s.pollee io.side).events &&& io.side.mask = 0 := by
  have hin := (h.fits t).inside io.side (by rw [hpc]; rfl)
  rw [hpc] at hin
  obtain ⟨_, hlate, htaken⟩ := hin
  by_contra hevents
  rcases h.heard io.side t io.side.mask hlate htaken hevents with hpos | ⟨u, hdue⟩
  · omega
  · cases (hpending u).symm.trans ((h.fits u).pending hdue)

end Waking

theorem and_eq_zero_of_mask {events e : IoEvents} (h : events &&& mask = 0) (he : mask &&& e = e) :
    events &&& e = 0 := by
  rw [← he, ← BitVec.and_assoc, h]
  exact BitVec.zero_and

theorem Sys.pending_of_raising (h : s.raising d u = true) : s.pending d u = true := by
  unfold raising at h
  unfold pending
  generalize s.pcs u = pc at h
  cases pc with
  | add io data => exact (and_eq_true_iff.mp h).1
  | lockRb | seeSelf | del | seePeer => exact h
  | _ => cases h

/-- A thread that sleeps without a pending wake-up has nothing to do, if no event is deleted from an end that has come
free, and no flag is stored without a drop while a thread relies on it. -/
theorem not_stranded (h : Run (step cfg) (fun s a => Careful cfg s a = true) .new s) {io : Io α}
    (hpc : s.pcs t = .sleep io) (hcounter : (s.pollee io.side).counter t = 0)
    (hpending : ∀ u < cfg.threads, s.pending io.side u = false) : s.tryNow cfg io.op = .EAGAIN := by
  have hwaking : Waking cfg s := Run.invariant (I := Waking cfg) .new (fun _ _ _ h => h.step) h
  have hpending : ∀ u, s.pending io.side u = false := by
    intro u
    by_cases hu : u < cfg.threads
    · exact hpending u hu
    · unfold Sys.pending
      rw [hwaking.idle u (Nat.le_of_not_lt hu)]
  have hevents := hwaking.no_events hpc hcounter hpending
  refine Sys.tryNow_EAGAIN ?_ (fun d => ?_) ?_
  · have hmoves := hwaking.moves t
    rw [hpc] at hmoves
    exact hmoves
  · refine Bool.eq_false_iff.mpr fun hshut => ?_
    rcases hwaking.ended d hshut with hnone | ⟨hdropped, hwakes⟩
    · have hc := hnone t
      rw [hpc] at hc
      cases hc
    · -- the peer has dropped its end
      have hside : (s.pcs t).side = some io.side := by rw [hpc]; rfl
      have hpeer : d = io.side.peer := by
        refine (io.side.eq_or_eq_peer d).resolve_left fun hself => ?_
        exact hwaking.closed d hdropped t (hself ▸ hside)
      subst hpeer
      unfold Sys.dropWakes at hwakes
      rw [Side.peer_peer] at hwakes
      rcases hwakes with hbit | ⟨u, hu, _⟩
      · exact hbit (and_eq_zero_of_mask hevents (by cases io.side <;> decide))
      · have hp := hpending u
        simp [Sys.pending, hu] at hp
  · refine (Bool.eq_false_or_eq_true _).resolve_right fun hfree => ?_
    rcases hwaking.awake io.side hfree with hbit | ⟨u, hraising⟩
    · exact hbit (and_eq_zero_of_mask hevents (by cases io.side <;> decide))
    · cases (hpending u).symm.trans (Sys.pending_of_raising hraising)

/-- A reader has read what was written and sleeps at the empty buffer. -/
theorem not_stranded_empty : ∃ s : Sys Nat, Run (step ⟨2, 2⟩) (fun s a => Careful ⟨2, 2⟩ s a = true) .new s ∧
    s.pcs 1 = .sleep ⟨.read 4, false, true⟩ ∧ s.tryNow ⟨2, 2⟩ (.read 4) = .EAGAIN := by
  obtain ⟨s, hrun, hpc, hcounter, hpending⟩ : ∃ s : Sys Nat, Run (step ⟨2, 2⟩) (fun s a => Careful ⟨2, 2⟩ s a = true)
      .new s ∧ s.pcs 1 = .sleep ⟨.read 4, false, true⟩ ∧ (s.pollee .consumer).counter 1 = 0 ∧
        ∀ u < 2, s.pending .consumer u = false := by
    refine Run.checked (.call 0 (.write [7]) false :: List.replicate 10 (.act 0) ++
      .call 1 (.read 4) false :: List.replicate 11 (.act 1) ++ .call 1 (.read 4) false :: List.replicate 29 (.act 1)) ?_
    decide +kernel
  exact ⟨s, hrun, hpc, not_stranded hrun hpc hcounter hpending⟩

/-- **A reader sleeps while there is data**: a byte is written after the reader has found the buffer empty, and before it
deletes its event. **And a reader sleeps at the end of the stream**: the writer's flag is stored by `shutdown` after the
reader has gone to sleep. -/
theorem stranded :
    (∃ s : Sys Nat, Run (step ⟨2, 2⟩) (fun _ _ => True) .new s ∧ s.pcs 1 = .sleep ⟨.read 4, false, true⟩ ∧
      (s.pollee .consumer).counter 1 = 0 ∧ (∀ u < 2, s.pending .consumer u = false) ∧
      s.tryNow ⟨2, 2⟩ (.read 4) = .ok [7]) ∧
    ∃ s : Sys Nat, Run (step ⟨2, 2⟩) (fun _ _ => True) .new s ∧ s.pcs 1 = .sleep ⟨.read 4, false, true⟩ ∧
      (s.pollee .consumer).counter 1 = 0 ∧ (∀ u < 2, s.pending .consumer u = false) ∧
      s.tryNow ⟨2, 2⟩ (.read 4) = .ok [] := by
  constructor
  · refine Run.checked (.call 1 (.read 4) false :: List.replicate 15 (.act 1) ++
      .call 0 (.write [7]) false :: List.replicate 10 (.act 0) ++ List.replicate 14 (.act 1)) ?_
    decide +kernel
  · refine Run.checked (.call 1 (.read 4) false :: List.replicate 29 (.act 1) ++ [.shutdown .producer]) ?_
    decide +kernel

end AsterKernel.Channel
