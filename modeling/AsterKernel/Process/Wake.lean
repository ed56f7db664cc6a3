import AsterKernel.Process.ExitWait

/-!
# `Process.Wake` — every zombie is told to its parent

A process that exits wakes the threads that wait in its parent. A process whose parent exits gets the init process as
its parent; if it is a zombie and has looked its parent up already, nobody wakes the threads that wait there.
-/

namespace AsterKernel.Process

open Lib Lib.Comp Tables

variable {s t : Sys} {act : Act} {p c : Nat} {log : List Event}

/-! ## The log -/

/-- The threads of `p` have been woken since `c` became a zombie and a child of `p`. -/
def WokenSince (log : List Event) (p c : Nat) : Prop :=
  ∃ later earlier, log = later ++ .woken p :: earlier ∧
    ∀ event ∈ later, event ≠ .becameZombie c ∧ event ≠ .becameChild p c

theorem WokenSince.now : WokenSince (.woken p :: log) p c := ⟨[], log, rfl, fun _ h => by cases h⟩

theorem WokenSince.append (events : List Event) (h : WokenSince log p c)
    (hne : ∀ event ∈ events, event ≠ .becameZombie c ∧ event ≠ .becameChild p c) :
    WokenSince (events ++ log) p c := by
  obtain ⟨later, earlier, rfl, hlater⟩ := h
  refine ⟨events ++ later, earlier, (List.append_assoc ..).symm, ?_⟩
  intro event hevent
  rcases List.mem_append.mp hevent with hnew | hold
  · exact hne event hnew
  · exact hlater event hold

theorem WokenSince.mem (h : WokenSince log p c) : .woken p ∈ log := by
  obtain ⟨later, earlier, rfl, -⟩ := h
  simp

theorem WokenSince.cons {event : Event} (h : WokenSince log p c) (hzombie : event ≠ .becameZombie c)
    (hchild : event ≠ .becameChild p c) : WokenSince (event :: log) p c := by
  refine h.append [event] ?_
  intro ev hev
  rw [List.mem_singleton.mp hev]
  exact ⟨hzombie, hchild⟩

/-! ## Exits that have still to tell -/

/-- The process is a zombie and its parent is still to be looked up. -/
def ExitPc.beforeLookUp : ExitPc → Bool
  | .marked | .closed | .handedOver => true
  | _ => false

/-- The exit will wake the threads that wait in `p`, if that is its parent. -/
def ExitPc.Tells (p : Nat) (pc : ExitPc) : Prop := pc.beforeLookUp = true ∨ pc = .lookedUp (some p)

/-- A thread of `c` will wake those that wait in `p`. -/
def Sys.Pending (s : Sys) (p c : Nat) : Prop := ∃ e ∈ s.exits, e.pid = c ∧ e.pc.Tells p

/-- Every zombie has been told to its parent, or will be. -/
structure Sys.Told (s : Sys) : Prop where
  kin : Kin s.tables
  exiters : ∀ e ∈ s.exits, (s.tables.processes.get? e.pid).isSome
  told : ∀ p c, (childrenOf s.tables p).contains c = true → isZombie s.tables c = true →
    s.Pending p c ∨ WokenSince s.log p c

/-- No zombie whose exit has looked its parent up is handed over to another parent. -/
def Act.Kept (s : Sys) : Act → Prop
  | .fork _ => s.tables.processes.get? s.tables.nextTid = none
  | .handOver i => ∀ e ∈ s.exits[i]?, ∀ c ∈ s.moved e.pid, isZombie s.tables c = true →
      ∃ e' ∈ s.exits, e'.pid = c ∧ e'.pc.beforeLookUp = true
  | _ => True

instance (s : Sys) (act : Act) : Decidable (act.Kept s) :=
  match act with
  | .fork _ => inferInstanceAs (Decidable (_ = none))
  | .handOver i => inferInstanceAs (Decidable (∀ e ∈ s.exits[i]?, ∀ c ∈ s.moved e.pid, isZombie s.tables c = true →
      ∃ e' ∈ s.exits, e'.pid = c ∧ e'.pc.beforeLookUp = true))
  | .exit _ | .mark _ | .close _ | .lookUp _ | .notify _ | .wait _ | .list _ | .find _ | .remove _ | .reap _
  | .interrupt _ => inferInstanceAs (Decidable True)

theorem Act.Kept.fresh (h : act.Kept s) : act.Fresh s := by
  cases act with
  | fork pid => exact h
  | _ => trivial

variable {i : Nat} {e : Exiter}

/-- A thread goes on with its exit and will tell the same parent. -/
theorem Sys.Pending.set {pc : ExitPc} (h : s.Pending p c) (hi : s.exits[i]? = some e)
    (hpc : e.pid = c → e.pc.Tells p → pc.Tells p) (hexits : t.exits = s.exits.set i { e with pc := pc }) :
    t.Pending p c := by
  obtain ⟨e₀, he₀, hpid, htells⟩ := h
  rcases mem_set_cases { e with pc := pc } hi he₀ with hstill | ⟨rfl, hnew⟩
  · rw [← hexits] at hstill
    exact ⟨e₀, hstill, hpid, htells⟩
  · rw [← hexits] at hnew
    exact ⟨_, hnew, hpid, hpc hpid htells⟩

/-! ## Steps -/

section

variable (h : s.Told)
include h

theorem Sys.Told.keep (hchildren : ∀ p c, (childrenOf t.tables p).contains c = true →
      (childrenOf s.tables p).contains c = true) (hz : ∀ q, isZombie t.tables q = isZombie s.tables q)
    (hexits : ∀ e ∈ s.exits, e ∈ t.exits) (hlog : t.log = s.log) (hc : (childrenOf t.tables p).contains c = true)
    (hzombie : isZombie t.tables c = true) : t.Pending p c ∨ WokenSince t.log p c := by
  rw [hz] at hzombie
  rcases h.told p c (hchildren p c hc) hzombie with ⟨e, he, hpending⟩ | hwoken
  · exact .inl ⟨e, hexits e he, hpending⟩
  · rw [hlog]
    exact .inr hwoken

section

variable (hi : s.exits[i]? = some e)
include hi

theorem Sys.Told.goOn {pc : ExitPc}
    (hpc : e.pid = c → (childrenOf s.tables p).contains c = true → e.pc.Tells p → pc.Tells p)
    (hc : (childrenOf s.tables p).contains c = true) (hzombie : isZombie s.tables c = true) :
    (s.setExit i e pc).Pending p c ∨ WokenSince s.log p c := by
  rcases h.told p c hc hzombie with hpending | hwoken
  · exact .inl (hpending.set hi (fun hpid => hpc hpid hc) rfl)
  · exact .inr hwoken

theorem Sys.Told.mark (hc : (childrenOf (setZombie e.pid e.term s.tables) p).contains c = true)
    (hzombie : isZombie (setZombie e.pid e.term s.tables) c = true) :
    (s.setExit i e .marked).Pending p c ∨ WokenSince (.becameZombie e.pid :: s.log) p c := by
  by_cases hce : c = e.pid
  · -- its own exit is still to tell
    subst hce
    have hlt := (List.getElem?_eq_some_iff.mp hi).1
    exact .inl ⟨_, List.mem_iff_getElem?.mpr ⟨i, List.getElem?_set_self hlt⟩, rfl, .inl rfl⟩
  · rw [childrenOf_setZombie] at hc
    rw [isZombie_setZombie, if_neg hce] at hzombie
    rcases h.told p c hc hzombie with hpending | hwoken
    · refine .inl (hpending.set hi ?_ rfl)
      exact fun hpid => absurd hpid.symm hce
    · refine .inr (hwoken.cons ?_ nofun)
      rintro ⟨⟩
      exact hce rfl

theorem Sys.Told.handOver
    (hkept : ∀ c ∈ s.moved e.pid, isZombie s.tables c = true → ∃ e' ∈ s.exits, e'.pid = c ∧ e'.pc.beforeLookUp = true)
    (hc : (childrenOf (Process.handOver e.pid s.tables) p).contains c = true)
    (hzombie : isZombie (Process.handOver e.pid s.tables) c = true) : (s.setExit i e .handedOver).Pending p c ∨
      WokenSince ((s.moved e.pid).map (Event.becameChild INIT_PROCESS_PID) ++ s.log) p c := by
  have hsome := h.exiters e (List.mem_of_getElem? hi)
  rw [handOver_isZombie] at hzombie
  have hgo : ∀ {p : Nat}, e.pid = c → e.pc.Tells p → ExitPc.handedOver.Tells p := fun _ _ => .inl rfl
  cases hover : handsOver s.tables e.pid with
  | false =>
    rw [handOver_of_not hover] at hc
    have hmoved : s.moved e.pid = [] := by
      unfold Sys.moved
      rw [hover]
      rfl
    rw [hmoved]
    rcases h.told p c hc hzombie with hpending | hwoken
    · exact .inl (hpending.set hi hgo rfl)
    · exact .inr hwoken
  | true =>
    have hmoved : ∀ q, q ∈ s.moved e.pid ↔ (childrenOf s.tables e.pid).contains q = true := by
      intro q
      unfold Sys.moved
      rw [hover]
      exact BTreeSet.mem_toList_iff
    have hinit := h.kin.objects _ (Bool.and_eq_true_iff.mp hover).2
    obtain ⟨hne, hold | ⟨rfl, hnew⟩⟩ := (handOver_children hsome hinit hover c).mp hc
    · rcases h.told p c hold hzombie with hpending | hwoken
      · exact .inl (hpending.set hi hgo rfl)
      · -- a child of another process does not move
        refine .inr (hwoken.append _ ?_)
        intro event hevent
        obtain ⟨q, hq, rfl⟩ := List.mem_map.mp hevent
        refine ⟨nofun, fun heq => ?_⟩
        obtain ⟨-, rfl⟩ := Event.becameChild.inj heq
        have hsame := (h.kin.parent p q hold).symm.trans (h.kin.parent e.pid q ((hmoved q).mp hq))
        exact hne (Option.some.inj hsame)
    · -- a zombie that moves is still to look its parent up
      obtain ⟨e', he', hpid, hbefore⟩ := hkept c ((hmoved c).mpr hnew) hzombie
      exact .inl (Sys.Pending.set ⟨e', he', hpid, .inl hbefore⟩ hi hgo rfl)

theorem Sys.Told.notify {parent : Option Nat} (hpc : e.pc = .lookedUp parent)
    (hc : (childrenOf s.tables p).contains c = true) (hzombie : isZombie s.tables c = true) :
    ((s.notifyParent parent).setExit i e .done).Pending p c ∨ WokenSince (s.notifyParent parent).log p c := by
  by_cases hp : parent = some p
  · subst hp
    exact .inr .now
  · have hexits : ((s.notifyParent parent).setExit i e .done).exits = s.exits.set i { e with pc := .done } := by
      cases parent with
      | none | some q => rfl
    rcases h.told p c hc hzombie with hpending | hwoken
    · refine .inl (hpending.set hi ?_ hexits)
      intro _ htells
      rw [hpc] at htells
      rcases htells with hbefore | hlooked
      · cases hbefore
      · cases hlooked
        exact absurd rfl hp
    · cases parent with
      | none => exact .inr hwoken
      | some q => exact .inr (hwoken.cons nofun nofun)

end

end

/-- What one step does to the zombies that are not told yet. -/
theorem Step.told (h : Step s act t) (hs : s.Told) (hkept : act.Kept s) : t.Told := by
  refine ⟨h.kin hkept.fresh hs.kin hs.exiters, fun e he => h.isSome hkept.fresh (h.exiters hs.exiters e he), ?_⟩
  cases h with
  | @fork pid child u hfork =>
    intro p c hc hzombie
    have hold : isZombie s.tables c = true := (fork_isZombie hfork hkept c).symm.trans hzombie
    have hne : c ≠ child := by
      rintro rfl
      have hsome := isSome_of_isZombie hold
      rw [(fork_ok hfork).1, show s.tables.processes.get? s.tables.nextTid = none from hkept] at hsome
      cases hsome
    rcases (fork_children hfork hkept p c).mp hc with ⟨hin, -⟩ | ⟨-, rfl⟩
    · rcases hs.told p c hin hold with ⟨e, he, hpending⟩ | hwoken
      · exact .inl ⟨e, he, hpending⟩
      · refine .inr (hwoken.cons nofun ?_)
        rintro ⟨⟩
        exact hne rfl
    · exact absurd rfl hne
  | exit =>
    intro p c hc hzombie
    exact hs.keep (fun _ _ hc => hc) (fun _ => rfl) (fun e he => List.mem_append_left _ he) rfl hc hzombie
  | mark hi => exact fun p c => hs.mark hi
  | close hi hpc =>
    intro p c hc hzombie
    exact hs.goOn hi (fun _ _ _ => .inl rfl) hc hzombie
  | @handOver i e hi hpc => exact fun p c => hs.handOver hi (hkept e hi)
  | @lookUp i e hi hpc =>
    intro p c hc hzombie
    refine hs.goOn hi ?_ hc hzombie
    rintro rfl hc -
    rw [hs.kin.parent p e.pid hc]
    exact .inr rfl
  | @notify i e parent hi hpc =>
    intro p c hc hzombie
    cases parent with
    | none | some q => exact hs.notify hi hpc hc hzombie
  | wait | list | find | interrupt => exact fun p c => hs.told p c
  | remove _ _ hrun =>
    obtain ⟨hin, -, rfl⟩ := removeChild_ok hrun
    intro p c hc hzombie
    refine hs.keep (fun p c hc => ((removeChild_children (isSome_of_childrenOf hin) c).mp hc).1) (fun _ => ?_)
      (fun e he => he) rfl hc hzombie
    refine isZombie_updProc_of ?_
    exact fun _ => rfl
  | reap _ _ hrun =>
    have hkin := (removeFromTables_ok hrun).1
    intro p c hc hzombie
    refine hs.keep (fun p c hc => ?_) (fun q => isZombie_kin (congrFun hkin q)) (fun e he => he) rfl hc hzombie
    rw [← childrenOf_kin (congrFun hkin p)]
    exact hc

/-! ## Whole runs -/

/-- The thread is paused, or on its way to find out whether it has to be. -/
def Waiter.waiting (w : Waiter) : Bool :=
  match w.pc with
  | .start | .listed _ | .blocked => true
  | _ => false

/-- Every process with a thread that waits has been woken since the zombies came that the thread waits for, but for
those whose exit is not done. -/
def Sys.WaitersWoken (s : Sys) : Prop :=
  ∀ w ∈ s.waits, w.waiting = true → ∀ c, (childrenOf s.tables w.pid).contains c = true →
    isZombie s.tables c = true → w.filter.test s.tables c = true → (∀ e ∈ s.exits, e.pid = c → e.pc = .done) →
    WokenSince s.log w.pid c

/-- Threads that wait have been woken since a child became a zombie, if every zombie that is handed over has its own
parent still to look up. -/
theorem parent_woken (pid : Nat) (s : Sys) (h : SysReach (fun s act => act.Kept s) pid s) : s.WaitersWoken := by
  have hs : s.Told := by
    refine h.invariant ?_ ?_
    · rintro _ rfl
      refine ⟨boot_kin pid, ?_, ?_⟩
      · exact fun e he => by cases he
      · exact fun p c hc => absurd ((boot_children pid p c).symm.trans hc) nofun
    · rintro u v hu ⟨act, hkept, hstep⟩
      exact hstep.told hu hkept
  intro w hw _ c hc hzombie _ hdone
  rcases hs.told w.pid c hc hzombie with ⟨e, he, hpid, htells⟩ | hwoken
  · rw [hdone e he hpid] at htells
    rcases htells with hbefore | hlooked
    · cases hbefore
    · cases hlooked
  · exact hwoken

/-- A child exits while its parent is blocked. -/
theorem parent_woken_blocked : ∃ s, SysReach (fun s act => act.Kept s) 3 s ∧
    s.waits = [⟨3, .any, ⟨false, false⟩, .start, false⟩] ∧ isZombie s.tables 4 = true ∧ WokenSince s.log 3 4 := by
  have h0 : SysReach (fun s act => act.Kept s) 3 (.boot 3) := .init rfl
  have h1 := h0.next (.fork 3) (.fork rfl)
  have h2 := h1.next (.wait 3) (.wait .any ⟨false, false⟩ rfl)
  have h3 := h2.next (.list 0) (.list rfl rfl)
  have h4 := h3.next (.find 0) (.find rfl rfl)
  have h5 := h4.next (.exit 4) (.exit (.exited 0) rfl rfl)
  have h6 := h5.next (.mark 0) (.mark rfl rfl)
  have h7 := h6.next (.close 0) (.close rfl rfl)
  have h8 := h7.next (.handOver 0) (.handOver rfl rfl)
  have h9 := h8.next (.lookUp 0) (.lookUp rfl rfl)
  have h10 := h9.next (.notify 0) (.notify rfl rfl)
  refine ⟨_, h10, rfl, by decide, ?_⟩
  exact parent_woken 3 _ h10 ⟨3, .any, ⟨false, false⟩, .start, false⟩ (by decide) rfl 4 (by decide) (by decide) rfl
    (by decide)

/-- **The init process is not told about a zombie that it is handed.** The process 4 exits and tells its parent 3, 3
exits, hands 4 over to the init process and tells its parent 2; the init process is blocked all the while. -/
theorem zombie_not_told : ∃ s, SysReach (fun _ _ => True) 1 s ∧
    s.waits = [⟨1, .any, ⟨false, false⟩, .blocked, false⟩] ∧ (childrenOf s.tables 1).contains 4 = true ∧
    s.Finished 4 ∧ s.Finished 3 ∧ ¬ s.WaitersWoken := by
  have h0 : SysReach (fun _ _ => True) 1 (.boot 1) := .init rfl
  have h1 := h0.next (.fork 1) (.fork rfl)
  have h2 := h1.next (.fork 2) (.fork rfl)
  have h3 := h2.next (.fork 3) (.fork rfl)
  have h4 := h3.next (.wait 1) (.wait .any ⟨false, false⟩ rfl)
  have h5 := h4.next (.list 0) (.list rfl rfl)
  have h6 := h5.next (.find 0) (.find rfl rfl)
  have h7 := h6.next (.exit 4) (.exit (.exited 0) rfl rfl)
  have h8 := h7.next (.mark 0) (.mark rfl rfl)
  have h9 := h8.next (.close 0) (.close rfl rfl)
  have h10 := h9.next (.handOver 0) (.handOver rfl rfl)
  have h11 := h10.next (.lookUp 0) (.lookUp rfl rfl)
  have h12 := h11.next (.notify 0) (.notify rfl rfl)
  have h13 := h12.next (.exit 3) (.exit (.exited 0) rfl rfl)
  have h14 := h13.next (.mark 1) (.mark rfl rfl)
  have h15 := h14.next (.close 1) (.close rfl rfl)
  have h16 := h15.next (.handOver 1) (.handOver rfl rfl)
  have h17 := h16.next (.lookUp 1) (.lookUp rfl rfl)
  have h18 := h17.next (.notify 1) (.notify rfl rfl)
  refine ⟨_, h18, rfl, by decide, ⟨by decide, by decide⟩, ⟨by decide, by decide⟩, ?_⟩
  intro hwoken
  have hlog := hwoken ⟨1, .any, ⟨false, false⟩, .blocked, false⟩ (by decide) rfl 4 (by decide) (by decide)
    rfl (by decide)
  exact absurd hlog.mem (by decide)

end AsterKernel.Process
