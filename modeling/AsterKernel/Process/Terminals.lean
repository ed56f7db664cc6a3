import AsterKernel.Lib.Run
import AsterKernel.Process.Groups

/-!
# `Process.Terminals` — controlling terminals of sessions

A session has its controlling terminal, and the job control of a terminal has a weak link to its session. A session
leader acquires a terminal with `set_current_session`, which writes both sides, and gives it up with
`release_current_session`, which clears the side of the session and leaves the link of the terminal. The link can be
upgraded as long as the session is in the session table, so the terminal stays taken.

The first process has the terminal `N_TTY`. A new session has no terminal. Signals are not in
this state.
-/

namespace AsterKernel.Process

open Lib Lib.Comp Function

/-! ## Sessions that come up -/

namespace Tables

variable {s t u : Tables} {pid g σ : Nat}

/-- Sessions that are alive were alive before, or are new. -/
structure Grows (s t : Tables) : Prop where
  next : s.nextSession ≤ t.nextSession
  alive : ∀ σ, t.sessionAlive σ = true → s.sessionAlive σ = true ∨ s.nextSession ≤ σ ∧ σ < t.nextSession

theorem Grows.refl (s : Tables) : Grows s s := ⟨le_rfl, fun _ h => .inl h⟩

theorem Grows.trans (s t u : Tables) (h : Grows s t) (h' : Grows t u) : Grows s u := by
  refine ⟨h.next.trans h'.next, fun σ hσ => ?_⟩
  rcases h'.alive σ hσ with hσ | ⟨hge, hlt⟩
  · rcases h.alive σ hσ with hσ | ⟨hge, hlt⟩
    · exact .inl hσ
    · exact .inr ⟨hge, lt_of_lt_of_le hlt h'.next⟩
  · exact .inr ⟨h.next.trans hge, hlt⟩

theorem sessionAlive_iff : s.sessionAlive σ = true ↔ ∃ k, (k, σ) ∈ s.sessionTable.entries := by
  simp [sessionAlive]

/-- The session table loses sessions at most. -/
theorem Grows.of_subset (hnext : t.nextSession = s.nextSession)
    (hsub : ∀ e ∈ t.sessionTable.entries, e ∈ s.sessionTable.entries) : Grows s t := by
  refine ⟨le_of_eq hnext.symm, fun σ hσ => .inl ?_⟩
  obtain ⟨k, hk⟩ := sessionAlive_iff.mp hσ
  exact sessionAlive_iff.mpr ⟨k, hsub _ hk⟩

theorem Grows.of_eq (hnext : t.nextSession = s.nextSession) (htable : t.sessionTable = s.sessionTable) : Grows s t :=
  .of_subset hnext fun _ he => htable ▸ he

theorem updProc_grows (pid : Nat) (f : Proc → Proc) (s : Tables) : Grows s (s.updProc pid f) := by
  unfold updProc
  split
  · exact .of_eq rfl rfl
  · exact .refl s

theorem setLink_grows {pid : Nat} {g : Option Nat} (h : Grows s t) : Grows s (setLink pid g t) :=
  h.trans _ _ _ (updProc_grows ..)

theorem leave_grows (keep : Bool) (pid g σ : Nat) (s : Tables) : Grows s (leave keep pid g σ s) := by
  have hdrop : Grows s (setLink pid none (s.updGroup g (Group.removeProcess pid))) := setLink_grows (.of_eq rfl rfl)
  refine hdrop.trans _ _ _ ?_
  unfold leave
  dsimp only
  split
  · split
    · exact .of_subset rfl fun e he => (List.mem_filter.mp he).1
    · exact .of_eq rfl rfl
  · exact .refl _

theorem join_grows (pid g : Nat) (s : Tables) : Grows s (join pid g s) := setLink_grows (.of_eq rfl rfl)

theorem newGroup_grows (pid σ : Nat) (s : Tables) : Grows s (newGroup pid σ s) := by
  unfold newGroup
  dsimp only
  refine .trans s (setLink pid (some s.nextGroup) _) _ ?_ (.of_eq rfl rfl)
  exact setLink_grows (.of_eq rfl rfl)

theorem newSession_grows (pid : Nat) (s : Tables) : Grows s (newSession pid s) := by
  refine setLink_grows ⟨Nat.le_succ _, fun σ hσ => ?_⟩
  obtain ⟨k, hk⟩ := sessionAlive_iff.mp hσ
  rcases BTreeMap.mem_insertList hk with heq | hold
  · obtain rfl : σ = s.nextSession := congrArg Prod.snd heq
    exact .inr ⟨le_rfl, Nat.lt_succ_self _⟩
  · exact .inl (sessionAlive_iff.mpr ⟨k, hold⟩)

variable {α : Type} {c : Comp Tables Error α} {f : Unit → Comp Tables Error α}

theorem Grows.reads (h : Reads c) : Moves Grows c := h.moves Grows.refl

theorem Grows.bind {β : Type} {f : α → Comp Tables Error β} (hc : Moves Grows c)
    (hf : ∀ a, Moves Grows (f a)) : Moves Grows (c >>= f) := hc.bind Grows.trans hf

theorem Grows.get {f : Tables → Comp Tables Error α} (hf : ∀ s, Moves Grows (f s)) :
    Moves Grows (Comp.get >>= f) := Grows.bind (.reads .get) hf

theorem Grows.expect {β : Type} {v : Option α} {f : α → Comp Tables Error β} (hf : ∀ a, Moves Grows (f a)) :
    Moves Grows (Comp.expect v >>= f) := Grows.bind (.reads (.expect v)) hf

theorem Grows.guard {b : Bool} {e : Error} (hf : ∀ a, Moves Grows (f a)) :
    Moves Grows (when b (fail e) >>= f) := Grows.bind (.reads (.when (.fail e))) hf

theorem Grows.modify {g : Tables → Tables} (hg : ∀ s, Grows s (g s))
    (hf : ∀ a, Moves Grows (f a)) : Moves Grows (Comp.modify g >>= f) := Grows.bind (.modify hg) hf

end Tables

open Tables

/-! The operations, in the order of the calls. -/

theorem leaveOld_grows (keep : Bool) (pid σ : Nat) : Moves Grows (leaveOld keep pid σ) := by
  refine Grows.get fun s => ?_
  cases s.processGroup pid with
  | some g => exact .modify (leave_grows keep pid g σ)
  | none => exact .reads (.pure ())

theorem makeNewSession_grows (pid : Nat) : Moves Grows (makeNewSession pid) := by
  refine Grows.get fun s => Grows.guard fun _ => Grows.expect fun σ => Grows.guard fun _ => Grows.guard fun _ => ?_
  refine Grows.bind (leaveOld_grows false pid σ) fun _ => Grows.modify (newSession_grows pid) fun _ => ?_
  exact Grows.modify (fun _ => .of_eq rfl rfl) fun _ => .reads (.pure _)

theorem toNewSession_grows (pid : Nat) : Moves Grows (toNewSession pid) := by
  refine Grows.bind (.reads isSessionLeader_reads) fun leads => .ite ?_ (makeNewSession_grows pid)
  exact Grows.get fun s => .reads (.expect _)

theorem toNewGroup_grows (pid : Nat) : Moves Grows (toNewGroup pid) := by
  refine Grows.get fun s => Grows.expect fun σ => Grows.bind (leaveOld_grows true pid σ) fun _ => ?_
  exact .modify (newGroup_grows pid σ)

theorem leaveForSpecified_grows (pid old : Nat) (s : Tables) : Grows s (leaveForSpecified pid old s) := by
  have hdrop : Grows s (setLink pid none (s.updGroup old (Group.removeProcess pid))) := setLink_grows (.of_eq rfl rfl)
  refine hdrop.trans _ _ _ ?_
  unfold leaveForSpecified
  dsimp only
  split
  · exact .of_eq rfl rfl
  · exact .refl _

theorem toSpecifiedGroup_grows (pid g : Nat) : Moves Grows (toSpecifiedGroup pid g) := by
  refine Grows.get fun s => ?_
  cases s.processGroup pid with
  | some old =>
    refine .ite (.reads (.pure ())) (.modify fun s => ?_)
    exact (leaveForSpecified_grows pid old s).trans _ _ _ (join_grows pid g _)
  | none => exact .modify (join_grows pid g)

theorem toExistingOrNewGroup_grows (pid pgid : Nat) : Moves Grows (toExistingOrNewGroup pid pgid) := by
  refine Grows.get fun s => ?_
  cases s.groupTable.get? pgid with
  | some g => exact Grows.expect fun σ => Grows.guard fun _ => toSpecifiedGroup_grows pid g
  | none => exact Grows.guard fun _ => toNewGroup_grows pid

theorem sysSetpgid_grows (current pid pgid : Nat) : Moves Grows (sysSetpgid current pid pgid) := by
  refine Grows.get fun s => Grows.expect fun p => Grows.guard fun _ => Grows.guard fun _ => Grows.guard fun _ => ?_
  refine Grows.get fun s => .ite (.reads (.pure ())) ?_
  exact Grows.bind (.reads isSessionLeader_reads) fun _ => Grows.guard fun _ => toExistingOrNewGroup_grows _ _

theorem fork_grows (current : Nat) : Moves Grows (fork current) := by
  refine Grows.bind ?_ fun child => Grows.bind ?_ fun _ => .reads (.pure child)
  · exact Grows.get fun s => Grows.modify (fun _ => .of_eq rfl rfl) fun _ => .reads (.pure _)
  · refine Grows.get fun s => Grows.expect fun g => Grows.modify (updProc_grows _ _) fun _ => ?_
    exact Grows.modify (fun _ => .of_eq rfl rfl) fun _ => .modify (join_grows child g)

theorem giveAll_grows (children : List Nat) (s : Tables) : Grows s (giveAll children s) := by
  induction children generalizing s with
  | nil => exact .refl s
  | cons child rest ih =>
    have hone : Grows s (giveToInit child s) := .trans _ _ _ (updProc_grows ..) (updProc_grows ..)
    exact hone.trans _ _ _ (ih _)

theorem handOver_grows (pid : Nat) (s : Tables) : Grows s (handOver pid s) := by
  unfold handOver
  split
  · exact (giveAll_grows _ s).trans _ _ _ (updProc_grows ..)
  · exact .refl s

theorem doExitGroup_grows (current : Nat) (term : TermStatus) : Moves Grows (doExitGroup current term) := by
  refine Grows.get fun s => Grows.expect fun p => .when Grows.refl (.modify fun s => ?_)
  exact .trans _ _ _ (updProc_grows ..) (handOver_grows current _)

theorem reapZombieChild_grows (parent child : Nat) : Moves Grows (reapZombieChild parent child) := by
  refine Grows.bind ?_ fun _ => ?_
  · refine Grows.get fun s => Grows.bind (.reads (.assert _)) fun _ => Grows.modify (updProc_grows _ _) fun _ => ?_
    exact .reads (.assert _)
  · refine Grows.get fun s => Grows.expect fun g => Grows.expect fun σ => ?_
    refine Grows.modify (fun _ => .of_eq rfl rfl) fun _ => Grows.modify (leave_grows false child g σ) fun _ => ?_
    exact Grows.modify (fun _ => .of_eq rfl rfl) fun _ => .reads (.expect _)

theorem waitChildExit_grows (current : Nat) (filter : ProcessFilter) (options : WaitOptions) :
    Moves Grows (waitChildExit current filter options) := by
  refine Grows.get fun s => Grows.guard fun _ => Grows.get fun s' => ?_
  cases (unwaitedChildren s current filter).find? (isZombie s') with
  | some child =>
    refine Grows.expect fun code => .ite (.reads (.pure _)) ?_
    exact Grows.bind (reapZombieChild_grows current child) fun _ => .reads (.pure _)
  | none => exact .reads (.pure _)

/-- A session that an operation on the tables brings up is a new one. -/
theorem Op.grows (op : Op) : Moves Grows op.run := by
  cases op with
  | fork current => exact Grows.bind (fork_grows current) fun _ => .reads (.pure ())
  | cloneThread =>
    refine Grows.bind ?_ fun _ => .reads (.pure ())
    exact Grows.get fun s => Grows.modify (fun _ => .of_eq rfl rfl) fun _ => .reads (.pure _)
  | setpgid current pid pgid => exact sysSetpgid_grows current pid pgid
  | setsid current =>
    refine Grows.bind (Grows.bind (toNewSession_grows current) fun σ => ?_) fun _ => .reads (.pure ())
    exact Grows.get fun s => .reads (.pure _)
  | exit current term => exact doExitGroup_grows current term
  | wait current filter options =>
    exact Grows.bind (waitChildExit_grows current filter options) fun _ => .reads (.pure ())

/-! ## Both sides of the relation -/

/-- The terminals, beside the tables: the terminal of a session, and the links of the job control of a terminal. -/
structure System where
  tables : Tables
  terminal : Nat → Option Nat
  session : Nat → Option Nat
  foreground : Nat → Option Nat

def JobControl.session (s : System) (tty : Nat) : Option Nat := (s.session tty).filter s.tables.sessionAlive

open JobControl

def JobControl.setSession (tty σ : Nat) : Comp System Error Unit :=
  modify fun s => { s with session := Function.update s.session tty (some σ) }

def JobControl.setCurrentSession (current tty : Nat) : Comp System Error Unit := do
  let s ← Comp.get
  when (JobControl.session s tty).isSome
    (fail (.withMessage .EPERM "the terminal is already controlling terminal of another session"))
  let g ← expect (s.tables.processGroup current)
  modify fun s => { s with foreground := Function.update s.foreground tty (some g) }
  let σ ← expect (s.tables.session current)
  JobControl.setSession tty σ

/-- `JobControl::release_current_session`. The foreground group gets its signals, and no link changes. -/
def JobControl.releaseCurrentSession (tty : Nat) : Comp System Error Unit := do
  let s ← Comp.get
  when (JobControl.session s tty).isNone (fail (.withMessage .ENOTTY "the terminal is not controlling terminal now"))

def JobControl.setForeground (tty : Nat) (group : Option Nat) : Comp System Error Unit := do
  let s ← Comp.get
  match group with
  | none => modify fun s => { s with foreground := Function.update s.foreground tty none }
  | some g => do
    let σ ← expect (s.tables.groupSession g)
    when (JobControl.session s tty).isNone
      (fail (.withMessage .EPERM "the terminal does not become controlling terminal of one session."))
    when (JobControl.session s tty != some σ)
      (fail (.withMessage .EPERM "the process proup belongs to different session"))
    modify fun s => { s with foreground := Function.update s.foreground tty (some g) }

def Session.setTerminal (σ : Nat) (getTerminal : Comp System Error Nat) : Comp System Error Unit := do
  let s ← Comp.get
  when (s.terminal σ).isSome (fail (.withMessage .EPERM "current session already has controlling terminal"))
  let tty ← getTerminal
  modify fun s => { s with terminal := Function.update s.terminal σ (some tty) }

def Session.releaseTerminal (σ : Nat) (releaseSession : Nat → Comp System Error Unit) : Comp System Error Unit := do
  let s ← Comp.get
  when (s.terminal σ).isNone (fail (.withMessage .ENOTTY "current session does not has controlling terminal"))
  let tty ← expect (s.terminal σ)
  releaseSession tty
  modify fun s => { s with terminal := Function.update s.terminal σ none }

namespace Terminal

def isControllingTerminal (current tty : Nat) : Comp System Error Bool := do
  let s ← Comp.get
  let σ ← expect (s.tables.session current)
  pure (s.terminal σ == some tty)

/-- A process is asked whether it leads its session. -/
def leads (current : Nat) : Comp System Error Bool :=
  zoom System.tables (fun tables s => { s with tables }) (isSessionLeader current)

def setCurrentSession (current tty : Nat) : Comp System Error Unit := do
  let leader ← leads current
  when (!leader) (fail (.withMessage .EPERM "current process is not session leader"))
  let s ← Comp.get
  let σ ← expect (s.tables.session current)
  Session.setTerminal σ do
    JobControl.setCurrentSession current tty
    pure tty

/-- `Terminal::release_current_session`, past the check for the controlling terminal. Of a process that does not lead
its session nothing is released. -/
def releaseOwn (current tty : Nat) : Comp System Error Unit := do
  let leader ← leads current
  if leader then do
    let s ← Comp.get
    let σ ← expect (s.tables.session current)
    Session.releaseTerminal σ fun _ => JobControl.releaseCurrentSession tty
  else pure ()

def releaseCurrentSession (current tty : Nat) : Comp System Error Unit := do
  let controlling ← isControllingTerminal current tty
  when (!controlling) (fail (.withMessage .ENOTTY "release wrong tty"))
  releaseOwn current tty

def setForeground (current tty pgid : Nat) : Comp System Error Unit := do
  let controlling ← isControllingTerminal current tty
  when (!controlling) (fail (.withMessage .ENOTTY "self is not controlling terminal"))
  let s ← Comp.get
  JobControl.setForeground tty (s.tables.groupTable.get? pgid)

end Terminal

/-- The terminal of the first process. -/
def N_TTY : Nat := 0

def openNttyAsControllingTerminal (pid : Nat) : Comp System Error Unit := do
  let s ← Comp.get
  let σ ← expect (s.tables.session pid)
  let g ← expect (s.tables.processGroup pid)
  Session.setTerminal σ do
    JobControl.setSession N_TTY σ
    pure N_TTY
  JobControl.setForeground N_TTY (some g)

def System.new (tables : Tables) : System := ⟨tables, fun _ => none, fun _ => none, fun _ => none⟩

def System.boot (pid : Nat) : System where
  tables := .boot pid
  terminal := Function.update (fun _ => none) 0 (some N_TTY)
  session := Function.update (fun _ => none) N_TTY (some 0)
  foreground := Function.update (fun _ => none) N_TTY (some 0)

/-- The first process has opened its terminal. -/
theorem openNttyAsControllingTerminal_boot (pid : Nat) :
    openNttyAsControllingTerminal pid (.new (.boot pid)) = .ok () (.boot pid) := by
  have hgroups : (Tables.boot pid).groupTable.entries = [(pid, 0)] := by
    rw [Tables.boot, newSession, setLink, updProc_groupTable]
    rfl
  have hsessions : (Tables.boot pid).sessionTable.entries = [(pid, 0)] := by
    rw [Tables.boot, newSession, setLink, updProc_sessionTable]
    rfl
  have hgroup : (Tables.boot pid).processGroup pid = some 0 := by
    rw [processGroup, link, boot_get?, if_pos rfl]
    simp [groupAlive, hgroups]
  have halive : (Tables.boot pid).sessionAlive 0 = true := by simp [sessionAlive, hsessions]
  have hsession : (Tables.boot pid).groupSession 0 = some 0 := by
    rw [groupSession]
    rw [show ((Tables.boot pid).groups 0).session = some 0 by rw [Tables.boot, newSession, setLink, updProc_groups]; rfl]
    simp [halive]
  have hof : (Tables.boot pid).session pid = some 0 := by rw [Tables.session, hgroup, Option.bind_some, hsession]
  simp [openNttyAsControllingTerminal, System.new, System.boot, bind_eq, Comp.get, Comp.modify, Comp.expect, Comp.when,
    pure_apply, Session.setTerminal, JobControl.setSession, JobControl.setForeground, JobControl.session, N_TTY, hof, hgroup,
    hsession, halive]

/-- An operation on the tables, or on a terminal. -/
inductive TerminalOp where
  | table (op : Op)
  | setCurrentSession (current tty : Nat)
  | releaseCurrentSession (current tty : Nat)
  | setForeground (current tty pgid : Nat)
deriving DecidableEq, Repr

def TerminalOp.run : TerminalOp → Comp System Error Unit
  | .table op => zoom System.tables (fun tables s => { s with tables }) op.run
  | .setCurrentSession current tty => Terminal.setCurrentSession current tty
  | .releaseCurrentSession current tty => Terminal.releaseCurrentSession current tty
  | .setForeground current tty pgid => Terminal.setForeground current tty pgid

def TerminalOp.step (a : TerminalOp) (s : System) : Option System := (a.run s).final

/-! ## What the calls do -/

section

variable {s t : System} {current tty σ : Nat}

variable {tables : Tables}

theorem alive_of_session (h : tables.session current = some σ) : tables.sessionAlive σ = true := by
  obtain ⟨g, -, hσ⟩ := Option.bind_eq_some_iff.mp h
  exact (Option.filter_eq_some_iff.mp hσ).2

theorem processGroup_of_session (h : tables.session current = some σ) : ∃ g, tables.processGroup current = some g := by
  obtain ⟨g, hg, -⟩ := Option.bind_eq_some_iff.mp h
  exact ⟨g, hg⟩

theorem jobControl_session_eq : session s tty = some σ ↔
    s.session tty = some σ ∧ s.tables.sessionAlive σ = true := Option.filter_eq_some_iff

theorem leads_eq (current : Nat) (s : System) : Terminal.leads current s =
    (s.tables.session current).elim .panic fun σ => .ok ((s.tables.sessions σ).leader == some current) s := by
  unfold Terminal.leads isSessionLeader zoom
  rw [get_bind]
  cases s.tables.session current with
  | none | some σ => rfl

theorem isControllingTerminal_eq (current tty : Nat) (s : System) : Terminal.isControllingTerminal current tty s =
    (s.tables.session current).elim .panic fun σ => .ok (s.terminal σ == some tty) s := by
  unfold Terminal.isControllingTerminal
  rw [get_bind]
  cases s.tables.session current with
  | none | some σ => rfl

section

variable {α : Type} {f : Bool → Comp System Error α} {m : Comp System Error Bool} {g : Nat → Bool}
variable (hm : m s = (s.tables.session current).elim .panic fun σ => .ok (g σ) s)
include hm

/-- A question about the session of a process. -/
theorem session_bind (hσ : s.tables.session current = some σ) : (m >>= f) s = f (g σ) s := by
  rw [bind_eq, hm, hσ]
  rfl

theorem session_bind_final (h : ((m >>= f) s).final = some t) :
    ∃ σ, s.tables.session current = some σ ∧ (f (g σ) s).final = some t := by
  cases hσ : s.tables.session current with
  | none =>
    rw [bind_eq, hm, hσ] at h
    cases h
  | some σ =>
    rw [session_bind hm hσ] at h
    exact ⟨σ, rfl, h⟩

end

/-- The state after `set_current_session`. -/
def System.paired (s : System) (σ tty g : Nat) : System :=
  { s with
    terminal := Function.update s.terminal σ (some tty)
    session := Function.update s.session tty (some σ)
    foreground := Function.update s.foreground tty (some g) }

section

variable {g : Nat} (hσ : s.tables.session current = some σ) (hg : s.tables.processGroup current = some g)
include g hσ hg

/-- The job control takes the session if the terminal is free. -/
theorem jobSetCurrentSession_eq : setCurrentSession current tty s = if (session s tty).isSome then
        .err (.withMessage .EPERM "the terminal is already controlling terminal of another session") s
      else .ok () { s with
        session := update s.session tty (some σ)
        foreground := update s.foreground tty (some g) } := by
  unfold setCurrentSession
  rw [get_bind]
  cases hfree : session s tty with
  | some σ' => rfl
  | none =>
    refine guard_bind_ok.mpr ⟨rfl, ?_⟩
    rw [hg, hσ]
    rfl

theorem setCurrentSession_eq : Terminal.setCurrentSession current tty s =
      if (s.tables.sessions σ).leader = some current then
        if (s.terminal σ).isSome then
          .err (.withMessage .EPERM "current session already has controlling terminal") s
        else if (session s tty).isSome then
          .err (.withMessage .EPERM "the terminal is already controlling terminal of another session") s
        else .ok () (s.paired σ tty g)
      else .err (.withMessage .EPERM "current process is not session leader") s := by
  unfold Terminal.setCurrentSession
  rw [session_bind (leads_eq current s) hσ]
  by_cases hleader : (s.tables.sessions σ).leader = some current
  · rw [if_pos hleader, hleader, beq_self_eq_true, Bool.not_true]
    have hpass : ∀ {e : Error} {f : Unit → Comp System Error Unit}, (when false (fail e) >>= f) s = f () s := rfl
    rw [hpass, get_bind, hσ]
    show Session.setTerminal σ _ s = _
    unfold Session.setTerminal
    rw [get_bind]
    cases hnone : s.terminal σ with
    | some tty' => rfl
    | none =>
      rw [Option.isSome_none, hpass, bind_eq, bind_eq, jobSetCurrentSession_eq hσ hg]
      cases (session s tty).isSome with
      | true | false => rfl
  · rw [if_neg hleader, beq_eq_false_iff_ne.mpr hleader]
    rfl

end

theorem setCurrentSession_final (h : (Terminal.setCurrentSession current tty s).final = some t) : t = s ∨
    ∃ σ g, s.tables.session current = some σ ∧ s.terminal σ = none ∧ session s tty = none ∧ t = s.paired σ tty g := by
  obtain ⟨σ, hσ, -⟩ := session_bind_final (leads_eq current s) h
  obtain ⟨g, hg⟩ := processGroup_of_session hσ
  rw [setCurrentSession_eq hσ hg] at h
  split at h
  · split at h
    · exact .inl (Option.some.inj h).symm
    · split at h
      · exact .inl (Option.some.inj h).symm
      · rename_i hnone hfree
        rw [Bool.not_eq_true, Option.isSome_eq_false_iff, Option.isNone_iff_eq_none] at hnone hfree
        exact .inr ⟨σ, g, hσ, hnone, hfree, (Option.some.inj h).symm⟩
  · exact .inl (Option.some.inj h).symm

/-- The leader of a session releases its terminal. -/
def Releases (s : System) (current tty : Nat) : Bool :=
  (s.tables.session current).any fun σ => (s.tables.sessions σ).leader == some current && s.terminal σ == some tty

theorem releases_eq (hσ : s.tables.session current = some σ) : Releases s current tty =
    ((s.tables.sessions σ).leader == some current && s.terminal σ == some tty) := by
  unfold Releases
  rw [hσ]
  rfl

/-- What is not released by the leader of a session is not released. -/
theorem releaseCurrentSession_final (hno : Releases s current tty = false)
    (h : (Terminal.releaseCurrentSession current tty s).final = some t) : t = s := by
  obtain ⟨σ, hσ, h⟩ := session_bind_final (isControllingTerminal_eq current tty s) h
  rcases guard_bind_final h with rfl | ⟨hcontrolling, h⟩
  · rfl
  obtain ⟨σ', hσ', h⟩ := session_bind_final (leads_eq current s) h
  obtain rfl := Option.some.inj (hσ.symm.trans hσ')
  rw [Bool.not_eq_false'] at hcontrolling
  rw [releases_eq hσ, hcontrolling, Bool.and_true] at hno
  rw [hno] at h
  exact pure_final.mp h

theorem setForeground_final {pgid : Nat} (h : (Terminal.setForeground current tty pgid s).final = some t) :
    ∃ g, t = { s with foreground := update s.foreground tty g } := by
  have hsame : ∃ g, s = { s with foreground := update s.foreground tty g } := ⟨_, by rw [update_eq_self]⟩
  obtain ⟨σ, hσ, h⟩ := session_bind_final (isControllingTerminal_eq current tty s) h
  rcases guard_bind_final h with rfl | ⟨-, h⟩
  · exact hsame
  rw [get_bind] at h
  unfold setForeground at h
  rw [get_bind] at h
  cases hg : s.tables.groupTable.get? pgid with
  | none =>
    rw [hg] at h
    exact ⟨none, modify_final.mp h⟩
  | some g =>
    rw [hg] at h
    obtain ⟨σ', -, h⟩ := expect_bind_final.mp h
    rcases guard_bind_final h with rfl | ⟨-, h⟩
    · exact hsame
    rcases guard_bind_final h with rfl | ⟨-, h⟩
    · exact hsame
    exact ⟨some g, modify_final.mp h⟩

/-! ## Both sides agree -/

/-- A session that is alive has a terminal if the terminal has the session. No link leads to a session that is not
there yet. -/
structure Paired (s : System) : Prop where
  alive : ∀ σ, s.tables.sessionAlive σ = true → σ < s.tables.nextSession
  terminal : ∀ σ tty, s.terminal σ = some tty → σ < s.tables.nextSession
  session : ∀ σ tty, s.session tty = some σ → σ < s.tables.nextSession
  paired : ∀ σ tty, s.tables.sessionAlive σ = true → (s.terminal σ = some tty ↔ s.session tty = some σ)

namespace Paired

theorem symmetric (h : Paired s) (hσ : s.tables.sessionAlive σ = true) :
    s.terminal σ = some tty ↔ JobControl.session s tty = some σ := by
  rw [jobControl_session_eq, h.paired σ tty hσ]
  exact (and_iff_left hσ).symm

/-- A terminal that no session has is free. -/
theorem free (h : Paired s) (hfree : ∀ σ, s.tables.sessionAlive σ = true → s.terminal σ ≠ some tty) :
    JobControl.session s tty = none := by
  refine Option.eq_none_iff_forall_ne_some.mpr fun σ hσ => ?_
  have halive := (jobControl_session_eq.mp hσ).2
  exact hfree σ halive ((h.symmetric halive).mpr hσ)

/-- A session that comes up has no terminal, and no terminal has it. -/
theorem grows (h : Paired s) (hgrows : Grows s.tables tables) : Paired { s with tables } where
  alive σ hσ := by
    rcases hgrows.alive σ hσ with hσ | ⟨-, hlt⟩
    · exact lt_of_lt_of_le (h.alive σ hσ) hgrows.next
    · exact hlt
  terminal σ tty hσ := lt_of_lt_of_le (h.terminal σ tty hσ) hgrows.next
  session σ tty hσ := lt_of_lt_of_le (h.session σ tty hσ) hgrows.next
  paired σ tty hσ := by
    rcases hgrows.alive σ hσ with hσ | ⟨hge, -⟩
    · exact h.paired σ tty hσ
    · constructor
      · intro hterminal
        exact absurd (h.terminal σ tty hterminal) (not_lt.mpr hge)
      · intro hsession
        exact absurd (h.session σ tty hsession) (not_lt.mpr hge)

theorem pair {g : Nat} (h : Paired s) (hσ : s.tables.sessionAlive σ = true) (hnone : s.terminal σ = none)
    (hfree : JobControl.session s tty = none) : Paired (s.paired σ tty g) where
  alive := h.alive
  terminal σ' tty' hσ' := by
    by_cases heq : σ' = σ
    · exact heq ▸ h.alive σ hσ
    · exact h.terminal σ' tty' ((update_of_ne heq ..).symm.trans hσ')
  session σ' tty' hσ' := by
    by_cases heq : tty' = tty
    · subst heq
      have hself : update s.session tty' (some σ) tty' = some σ' := hσ'
      rw [update_self] at hself
      exact Option.some.inj hself ▸ h.alive σ hσ
    · exact h.session σ' tty' ((update_of_ne heq ..).symm.trans hσ')
  paired σ' tty' hσ' := by
    show update s.terminal σ (some tty) σ' = some tty' ↔ update s.session tty (some σ) tty' = some σ'
    by_cases hs : σ' = σ
    · by_cases ht : tty' = tty
      · rw [hs, ht, update_self, update_self]
        simp
      · -- the session had no terminal before
        rw [hs, update_self, update_of_ne ht, ← h.paired σ tty' hσ, hnone]
        simp [Ne.symm ht]
    · by_cases ht : tty' = tty
      · -- the terminal had no session before
        rw [ht, update_of_ne hs, update_self, h.symmetric hσ', hfree]
        simp [Ne.symm hs]
      · rw [update_of_ne hs, update_of_ne ht]
        exact h.paired σ' tty' hσ'

end Paired

/-- No session leader releases its terminal. -/
def NoRelease (s : System) : TerminalOp → Prop
  | .releaseCurrentSession current tty => Releases s current tty = false
  | _ => True

instance (s : System) : ∀ a, Decidable (NoRelease s a)
  | .table _ => isTrue trivial
  | .setCurrentSession .. => isTrue trivial
  | .releaseCurrentSession current tty => inferInstanceAs (Decidable (Releases s current tty = false))
  | .setForeground .. => isTrue trivial

/-- Both sides agree after each operation but a release. -/
theorem Paired.step {a : TerminalOp} (h : Paired s) (hno : NoRelease s a) (hstep : a.step s = some t) : Paired t := by
  cases a with
  | table op =>
    have hmoves : Moves (fun s t => Paired s → Paired t) (TerminalOp.run (.table op)) :=
      op.grows.zoom fun s _ hgrows hs => hs.grows hgrows
    exact hmoves s t hstep h
  | setCurrentSession current tty =>
    rcases setCurrentSession_final hstep with rfl | ⟨σ, g, hσ, hnone, hfree, rfl⟩
    · exact h
    · exact h.pair (alive_of_session hσ) hnone hfree
  | releaseCurrentSession current tty => exact releaseCurrentSession_final hno hstep ▸ h
  | setForeground current tty pgid =>
    obtain ⟨g, rfl⟩ := setForeground_final hstep
    exact ⟨h.alive, h.terminal, h.session, h.paired⟩

theorem boot_alive {pid : Nat} (h : (Tables.boot pid).sessionAlive σ = true) : σ = 0 := by
  obtain ⟨k, hk⟩ := sessionAlive_iff.mp h
  have hk : (k, σ) ∈ BTreeMap.insertList pid 0 [] := by
    rwa [Tables.boot, newSession, setLink, updProc_sessionTable] at hk
  rcases BTreeMap.mem_insertList hk with heq | hnil
  · exact congrArg Prod.snd heq
  · cases hnil

theorem boot_paired (pid : Nat) : Paired (.boot pid) := by
  have hnext : (Tables.boot pid).nextSession = 1 := by
    rw [Tables.boot, newSession, setLink, updProc_nextSession]
    rfl
  refine ⟨fun σ hσ => ?_, fun σ tty hσ => ?_, fun σ tty hσ => ?_, fun σ tty hσ => ?_⟩
  · rw [boot_alive hσ]
    exact hnext ▸ Nat.one_pos
  · show σ < (Tables.boot pid).nextSession
    have hσ : update (fun _ => none) 0 (some N_TTY) σ = some tty := hσ
    rw [update_apply] at hσ
    split at hσ
    · omega
    · cases hσ
  · show σ < (Tables.boot pid).nextSession
    have hσ : update (fun _ => none) N_TTY (some 0) tty = some σ := hσ
    rw [update_apply] at hσ
    split at hσ
    · cases hσ
      omega
    · cases hσ
  · obtain rfl := boot_alive hσ
    show update (fun _ => none) 0 (some N_TTY) 0 = some tty ↔ update (fun _ => none) N_TTY (some 0) tty = some 0
    rw [update_self, update_apply]
    by_cases htty : tty = N_TTY
    · simp [htty]
    · simp [htty, Ne.symm htty]

/-- A session has a terminal if and only if the terminal has the session; then no two sessions have one terminal, no two
terminals one session, and a terminal that no session has can be set by the leader of a session without one. -/
theorem terminals_symmetric (pid : Nat) (h : Run TerminalOp.step NoRelease (.boot pid) s) :
    (∀ σ tty, s.tables.sessionAlive σ = true → (s.terminal σ = some tty ↔ JobControl.session s tty = some σ)) ∧
    (∀ σ σ' tty, s.tables.sessionAlive σ = true → s.tables.sessionAlive σ' = true → s.terminal σ = some tty →
      s.terminal σ' = some tty → σ = σ') ∧
    (∀ σ tty tty', JobControl.session s tty = some σ → JobControl.session s tty' = some σ → tty = tty') ∧
    (∀ current σ tty, s.tables.session current = some σ → (s.tables.sessions σ).leader = some current →
      s.terminal σ = none → (∀ σ', s.tables.sessionAlive σ' = true → s.terminal σ' ≠ some tty) →
      ∃ t, Terminal.setCurrentSession current tty s = .ok () t ∧ t.terminal σ = some tty ∧
        JobControl.session t tty = some σ) := by
  have hpaired : Paired s := h.invariant (boot_paired pid) fun _ _ _ hs hno hstep => hs.step hno hstep
  refine ⟨fun σ tty hσ => hpaired.symmetric hσ, fun σ σ' tty hσ hσ' hterminal hterminal' => ?_,
    fun σ tty tty' htty htty' => ?_, fun current σ tty hσ hleader hnone hfree => ?_⟩
  · have hjob := (hpaired.symmetric hσ).mp hterminal
    exact Option.some.inj (hjob.symm.trans ((hpaired.symmetric hσ').mp hterminal'))
  · have hσ := (jobControl_session_eq.mp htty).2
    have hterminal := (hpaired.symmetric hσ).mpr htty
    exact Option.some.inj (hterminal.symm.trans ((hpaired.symmetric hσ).mpr htty'))
  · obtain ⟨g, hg⟩ := processGroup_of_session hσ
    refine ⟨s.paired σ tty g, ?_, ?_, ?_⟩
    · rw [setCurrentSession_eq hσ hg, if_pos hleader, hnone, hpaired.free hfree]
      rfl
    · show Function.update s.terminal σ (some tty) σ = some tty
      rw [Function.update_self]
    · refine jobControl_session_eq.mpr ⟨?_, alive_of_session hσ⟩
      show Function.update s.session tty (some σ) tty = some σ
      rw [Function.update_self]

/-- The first process has a child, which leads a session and sets a terminal of its own. -/
theorem terminals_symmetric_child :
    ∃ s, Run TerminalOp.step NoRelease (.boot 1) s ∧ s.terminal 0 = some N_TTY ∧ s.terminal 1 = some 5 ∧
      s.tables.sessionAlive 1 = true ∧ JobControl.session s 5 = some 1 := by
  obtain ⟨s, hrun, hfirst, hsecond, halive⟩ : ∃ s, Run TerminalOp.step NoRelease (.boot 1) s ∧
      s.terminal 0 = some N_TTY ∧ s.terminal 1 = some 5 ∧ s.tables.sessionAlive 1 = true := by
    refine Run.checked [.table (.fork 1), .table (.setsid 2), .setCurrentSession 2 5] ?_
    decide +kernel
  exact ⟨s, hrun, hfirst, hsecond, halive, ((terminals_symmetric 1 hrun).1 1 5 halive).mp hsecond⟩

/-- A session leader sets a terminal and releases it; the terminal still has its session. Another session leader, which
has no terminal, cannot set it. -/
theorem release_keeps_link : ∃ s, Run TerminalOp.step (fun _ _ => True) (.boot 1) s ∧ s.tables.sessionAlive 1 = true ∧
      s.terminal 1 = none ∧ JobControl.session s 5 = some 1 ∧
      s.tables.session 3 = some 2 ∧ (s.tables.sessions 2).leader = some 3 ∧ s.terminal 2 = none ∧
      Terminal.setCurrentSession 3 5 s =
        .err (.withMessage .EPERM "the terminal is already controlling terminal of another session") s := by
  have hsteps : (stepsMeeting TerminalOp.step (fun _ _ => True)
      [.table (.fork 1), .table (.setsid 2), .setCurrentSession 2 5, .releaseCurrentSession 2 5, .table (.fork 1),
        .table (.setsid 3)] (.boot 1)).any (fun s =>
        decide (s.tables.sessionAlive 1 = true ∧ s.terminal 1 = none ∧ JobControl.session s 5 = some 1 ∧
          s.tables.session 3 = some 2 ∧ (s.tables.sessions 2).leader = some 3 ∧ s.terminal 2 = none)) = true := by
    decide +kernel
  obtain ⟨s, hrun, halive, hnone, hjob, hσ, hleader, hfree⟩ := Run.checked _ hsteps
  obtain ⟨g, hg⟩ := processGroup_of_session hσ
  refine ⟨s, hrun, halive, hnone, hjob, hσ, hleader, hfree, ?_⟩
  rw [setCurrentSession_eq hσ hg, if_pos hleader, hfree, hjob]
  rfl

/-! ## The keys of a pty -/

/-- The attributes of a terminal that are read for a key that sends a signal. -/
structure Termios where
  canonical : Bool
  isig : Bool
  icrnl : Bool
  vintr : Nat
  vquit : Nat

inductive KeySignal where
  | SIGINT
  | SIGQUIT
deriving DecidableEq, Repr

/-- `LineDiscipline::may_send_signal`, for the character that `push_char` makes of one that is written. -/
def Termios.maySendSignal (termios : Termios) (ch : Nat) : Option KeySignal :=
  let ch := if termios.icrnl ∧ ch = 13 then 10 else ch
  if !termios.canonical ∨ !termios.isig then none
  else if ch = termios.vintr then some .SIGINT
  else if ch = termios.vquit then some .SIGQUIT
  else none

/-- The processes of `JobControl::foreground`. -/
def System.foregroundProcesses (s : System) (tty : Nat) : List Nat :=
  ((s.foreground tty).filter s.tables.groupAlive).elim [] fun g => (s.tables.groups g).processes.entries.map Prod.fst

/-- The signals that a line discipline sends for what is written, if `tty` is the terminal whose job control it has: of a
pty that is the master. -/
def System.keySignals (s : System) (tty : Nat) (termios : Termios) (buf : List Nat) : List (KeySignal × Nat) :=
  (buf.filterMap termios.maySendSignal).flatMap fun signal => (s.foregroundProcesses tty).map (signal, ·)

/-- `TIOCSCTTY` and `TIOCSPGRP` on terminals besides a master, and operations on the tables. -/
def TerminalOp.spares (master : Nat) : TerminalOp → Bool
  | .table _ => true
  | .setCurrentSession _ tty | .setForeground _ tty _ => tty != master
  | .releaseCurrentSession .. => false

theorem foreground_of_spares {master : Nat} {op : TerminalOp} (hop : op.spares master = true)
    (h : op.step s = some t) : t.foreground master = s.foreground master := by
  cases op with
  | table op =>
    unfold TerminalOp.step TerminalOp.run at h
    obtain ⟨_, -, rfl⟩ := zoom_final h
    rfl
  | setCurrentSession current tty =>
    rcases setCurrentSession_final h with rfl | ⟨σ, g, -, -, -, rfl⟩
    · rfl
    · exact update_of_ne (bne_iff_ne.mp hop).symm ..
  | releaseCurrentSession current tty => cases hop
  | setForeground current tty pgid =>
    obtain ⟨g, rfl⟩ := setForeground_final h
    exact update_of_ne (bne_iff_ne.mp hop).symm ..

end

end AsterKernel.Process
