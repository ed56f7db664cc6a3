import AsterKernel.Process.Table

/-!
# `Process.Registers` — processes in groups, and groups in sessions

Processes are registered with groups and groups with sessions, each by a link, a map and a table. Here are the moves
of a process between groups and sessions, and that both registers stay sound under them.
-/

namespace AsterKernel.Process

open Lib Lib.Comp Function

/-! ## The two registers -/

namespace Tables

variable {s t : Tables} {pid g σ : Nat} {kept : Option Nat}

def procs (s : Tables) : Registry Nat Nat := ⟨s.link, fun g => (s.groups g).processes, s.groupTable⟩

/-- Groups that have processes, in sessions. -/
def grps (s : Tables) : Registry Nat Nat where
  link g := if (s.groups g).isEmpty then none else (s.groups g).session
  members σ := (s.sessions σ).processGroups
  table := s.sessionTable

def pgidOf (s : Tables) (g : Nat) : Nat := (s.groups g).pgid

def sidOf (s : Tables) (σ : Nat) : Nat := (s.sessions σ).sid

/-- Both registers are sound, but for a session that may be in its table without groups. -/
structure Consistent (kept : Option Nat) (s : Tables) : Prop where
  procs : s.procs.Sound id s.pgidOf none
  grps : s.grps.Sound s.pgidOf s.sidOf kept
  linked : ∀ g, (s.groups g).isEmpty = false → (s.groups g).session ≠ none
  processTable : ∀ pid, (s.link pid).isSome → s.processTable.contains pid = true
  freshGroups : ∀ g, s.nextGroup ≤ g → (s.groups g).isEmpty = true
  freshSessions : ∀ σ, s.nextSession ≤ σ → (s.sessions σ).isEmpty = true ∧ kept ≠ some σ

/-- The session of a group that has processes. -/
def linkOf (group : Group) : Option Nat := if group.isEmpty then none else group.session

theorem not_empty_of_link (h : s.grps.link g ≠ none) : (s.groups g).isEmpty = false := by
  by_contra hempty
  apply h
  show (if (s.groups g).isEmpty then none else _) = none
  rw [eq_true_of_ne_false hempty]
  rfl

theorem link_grps (h : (s.groups g).isEmpty = false) : s.grps.link g = (s.groups g).session := by
  show (if (s.groups g).isEmpty then none else (s.groups g).session) = _
  rw [h]
  rfl

/-- The tables differ at most in what the registers do not show. -/
structure Alike (s t : Tables) : Prop where
  link : t.link = s.link
  processTable : ∀ pid, s.processTable.contains pid = true → t.processTable.contains pid = true
  groupTable : t.groupTable = s.groupTable
  sessionTable : t.sessionTable = s.sessionTable
  groups : t.groups = s.groups
  processGroups : ∀ σ, (t.sessions σ).processGroups = (s.sessions σ).processGroups
  sid : ∀ σ, (t.sessions σ).sid = (s.sessions σ).sid
  nextGroup : t.nextGroup = s.nextGroup
  nextSession : t.nextSession = s.nextSession

theorem Alike.trans {u : Tables} (h : Alike s t) (h' : Alike t u) : Alike s u where
  link := h'.link.trans h.link
  processTable pid hpid := h'.processTable pid (h.processTable pid hpid)
  groupTable := h'.groupTable.trans h.groupTable
  sessionTable := h'.sessionTable.trans h.sessionTable
  groups := h'.groups.trans h.groups
  processGroups σ := (h'.processGroups σ).trans (h.processGroups σ)
  sid σ := (h'.sid σ).trans (h.sid σ)
  nextGroup := h'.nextGroup.trans h.nextGroup
  nextSession := h'.nextSession.trans h.nextSession

theorem Alike.refl (s : Tables) : Alike s s := ⟨rfl, fun _ => id, rfl, rfl, rfl, fun _ => rfl, fun _ => rfl, rfl, rfl⟩

/-- The registers of groups and sessions do not look at the other fields. -/
theorem Consistent.alike (h : Consistent kept s) (hst : Alike s t) : Consistent kept t := by
  have hpgid : t.pgidOf = s.pgidOf := by
    unfold pgidOf
    rw [hst.groups]
  have hsid : t.sidOf = s.sidOf := funext hst.sid
  have hprocs : t.procs = s.procs := by
    unfold Tables.procs
    rw [hst.link, hst.groupTable, hst.groups]
  have hgrps : t.grps = s.grps := by
    unfold Tables.grps
    rw [hst.groups, hst.sessionTable, funext hst.processGroups]
  refine ⟨?_, ?_, ?_, ?_, ?_, ?_⟩
  · rw [hprocs, hpgid]
    exact h.procs
  · rw [hgrps, hpgid, hsid]
    exact h.grps
  · rw [hst.groups]
    exact h.linked
  · intro pid hpid
    rw [hst.link] at hpid
    exact hst.processTable pid (h.processTable pid hpid)
  · rw [hst.groups, hst.nextGroup]
    exact h.freshGroups
  · intro σ hσ
    rw [hst.nextSession] at hσ
    unfold Session.isEmpty
    rw [hst.processGroups]
    exact h.freshSessions σ hσ

/-! ## Updates of a process -/

section UpdProc

variable {f : Proc → Proc}

@[simp] theorem updProc_groups : (s.updProc pid f).groups = s.groups := by unfold updProc; split <;> rfl
@[simp] theorem updProc_sessions : (s.updProc pid f).sessions = s.sessions := by unfold updProc; split <;> rfl
@[simp] theorem updProc_processTable : (s.updProc pid f).processTable = s.processTable := by
  unfold updProc; split <;> rfl
@[simp] theorem updProc_groupTable : (s.updProc pid f).groupTable = s.groupTable := by unfold updProc; split <;> rfl
@[simp] theorem updProc_sessionTable : (s.updProc pid f).sessionTable = s.sessionTable := by
  unfold updProc; split <;> rfl
@[simp] theorem updProc_nextGroup : (s.updProc pid f).nextGroup = s.nextGroup := by unfold updProc; split <;> rfl
@[simp] theorem updProc_nextSession : (s.updProc pid f).nextSession = s.nextSession :=
    by unfold updProc; split <;> rfl

theorem updProc_get? (q : Nat) :
    (s.updProc pid f).processes.get? q = if q = pid then (s.processes.get? pid).map f else s.processes.get? q := by
  unfold updProc
  cases h : s.processes.get? pid with
  | none =>
    by_cases hq : q = pid
    · rw [if_pos hq, hq]
      exact h
    · rw [if_neg hq]
  | some p => exact BTreeMap.get?_insert ..

theorem updProc_link (q : Nat) : (s.updProc pid f).link q =
    if q = pid then (s.processes.get? pid).bind fun p => (f p).processGroup else s.link q := by
  unfold link
  rw [updProc_get?]
  split
  · cases s.processes.get? pid with
    | none | some p => rfl
  · rfl

/-- An update that keeps the link to the group. -/
theorem alike_updProc (hf : ∀ p, (f p).processGroup = p.processGroup) : Alike s (s.updProc pid f) := by
  refine ⟨?_, by simp, by simp, by simp, by simp, by simp, by simp, by simp, by simp⟩
  funext q
  rw [updProc_link]
  split
  · subst q
    unfold link
    simp only [hf]
  · rfl

theorem setLink_link {v : Option Nat} (h : v = none ∨ (s.processes.get? pid).isSome) :
    (s.setLink pid v).link = update s.link pid v := by
  funext q
  unfold setLink
  rw [updProc_link]
  by_cases hq : q = pid
  · subst hq
    rw [if_pos rfl, update_self]
    cases hp : s.processes.get? q with
    | none =>
      rw [hp] at h
      rcases h with rfl | h
      · rfl
      · cases h
    | some p => rfl
  · rw [if_neg hq, update_of_ne hq]

end UpdProc

theorem alike_updSession {f : Session → Session} (hgroups : ∀ x, (f x).processGroups = x.processGroups)
    (hsid : ∀ x, (f x).sid = x.sid) : Alike s (s.updSession σ f) := by
  refine ⟨rfl, fun _ => id, rfl, rfl, rfl, fun τ => ?_, fun τ => ?_, rfl, rfl⟩
  · exact congrFun (field_update_eq Session.processGroups (hgroups _)) τ
  · exact congrFun (field_update_eq Session.sid (hsid _)) τ

/-! ## A process leaves its group -/

/-- The process has gone, its group may be empty. -/
def drop (pid g : Nat) (s : Tables) : Tables := (s.updGroup g (Group.removeProcess pid)).setLink pid none

theorem drop_groups : (s.drop pid g).groups = update s.groups g ((s.groups g).removeProcess pid) := by
  simp [drop, setLink, updGroup]

theorem drop_sessions : (s.drop pid g).sessions = s.sessions := by simp [drop, setLink, updGroup]
theorem drop_processTable : (s.drop pid g).processTable = s.processTable := by simp [drop, setLink, updGroup]
theorem drop_groupTable : (s.drop pid g).groupTable = s.groupTable := by simp [drop, setLink, updGroup]
theorem drop_sessionTable : (s.drop pid g).sessionTable = s.sessionTable := by simp [drop, setLink, updGroup]
theorem drop_nextGroup : (s.drop pid g).nextGroup = s.nextGroup := by simp [drop, setLink, updGroup]
theorem drop_nextSession : (s.drop pid g).nextSession = s.nextSession := by simp [drop, setLink, updGroup]

theorem drop_link : (s.drop pid g).link = update s.link pid none := setLink_link (.inl rfl)

theorem Consistent.processTable_drop (h : Consistent kept s) (q : Nat) (hq : ((s.drop pid g).link q).isSome) :
    s.processTable.contains q = true := by
  rw [drop_link] at hq
  by_cases hpid : q = pid
  · subst hpid
    rw [update_self] at hq
    cases hq
  · rw [update_of_ne hpid] at hq
    exact h.processTable q hq

theorem drop_get? (h : (s.processes.get? pid).isSome) : ((s.drop pid g).processes.get? pid).isSome := by
  unfold drop setLink
  rw [updProc_get?, if_pos rfl]
  simpa [updGroup] using h

theorem drop_pgidOf : (s.drop pid g).pgidOf = s.pgidOf := by
  unfold pgidOf
  rw [drop_groups]
  exact field_update_eq Group.pgid rfl

theorem drop_members : (s.drop pid g).procs.members = update s.procs.members g ((s.procs.members g).remove pid) := by
  unfold procs
  rw [drop_groups]
  exact field_update Group.processes ..

/-- If another process is left, the registers show only that the process has gone. -/
theorem Consistent.drop (h : Consistent none s) (hg : s.link pid = some g)
    (hleft : ((s.groups g).removeProcess pid).isEmpty = false) : Consistent none (s.drop pid g) := by
  have hprocs : (s.drop pid g).procs = s.procs.leave id s.pgidOf false pid g := by
    refine Registry.ext drop_link drop_members ?_
    show (s.drop pid g).groupTable = if ((s.groups g).removeProcess pid).isEmpty && !false then _ else s.groupTable
    rw [hleft, drop_groupTable]
    rfl
  have hempty : ∀ x, ((s.drop pid g).groups x).isEmpty = (s.groups x).isEmpty := by
    rw [drop_groups]
    exact congrFun (field_update_eq Group.isEmpty (hleft.trans (h.procs.not_empty hg).symm))
  have hsession : ∀ x, ((s.drop pid g).groups x).session = (s.groups x).session := by
    rw [drop_groups]
    exact congrFun (field_update_eq Group.session rfl)
  have hgrps : (s.drop pid g).grps = s.grps := by
    refine Registry.ext ?_ ?_ drop_sessionTable
    · funext x
      show (if ((s.drop pid g).groups x).isEmpty then none else ((s.drop pid g).groups x).session) = _
      rw [hempty, hsession]
      rfl
    · funext τ
      show ((s.drop pid g).sessions τ).processGroups = _
      rw [drop_sessions]
      rfl
  refine ⟨?_, ?_, ?_, ?_, ?_, ?_⟩
  · rw [hprocs, drop_pgidOf]
    exact h.procs.leave false hg
  · have hsid : (s.drop pid g).sidOf = s.sidOf := by
      unfold sidOf
      rw [drop_sessions]
    rw [hgrps, drop_pgidOf, hsid]
    exact h.grps
  · intro x
    rw [hempty, hsession]
    exact h.linked x
  · rw [drop_processTable]
    exact h.processTable_drop
  · intro x
    rw [hempty, drop_nextGroup]
    exact h.freshGroups x
  · rw [drop_sessions, drop_nextSession]
    exact h.freshSessions

/-- A group without processes leaves the group table and its session, and the session its table. -/
def dropGroup (keep : Bool) (pgid σ : Nat) (s : Tables) : Tables :=
  let s := { s with groupTable := s.groupTable.remove pgid }.updSession σ (Session.removeProcessGroup pgid)
  if (s.sessions σ).isEmpty && !keep then { s with sessionTable := s.sessionTable.remove (s.sessions σ).sid } else s

/-- A process leaves its group, which is dropped if it is empty then. -/
theorem leave_eq (keep : Bool) : s.leave keep pid g σ =
    if ((s.groups g).removeProcess pid).isEmpty then (s.drop pid g).dropGroup keep (s.groups g).pgid σ
    else s.drop pid g := by
  have hg : (s.drop pid g).groups g = (s.groups g).removeProcess pid := by
    rw [drop_groups, update_self]
  show (if ((s.drop pid g).groups g).isEmpty then
    (s.drop pid g).dropGroup keep ((s.drop pid g).groups g).pgid σ else s.drop pid g) = _
  rw [hg]
  rfl

theorem dropGroup_eq {keep : Bool} {pgid : Nat} : s.dropGroup keep pgid σ = { s with
    groupTable := s.groupTable.remove pgid
    sessions := update s.sessions σ ((s.sessions σ).removeProcessGroup pgid)
    sessionTable := if ((s.sessions σ).removeProcessGroup pgid).isEmpty && !keep then
      s.sessionTable.remove (s.sessions σ).sid else s.sessionTable } := by
  unfold dropGroup updSession
  simp only [update_self]
  split <;> rfl

/-- The last process of a group leaves it. -/
theorem Consistent.dropLast {keep : Bool} (h : Consistent none s) (hg : s.link pid = some g)
    (hσ : (s.groups g).session = some σ) (hlast : ((s.groups g).removeProcess pid).isEmpty = true) :
    Consistent (if keep then some σ else none) ((s.drop pid g).dropGroup keep (s.groups g).pgid σ) := by
  have hin : (s.groups g).isEmpty = false := h.procs.not_empty hg
  have hlink : s.grps.link g = some σ := by
    show (if (s.groups g).isEmpty then none else (s.groups g).session) = some σ
    rw [hin]
    exact hσ
  generalize ht : (s.drop pid g).dropGroup keep (s.groups g).pgid σ = t
  have hgroups : t.groups = update s.groups g ((s.groups g).removeProcess pid) := by
    rw [← ht, dropGroup_eq]
    exact drop_groups
  have hsessions : t.sessions = update s.sessions σ ((s.sessions σ).removeProcessGroup (s.groups g).pgid) := by
    rw [← ht, dropGroup_eq, drop_sessions]
  have hprocs : t.procs =
      s.procs.leave id s.pgidOf false pid g := by
    refine Registry.ext (by rw [← ht, dropGroup_eq]; exact drop_link) ?_ ?_
    · show (fun x => (t.groups x).processes) = _
      rw [hgroups]
      exact field_update Group.processes ..
    · show _ = if ((s.groups g).removeProcess pid).isEmpty && !false then s.groupTable.remove (s.groups g).pgid else _
      rw [hlast, ← ht, dropGroup_eq, drop_groupTable]
      rfl
  have hgrps : t.grps = s.grps.leave s.pgidOf s.sidOf keep g σ := by
    refine Registry.ext ?_ ?_ ?_
    · show (fun x => linkOf (t.groups x)) = _
      rw [hgroups, field_update, linkOf, if_pos hlast]
      rfl
    · show (fun τ => (t.sessions τ).processGroups) = _
      rw [hsessions]
      exact field_update Session.processGroups ..
    · show t.sessionTable = _
      rw [← ht, dropGroup_eq, drop_sessions, drop_sessionTable]
      rfl
  have hpgid : t.pgidOf = s.pgidOf := by
    unfold pgidOf
    rw [hgroups]
    exact field_update_eq Group.pgid rfl
  have hsid : t.sidOf = s.sidOf := by
    unfold sidOf
    rw [hsessions]
    exact field_update_eq Session.sid rfl
  refine ⟨?_, ?_, ?_, ?_, ?_, ?_⟩
  · rw [hprocs, hpgid]
    exact h.procs.leave false hg
  · rw [hgrps, hpgid, hsid]
    exact h.grps.leave keep hlink
  · intro x
    rw [hgroups]
    by_cases hx : x = g
    · subst hx
      rw [update_self]
      exact fun _ => h.linked x hin
    · rw [update_of_ne hx]
      exact h.linked x
  · rw [← ht, dropGroup_eq, drop_processTable]
    exact h.processTable_drop
  · intro x hx
    rw [← ht, dropGroup_eq, drop_nextGroup] at hx
    rw [hgroups]
    by_cases hxg : x = g
    · subst hxg
      rw [update_self]
      exact hlast
    · rw [update_of_ne hxg]
      exact h.freshGroups x hx
  · intro τ hτ
    rw [← ht, dropGroup_eq, drop_nextSession] at hτ
    have hne : τ ≠ σ := by
      rintro rfl
      have hfull : (s.sessions τ).isEmpty = false := h.grps.not_empty hlink
      rw [(h.freshSessions τ hτ).1] at hfull
      cases hfull
    rw [hsessions, update_of_ne hne]
    refine ⟨(h.freshSessions τ hτ).1, ?_⟩
    split
    · exact fun he => hne (Option.some.inj he).symm
    · exact nofun

/-- **A process leaves its group.** -/
theorem Consistent.leave (keep : Bool) (h : Consistent none s) (hg : s.link pid = some g)
    (hσ : (s.groups g).session = some σ) : Consistent (if keep then some σ else none) (s.leave keep pid g σ) := by
  rw [leave_eq]
  by_cases hlast : ((s.groups g).removeProcess pid).isEmpty = true
  · rw [if_pos hlast]
    exact h.dropLast hg hσ hlast
  · rw [if_neg hlast]
    have hdrop := h.drop hg (by simpa using hlast)
    cases keep with
    | false => exact hdrop
    | true =>
      have hfull : ((s.drop pid g).sessions σ).isEmpty = false := by
        rw [drop_sessions]
        refine h.grps.not_empty (x := g) ?_
        rw [link_grps (h.procs.not_empty hg)]
        exact hσ
      refine { hdrop with grps := hdrop.grps.keep hfull, freshSessions := fun τ hτ => ?_ }
      refine ⟨(hdrop.freshSessions τ hτ).1, ?_⟩
      intro he
      rw [Option.some.inj he, (hdrop.freshSessions τ hτ).1] at hfull
      cases hfull

theorem leave_link (keep : Bool) : (s.leave keep pid g σ).link = update s.link pid none := by
  rw [leave_eq]
  split
  · rw [dropGroup_eq]
    exact drop_link
  · exact drop_link

theorem leave_get? (keep : Bool) (h : (s.processes.get? pid).isSome) :
    ((s.leave keep pid g σ).processes.get? pid).isSome := by
  rw [leave_eq]
  split
  · rw [dropGroup_eq]
    exact drop_get? h
  · exact drop_get? h

theorem leave_processTable (keep : Bool) : (s.leave keep pid g σ).processTable = s.processTable := by
  rw [leave_eq]
  split
  · rw [dropGroup_eq]
    exact drop_processTable
  · exact drop_processTable

variable {k : Nat}

theorem get?_remove_none {m : BTreeMap Nat} {j : Nat} (h : m.get? k = none) : (m.remove j).get? k = none := by
  rw [BTreeMap.get?_remove]
  split
  · rfl
  · exact h

theorem leave_groupTable (keep : Bool) (h : s.groupTable.get? k = none) :
    (s.leave keep pid g σ).groupTable.get? k = none := by
  rw [leave_eq]
  split
  · rw [dropGroup_eq, drop_groupTable]
    exact get?_remove_none h
  · rw [drop_groupTable]
    exact h

theorem leave_sessionTable (keep : Bool) (h : s.sessionTable.get? k = none) :
    (s.leave keep pid g σ).sessionTable.get? k = none := by
  rw [leave_eq]
  split
  · rw [dropGroup_eq, drop_sessionTable]
    dsimp only
    split
    · exact get?_remove_none h
    · exact h
  · rw [drop_sessionTable]
    exact h

/-! ## A process joins a group, or founds one -/

theorem Consistent.not_member (h : Consistent kept s) (hpid : s.link pid = none) (g : Nat) :
    (s.procs.members g).get? pid = none := by
  cases hx : (s.procs.members g).get? pid with
  | none => rfl
  | some x =>
    obtain ⟨rfl, hlink⟩ := (h.procs.members g pid x).mp hx
    cases hpid.symm.trans hlink

theorem Consistent.groupTable_iff (h : Consistent kept s) (k g : Nat) :
    s.groupTable.get? k = some g ↔ s.pgidOf g = k ∧ (s.groups g).isEmpty = false := by
  refine (h.procs.table k g).trans ?_
  simp only [reduceCtorEq, or_false]
  rfl

theorem Consistent.processTable_update (h : Consistent kept s) {v : Option Nat}
    (hpid : s.processTable.contains pid = true) (q : Nat) (hq : (update s.link pid v q).isSome) :
    s.processTable.contains q = true := by
  by_cases hne : q = pid
  · subst hne
    exact hpid
  · rw [update_of_ne hne] at hq
    exact h.processTable q hq

/-- **A process joins a group of the group table.** -/
theorem Consistent.join (h : Consistent none s) (hp : (s.processes.get? pid).isSome)
    (hin : s.processTable.contains pid = true) (hpid : s.link pid = none)
    (hg : s.groupTable.get? k = some g) : Consistent none (s.join pid g) := by
  obtain ⟨hk, hfull⟩ := (h.groupTable_iff k g).mp hg
  have hgroups : (s.join pid g).groups =
      update s.groups g { s.groups g with processes := (s.groups g).processes.insert pid pid } := by
    simp [Tables.join, setLink, updGroup]
  have hfields : ∀ x, ((s.join pid g).groups x).pgid = (s.groups x).pgid ∧
      ((s.join pid g).groups x).session = (s.groups x).session ∧
      ((s.join pid g).groups x).isEmpty = (s.groups x).isEmpty := by
    intro x
    rw [hgroups]
    by_cases hx : x = g
    · subst hx
      rw [update_self]
      exact ⟨rfl, rfl, (Registry.isEmpty_insert ..).trans hfull.symm⟩
    · rw [update_of_ne hx]
      exact ⟨rfl, rfl, rfl⟩
  have hsessions : (s.join pid g).sessions = s.sessions := by simp [Tables.join, setLink, updGroup]
  have hpgid : (s.join pid g).pgidOf = s.pgidOf := funext fun x => (hfields x).1
  have hsid : (s.join pid g).sidOf = s.sidOf := by
    unfold sidOf
    rw [hsessions]
  have hprocs : (s.join pid g).procs = s.procs.enter id pid g := by
    refine Registry.ext (setLink_link (.inr hp)) ?_
      (by simp [Tables.procs, Tables.join, setLink, updGroup, Registry.enter])
    show (fun x => ((s.join pid g).groups x).processes) = _
    rw [hgroups]
    exact field_update Group.processes ..
  have hgrps : (s.join pid g).grps = s.grps := by
    refine Registry.ext ?_ ?_ (by simp [Tables.grps, Tables.join, setLink, updGroup])
    · funext x
      show (if ((s.join pid g).groups x).isEmpty then none else ((s.join pid g).groups x).session) = _
      rw [(hfields x).2.1, (hfields x).2.2]
      rfl
    · funext τ
      show ((s.join pid g).sessions τ).processGroups = _
      rw [hsessions]
      rfl
  refine ⟨?_, ?_, ?_, ?_, ?_, ?_⟩
  · rw [hprocs, hpgid]
    exact h.procs.enter hpid (.inl rfl) (by rw [← hk] at hg; exact hg) (h.not_member hpid g)
  · rw [hgrps, hpgid, hsid]
    exact h.grps
  · intro x
    rw [(hfields x).2.1, (hfields x).2.2]
    exact h.linked x
  · intro q hq
    rw [show (s.join pid g).processTable = s.processTable by simp [Tables.join, setLink, updGroup]]
    have hlink : (s.join pid g).link = update s.link pid (some g) := setLink_link (.inr hp)
    rw [hlink] at hq
    exact h.processTable_update hin q hq
  · intro x hx
    rw [(hfields x).2.2]
    exact h.freshGroups x (by simpa [Tables.join, setLink, updGroup] using hx)
  · intro τ hτ
    rw [hsessions]
    exact h.freshSessions τ (by simpa [Tables.join, setLink, updGroup] using hτ)

theorem Consistent.name_fresh (h : Consistent kept s) (x : Nat) (hx : (s.groups x).isEmpty = false) :
    update s.pgidOf s.nextGroup pid x = s.pgidOf x := by
  refine update_of_ne ?_ ..
  rintro rfl
  rw [h.freshGroups _ le_rfl] at hx
  cases hx

theorem Consistent.renamed (h : Consistent kept s) (pid : Nat) :
    s.procs.Sound id (update s.pgidOf s.nextGroup pid) none ∧
      s.grps.Sound (update s.pgidOf s.nextGroup pid) s.sidOf kept := by
  constructor
  · refine h.procs.congr (fun _ _ => rfl) fun y hy => ?_
    rcases hy with hy | hy
    · exact h.name_fresh y hy
    · cases hy
  · exact h.grps.congr (fun x hx => h.name_fresh x (not_empty_of_link hx)) fun _ _ => rfl

/-- A process founds a group, which links to a session. -/
structure Founds (pid σ : Nat) (s t : Tables) : Prop where
  link : t.link = Function.update s.link pid (some s.nextGroup)
  processTable : t.processTable = s.processTable
  groups : t.groups = Function.update s.groups s.nextGroup (.new pid (some σ))
  groupTable : t.groupTable = s.groupTable.insert pid s.nextGroup
  nextGroup : t.nextGroup = s.nextGroup + 1

section

variable (hst : Founds pid σ s t)
include hst

theorem Founds.pgidOf : t.pgidOf = update s.pgidOf s.nextGroup pid := by
  unfold Tables.pgidOf
  rw [hst.groups]
  exact field_update Group.pgid ..

theorem Founds.procs (h : Consistent kept s) : t.procs = s.procs.found id t.pgidOf pid s.nextGroup := by
  refine Registry.ext hst.link ?_ ?_
  · show (fun x => (t.groups x).processes) =
      update s.procs.members s.nextGroup ((s.groups s.nextGroup).processes.insert _ _)
    rw [hst.groups, field_update, BTreeMap.eq_empty (h.freshGroups _ le_rfl)]
    rfl
  · show t.groupTable = s.groupTable.insert (t.pgidOf s.nextGroup) _
    rw [hst.pgidOf, update_self]
    exact hst.groupTable

theorem Founds.grpsLink : t.grps.link = update s.grps.link s.nextGroup (some σ) := by
  show (fun x => linkOf (t.groups x)) = _
  rw [hst.groups]
  exact field_update linkOf ..

end

theorem Consistent.link_nextGroup (h : Consistent kept s) : s.grps.link s.nextGroup = none := by
  show (if (s.groups s.nextGroup).isEmpty then none else _) = none
  rw [h.freshGroups _ le_rfl]
  rfl

/-- The tables are consistent once the register of the sessions is. -/
theorem Founds.consistent (hst : Founds pid σ s t) (h : Consistent kept s)
    (hin : s.processTable.contains pid = true) (hpid : s.link pid = none)
    (hfree : s.groupTable.get? pid = none) (hgrps : t.grps.Sound t.pgidOf t.sidOf none)
    (hfresh : ∀ τ, t.nextSession ≤ τ → (t.sessions τ).isEmpty = true) : Consistent none t := by
  refine ⟨?_, hgrps, ?_, ?_, ?_, fun τ hτ => ⟨hfresh τ hτ, nofun⟩⟩
  · rw [hst.procs h, hst.pgidOf]
    refine (h.renamed pid).1.found hpid ?_
    rw [update_self]
    exact hfree
  · intro x
    rw [hst.groups]
    by_cases hx : x = s.nextGroup
    · subst hx
      rw [update_self]
      exact fun _ => nofun
    · rw [update_of_ne hx]
      exact h.linked x
  · rw [hst.link, hst.processTable]
    exact h.processTable_update hin
  · intro x hx
    rw [hst.nextGroup] at hx
    rw [hst.groups, update_of_ne (by omega)]
    exact h.freshGroups x (by omega)

theorem newGroup_founds (hp : (s.processes.get? pid).isSome) : Founds pid σ s (s.newGroup pid σ) where
  link := setLink_link (.inr hp)
  processTable := by simp [Tables.newGroup, setLink, updSession]
  groups := by simp [Tables.newGroup, setLink, updSession]
  groupTable := by simp [Tables.newGroup, setLink, updSession]
  nextGroup := by simp [Tables.newGroup, setLink, updSession]

theorem Consistent.not_in_session (h : Consistent kept s) (hfree : s.groupTable.get? k = none) (σ : Nat) :
    (s.grps.members σ).get? k = none := by
  cases hx : (s.grps.members σ).get? k with
  | none => rfl
  | some x =>
    obtain ⟨hname, hlink⟩ := (h.grps.members σ k x).mp hx
    have hin := not_empty_of_link (ne_of_eq_of_ne hlink (Option.some_ne_none _))
    cases hfree.symm.trans ((h.groupTable_iff k x).mpr ⟨hname, hin⟩)

/-- **A process founds a group in its session.** -/
theorem Consistent.newGroup (h : Consistent kept s) (hkept : kept = none ∨ kept = some σ)
    (hp : (s.processes.get? pid).isSome) (hin : s.processTable.contains pid = true) (hpid : s.link pid = none)
      (hfree : s.groupTable.get? pid = none)
    (hσ : s.sessionTable.get? (s.sidOf σ) = some σ) : Consistent none (s.newGroup pid σ) := by
  have hst := newGroup_founds (σ := σ) hp
  have hsessions : (s.newGroup pid σ).sessions = update s.sessions σ
      { s.sessions σ with processGroups := (s.sessions σ).processGroups.insert pid s.nextGroup } := by
    simp [Tables.newGroup, setLink, updSession]
  have hsid : (s.newGroup pid σ).sidOf = s.sidOf := by
    unfold sidOf
    rw [hsessions]
    exact field_update_eq Session.sid rfl
  have hgrps : (s.newGroup pid σ).grps = s.grps.enter (s.newGroup pid σ).pgidOf s.nextGroup σ := by
    refine Registry.ext hst.grpsLink ?_ (by simp [Tables.grps, Tables.newGroup, setLink, updSession, Registry.enter])
    show (fun τ => ((s.newGroup pid σ).sessions τ).processGroups) =
      update s.grps.members σ ((s.grps.members σ).insert ((s.newGroup pid σ).pgidOf s.nextGroup) _)
    rw [hsessions, hst.pgidOf, update_self]
    exact field_update Session.processGroups ..
  refine hst.consistent h hin hpid hfree ?_ ?_
  · rw [hgrps, hst.pgidOf, hsid]
    refine (h.renamed pid).2.enter h.link_nextGroup hkept hσ ?_
    rw [update_self]
    exact h.not_in_session hfree σ
  · intro τ hτ
    have hold : s.nextSession ≤ τ := by simpa [Tables.newGroup, setLink, updSession] using hτ
    have hfresh := h.freshSessions τ hold
    rw [hsessions, update_of_ne]
    · exact hfresh.1
    · -- a session of the table is not a fresh one
      rintro rfl
      rcases ((h.grps.table _ τ).mp hσ).2 with hfull | hkept
      · cases hfull.symm.trans hfresh.1
      · exact hfresh.2 hkept

theorem newSession_founds (hp : (s.processes.get? pid).isSome) : Founds pid s.nextSession s (s.newSession pid) where
  link := setLink_link (.inr hp)
  processTable := by simp [Tables.newSession, setLink]
  groups := by simp [Tables.newSession, setLink]
  groupTable := by simp [Tables.newSession, setLink]
  nextGroup := by simp [Tables.newSession, setLink]

/-- **A process founds a group and a session.** -/
theorem Consistent.newSession (h : Consistent none s) (hp : (s.processes.get? pid).isSome)
    (hin : s.processTable.contains pid = true) (hpid : s.link pid = none) (hfree : s.groupTable.get? pid = none)
      (hfree' : s.sessionTable.get? pid = none) : Consistent none (s.newSession pid) := by
  have hst := newSession_founds hp
  have hsessions : (s.newSession pid).sessions = update s.sessions s.nextSession (.new pid s.nextGroup pid) := by
    simp [Tables.newSession, setLink]
  have hsid : (s.newSession pid).sidOf = update s.sidOf s.nextSession pid := by
    unfold sidOf
    rw [hsessions]
    exact field_update Session.sid ..
  have hgrps : (s.newSession pid).grps =
      s.grps.found (s.newSession pid).pgidOf (s.newSession pid).sidOf s.nextGroup s.nextSession := by
    refine Registry.ext hst.grpsLink ?_ ?_
    · show (fun τ => ((s.newSession pid).sessions τ).processGroups) = update s.grps.members s.nextSession
        ((s.sessions s.nextSession).processGroups.insert ((s.newSession pid).pgidOf s.nextGroup) _)
      rw [hsessions, hst.pgidOf, update_self, field_update, BTreeMap.eq_empty (h.freshSessions _ le_rfl).1]
      rfl
    · show (s.newSession pid).sessionTable = s.sessionTable.insert ((s.newSession pid).sidOf s.nextSession) _
      rw [hsid, update_self]
      simp [Tables.newSession, setLink]
  refine hst.consistent h hin hpid hfree ?_ ?_
  · have hsound : s.grps.Sound (update s.pgidOf s.nextGroup pid) (update s.sidOf s.nextSession pid) none := by
      refine (h.renamed pid).2.congr (fun _ _ => rfl) fun τ hτ => update_of_ne ?_ ..
      rintro rfl
      have hfull : (s.sessions s.nextSession).isEmpty = false := hτ.resolve_right nofun
      cases hfull.symm.trans (h.freshSessions _ le_rfl).1
    rw [hgrps, hst.pgidOf, hsid]
    refine hsound.found h.link_nextGroup ?_
    rw [update_self]
    exact hfree'
  · intro τ hτ
    have hτ : s.nextSession + 1 ≤ τ := by simpa [Tables.newSession, setLink] using hτ
    rw [hsessions, update_of_ne (by omega)]
    exact (h.freshSessions τ (by omega)).1

theorem link_of_processGroup (h : s.processGroup pid = some g) : s.link pid = some g :=
  (Option.filter_eq_some_iff.mp h).1

theorem session_eq_some (h : s.session pid = some σ) :
    ∃ g, s.processGroup pid = some g ∧ s.link pid = some g ∧ (s.groups g).session = some σ := by
  obtain ⟨g, hg, hσ⟩ := Option.bind_eq_some_iff.mp h
  exact ⟨g, hg, link_of_processGroup hg, (Option.filter_eq_some_iff.mp hσ).1⟩

theorem isSome_of_link (h : s.link pid = some g) : (s.processes.get? pid).isSome := by
  obtain ⟨p, hp, -⟩ := Option.bind_eq_some_iff.mp h
  rw [hp]
  rfl

end Tables

end AsterKernel.Process
