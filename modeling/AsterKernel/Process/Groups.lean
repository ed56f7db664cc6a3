import AsterKernel.Process.Registers

/-!
# `Process.Groups` — the group and session tables agree with the links

Every operation keeps the two registers sound but one: `to_specified_group` takes a group that it leaves empty out of
the group table, and forgets its session.
-/

namespace AsterKernel.Process

open Lib Lib.Comp Function BTreeMap

/-! ## The operations -/

variable {s t : Tables}

section Ops

open Tables

variable {pid g σ current pgid child : Nat}

variable {keep : Bool} {parent : Nat}

theorem leaveOld_ok {u : Unit} (hg : s.processGroup pid = some g)
    (h : leaveOld keep pid σ s = .ok u t) : t = s.leave keep pid g σ := by
  unfold leaveOld at h
  rw [get_bind, hg] at h
  exact (modify_ok.mp h).symm

theorem leaveOld_not_err {e : Error} (hg : s.processGroup pid = some g) : leaveOld keep pid σ s ≠ .err e t := by
  unfold leaveOld
  rw [get_bind, hg]
  exact nofun

theorem isSessionLeader_reads : Reads (isSessionLeader pid) := by
  intro s t h
  unfold isSessionLeader at h
  rw [get_bind] at h
  obtain ⟨σ, -, h⟩ := expect_bind_final.mp h
  exact pure_final.mp h

/-- A process founds a group with its own id. -/
theorem toNewGroup_consistent (h : Consistent none s) (hfree : s.groupTable.get? pid = none)
    (hrun : (toNewGroup pid s).final = some t) : Consistent none t := by
  unfold toNewGroup at hrun
  rw [get_bind] at hrun
  obtain ⟨σ, hσ, hrun⟩ := expect_bind_final.mp hrun
  obtain ⟨g, hg, hlink, hsession⟩ := session_eq_some hσ
  rcases bind_final.mp hrun with ⟨e, herr⟩ | ⟨_, u, hleave, hrun⟩
  · exact absurd herr (leaveOld_not_err hg)
  · rw [leaveOld_ok hg hleave] at hrun
    rw [modify_final.mp hrun]
    have hu : Consistent (some σ) (s.leave true pid g σ) := h.leave true hlink hsession
    refine hu.newGroup (.inr rfl) (leave_get? true (isSome_of_link hlink)) ?_ ?_ (leave_groupTable true hfree)
      ((hu.grps.table _ σ).mpr ⟨rfl, .inr rfl⟩)
    · rw [leave_processTable]
      exact h.processTable pid (by rw [hlink]; rfl)
    · rw [leave_link, update_self]

/-- The new session has the one new group. -/
theorem makeNewSession_consistent (h : Consistent none s) (hrun : (makeNewSession pid s).final = some t) :
    Consistent none t := by
  unfold makeNewSession at hrun
  rw [get_bind] at hrun
  rcases guard_bind_final hrun with rfl | ⟨-, hrun⟩
  · exact h
  obtain ⟨σ, hσ, hrun⟩ := expect_bind_final.mp hrun
  obtain ⟨g, hg, hlink, hsession⟩ := session_eq_some hσ
  rcases guard_bind_final hrun with rfl | ⟨hfree', hrun⟩
  · exact h
  rcases guard_bind_final hrun with rfl | ⟨hfree, hrun⟩
  · exact h
  simp only [Option.isSome_eq_false_iff, Option.isNone_iff_eq_none] at hfree hfree'
  rcases bind_final.mp hrun with ⟨e, herr⟩ | ⟨_, u, hleave, hrun⟩
  · exact absurd herr (leaveOld_not_err hg)
  · rw [leaveOld_ok hg hleave, modify_bind, modify_bind, pure_final] at hrun
    subst hrun
    have hu : Consistent none (s.leave false pid g σ) := h.leave false hlink hsession
    refine (hu.newSession (leave_get? false (isSome_of_link hlink)) ?_ ?_ (leave_groupTable false hfree)
      (leave_sessionTable false hfree')).alike (alike_updSession (fun _ => rfl) fun _ => rfl)
    · rw [leave_processTable]
      exact h.processTable pid (by rw [hlink]; rfl)
    · rw [leave_link, update_self]

theorem toNewSession_consistent (h : Consistent none s) (hrun : (toNewSession pid s).final = some t) :
    Consistent none t := by
  rcases isSessionLeader_reads.bind_final hrun with rfl | ⟨leads, -, hrun⟩
  · exact h
  · cases leads with
    | true =>
      simp only [if_true, get_bind] at hrun
      cases hσ : s.session pid with
      | none => rw [hσ] at hrun; cases hrun
      | some σ => rw [hσ] at hrun; cases hrun; exact h
    | false => exact makeNewSession_consistent h hrun

/-- The process that moves to an existing group does not leave its own empty. -/
def NotLast (s : Tables) (pid pgid : Nat) : Prop :=
  ∀ g, s.groupTable.get? pgid = some g → ∀ old, s.link pid = some old → old ≠ g → ∃ q, q ≠ pid ∧ s.link q = some old

section

variable (h : Consistent none s)
include h

theorem NotLast.left {old k : Nat} (hlast : NotLast s pid k)
    (hg : s.groupTable.get? k = some g) (hold : s.link pid = some old) (hne : old ≠ g) :
    ((s.groups old).removeProcess pid).isEmpty = false := by
  obtain ⟨q, hq, hlink⟩ := hlast g hg old hold hne
  refine isEmpty_eq_false.mpr ⟨q, q, ?_⟩
  show ((s.groups old).processes.remove pid).get? q = some q
  rw [get?_remove, if_neg hq]
  exact h.procs.get_link hlink

/-- A process moves to a group that exists and leaves its own one, not empty. -/
theorem toSpecifiedGroup_consistent {k : Nat} (hlast : NotLast s pid k)
    (hg : s.groupTable.get? k = some g) (hsome : (s.session pid).isSome)
    (hrun : (toSpecifiedGroup pid g s).final = some t) : Consistent none t := by
  obtain ⟨σ, hσ⟩ := Option.isSome_iff_exists.mp hsome
  obtain ⟨old, hgroup, hlink, -⟩ := session_eq_some hσ
  unfold toSpecifiedGroup at hrun
  rw [get_bind, hgroup] at hrun
  by_cases hsame : (s.groups old).pgid = (s.groups g).pgid
  · simp only [hsame, if_true] at hrun
    rwa [pure_final.mp hrun]
  · simp only [hsame, if_false] at hrun
    rw [modify_final.mp hrun]
    have hleft := hlast.left h hg hlink (by rintro rfl; exact hsame rfl)
    have hdrop : leaveForSpecified pid old s = s.drop pid old := by
      show (if ((s.drop pid old).groups old).isEmpty then _ else s.drop pid old) = _
      rw [drop_groups, update_self, hleft]
      rfl
    rw [hdrop]
    refine (h.drop hlink hleft).join (drop_get? (isSome_of_link hlink)) ?_ ?_ (by rw [drop_groupTable]; exact hg)
    · rw [drop_processTable]
      exact h.processTable pid (by rw [hlink]; rfl)
    · rw [drop_link, update_self]

theorem toExistingOrNewGroup_consistent (hlast : NotLast s pid pgid)
    (hrun : (toExistingOrNewGroup pid pgid s).final = some t) : Consistent none t := by
  unfold toExistingOrNewGroup at hrun
  rw [get_bind] at hrun
  cases hg : s.groupTable.get? pgid with
  | some g =>
    rw [hg] at hrun
    obtain ⟨σ, hσ, hrun⟩ := expect_bind_final.mp hrun
    rcases guard_bind_final hrun with rfl | ⟨-, hrun⟩
    · exact h
    · exact toSpecifiedGroup_consistent h hlast hg (by rw [hσ]; rfl) hrun
  | none =>
    rw [hg] at hrun
    rcases guard_bind_final hrun with rfl | ⟨hpgid, hrun⟩
    · exact h
    · rw [bne_eq_false_iff_eq] at hpgid
      subst hpgid
      exact toNewGroup_consistent h hg hrun

theorem toOtherGroup_consistent (hlast : NotLast s pid pgid)
    (hrun : (toOtherGroup pid pgid s).final = some t) : Consistent none t := by
  unfold toOtherGroup at hrun
  rw [get_bind] at hrun
  by_cases hin : s.pgid pid = pgid
  · simp only [hin, if_true] at hrun
    rwa [pure_final.mp hrun]
  · simp only [hin, if_false] at hrun
    unfold leaveForOtherGroup at hrun
    rcases isSessionLeader_reads.bind_final hrun with rfl | ⟨leads, -, hrest⟩
    · exact h
    · rcases guard_bind_final hrest with rfl | ⟨-, hmove⟩
      · exact h
      · exact toExistingOrNewGroup_consistent h hlast hmove

theorem sysSetpgid_consistent (hlast : NotLast s (if pid = 0 then current else pid)
      (if pgid = 0 then if pid = 0 then current else pid else pgid))
    (hrun : (sysSetpgid current pid pgid s).final = some t) : Consistent none t := by
  unfold sysSetpgid at hrun
  rw [get_bind] at hrun
  obtain ⟨p, -, hrun⟩ := expect_bind_final.mp hrun
  rcases guard_bind_final hrun with rfl | ⟨-, hrun⟩
  · exact h
  rcases guard_bind_final hrun with rfl | ⟨-, hrun⟩
  · exact h
  rcases guard_bind_final hrun with rfl | ⟨-, hrun⟩
  · exact h
  exact toOtherGroup_consistent h hlast hrun

end

theorem alike_tid : Alike s { s with nextTid := (s.nextTid + 1) % 2 ^ 32 } :=
  ⟨rfl, fun _ => id, rfl, rfl, rfl, fun _ => rfl, fun _ => rfl, rfl, rfl⟩

/-- A process that is in no group may be built. -/
theorem alike_insert (pid : Nat) (p : Proc) (hfree : s.link pid = none) (hp : p.processGroup = none) :
    Alike s { s with processes := s.processes.insert pid p, processTable := s.processTable.insert pid } := by
  refine ⟨?_, ?_, rfl, rfl, rfl, fun _ => rfl, fun _ => rfl, rfl, rfl⟩
  · funext q
    by_cases hq : q = pid
    · subst hq
      rw [hfree]
      unfold link
      rw [get?_insert, if_pos rfl]
      exact hp
    · unfold link
      rw [get?_insert, if_neg hq]
  · intro q hq
    dsimp only
    rw [BTreeSet.contains_insert, hq, Bool.or_true]

theorem setParentAndGroup_consistent (h : Consistent none s) (hfree : s.processTable.contains child = false)
    (hrun : (setParentAndGroup current child s).final = some t) : Consistent none t := by
  unfold setParentAndGroup at hrun
  rw [get_bind] at hrun
  obtain ⟨g, hg, hrun⟩ := expect_bind_final.mp hrun
  rw [modify_bind, modify_bind, modify_final] at hrun
  rw [hrun]
  have hlink := link_of_processGroup hg
  have hnone : s.link child = none := by
    by_contra hsome
    have hin := h.processTable child (Option.isSome_iff_ne_none.mpr hsome)
    cases hfree.symm.trans hin
  have hchildren : Alike s (s.updProc current fun p => { p with children := p.children.insert child }) :=
    alike_updProc fun _ => rfl
  have hboth := hchildren.trans (alike_insert child ⟨some current, BTreeSet.empty, none, .runnable⟩
    (by rw [hchildren.link]; exact hnone) rfl)
  refine (h.alike hboth).join ?_ ?_ (by rw [hboth.link]; exact hnone) (k := s.pgidOf g)
    (by rw [hboth.groupTable]; exact h.procs.mem_table hlink)
  · dsimp only
    rw [get?_insert, if_pos rfl]
    rfl
  · dsimp only
    rw [BTreeSet.contains_insert, decide_eq_true rfl, Bool.true_or]

/-- A child joins the group of its parent. -/
theorem fork_consistent (h : Consistent none s) (hfree : s.processTable.contains s.nextTid = false)
    (hrun : (fork current s).final = some t) : Consistent none t := by
  unfold fork allocateTid at hrun
  rcases bind_final.mp hrun with ⟨e, herr⟩ | ⟨child, u, htid, hrun⟩
  · cases herr
  · rw [get_bind, modify_bind, pure_ok] at htid
    obtain ⟨rfl, rfl⟩ := htid
    have hu := h.alike (alike_tid (s := s))
    exact setParentAndGroup_consistent hu hfree (Reads.final_of_bind (fun _ => .pure _) hrun)

theorem alike_giveToInit : Alike s (giveToInit child s) := by
  unfold giveToInit
  refine Alike.trans ?_ (alike_updProc ?_)
  · exact alike_updProc fun _ => rfl
  · exact fun _ => rfl

theorem alike_giveAll (children : List Nat) : Alike s (giveAll children s) := by
  induction children generalizing s with
  | nil => exact .refl s
  | cons child rest ih => exact alike_giveToInit.trans ih

theorem alike_handOver : Alike s (handOver pid s) := by
  unfold handOver
  split
  · exact (alike_giveAll _).trans (alike_updProc fun _ => rfl)
  · exact .refl s

theorem doExitGroup_consistent {term : TermStatus} (h : Consistent none s)
    (hrun : (doExitGroup current term s).final = some t) : Consistent none t := by
  unfold doExitGroup at hrun
  rw [get_bind] at hrun
  obtain ⟨p, -, hrun⟩ := expect_bind_final.mp hrun
  cases hz : p.isZombie with
  | true =>
    rw [hz] at hrun
    rwa [pure_final.mp hrun]
  | false =>
    rw [hz] at hrun
    rw [modify_final.mp hrun]
    refine h.alike (Alike.trans ?_ alike_handOver)
    exact alike_updProc fun _ => rfl

theorem removeChild_alike (hrun : (removeChild parent child s).final = some t) : Alike s t := by
  unfold removeChild at hrun
  rw [get_bind] at hrun
  rcases bind_final.mp hrun with ⟨e, herr⟩ | ⟨_, u, hin, hrun⟩
  · exact absurd herr assert_not_err
  · obtain ⟨-, rfl⟩ := assert_ok.mp hin
    rw [modify_bind] at hrun
    rw [Reads.assert _ _ _ hrun]
    exact alike_updProc fun _ => rfl

/-- A reaped process takes its group and session with it if they are empty then. -/
theorem removeFromTables_consistent (h : Consistent none s) (hrun : (removeFromTables child s).final = some t) :
    Consistent none t := by
  unfold removeFromTables at hrun
  rw [get_bind] at hrun
  obtain ⟨g, hg, hrun⟩ := expect_bind_final.mp hrun
  obtain ⟨σ, hσ, hrun⟩ := expect_bind_final.mp hrun
  rw [modify_bind, modify_bind, modify_bind] at hrun
  cases hcode : exitCode s child with
  | none => rw [hcode] at hrun; cases hrun
  | some code =>
    rw [hcode] at hrun
    cases hrun
    have hlink := link_of_processGroup hg
    have hses := alike_updSession (s := s) (σ := σ) (f := Session.removeProcess child) (fun _ => rfl) fun _ => rfl
    have hleave := (h.alike hses).leave false hlink (Option.filter_eq_some_iff.mp hσ).1
    -- the process has left its group already
    refine { hleave with processTable := fun q hq => ?_ }
    have hq : (((s.updSession σ (Session.removeProcess child)).leave false child g σ).link q).isSome := hq
    dsimp only
    rw [BTreeSet.contains_remove, hleave.processTable q hq, Bool.and_true, Bool.not_eq_true', decide_eq_false_iff_not]
    rintro rfl
    rw [leave_link, update_self] at hq
    cases hq

theorem reapZombieChild_consistent (h : Consistent none s)
    (hrun : (reapZombieChild parent child s).final = some t) : Consistent none t := by
  rcases bind_final.mp hrun with ⟨e, herr⟩ | ⟨_, u, hremove, hrun⟩
  · exact h.alike (removeChild_alike (by rw [herr]; rfl))
  · exact removeFromTables_consistent (h.alike (removeChild_alike (by rw [hremove]; rfl))) hrun

theorem waitChildExit_consistent {filter : ProcessFilter} {options : WaitOptions} (h : Consistent none s)
    (hrun : (waitChildExit current filter options s).final = some t) : Consistent none t := by
  unfold waitChildExit at hrun
  rw [get_bind] at hrun
  rcases guard_bind_final hrun with rfl | ⟨-, hrun⟩
  · exact h
  unfold waitFor at hrun
  rw [get_bind] at hrun
  cases hfind : (unwaitedChildren s current filter).find? (isZombie s) with
  | none =>
    rw [hfind] at hrun
    rwa [pure_final.mp hrun]
  | some child =>
    rw [hfind] at hrun
    obtain ⟨code, -, hrun⟩ := expect_bind_final.mp hrun
    cases hopt : options.wnowait with
    | true =>
      simp only [hopt, if_true] at hrun
      rwa [pure_final.mp hrun]
    | false =>
      simp only [hopt, Bool.false_eq_true, if_false] at hrun
      exact reapZombieChild_consistent h (Reads.final_of_bind (fun _ => .pure _) hrun)

end Ops

/-! ## Whole runs -/

/-- A process that moves to an existing group leaves another one behind in its own, and a child gets an id that no
process has. -/
def Op.Safe (s : Tables) : Op → Prop
  | .fork _ => s.processTable.contains s.nextTid = false
  | .setpgid current pid pgid =>
    let pid := if pid = 0 then current else pid
    NotLast s pid (if pgid = 0 then pid else pgid)
  | _ => True

theorem discard_final {α : Type} {m : Comp Tables Error α}
    (h : ((do let _ ← m; pure () : Comp Tables Error Unit) s).final = some t) : (m s).final = some t :=
  Reads.final_of_bind (fun _ => .pure ()) h

/-- Every operation keeps the tables consistent, if none moves the last process of a group to another group. -/
theorem Op.consistent {op : Op} (h : s.Consistent none) (hsafe : op.Safe s) (hrun : (op.run s).final = some t) :
    t.Consistent none := by
  cases op with
  | fork current => exact fork_consistent h hsafe (discard_final hrun)
  | cloneThread =>
    have hrun := discard_final (m := allocateTid) hrun
    unfold allocateTid at hrun
    rw [get_bind, modify_bind, pure_final] at hrun
    rw [hrun]
    exact h.alike alike_tid
  | setpgid current pid pgid => exact sysSetpgid_consistent h hsafe hrun
  | setsid current =>
    have hrun := discard_final (m := sysSetsid current) hrun
    exact toNewSession_consistent h (Reads.final_of_bind (fun _ => Reads.get.bind fun _ => .pure _) hrun)
  | exit current term => exact doExitGroup_consistent h hrun
  | wait current filter options => exact waitChildExit_consistent h (discard_final hrun)

theorem empty_consistent (nextTid : Nat) (processes : BTreeMap Proc) (processTable : BTreeSet)
    (h : ∀ pid p, processes.get? pid = some p → p.processGroup = none) :
    Tables.Consistent none { Tables.empty nextTid with processes := processes, processTable := processTable } := by
  have hnone : ∀ pid, ({ Tables.empty nextTid with
      processes := processes, processTable := processTable } : Tables).link pid = none := by
    intro pid
    unfold Tables.link
    cases hp : processes.get? pid with
    | none => rfl
    | some p => exact h pid p hp
  refine ⟨⟨?_, ?_⟩, ⟨?_, ?_⟩, ?_, ?_, ?_, ?_⟩
  · intro g k x
    refine ⟨nofun, ?_⟩
    rintro ⟨-, hlink⟩
    cases (hnone x).symm.trans hlink
  · exact fun k g => ⟨nofun, fun hg => by rcases hg.2 with hg | hg <;> cases hg⟩
  · exact fun σ k g => ⟨nofun, fun hg => by cases hg.2⟩
  · exact fun k σ => ⟨nofun, fun hσ => by rcases hσ.2 with hσ | hσ <;> cases hσ⟩
  · exact fun g hg => by cases hg
  · intro pid hpid
    rw [hnone] at hpid
    cases hpid
  · exact fun _ _ => rfl
  · exact fun _ _ => ⟨rfl, nofun⟩

theorem boot_get? (pid q : Nat) : (Tables.boot pid).processes.get? q =
    if q = pid then some ⟨none, BTreeSet.empty, some 0, .runnable⟩ else none := by
  refine (Tables.updProc_get? q).trans ?_
  by_cases hq : q = pid
  · subst hq
    rw [if_pos rfl, if_pos rfl]
    show Option.map _ ((empty.insert q _).get? q) = _
    rw [get?_insert, if_pos rfl]
    rfl
  · rw [if_neg hq, if_neg hq]
    show (empty.insert pid _).get? q = none
    rw [get?_insert, if_neg hq]
    rfl

theorem boot_consistent (pid : Nat) : (Tables.boot pid).Consistent none := by
  have hget : (empty.insert pid (⟨none, BTreeSet.empty, none, .runnable⟩ : Proc)).get? pid =
      some ⟨none, BTreeSet.empty, none, .runnable⟩ := by
    rw [get?_insert, if_pos rfl]
  refine (empty_consistent _ _ _ ?_).newSession ?_ ?_ ?_ rfl rfl
  · intro q p hp
    rw [get?_insert] at hp
    split at hp
    · cases hp
      rfl
    · cases hp
  · dsimp only
    rw [hget]
    rfl
  · simp
  · unfold Tables.link
    dsimp only
    rw [hget]
    rfl

/-- The tables after operations in `P`, from those of the first process. -/
def OpReach (P : Tables → Op → Prop) (pid : Nat) : Tables → Prop :=
  Reach (· = Tables.boot pid) fun s t => ∃ op, P s op ∧ (op.run s).final = some t

/-- The four tables say the same. -/
structure Agree (s : Tables) : Prop where
  members : ∀ g k pid, (s.groups g).processes.get? k = some pid ↔ pid = k ∧ s.link pid = some g
  groupTable : ∀ pgid g, s.groupTable.get? pgid = some g ↔
    (s.groups g).pgid = pgid ∧ ∃ k pid, (s.groups g).processes.get? k = some pid
  processGroups : ∀ σ pgid g, (s.sessions σ).processGroups.get? pgid = some g ↔
    s.groupTable.get? pgid = some g ∧ (s.groups g).session = some σ
  sessionTable : ∀ sid σ, s.sessionTable.get? sid = some σ ↔
    (s.sessions σ).sid = sid ∧ ∃ pgid g, (s.sessions σ).processGroups.get? pgid = some g

theorem Tables.Consistent.agree (h : s.Consistent none) : Agree s where
  members := h.procs.members
  groupTable pgid g := by
    refine (h.groupTable_iff pgid g).trans (and_congr_right fun _ => ?_)
    exact isEmpty_eq_false
  processGroups σ pgid g := by
    refine (h.grps.members σ pgid g).trans ?_
    rw [h.groupTable_iff, and_assoc]
    refine and_congr_right fun _ => ?_
    show (if (s.groups g).isEmpty then none else (s.groups g).session) = some σ ↔ _
    cases (s.groups g).isEmpty with
    | true | false => simp
  sessionTable sid σ := by
    refine (h.grps.table sid σ).trans ?_
    simp only [reduceCtorEq, or_false]
    exact and_congr_right fun _ => isEmpty_eq_false

/-- **The tables agree in every reached state.** -/
theorem tables_agree (pid : Nat) (s : Tables) (h : OpReach (fun s op => op.Safe s) pid s) : Agree s := by
  have hs : s.Consistent none := by
    refine h.invariant ?_ ?_
    · rintro _ rfl
      exact boot_consistent pid
    · rintro u v hu ⟨op, hsafe, hrun⟩
      exact Op.consistent hu hsafe hrun
  exact hs.agree

/-- The first process has a child, which moves to a group of its own. -/
def afterFork : Tables := ((Op.fork 3).run (.boot 3)).final.getD (.boot 3)

def afterMove : Tables := ((Op.setpgid 3 4 4).run afterFork).final.getD (.boot 3)

theorem tables_agree_afterMove : afterMove.groupTable.get? 4 = some 1 ∧ Agree afterMove := by
  refine ⟨by decide, tables_agree 3 afterMove ?_⟩
  have hfork : OpReach (fun s op => op.Safe s) 3 afterFork := .step (.init rfl)
    ⟨.fork 3, show (Tables.boot 3).processTable.contains (Tables.boot 3).nextTid = false by decide, rfl⟩
  refine .step hfork ⟨.setpgid 3 4 4, ?_, rfl⟩
  intro g hg
  have hnone : afterFork.groupTable.get? 4 = none := by decide
  cases hnone.symm.trans hg

/-- The child moves back, and leaves its group empty. -/
def afterReturn : Tables := ((Op.setpgid 3 4 3).run afterMove).final.getD (.boot 3)

/-- **The session keeps the group that `to_specified_group` left empty.** -/
theorem setpgid_leaves_group : OpReach (fun _ _ => True) 3 afterReturn ∧ afterReturn.groupTable.get? 4 = none ∧
      (afterReturn.groups 1).isEmpty = true ∧ (afterReturn.sessions 0).processGroups.get? 4 = some 1 ∧
      ¬ Agree afterReturn := by
  have hgone : afterReturn.groupTable.get? 4 = none := by decide
  have hkept : (afterReturn.sessions 0).processGroups.get? 4 = some 1 := by decide
  refine ⟨?_, hgone, by decide, hkept, ?_⟩
  · have hfork : OpReach (fun _ _ => True) 3 afterFork := .step (.init rfl) ⟨.fork 3, trivial, rfl⟩
    have hmove : OpReach (fun _ _ => True) 3 afterMove := .step hfork ⟨.setpgid 3 4 4, trivial, rfl⟩
    exact .step hmove ⟨.setpgid 3 4 3, trivial, rfl⟩
  · intro hagree
    have hin := ((hagree.processGroups 0 4 1).mp hkept).1
    cases hgone.symm.trans hin

end AsterKernel.Process
