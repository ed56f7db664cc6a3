import AsterKernel.Lib.Outcome
import AsterKernel.Lib.Reach

/-!
# `Process.Credentials` — user and group ids

A thread has a real, an effective, a saved and a file system id, of users and of groups. It is privileged if its
effective user id is that of root. The setters of the two families are the same functions, on different ids and with
different messages.
-/

namespace AsterKernel.Process

open Lib Lib.Comp

inductive Errno where
  | ECHILD
  | EINTR
  | EINVAL
  | ENOTTY
  | EPERM
  | ESRCH
deriving DecidableEq, Repr

/-- An error: its number and its message, if it has one. -/
structure Error where
  errno : Errno
  msg : Option String
deriving DecidableEq, Repr

def Error.withMessage (errno : Errno) (msg : String) : Error := ⟨errno, some msg⟩

/-! ## One family of ids -/

/-- The ids of one family; the id of root is 0. -/
structure Ids where
  real : UInt32
  effective : UInt32
  saved : UInt32
  fs : UInt32
deriving DecidableEq, Repr

/-- The messages of the checks of a family. -/
structure Messages where
  real : String
  effective : String
  saved : String
  fs : String

def uidMessages : Messages where
  real := "ruid can only be one of old ruid, old euid (and old suid)."
  effective := "euid can only be one of old ruid, old euid and old suid."
  saved := "suid can only be one of old ruid, old euid and old suid."
  fs := "fsuid can only be one of old ruid, old euid and old suid."

def gidMessages : Messages where
  real := "rgid can only be one of old rgid, old egid (and old sgid)."
  effective := "egid can only be one of old rgid, old egid and old sgid."
  saved := "sgid can only be one of old rgid, old egid and old sgid."
  -- the text of `set_fsuid`, which `set_fsgid` repeats
  fs := "fsuid can only be one of old ruid, old euid and old suid."

namespace Ids

variable (privileged : Bool) (msgs : Messages)

/-- `set_uid` and `set_gid`. -/
def set (id : UInt32) : Comp Ids Error Unit :=
  if privileged then modify fun i => { i with real := id, effective := id, saved := id }
  else modify fun i => { i with effective := id }

/-- `check_uid_perm` and `check_gid_perm`. -/
def checkPerm (real effective saved : Option UInt32) (realMayBeOldSaved : Bool) : Comp Ids Error Unit :=
  if privileged then pure ()
  else do
    let i ← Comp.get
    when (real.any fun id => id != i.real && id != i.effective && (!realMayBeOldSaved || id != i.saved))
      (fail (.withMessage .EPERM msgs.real))
    when (effective.any fun id => id != i.real && id != i.effective && id != i.saved)
      (fail (.withMessage .EPERM msgs.effective))
    when (saved.any fun id => id != i.real && id != i.effective && id != i.saved)
      (fail (.withMessage .EPERM msgs.saved))

/-- `set_resuid_unchecked` and `set_resgid_unchecked`. -/
def setResUnchecked (real effective saved : Option UInt32) (i : Ids) : Ids :=
  { i with real := real.getD i.real, effective := effective.getD i.effective, saved := saved.getD i.saved }

/-- `set_reuid` and `set_regid`. -/
def setRe (real effective : Option UInt32) : Comp Ids Error Unit := do
  checkPerm privileged msgs real effective none false
  let old ← Comp.get
  modify (setResUnchecked real effective none)
  when (real.isSome || effective.any (· != old.real)) (modify fun i => { i with saved := i.effective })
  modify fun i => { i with fs := i.effective }

/-- `set_resuid` and `set_resgid`. -/
def setRes (real effective saved : Option UInt32) : Comp Ids Error Unit := do
  checkPerm privileged msgs real effective saved true
  modify (setResUnchecked real effective saved)
  modify fun i => { i with fs := i.effective }

/-- `set_fsuid` and `set_fsgid`: the old id is returned. -/
def setFs : Option UInt32 → Comp Ids Error UInt32
  | none => do
    let i ← Comp.get
    pure i.fs
  | some id => do
    let i ← Comp.get
    when (!privileged && (id != i.real && id != i.effective && id != i.saved)) (fail (.withMessage .EPERM msgs.fs))
    modify fun i => { i with fs := id }
    pure i.fs

end Ids

/-! ## System calls -/

structure Credentials where
  uids : Ids
  gids : Ids
deriving DecidableEq, Repr

namespace Credentials

/-- The effective user id is that of root. -/
def isPrivileged (c : Credentials) : Bool := c.uids.effective == 0

def onUids {α : Type} (m : Bool → Comp Ids Error α) : Comp Credentials Error α := fun c =>
  zoom uids (fun i c => { c with uids := i }) (m c.isPrivileged) c

def onGids {α : Type} (m : Bool → Comp Ids Error α) : Comp Credentials Error α := fun c =>
  zoom gids (fun i c => { c with gids := i }) (m c.isPrivileged) c

def setUid (uid : UInt32) : Comp Credentials Error Unit := onUids fun b => Ids.set b uid
def setReuid (ruid euid : Option UInt32) : Comp Credentials Error Unit :=
  onUids fun b => Ids.setRe b uidMessages ruid euid
def setResuid (ruid euid suid : Option UInt32) : Comp Credentials Error Unit :=
  onUids fun b => Ids.setRes b uidMessages ruid euid suid
def setFsuid (fsuid : Option UInt32) : Comp Credentials Error UInt32 := onUids fun b => Ids.setFs b uidMessages fsuid

def setGid (gid : UInt32) : Comp Credentials Error Unit := onGids fun b => Ids.set b gid
def setRegid (rgid egid : Option UInt32) : Comp Credentials Error Unit :=
  onGids fun b => Ids.setRe b gidMessages rgid egid
def setResgid (rgid egid sgid : Option UInt32) : Comp Credentials Error Unit :=
  onGids fun b => Ids.setRes b gidMessages rgid egid sgid
def setFsgid (fsgid : Option UInt32) : Comp Credentials Error UInt32 := onGids fun b => Ids.setFs b gidMessages fsgid

end Credentials

/-- An id that is set only if it is positive. -/
def positive (id : Int32) : Option UInt32 := if 0 < id then some id.toUInt32 else none

def nonnegative (id : Int32) : Option UInt32 := if id < 0 then none else some id.toUInt32

/-- A system call with its arguments. -/
inductive Call where
  | setuid (uid : Int32)
  | setreuid (ruid euid : Int32)
  | setresuid (ruid euid suid : Int32)
  | setfsuid (uid : Int32)
  | setgid (gid : Int32)
  | setregid (rgid egid : Int32)
  | setresgid (rgid egid sgid : Int32)
  | setfsgid (gid : Int32)
deriving DecidableEq

/-- `sys_setuid`, `sys_setreuid` and so on, with what they return. -/
def Call.run : Call → Comp Credentials Error UInt32
  | .setuid uid => do
    when (uid < 0) (fail (.withMessage .EINVAL "uid cannot be negative"))
    Credentials.setUid uid.toUInt32
    pure 0
  | .setreuid ruid euid => do
    Credentials.setReuid (positive ruid) (positive euid)
    pure 0
  | .setresuid ruid euid suid => do
    Credentials.setResuid (positive ruid) (positive euid) (positive suid)
    pure 0
  | .setfsuid uid => Credentials.setFsuid (nonnegative uid)
  | .setgid gid => do
    when (gid < 0) (fail (.withMessage .EINVAL "gid cannot be negative"))
    Credentials.setGid gid.toUInt32
    pure 0
  | .setregid rgid egid => do
    Credentials.setRegid (positive rgid) (positive egid)
    pure 0
  | .setresgid rgid egid sgid => do
    Credentials.setResgid (positive rgid) (positive egid) (positive sgid)
    pure 0
  | .setfsgid gid => Credentials.setFsgid (nonnegative gid)

/-! ## Ids that come from others -/

namespace Ids

variable {msgs : Messages} {i j k : Ids} {id : UInt32} {real effective saved : Option UInt32} {b b' : Bool}

/-- An id that an unprivileged thread may take. -/
def Has (i : Ids) (id : UInt32) : Prop := id = i.real ∨ id = i.effective ∨ id = i.saved

instance (i : Ids) (id : UInt32) : Decidable (i.Has id) := inferInstanceAs (Decidable (_ ∨ _))

/-- The ids `j` are taken from `i`; the file system id may also stay. -/
structure From (i j : Ids) : Prop where
  real : i.Has j.real
  effective : i.Has j.effective
  saved : i.Has j.saved
  fs : i.Has j.fs ∨ j.fs = i.fs

theorem From.refl (i : Ids) : From i i := ⟨.inl rfl, .inr (.inl rfl), .inr (.inr rfl), .inr rfl⟩

theorem From.has (h : From i j) (hid : j.Has id) : i.Has id := by
  rcases hid with rfl | rfl | rfl
  · exact h.real
  · exact h.effective
  · exact h.saved

theorem From.trans (h : From i j) (h' : From j k) : From i k where
  real := h.has h'.real
  effective := h.has h'.effective
  saved := h.has h'.saved
  fs := by
    rcases h'.fs with hfs | hfs
    · exact .inl (h.has hfs)
    · rw [hfs]
      exact h.fs

theorem from_effective (hid : i.Has id) : From i { i with effective := id } :=
  ⟨.inl rfl, hid, .inr (.inr rfl), .inr rfl⟩

theorem from_saved : From i { i with saved := i.effective } :=
  ⟨.inl rfl, .inr (.inl rfl), .inr (.inl rfl), .inr rfl⟩

theorem from_fs (hid : i.Has id) : From i { i with fs := id } :=
  ⟨.inl rfl, .inr (.inl rfl), .inr (.inr rfl), .inl hid⟩

theorem has_of_not_refused (h : (id != i.real && id != i.effective && id != i.saved) = false) : i.Has id := by
  simp only [Bool.and_eq_false_iff, bne_eq_false_iff_eq] at h
  rcases h with (h | h) | h
  · exact .inl h
  · exact .inr (.inl h)
  · exact .inr (.inr h)

/-- **What an unprivileged thread may ask for.** -/
theorem checkPerm_ok (h : checkPerm false msgs real effective saved b i = .ok () j) :
    j = i ∧ (∀ id ∈ real, i.Has id) ∧ (∀ id ∈ effective, i.Has id) ∧ ∀ id ∈ saved, i.Has id := by
  unfold checkPerm at h
  simp only [Bool.false_eq_true, if_false, get_bind, guard_bind_ok, guard_ok] at h
  obtain ⟨hreal, heffective, hsaved, rfl⟩ := h
  refine ⟨rfl, ?_, ?_, ?_⟩
  · intro id hid
    rw [hid, Option.any_some] at hreal
    apply has_of_not_refused
    -- the old saved id may be refused even though it is there
    by_cases hb : b = true
    · simpa [hb] using hreal
    · simp only [Bool.not_eq_true] at hb
      simp only [hb, Bool.not_false, Bool.true_or, Bool.and_true] at hreal
      rw [hreal, Bool.false_and]
  · intro id hid
    rw [hid, Option.any_some] at heffective
    exact has_of_not_refused heffective
  · intro id hid
    rw [hid, Option.any_some] at hsaved
    exact has_of_not_refused hsaved

theorem has_getD {x : Option UInt32} {d : UInt32} (h : ∀ id ∈ x, i.Has id) (hd : i.Has d) : i.Has (x.getD d) := by
  cases x with
  | none => exact hd
  | some id => exact h id rfl

theorem from_setResUnchecked (hreal : ∀ id ∈ real, i.Has id) (heffective : ∀ id ∈ effective, i.Has id)
    (hsaved : ∀ id ∈ saved, i.Has id) : From i (setResUnchecked real effective saved i) where
  real := has_getD hreal (.inl rfl)
  effective := has_getD heffective (.inr (.inl rfl))
  saved := has_getD hsaved (.inr (.inr rfl))
  fs := .inr rfl

theorem checkPerm_reads : Reads (checkPerm b msgs real effective saved b') := by
  refine Reads.ite (.pure ()) (.bind .get fun i => ?_)
  refine .bind (.when (.fail _)) fun _ => .bind (.when (.fail _)) fun _ => ?_
  exact .when (.fail _)

/-! The setters of an unprivileged thread. -/

theorem set_from (hid : i.Has id) (h : (set false id i).final = some j) : From i j := by
  have hj : some { i with effective := id } = some j := h
  rw [← Option.some.inj hj]
  exact from_effective hid

theorem setRe_from (h : (setRe false msgs real effective i).final = some j) : From i j := by
  rcases checkPerm_reads.bind_final h with rfl | ⟨_, hcheck, hrest⟩
  · exact From.refl j
  · obtain ⟨-, hreal, heffective, hsaved⟩ := checkPerm_ok hcheck
    rw [get_bind, modify_bind] at hrest
    have hset := from_setResUnchecked hreal heffective hsaved
    rcases bind_final.mp hrest with ⟨e, hwhen⟩ | ⟨_, k, hwhen, hfs⟩
    · cases (when_err.mp hwhen).2
    · have hk : From i k := by
        rcases when_ok.mp hwhen with ⟨-, hmod⟩ | ⟨-, rfl⟩
        · rw [← modify_ok.mp hmod]
          exact hset.trans from_saved
        · exact hset
      have hj : some { k with fs := k.effective } = some j := hfs
      rw [← Option.some.inj hj]
      exact hk.trans (from_fs (.inr (.inl rfl)))

theorem setRes_from (h : (setRes false msgs real effective saved i).final = some j) : From i j := by
  rcases checkPerm_reads.bind_final h with rfl | ⟨_, hcheck, hrest⟩
  · exact From.refl j
  · obtain ⟨-, hreal, heffective, hsaved⟩ := checkPerm_ok hcheck
    rw [modify_bind] at hrest
    have hj : some { setResUnchecked real effective saved i with
        fs := (setResUnchecked real effective saved i).effective } = some j := hrest
    rw [← Option.some.inj hj]
    exact (from_setResUnchecked hreal heffective hsaved).trans (from_fs (.inr (.inl rfl)))

theorem setFs_from {fs : Option UInt32} (h : (setFs false msgs fs i).final = some j) : From i j := by
  cases fs with
  | none =>
    have hj : some i = some j := h
    rw [← Option.some.inj hj]
    exact From.refl i
  | some id =>
    dsimp only [setFs] at h
    rw [get_bind] at h
    rcases guard_bind_final h with rfl | ⟨hrefused, hfs⟩
    · exact From.refl j
    · have hj : some { i with fs := id } = some j := hfs
      rw [← Option.some.inj hj]
      exact from_fs (has_of_not_refused hrefused)

end Ids

/-! ## Calls of an unprivileged thread -/

variable {c d : Credentials}

/-- The argument of `setuid` and `setgid` is an id that the thread has, or is refused. -/
def Call.Checked (c : Credentials) : Call → Prop
  | .setuid uid => uid < 0 ∨ c.uids.Has uid.toUInt32
  | .setgid gid => gid < 0 ∨ c.gids.Has gid.toUInt32
  | _ => True

/-- A call that sets group ids. -/
def Call.OnGids : Call → Prop
  | .setgid _ | .setregid _ _ | .setresgid _ _ _ | .setfsgid _ => True
  | _ => False

/-- The ids of `d` are taken from those of `c`. -/
structure Credentials.From (c d : Credentials) : Prop where
  uids : Ids.From c.uids d.uids
  gids : Ids.From c.gids d.gids

theorem Credentials.From.refl (c : Credentials) : From c c := ⟨.refl _, .refl _⟩

theorem Credentials.From.trans {e : Credentials} (h : From c d) (h' : From d e) : From c e :=
  ⟨h.uids.trans h'.uids, h.gids.trans h'.gids⟩

theorem Credentials.onUids_from {α : Type} {m : Bool → Comp Ids Error α} (hc : c.isPrivileged = false)
    (hm : ∀ i j, i = c.uids → (m false i).final = some j → Ids.From i j) (h : (onUids m c).final = some d) :
    From c d := by
  unfold onUids at h
  rw [hc] at h
  obtain ⟨i, hi, rfl⟩ := zoom_final h
  exact ⟨hm _ _ rfl hi, .refl _⟩

theorem Credentials.onGids_from {α : Type} {m : Bool → Comp Ids Error α} (hc : c.isPrivileged = false)
    (hm : ∀ i j, i = c.gids → (m false i).final = some j → Ids.From i j) (h : (onGids m c).final = some d) :
    From c d ∧ d.uids = c.uids := by
  unfold onGids at h
  rw [hc] at h
  obtain ⟨i, hi, rfl⟩ := zoom_final h
  exact ⟨⟨.refl _, hm _ _ rfl hi⟩, rfl⟩

/-- A setter that returns nothing, and the value of its call. -/
theorem seq_final {m : Comp Credentials Error Unit}
    (h : ((do m; pure 0 : Comp Credentials Error UInt32) c).final = some d) : (m c).final = some d :=
  Reads.final_of_bind (fun _ => .pure 0) h

theorem guarded_final {x : Int32} {e : Error} {m : Comp Credentials Error UInt32}
    (h : ((do when (x < 0) (fail e); m : Comp Credentials Error UInt32) c).final = some d) :
    d = c ∨ (¬ x < 0 ∧ (m c).final = some d) := by
  rcases guard_bind_final h with rfl | ⟨hx, hm⟩
  · exact .inl rfl
  · exact .inr ⟨of_decide_eq_false hx, hm⟩

/-- **A checked call of an unprivileged thread takes its ids from those that it has**; one on group ids keeps the
user ids. -/
theorem Call.from {call : Call} (hc : c.isPrivileged = false) (hcall : call.Checked c)
    (h : (call.run c).final = some d) : Credentials.From c d ∧ (call.OnGids → d.uids = c.uids) := by
  cases call with
  | setuid uid =>
    rcases guarded_final h with rfl | ⟨hneg, h⟩
    · exact ⟨.refl _, nofun⟩
    · refine ⟨Credentials.onUids_from hc ?_ (seq_final h), nofun⟩
      rintro _ j rfl hj
      exact Ids.set_from (hcall.resolve_left hneg) hj
  | setreuid ruid euid => exact ⟨Credentials.onUids_from hc (fun _ _ _ => Ids.setRe_from) (seq_final h), nofun⟩
  | setresuid ruid euid suid =>
    exact ⟨Credentials.onUids_from hc (fun _ _ _ => Ids.setRes_from) (seq_final h), nofun⟩
  | setfsuid uid =>
    refine ⟨Credentials.onUids_from (m := fun b => Ids.setFs b uidMessages (nonnegative uid)) hc ?_ h, nofun⟩
    exact fun _ _ _ => Ids.setFs_from
  | setgid gid =>
    rcases guarded_final h with rfl | ⟨hneg, h⟩
    · exact ⟨.refl _, fun _ => rfl⟩
    · refine (Credentials.onGids_from hc ?_ (seq_final h)).imp_right fun huids _ => huids
      rintro _ j rfl hj
      exact Ids.set_from (hcall.resolve_left hneg) hj
  | setregid rgid egid =>
    exact (Credentials.onGids_from hc (fun _ _ _ => Ids.setRe_from) (seq_final h)).imp_right fun huids _ => huids
  | setresgid rgid egid sgid =>
    exact (Credentials.onGids_from hc (fun _ _ _ => Ids.setRes_from) (seq_final h)).imp_right fun huids _ => huids
  | setfsgid gid =>
    refine (Credentials.onGids_from (m := fun b => Ids.setFs b gidMessages (nonnegative gid)) hc ?_ h).imp_right
      fun huids _ => huids
    exact fun _ _ _ => Ids.setFs_from

/-! ## Whole runs -/

/-- The states of a thread after calls in `P`, from the state `c`; a call that fails is one of them. -/
def CallReach (P : Credentials → Call → Prop) (c : Credentials) : Credentials → Prop :=
  Reach (· = c) fun d d' => ∃ call, P d call ∧ (call.run d).final = some d'

/-- All of the user ids but that of the file system are not root. -/
def Credentials.NoRoot (c : Credentials) : Prop := ¬ c.uids.Has 0

theorem Credentials.From.unprivileged (hc : c.NoRoot) (h : From c d) : d.isPrivileged = false := by
  unfold isPrivileged
  rw [beq_eq_false_iff_ne]
  intro hroot
  apply hc
  rw [← hroot]
  exact h.uids.effective

/-- The ids that a thread has at the start. -/
def Ids.toList (i : Ids) : List UInt32 := [i.real, i.effective, i.saved, i.fs]

theorem Ids.From.subset {i j : Ids} (h : From i j) : j.toList ⊆ i.toList := by
  have hmem : ∀ {id}, i.Has id → id ∈ i.toList := by
    intro id hid
    rcases hid with rfl | rfl | rfl
    · simp [toList]
    · simp [toList]
    · simp [toList]
  intro id hid
  simp only [toList, List.mem_cons, List.not_mem_nil, or_false] at hid
  rcases hid with rfl | rfl | rfl | rfl
  · exact hmem h.real
  · exact hmem h.effective
  · exact hmem h.saved
  · rcases h.fs with hfs | hfs
    · exact hmem hfs
    · rw [hfs]
      simp [toList]

/-- **Ids stay among those of the start.** For a thread none of whose user ids is root, along any calls whose
`setuid` and `setgid` ask for an id that the thread has; and for the group ids of any unprivileged thread. -/
theorem ids_confined (c : Credentials) : (c.NoRoot → ∀ d, CallReach (fun d call => call.Checked d) c d →
      d.uids.toList ⊆ c.uids.toList ∧ d.gids.toList ⊆ c.gids.toList) ∧
    (c.isPrivileged = false → ∀ d, CallReach (fun d call => call.Checked d ∧ call.OnGids) c d →
      d.gids.toList ⊆ c.gids.toList) := by
  constructor
  · intro hc d hreach
    have hfrom : Credentials.From c d := by
      refine hreach.invariant ?_ ?_
      · rintro _ rfl
        exact .refl _
      · rintro d d' hd ⟨call, hchecked, hrun⟩
        exact hd.trans (Call.from (hd.unprivileged hc) hchecked hrun).1
    exact ⟨hfrom.uids.subset, hfrom.gids.subset⟩
  · intro hc d hreach
    -- the user ids do not change, so the thread stays unprivileged
    have hfrom : d.uids = c.uids ∧ Ids.From c.gids d.gids := by
      refine hreach.invariant (I := fun d => d.uids = c.uids ∧ Ids.From c.gids d.gids) ?_ ?_
      · rintro _ rfl
        exact ⟨rfl, .refl _⟩
      · rintro d d' ⟨huids, hgids⟩ ⟨call, ⟨hchecked, hon⟩, hrun⟩
        have hd : d.isPrivileged = false := by
          unfold Credentials.isPrivileged
          rw [huids]
          exact hc
        obtain ⟨hstep, hkeep⟩ := Call.from hd hchecked hrun
        exact ⟨(hkeep hon).trans huids, hgids.trans hstep.gids⟩
    exact hfrom.2.subset

/-- A thread of user and group 1000 whose saved user id is 1001. -/
def someUser : Credentials := ⟨⟨1000, 1000, 1001, 1000⟩, ⟨1000, 1000, 1000, 1000⟩⟩

/-- It takes its saved user id as the effective one. -/
theorem ids_confined_someUser :
    let d : Credentials := ⟨⟨1000, 1001, 1001, 1000⟩, ⟨1000, 1000, 1000, 1000⟩⟩
    ((Call.setuid 1001).run someUser).final = some d ∧ d.uids.toList ⊆ someUser.uids.toList :=
  ⟨by decide, ((ids_confined someUser).1 (show ¬ Ids.Has _ 0 by decide) _
    (.step (.init rfl) ⟨.setuid 1001, Or.inr (show Ids.Has _ _ by decide), by decide⟩)).1⟩

/-- **`setuid` does not check its argument.** A thread none of whose ids is root asks for root and has it; likewise
for the group. -/
theorem setuid_gains_root : someUser.NoRoot ∧ someUser.uids.fs ≠ 0 ∧
      (Call.setuid 0).run someUser = .ok 0 ⟨⟨1000, 0, 1001, 1000⟩, someUser.gids⟩ ∧
      (Call.setgid 0).run someUser = .ok 0 ⟨someUser.uids, ⟨1000, 0, 1000, 1000⟩⟩ ∧
      0 ∉ someUser.uids.toList ∧ 0 ∉ someUser.gids.toList :=
  ⟨show ¬ Ids.Has _ 0 by decide, by decide, by decide, by decide, by decide, by decide⟩

end AsterKernel.Process
