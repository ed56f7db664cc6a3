import AsterKernel.Vfs.Coherence

/-!
# `Vfs.Tree` — the dentries of a mount stay a tree

Only `rename` changes a dentry's parent, and what keeps it from hanging a directory below itself is a comparison of
path strings in the system call. It is enough, whatever the names are and whatever the file system does: the path of a
dentry begins with the paths of all dentries above it, and what the call moves has the path that it has compared.
-/

namespace AsterKernel.Vfs

open Lib Lib.Comp List

variable {σ ι : Type} {s₀ s t : Mount σ ι} {ops : InodeOps σ ι} {held : Nat → Bool} {l l' : List Name}
  {s t : Mount σ ι} {s : Mount σ ι} {name : Name} {n : Name}

/-! ## Paths -/

abbrev Path := List UInt8

/-- The loop of `Dentry::abs_path`, over the effective names of the parents. -/
def climb : List Name → Path → Path
  | [], path => path
  | parent :: parents, path => climb parents (if parent != slash then parent ++ slash ++ path else parent ++ path)

namespace Mount

/-- The effective names of the root of the mount and of what is above it; `above` are those of the mountpoint and of
its parents, if the file system is mounted on one. -/
def topNames : List Name → Name × List Name
  | [] => (slash, [])
  | name :: names => (name, names)

/-- The effective names of a dentry and of its parents, if there are less than `fuel` of them. -/
def upNames (s : Mount σ ι) (above : List Name) : Nat → Nat → Option (Name × List Name)
  | 0, _ => none
  | fuel + 1, d =>
    match s.nameAndParent d with
    | none => some (topNames above)
    | some (name, parent) => (s.upNames above fuel parent).map fun names => (name, names.1 :: names.2)

/-- `Dentry::abs_path`. There are `next` dentries: more steps than that go in circles. -/
def absPath (s : Mount σ ι) (above : List Name) (d : Nat) : Option Path :=
  (s.upNames above s.next d).map fun names => climb names.2 names.1

end Mount

open Mount

/-- A component of a path, with the links and the mounts on the way followed. -/
inductive Hop where
  /-- The path goes on at a dentry that the process has: its root, its working directory, an open directory, or where
  another mount leads back to. -/
  | start (d : Nat)
  | name (n : Name)
  /-- A symbolic link: where it leads comes next. -/
  | link (n : Name)

section

variable (ops : InodeOps σ ι) (held : Nat → Bool) (above : List Name)

/-- What `sys_renameat` does with the paths, and the call of `rename` if they allow it. -/
def renameChecked (old : Nat) (oldDir : Nat) (oldName : Name) (newDir : Nat) (newName : Name) :
    Comp (Mount σ ι) Error Unit := do
  let s ← get
  let oldPath ← expect (s.absPath above old)
  let newDirPath ← expect (s.absPath above newDir)
  let newPath := newDirPath ++ slash ++ newName
  if oldPath.isPrefixOf newPath then
    when (newPath.length != oldPath.length)
      (fail (.withMessage .EINVAL "newpath contains a path prefix of the oldpath"))
  else rename ops held oldDir oldName (.here newDir) newName

/-- The loop of `lookup_from_parent`. A part of the way that is in other mounts, or in none, is skipped. -/
def lookupFromParent : Handle → List Hop → Comp (Mount σ ι) Error Handle
  | dentry, [] => pure dentry
  | _, .start d :: hops => lookupFromParent (.here d) hops
  | .elsewhere, _ :: hops => lookupFromParent .elsewhere hops
  | .here d, .name n :: hops => do
    let next ← lookup ops held (!above.isEmpty) d n
    lookupFromParent next hops
  | .here d, .link n :: hops => do
    let _ ← lookup ops held (!above.isEmpty) d n
    lookupFromParent (.here d) hops

/-- `Dentry::type_` is a directory; other mounts are entered at their root. -/
def Handle.isDir (s : Mount σ ι) : Handle → Bool
  | .here d => ops.type s.fs (s.inode d) == .dir
  | .elsewhere => true

/-- `sys_renameat`, with the paths split into their directory and name; `dirOnly` is whether the new one ends in a
slash. Whatever their paths are, a mountpoint is not moved, and nothing is moved to another mount. -/
def sysRenameat (oldPath : List Hop) (oldName : Name) (dirOnly : Bool) (newPath : List Hop) (newName : Name) :
    Comp (Mount σ ι) Error Unit := do
  match ← lookupFromParent ops held above .elsewhere oldPath with
  | .elsewhere => fail (.withMessage .EXDEV "cannot cross mount")
  | .here oldDir => do
    let old ← lookup ops held (!above.isEmpty) oldDir oldName
    let s ← get
    when (dirOnly && !old.isDir ops s) (fail (.withMessage .ENOTDIR "oldpath is not dir"))
    let newDir ← lookupFromParent ops held above .elsewhere newPath
    match old, newDir with
    | .elsewhere, _ => fail (.withMessage .EBUSY "dentry is mountpint")
    | _, .elsewhere => fail (.withMessage .EXDEV "cannot cross mount")
    | .here old, .here newDir => renameChecked ops held above old oldDir oldName newDir newName

def sysMkdirat (path : List Hop) (name : Name) : Comp (Mount σ ι) Error Unit := do
  match ← lookupFromParent ops held above .elsewhere path with
  | .elsewhere => pure ()
  | .here dir => do let _ ← create ops held dir name .dir

end

/-! ## Chains of parents -/

namespace Mount

/-- The names on the way from a dentry to the root. -/
inductive Chain (s : Mount σ ι) : Nat → List Name → Prop
  | root (h : s.nameAndParent root = none) : Chain s root []
  | up {d p : Nat} {n : Name} {names : List Name} (h : s.nameAndParent d = some (n, p)) (hp : Chain s p names) :
      Chain s d (n :: names)

/-- `d` is on the way from `e` to the root. -/
inductive Above (s : Mount σ ι) (d : Nat) : Nat → Prop
  | refl : Above s d d
  | up {e p : Nat} {n : Name} (h : s.nameAndParent e = some (n, p)) (hp : Above s d p) : Above s d e

variable {d e p : Nat}

theorem Chain.of_up (hup : s.nameAndParent d = some (n, p)) (h : s.Chain d l) : ∃ l', l = n :: l' ∧ s.Chain p l' := by
  cases h with
  | root hroot => rw [hroot] at hup; cases hup
  | up hup' hp =>
    obtain ⟨rfl, rfl⟩ := Prod.mk.inj (Option.some.inj (hup.symm.trans hup'))
    exact ⟨_, rfl, hp⟩

theorem Chain.unique (h : s.Chain d l) (h' : s.Chain d l') : l = l' := by
  induction h generalizing l' with
  | root hroot =>
    cases h' with
    | root => rfl
    | up hup => rw [hroot] at hup; cases hup
  | up hup _ ih =>
    obtain ⟨_, rfl, hp'⟩ := h'.of_up hup
    rw [ih hp']

section

variable (h : s.Chain d l) (hlt : ∀ e < s.next, ∀ n p, s.nameAndParent e = some (n, p) → p < s.next) (hd : d < s.next)
include h hlt hd

/-- The dentries on the way up are all different: their chains get shorter. -/
theorem Chain.nodes : ∃ ds : List Nat, ds.length = l.length + 1 ∧ ds.Nodup ∧
      ∀ e ∈ ds, e < s.next ∧ ∃ l', s.Chain e l' ∧ l'.length ≤ l.length := by
  induction h with
  | root hroot => exact ⟨[Mount.root], rfl, nodup_singleton _, by simpa using ⟨hd, .root hroot⟩⟩
  | @up d p n names hup hp ih =>
    obtain ⟨ds, hlen, hnodup, hall⟩ := ih (hlt d hd n p hup)
    refine ⟨d :: ds, by simp [hlen], nodup_cons.mpr ⟨fun hmem => ?_, hnodup⟩, ?_⟩
    · obtain ⟨-, l', hl', hle⟩ := hall d hmem
      rw [← (Chain.up hup hp).unique hl', length_cons] at hle
      omega
    · intro e he
      rcases mem_cons.mp he with rfl | he
      · exact ⟨hd, _, .up hup hp, le_rfl⟩
      · obtain ⟨helt, l', hl', hle⟩ := hall e he
        exact ⟨helt, l', hl', hle.trans (Nat.le_succ _)⟩

theorem Chain.length_lt : l.length < s.next := by
  obtain ⟨ds, hlen, hnodup, hall⟩ := h.nodes hlt hd
  have hsub : ds ⊆ List.range s.next := fun e he => mem_range.mpr (hall e he).1
  have := (hnodup.subperm hsub).length_le
  rw [hlen, length_range] at this
  omega

end

/-! ## The path of a chain -/

/-- The effective names of a chain. -/
def chainNames (above : List Name) : List Name → Name × List Name
  | [] => topNames above
  | n :: l => (n, (chainNames above l).1 :: (chainNames above l).2)

def chainPath (above l : List Name) : Path := climb (chainNames above l).2 (chainNames above l).1

theorem Chain.upNames {above : List Name} {fuel : Nat} (h : s.Chain d l) (hfuel : l.length < fuel) :
    s.upNames above fuel d = some (chainNames above l) := by
  induction h generalizing fuel with
  | root hroot =>
    obtain ⟨fuel, rfl⟩ : ∃ k, fuel = k + 1 := ⟨fuel - 1, by simp at hfuel; omega⟩
    rw [Mount.upNames, hroot]
    rfl
  | @up d p n names hup _ ih =>
    obtain ⟨fuel, rfl⟩ : ∃ k, fuel = k + 1 := ⟨fuel - 1, by omega⟩
    rw [Mount.upNames, hup]
    show (s.upNames above fuel p).map _ = _
    rw [ih (by simpa using hfuel)]
    rfl

end Mount

theorem climb_append (parents : List Name) (path rest : Path) :
    climb parents (path ++ rest) = climb parents path ++ rest := by
  induction parents generalizing path with
  | nil => rfl
  | cons parent parents ih =>
    unfold climb
    split
    · rw [← ih, append_assoc, append_assoc, append_assoc]
    · rw [← ih, append_assoc]

namespace Mount

variable {d e : Nat}

theorem prefix_chainPath (above : List Name) (n : Name) (l : List Name) :
    chainPath above l <+: chainPath above (n :: l) := by
  show _ <+: climb ((chainNames above l).1 :: (chainNames above l).2) n
  unfold climb
  split
  · rw [append_assoc, climb_append]
    exact prefix_append _ _
  · rw [climb_append]
    exact prefix_append _ _

/-- The path of a dentry begins with the paths of those above it. -/
theorem Above.chain_le (above : List Name) (h : s.Above d e) (hd : s.Chain d l) (he : s.Chain e l') :
    chainPath above l <+: chainPath above l' := by
  induction h generalizing l' with
  | refl => rw [hd.unique he]
  | up hup _ ih =>
    obtain ⟨_, rfl, hp'⟩ := he.of_up hup
    exact (ih hp').trans (prefix_chainPath above _ _)

theorem Above.length_le (h : s.Above d e) (hd : s.Chain d l) (he : s.Chain e l') : l.length ≤ l'.length := by
  induction h generalizing l' with
  | refl => rw [hd.unique he]
  | up hup _ ih =>
    obtain ⟨_, rfl, hp'⟩ := he.of_up hup
    exact (ih hp').trans (Nat.le_succ _)

end Mount

/-! ## Every dentry hangs below the root -/

/-- The cached children are linked to their parents, and every dentry has a way to the root. -/
structure Hung (s : Mount σ ι) : Prop where
  rootLt : Mount.root < s.next
  top : s.nameAndParent Mount.root = none
  linked : ∀ D n d, s.child D n = some d → s.nameAndParent d = some (n, D) ∧ D < s.next ∧ d < s.next
  parentLt : ∀ d < s.next, ∀ n p, s.nameAndParent d = some (n, p) → p < s.next
  chain : ∀ d < s.next, ∃ l, s.Chain d l

namespace Hung

variable {d e x p newDir : Nat} {n newName : Name}

/-- Following the parents ends within as many steps as there are dentries. -/
theorem absPath (h : Hung s) (above : List Name) (hd : d < s.next) (hl : s.Chain d l) :
    s.absPath above d = some (Mount.chainPath above l) := by
  rw [Mount.absPath, hl.upNames (hl.length_lt h.parentLt hd)]
  rfl

/-- The children change, the links do not. -/
theorem keep (h : Hung s) (hnext : t.next = s.next) (hlink : ∀ d, t.nameAndParent d = s.nameAndParent d)
    (hchild : ∀ D n d, t.child D n = some d → s.nameAndParent d = some (n, D) ∧ D < s.next ∧ d <
      s.next) : Hung t := by
  have hkeep : ∀ {d l}, s.Chain d l → t.Chain d l := by
    intro d l hl
    induction hl with
    | root hroot => exact .root ((hlink _).trans hroot)
    | up hup _ ih => exact .up ((hlink _).trans hup) ih
  refine ⟨hnext ▸ h.rootLt, (hlink _).trans h.top, fun D n d hc => ?_, fun d hd n p hp => ?_, fun d hd => ?_⟩
  · rw [hlink, hnext]
    exact hchild D n d hc
  · rw [hnext] at hd ⊢
    exact h.parentLt d hd n p ((hlink d).symm.trans hp)
  · obtain ⟨l, hl⟩ := h.chain d (hnext ▸ hd)
    exact ⟨l, hkeep hl⟩

theorem push (h : Hung s) (i : ι) (name : Name) (hp : p < s.next) : Hung (s.push i name p) := by
  have hlink : ∀ e < s.next, (s.push i name p).nameAndParent e = s.nameAndParent e := fun e he => by
    rw [push_nameAndParent, if_neg (ne_of_lt he)]
  have hkeep : ∀ {d l}, s.Chain d l → d < s.next → (s.push i name p).Chain d l := by
    intro d l hl
    induction hl with
    | root hroot => exact fun hd => .root ((hlink _ hd).trans hroot)
    | up hup _ ih => exact fun hd => .up ((hlink _ hd).trans hup) (ih (h.parentLt _ hd _ _ hup))
  have hself : (s.push i name p).nameAndParent s.next = some (name, p) := by rw [push_nameAndParent, if_pos rfl]
  refine ⟨h.rootLt.trans (Nat.lt_succ_self _), (hlink _ h.rootLt).trans h.top, fun D n d hc => ?_, fun d
    hd n q hq => ?_,
    fun d hd => ?_⟩
  · rw [push_child] at hc
    split at hc
    case isTrue => cases hc
    case isFalse =>
      obtain ⟨hnp, hD, hd⟩ := h.linked D n d hc
      exact ⟨(hlink d hd).trans hnp, hD.trans (Nat.lt_succ_self _), hd.trans (Nat.lt_succ_self _)⟩
  · rcases Nat.lt_succ_iff_lt_or_eq.mp hd with hd | rfl
    · exact (h.parentLt d hd n q ((hlink d hd).symm.trans hq)).trans (Nat.lt_succ_self _)
    · obtain ⟨-, rfl⟩ := Prod.mk.inj (Option.some.inj (hself.symm.trans hq))
      exact hp.trans (Nat.lt_succ_self _)
  · rcases Nat.lt_succ_iff_lt_or_eq.mp hd with hd | rfl
    · obtain ⟨l, hl⟩ := h.chain d hd
      exact ⟨l, hkeep hl hd⟩
    · obtain ⟨l, hl⟩ := h.chain p hp
      exact ⟨name :: l, .up hself (hkeep hl hp)⟩

/-- A dentry without children entries for it is hung below another one that is not below it. -/
theorem hang (h : Hung s) (hx : x ≠ root) (hfree : ∀ D n, s.child D n ≠ some x) (hnewDir : newDir < s.next)
    (habove : ¬ s.Above x newDir) (newName : Name) : Hung (s.setNameAndParent x newName newDir) := by
  have hlink : ∀ e, e ≠ x → (s.setNameAndParent x newName newDir).nameAndParent e = s.nameAndParent e
    := fun e he => by
    rw [setNameAndParent_nameAndParent, if_neg he]
  have hself : (s.setNameAndParent x newName newDir).nameAndParent x = some (newName, newDir) := by
    rw [setNameAndParent_nameAndParent, if_pos rfl]
  -- where `x` is not on the way, nothing changes
  have haway : ∀ {d l}, s.Chain d l → ¬ s.Above x d → (s.setNameAndParent x newName newDir).Chain d l := by
    intro d l hl
    induction hl with
    | root hroot => exact fun hd => .root ((hlink _ fun heq => hx heq.symm).trans hroot)
    | @up d p n l hup _ ih =>
      intro hd
      have hne : d ≠ x := by
        rintro rfl
        exact hd .refl
      exact .up ((hlink d hne).trans hup) (ih fun hp => hd (.up hup hp))
  obtain ⟨lnew, hnew⟩ := h.chain newDir hnewDir
  have hx' : (s.setNameAndParent x newName newDir).Chain x (newName :: lnew) := .up hself (haway hnew habove)
  refine ⟨h.rootLt, (hlink _ fun heq => hx heq.symm).trans h.top, fun D n d hc => ?_, fun d hd n q hq => ?_,
    fun d hd => ?_⟩
  · rw [setNameAndParent_child] at hc
    rw [hlink d fun heq => hfree D n (heq ▸ hc)]
    exact h.linked D n d hc
  · by_cases hdx : d = x
    · subst hdx
      obtain ⟨-, rfl⟩ := Prod.mk.inj (Option.some.inj (hself.symm.trans hq))
      exact hnewDir
    · exact h.parentLt d hd n q ((hlink d hdx).symm.trans hq)
  · obtain ⟨l, hl⟩ := h.chain d hd
    induction hl with
    | root hroot => exact ⟨[], .root ((hlink _ fun heq => hx heq.symm).trans hroot)⟩
    | @up d p n l hup hp ih =>
      by_cases hdx : d = x
      · subst hdx
        exact ⟨_, hx'⟩
      · obtain ⟨l', hl'⟩ := ih (h.parentLt d hd n p hup)
        exact ⟨n :: l', .up ((hlink d hdx).trans hup) hl'⟩

end Hung

/-! ## Calls that only add dentries -/

/-- Since `s₀` dentries have been added, up to `k` of them. -/
structure Grown (s₀ : Mount σ ι) (k : Nat) (s : Mount σ ι) : Prop where
  hung : Hung s
  next : s.next = k
  le : s₀.next ≤ k
  link : ∀ d < s₀.next, s.nameAndParent d = s₀.nameAndParent d

/-- A dentry with a name and a parent. -/
def Names (name : Name) (parent : Nat) (s : Mount σ ι) (d : Nat) : Prop :=
  s.nameAndParent d = some (name, parent) ∧ d < s.next

section

variable {k self d : Nat} {i : ι} {α : Type}

theorem Hung.grown (h : Hung s) : Grown s s.next s := ⟨h, rfl, le_rfl, fun _ _ => rfl⟩

/-- The children change, the links do not. -/
theorem Grown.keep (h : Grown s₀ k s) (hnext : t.next = s.next) (hlink : ∀ d, t.nameAndParent d = s.nameAndParent d)
    (hchild : ∀ D n d, t.child D n = some d → s.nameAndParent d = some (n, D) ∧ D < s.next ∧ d < s.next) :
      Grown s₀ k t :=
  ⟨h.hung.keep hnext hlink hchild, hnext.trans h.next, h.le, fun d hd => (hlink d).trans (h.link d hd)⟩

theorem Grown.unsetChild (h : Grown s₀ k s) (self : Nat) (name : Name) : Grown s₀ k (s.setChild self name none) := by
  refine h.keep rfl (fun d => setChild_nameAndParent _ _ _ _ _) fun D n d hc => ?_
  rw [setChild_child] at hc
  split at hc
  · cases hc
  · exact h.hung.linked D n d hc

theorem onFs_grown (m : Comp σ Error α) : Triple (Grown s₀ k) (onFs m) (fun _ => Grown s₀ k) (Grown s₀ k) := by
  refine Triple.of_final fun s t h hf => ?_
  have hkeep : ∀ fs, Grown s₀ k ({ s with fs := fs } : Mount σ ι) := fun fs =>
    h.keep rfl (fun _ => rfl) fun D n d hc => h.hung.linked D n d hc
  obtain ⟨fs, -, rfl⟩ := zoom_final hf
  exact hkeep fs

theorem checkDir_reads : Reads (checkDir (σ := σ) ops self) := Reads.get.bind fun _ => Reads.when (Reads.fail _)

theorem findDentry_grown : Triple (Grown s₀ k) (findDentry held self name)
    (fun found s => Grown s₀ k s ∧ ∀ d, found = some d → Names name self s d) (Grown s₀ k) := by
  refine Triple.get fun s h => ⟨fun s' heq => ?_⟩
  subst heq
  cases hc : s'.child self name with
  | none => exact ⟨h, nofun⟩
  | some d =>
    dsimp only
    by_cases halive : s'.alive held d = true
    · rw [if_pos halive]
      refine ⟨h, fun e he => ?_⟩
      cases he
      obtain ⟨hlink, -, hlt⟩ := h.hung.linked _ _ _ hc
      exact ⟨hlink, hlt⟩
    · rw [if_neg halive]
      exact ⟨h.unsetChild self name, nofun⟩

theorem newDentry_grown (hself : self < s₀.next) : Triple (Grown s₀ k) (newDentry i name self)
    (fun d s => Grown s₀ (k + 1) s ∧ Names name self s d) (Grown s₀ k) := by
  refine Triple.get fun s h => ⟨fun s' heq => ?_⟩
  subst heq
  have hlt : self < s'.next := h.next.symm ▸ hself.trans_le h.le
  refine ⟨⟨h.hung.push i name hlt, congrArg (· + 1) h.next, h.le.trans (Nat.le_succ k), fun d hd => ?_⟩, ?_⟩
  · have hne : d ≠ s'.next := ne_of_lt (h.next.symm ▸ hd.trans_le h.le)
    rw [push_nameAndParent, if_neg hne]
    exact h.link d hd
  · exact ⟨by rw [push_nameAndParent, if_pos rfl], Nat.lt_succ_self _⟩

theorem insertDentry_grown (hself : self < s₀.next) : Triple (fun s => Grown s₀ k s ∧ Names name self s d)
    (insertDentry ops self d) (fun _ s => Grown s₀ k s ∧ Names name self s d) (Grown s₀ k) := by
  refine Triple.get fun s ⟨h, hname⟩ => ⟨fun s' heq => ?_⟩
  subst heq
  cases hcache : ops.cacheable (s'.inode d) with
  | false => exact ⟨h, hname⟩
  | true =>
    have hlink : ∀ e, ((s'.setDcache (s'.key d) (some d)).setChild self (s'.name d) (some d)).nameAndParent e =
        s'.nameAndParent e := fun e => by rw [Mount.setChild_nameAndParent, Mount.setDcache_nameAndParent]
    refine ⟨h.keep rfl hlink fun D n e hc => ?_, (hlink d).trans hname.1, hname.2⟩
    rw [Mount.setChild_child] at hc
    split at hc
    case isTrue heq =>
      cases hc
      rw [heq.1, heq.2, Mount.name, hname.1]
      exact ⟨rfl, h.next.symm ▸ hself.trans_le h.le, hname.2⟩
    case isFalse => exact h.hung.linked D n e hc

theorem deleteDentry_grown : Triple (Grown s₀ k) (deleteDentry held self name)
    (fun _ s => Grown s₀ k s ∧ s.child self name = none) (Grown s₀ k) := by
  refine Triple.get fun s h => ⟨fun s' heq => ?_⟩
  subst heq
  cases hc : s'.child self name with
  | none => exact ⟨h, hc⟩
  | some d =>
    dsimp only
    rw [modify_bind]
    have hgone : (s'.setChild self name none).child self name = none :=
      by rw [setChild_child, if_pos ⟨rfl, rfl⟩]
    cases halive : s'.alive held d with
    | false => exact ⟨h.unsetChild self name, hgone⟩
    | true => exact ⟨(h.unsetChild self name).keep rfl (fun _ => rfl) (h.unsetChild self name).hung.linked, hgone⟩

/-- Some number of dentries has been added. -/
def Later (s₀ s : Mount σ ι) : Prop := ∃ k, Grown s₀ k s

theorem Grown.later (h : Grown s₀ k s) : Later s₀ s := ⟨k, h⟩

variable {Q : α → Mount σ ι → Prop} {m : Comp (Mount σ ι) Error α}

/-- The calls on `s₀` that are followed by others start in it. -/
theorem start (h : ∀ k, Triple (Grown s₀ k) m Q (Later s₀)) : Triple (Later s₀) m Q (Later s₀) :=
  ⟨fun s ⟨k, hs⟩ => (h k).run s hs⟩

theorem later_of_grown (h : Triple (Grown s₀ k) m Q (Grown s₀ k)) : Triple (Grown s₀ k) m Q (Later s₀) :=
  h.errs fun _ => Grown.later

theorem enter_grown (hself : self < s₀.next) {f : Nat → Comp (Mount σ ι) Error α}
    (hf : ∀ d, Triple (fun s => Grown s₀ (k + 1) s ∧ Names name self s d) (f d) Q (Later s₀)) :
    Triple (Grown s₀ k) (newDentry i name self >>= fun d => insertDentry ops self d >>= fun _ => f d) Q
      (Later s₀) := by
  refine Triple.bind (later_of_grown (newDentry_grown hself)) fun d => ?_
  exact Triple.bind ((insertDentry_grown hself).errs fun _ => Grown.later) fun _ => hf d

theorem onFs_bind_later {β : Type} {m : Comp σ Error β} {f : β → Comp (Mount σ ι) Error α} (hs : Grown s₀ k s)
    (h : ∀ b, Triple (Grown s₀ k) (f b) Q (Later s₀)) : Triple (· = s) (onFs m >>= f) Q (Later s₀) :=
  Triple.bind (R := fun _ => Grown s₀ k)
    ((later_of_grown (onFs_grown _)).pre fun _ heq => heq ▸ hs) h

theorem make_later {op : ι → Comp σ Error ι} (hself : self < s₀.next) :
    Triple (Later s₀) (make ops held op self name) (fun _ => Later s₀) (Later s₀) := by
  refine start fun k => ?_
  unfold make
  refine Triple.bind (later_of_grown checkDir_reads.triple) fun _ => ?_
  refine Triple.bind (later_of_grown findDentry_grown) fun found => ?_
  refine Triple.bind (R := fun _ => Grown s₀ k)
    ((Reads.when (Reads.fail _)).triple.consequence (fun _ h => h.1) (fun _ _ => id) fun _ => Grown.later) fun _ => ?_
  refine Triple.get fun s hs => ?_
  refine onFs_bind_later hs fun i => ?_
  exact enter_grown hself fun d => Triple.pure fun s h => h.1.later

/-- What a lookup returns: a dentry of the mount, which has the name if it is not "." or "..". -/
def Found (name : Name) (self : Nat) (s : Mount σ ι) (found : Handle) : Prop :=
  ∀ d, found = .here d → d < s.next ∧ (name ≠ dot → name ≠ dotdot → s.nameAndParent d = some (name, self))

section

variable (hself : self < s₀.next)
include hself

theorem lookupChild_later : Triple (Grown s₀ k) (lookupChild ops held self name)
    (fun found s => Later s₀ s ∧ Found name self s found) (Later s₀) := by
  unfold lookupChild
  refine Triple.bind (later_of_grown findDentry_grown) fun found => Triple.get fun s hs => ?_
  cases found with
  | some d =>
    refine Triple.pure fun t heq => ?_
    subst heq
    refine ⟨hs.1.later, fun e he => ?_⟩
    split at he
    · cases he
    · obtain rfl := Handle.here.inj he
      obtain ⟨hlink, hlt⟩ := hs.2 d rfl
      exact ⟨hlt, fun _ _ => hlink⟩
  | none =>
    refine onFs_bind_later hs.1 fun i => ?_
    refine enter_grown hself fun d => Triple.pure fun s h => ⟨h.1.later, fun e he => ?_⟩
    obtain rfl := Handle.here.inj he
    exact ⟨h.2.2, fun _ _ => h.2.1⟩

theorem lookup_later {above : Bool} : Triple (Later s₀) (lookup ops held above self name)
    (fun found s => Later s₀ s ∧ Found name self s found) (Later s₀) := by
  refine start fun k => ?_
  unfold lookup
  refine Triple.bind (later_of_grown checkDir_reads.triple) fun _ => Triple.get fun s hs => ?_
  refine onFs_bind_later hs fun executable => ?_
  refine Triple.bind (later_of_grown (Reads.when (Reads.fail _)).triple) fun _ => ?_
  refine Triple.bind (later_of_grown (Reads.when (Reads.fail _)).triple) fun _ => ?_
  split
  case isTrue hdot =>
    refine Triple.pure fun t ht => ⟨ht.later, fun d hd => ?_⟩
    obtain rfl := Handle.here.inj hd
    exact ⟨ht.next.symm ▸ hself.trans_le ht.le, fun hne => absurd (beq_iff_eq.mp hdot) hne⟩
  case isFalse =>
    split
    case isTrue hdotdot =>
      refine Triple.pure fun t ht => ⟨ht.later, fun d hd => ⟨?_, fun _ hne => absurd (beq_iff_eq.mp hdotdot) hne⟩⟩
      rw [ht.next, ← hs.next]
      have hlt : self < s.next := hs.next.symm ▸ hself.trans_le hs.le
      unfold effectiveParent at hd
      split at hd
      case h_1 p hp =>
        obtain rfl := Handle.here.inj hd
        obtain ⟨⟨n, q⟩, hlink, rfl⟩ := Option.map_eq_some_iff.mp hp
        exact hs.hung.parentLt self hlt n q hlink
      case h_2 =>
        split at hd
        · cases hd
        · obtain rfl := Handle.here.inj hd
          exact hlt
    case isFalse => exact lookupChild_later hself

theorem link_later {old : Handle} :
    Triple (Later s₀) (link ops held self old name) (fun _ => Later s₀) (Later s₀) := by
  refine start fun k => ?_
  unfold link
  refine Triple.bind (later_of_grown checkDir_reads.triple) fun _ => ?_
  refine Triple.bind (later_of_grown findDentry_grown) fun found => ?_
  refine Triple.bind (R := fun _ => Grown s₀ k)
    ((Reads.when (Reads.fail _)).triple.consequence (fun _ h => h.1) (fun _ _ => id) fun _ => Grown.later) fun _ => ?_
  cases old with
  | elsewhere => exact ⟨fun s hs => hs.later⟩
  | here old =>
    refine Triple.get fun s hs => ?_
    refine onFs_bind_later hs fun i => ?_
    refine Triple.bind (later_of_grown (newDentry_grown hself)) fun d => ?_
    exact (insertDentry_grown hself).consequence (fun _ => id) (fun _ _ h => h.1.later) fun _ => Grown.later

end

theorem checked_grown : Triple (Grown s₀ k) (findDentryWithCheckingMountpoint held self name)
    (fun found s => Grown s₀ k s ∧ ∀ d, found = some d → Names name self s d) (Grown s₀ k) := by
  unfold findDentryWithCheckingMountpoint
  refine Triple.bind findDentry_grown fun found => Triple.get fun s hs => ?_
  refine Triple.bind (R := fun _ t => t = s) ((Reads.when (Reads.fail _)).triple.errs fun t heq => heq ▸ hs.1)
    fun _ => Triple.pure fun t heq => heq ▸ hs

theorem remove_later {op : ι → Comp σ Error Unit} :
    Triple (Later s₀) (remove ops held op self name) (fun _ => Later s₀) (Later s₀) := by
  refine start fun k => ?_
  unfold remove
  refine Triple.bind (later_of_grown checkDir_reads.triple) fun _ => ?_
  refine Triple.bind (later_of_grown checked_grown) fun found => Triple.get fun s hs => ?_
  refine onFs_bind_later hs.1 fun _ => ?_
  exact deleteDentry_grown.consequence (fun _ => id) (fun _ _ h => h.1.later) fun _ => Grown.later

end

/-! ## `rename` -/

section

variable {k self newDir d : Nat} {oldName newName : Name}

/-- What is above a dentry of `s₀`. -/
theorem Grown.above (h : Grown s₀ k s) (h₀ : Hung s₀) {x e : Nat} (he : e < s₀.next) (habove : s.Above x e) :
    s₀.Above x e := by
  induction habove with
  | refl => exact .refl
  | up hup _ ih =>
    have hup' := (h.link _ he).symm.trans hup
    exact .up hup' (ih (h₀.parentLt _ he _ _ hup'))

/-- Nothing with the old name is above the directory that it goes to. -/
def Clear (s : Mount σ ι) (self : Nat) (oldName : Name) (newDir : Nat) : Prop :=
  ∀ x < s.next, s.nameAndParent x = some (oldName, self) → ¬ s.Above x newDir

theorem renameLocked_hung (h₀ : Hung s₀) (hnewDir : newDir < s₀.next) (hclear : Clear s₀ self oldName newDir) :
    Triple (fun s => s = s₀) (renameLocked ops held self oldName newDir newName) (fun _ => Hung) Hung := by
  have hhung : ∀ s, Grown s₀ s₀.next s → Hung s := fun _ h => h.hung
  refine Triple.pre (P := Grown s₀ s₀.next) ?_ fun s heq => heq ▸ h₀.grown
  unfold renameLocked
  refine Triple.bind (checked_grown.errs hhung) fun found => ?_
  -- the name and the parent of what is found are those in `s₀`, so that later states need not say it again
  refine Triple.pre (P := fun s => Grown s₀ s₀.next s ∧ ∀ d, found = some d → Names oldName self s₀ d) ?_
    fun s ⟨hs, hfound⟩ => ⟨hs, fun d hd => ?_⟩
  case refine_2 =>
    obtain ⟨hlink, hlt⟩ := hfound d hd
    rw [hs.next] at hlt
    exact ⟨(hs.link d hlt).symm.trans hlink, hlt⟩
  refine ⟨fun s ⟨hs, hfound⟩ => (Triple.bind (R := fun _ => Grown s₀ s₀.next)
    (checked_grown.consequence (fun _ => id) (fun _ _ h => h.1) hhung) fun _ => Triple.get fun s hs => ?_).run s hs⟩
  refine Triple.bind ((onFs_grown _).consequence (fun t heq => heq ▸ hs) (fun _ _ => id) hhung) fun _ => ?_
  cases found with
  | none => exact deleteDentry_grown.consequence (fun _ => id) (fun _ _ h => h.1.hung) hhung
  | some d =>
    obtain ⟨hlink₀, hd⟩ := hfound d rfl
    refine Triple.bind (deleteDentry_grown.errs hhung) fun _ => ⟨?_⟩
    rintro s ⟨hs, hgone⟩
    have hlink : s.nameAndParent d = some (oldName, self) := (hs.link d hd).trans hlink₀
    have hroot : d ≠ root := by
      rintro rfl
      rw [hs.hung.top] at hlink
      cases hlink
    have hfree : ∀ D n, s.child D n ≠ some d := fun D n hc => by
      obtain ⟨rfl, rfl⟩ := Prod.mk.inj (Option.some.inj ((hs.hung.linked D n d hc).1.symm.trans hlink))
      rw [hgone] at hc
      cases hc
    have hmoved : Hung (s.setNameAndParent d newName newDir) :=
      hs.hung.hang hroot hfree (hs.next.symm ▸ hnewDir)
        (fun habove => hclear d hd hlink₀ (hs.above h₀ hnewDir habove)) _
    have hself : newDir < (s.setNameAndParent d newName newDir).next := hs.next.symm ▸ hnewDir
    have hnamed : Names newName newDir (s.setNameAndParent d newName newDir) d :=
      ⟨by rw [setNameAndParent_nameAndParent, if_pos rfl], hs.next.symm ▸ hd⟩
    rw [modify_bind]
    exact ((insertDentry_grown hself).consequence (fun _ => id) (fun _ _ h => h.1.hung) fun _ h => h.hung).run _
      ⟨hmoved.grown, hnamed⟩

theorem rename_hung (h₀ : Hung s₀) (hnewDir : newDir < s₀.next)
    (hclear : oldName ≠ dot → oldName ≠ dotdot → Clear s₀ self oldName newDir) :
    Triple (fun s => s = s₀) (rename ops held self oldName (.here newDir) newName) (fun _ => Hung) Hung := by
  have hhung : ∀ s, s = s₀ → Hung s := fun s heq => heq ▸ h₀
  unfold rename
  by_cases hdots : (oldName == dot || oldName == dotdot || newName == dot || newName == dotdot) = true
  · rw [hdots]
    exact ⟨hhung⟩
  rw [Bool.eq_false_of_not_eq_true hdots]
  simp only [Bool.or_eq_true, beq_iff_eq, not_or] at hdots
  obtain ⟨⟨⟨hdot, hdotdot⟩, -⟩, -⟩ := hdots
  refine Triple.bind (R := fun _ s => s = s₀) ⟨fun _ => id⟩ fun _ => ?_
  refine Triple.bind (checkDir_reads.triple.errs hhung) fun _ => ?_
  refine Triple.bind (checkDir_reads.triple.errs hhung) fun _ => ?_
  split
  · exact Triple.pure hhung
  · exact renameLocked_hung h₀ hnewDir (hclear hdot hdotdot)

/-- The comparison of the paths is enough: what has the old name has the old path. -/
theorem renameChecked_hung {above : List Name} {old oldDir : Nat} (h₀ : Hung s₀)
    (hold : Found oldName oldDir s₀ (.here old)) (hnewDir : newDir < s₀.next) :
    Triple (fun s => s = s₀) (renameChecked ops held above old oldDir oldName newDir newName)
      (fun _ => Hung) Hung := by
  obtain ⟨holdLt, hlink⟩ := hold old rfl
  obtain ⟨l, hl⟩ := h₀.chain old holdLt
  obtain ⟨l', hl'⟩ := h₀.chain newDir hnewDir
  refine Triple.get fun s heq => ?_
  subst heq
  rw [h₀.absPath above holdLt hl, h₀.absPath above hnewDir hl']
  refine Triple.bind (R := fun a t => t = s ∧ a = chainPath above l) ⟨fun t heq => ⟨heq, rfl⟩⟩ fun oldPath => ?_
  refine Triple.bind (R := fun a t => t = s ∧ oldPath = chainPath above l ∧ a = chainPath above l')
    ⟨fun t h => ⟨h.1, h.2, rfl⟩⟩ fun newDirPath => ⟨?_⟩
  rintro t ⟨rfl, rfl, rfl⟩
  by_cases hguard : (chainPath above l).isPrefixOf (chainPath above l' ++ slash ++ newName) = true
  · rw [if_pos hguard]
    exact ((Reads.when (Reads.fail _)).triple (P := Hung)).run t h₀
  · rw [if_neg hguard]
    refine (rename_hung h₀ hnewDir fun hdot hdotdot x hx hxlink habove => hguard ?_).run t rfl
    -- the parents are the same, and so the chains
    have hxl : t.Chain x l := by
      cases hl with
      | root hroot => rw [hroot] at hlink; cases hlink hdot hdotdot
      | up hup hp =>
        obtain ⟨rfl, rfl⟩ := Prod.mk.inj (Option.some.inj ((hlink hdot hdotdot).symm.trans hup))
        exact .up hxlink hp
    rw [ isPrefixOf_iff_prefix, append_assoc]
    exact (habove.chain_le above hxl hl').trans (prefix_append _ _)

end

/-! ## System calls -/

section

variable {above : List Name}

theorem Later.hung (h : Later s₀ s) : Hung s := h.elim fun _ h => h.hung

theorem Later.le (h : Later s₀ s) : s₀.next ≤ s.next := h.elim fun _ h => h.next.symm ▸ h.le

theorem Later.link (h : Later s₀ s) : ∀ d < s₀.next, s.nameAndParent d = s₀.nameAndParent d := h.elim
    fun _ h => h.link

theorem Hung.later (h : Hung s) : Later s s := h.grown.later

theorem Later.trans (h : Later s₀ s) (h' : Later s t) : Later s₀ t :=
  ⟨t.next, h'.hung, rfl, h.le.trans h'.le, fun d hd => (h'.link d (hd.trans_le h.le)).trans (h.link d hd)⟩

def Handle.Valid (s : Mount σ ι) (handle : Handle) : Prop := ∀ d, handle = .here d → d < s.next

variable {found : Handle}

theorem Found.valid {self : Nat} (h : Found name self s found) : found.Valid s :=
  fun d hd => (h d hd).1

theorem Found.later {self : Nat} (h : Found name self s found) (hlater : Later s t) :
    Found name self t found := fun d hd => by
  obtain ⟨hlt, hlink⟩ := h d hd
  exact ⟨hlt.trans_le hlater.le, fun hdot hdotdot => (hlater.link d hlt).trans (hlink hdot hdotdot)⟩

/-- A lookup in the middle of a path. -/
theorem lookup_onward {above : Bool} {d : Nat} (hs : Later s₀ s) (hd : d < s.next) :
    Triple (fun t => t = s) (lookup ops held above d n) (fun found t => Later s t ∧ Later s₀ t ∧ Found n d t found)
      (Later s₀) :=
  (lookup_later hd).consequence (fun _ heq => heq ▸ hs.hung.later) (fun _ _ h => ⟨h.1, hs.trans h.1, h.2⟩)
    fun _ => hs.trans

theorem lookupFromParent_later {hops : List Hop} (hhops : ∀ d, .start d ∈ hops → d < s₀.next) (dentry : Handle) :
    Triple (fun s => Later s₀ s ∧ dentry.Valid s) (lookupFromParent ops held above dentry hops)
      (fun found s => Later s₀ s ∧ found.Valid s) (Later s₀) := by
  fun_induction lookupFromParent ops held above dentry hops with
  | case1 dentry => exact Triple.pure fun _ => id
  | case2 dentry d hops ih =>
    refine (ih fun e he => hhops e (mem_cons_of_mem _ he)).pre fun s hs => ⟨hs.1, ?_⟩
    rintro e heq
    obtain rfl := Handle.here.inj heq
    exact (hhops d mem_cons_self).trans_le hs.1.le
  | case3 hop hops _ ih =>
    exact (ih fun e he => hhops e (mem_cons_of_mem _ he)).pre fun s hs => ⟨hs.1, nofun⟩
  | case4 d n hops ih =>
    refine ⟨fun s ⟨hs, hd⟩ => (Triple.bind (lookup_onward hs (hd d rfl)) fun next => ?_).run s rfl⟩
    exact (ih next fun e he => hhops e (mem_cons_of_mem _ he)).pre fun s h => ⟨h.2.1, h.2.2.valid⟩
  | case5 d n hops ih =>
    refine ⟨fun s ⟨hs, hd⟩ => (Triple.bind (lookup_onward hs (hd d rfl)) fun next => ?_).run s rfl⟩
    refine (ih fun e he => hhops e (mem_cons_of_mem _ he)).pre fun t h => ⟨h.2.1, fun e he => ?_⟩
    exact (hd e he).trans_le h.1.le

theorem sysRenameat_hung {oldPath newPath : List Hop} {oldName newName : Name} {dirOnly : Bool} (h₀ : Hung s₀)
    (hold : ∀ d, .start d ∈ oldPath → d < s₀.next) (hnew : ∀ d, .start d ∈ newPath → d < s₀.next) :
    Triple (fun s => s = s₀) (sysRenameat ops held above oldPath oldName dirOnly newPath newName)
      (fun _ => Hung) Hung := by
  have hhung : ∀ s, Later s₀ s → Hung s := fun _ => Later.hung
  unfold sysRenameat
  refine Triple.bind ((lookupFromParent_later hold .elsewhere).consequence (fun s heq => ⟨heq ▸ h₀.later, nofun⟩)
    (fun _ _ => id) hhung) fun oldDir => ?_
  cases oldDir with
  | elsewhere => exact ⟨fun s h => h.1.hung⟩
  | here oldDir =>
    refine ⟨fun s ⟨hs, hoc⟩ => (Triple.bind ((lookup_onward hs (hoc oldDir rfl)).errs hhung) fun old => ?_).run s rfl⟩
    refine Triple.get fun s₁ ⟨_, hs₁, hfound⟩ => ?_
    refine Triple.bind ((Reads.when (Reads.fail _)).triple.errs fun t heq => heq ▸ hs₁.hung) fun _ => ?_
    have hstart : ∀ d, .start d ∈ newPath → d < s₁.next := fun d hd => (hnew d hd).trans_le hs₁.le
    refine Triple.bind ((lookupFromParent_later hstart .elsewhere).consequence
      (fun s heq => ⟨heq ▸ hs₁.hung.later, nofun⟩) (fun _ _ => id) fun _ => Later.hung) fun newDir => ?_
    refine ⟨fun s₂ ⟨hs₂, hvalid⟩ => ?_⟩
    cases old with
    | elsewhere => exact hs₂.hung
    | here old =>
      cases newDir with
      | elsewhere => exact hs₂.hung
      | here newDir => exact (renameChecked_hung hs₂.hung (hfound.later hs₂) (hvalid newDir rfl)).run s₂ rfl

theorem create_later {dir : Nat} {type : InodeType} (hs : Later s₀ s) (hdir : dir < s.next) :
    Triple (fun t => t = s) (do let _ ← create ops held dir name type) (fun _ => Later s₀) (Later s₀) := by
  refine Triple.bind (R := fun _ => Later s₀) ?_ fun _ => Triple.pure fun _ => id
  exact (make_later hdir).consequence (fun t heq => heq ▸ hs.hung.later) (fun _ _ => hs.trans) fun _ => hs.trans

theorem sysMkdirat_hung {path : List Hop} (h₀ : Hung s₀) (hpath : ∀ d, .start d ∈ path → d < s₀.next) :
    Triple (fun s => s = s₀) (sysMkdirat ops held above path name) (fun _ => Hung) Hung := by
  unfold sysMkdirat
  refine Triple.bind ((lookupFromParent_later hpath .elsewhere).consequence (fun s heq => ⟨heq ▸ h₀.later, nofun⟩)
    (fun _ _ => id) fun _ => Later.hung) fun dir => ?_
  cases dir with
  | elsewhere => exact Triple.pure fun s h => h.1.hung
  | here dir =>
    exact ⟨fun s ⟨hs, hvalid⟩ => ((create_later hs (hvalid dir rfl)).consequence (fun _ => id) (fun _ _ => Later.hung)
      fun _ => Later.hung).run s rfl⟩

end

/-- A call: the two that this module is about, and those of the dentries that do not move them. -/
inductive Call where
  | mkdirat (path : List Hop) (name : Name)
  | renameat (oldPath : List Hop) (oldName : Name) (dirOnly : Bool) (newPath : List Hop) (newName : Name)
  | other (op : Op) (hop : ∀ self oldName newDir newName, op ≠ .rename self oldName newDir newName)

namespace Call

/-- The process has the dentries that the paths start at. -/
def Valid (s : Mount σ ι) : Call → Prop
  | mkdirat path _ => ∀ d, .start d ∈ path → d < s.next
  | renameat oldPath _ _ newPath _ => (∀ d, .start d ∈ oldPath → d < s.next) ∧ ∀ d, .start d ∈ newPath → d < s.next
  | other op _ => ∀ d ∈ op.handles, d < s.next

variable (ops : InodeOps σ ι) (above : List Name) (held : Nat → Bool)

def run : Call → Comp (Mount σ ι) Error Unit
  | mkdirat path name => sysMkdirat ops held above path name
  | renameat oldPath oldName dirOnly newPath newName => sysRenameat ops held above oldPath oldName dirOnly
      newPath newName
  | other op _ => op.run ops (!above.isEmpty) held

variable {ops above held} {call : Call} {op : Op}

/-- A call of the dentries that is not a `rename`. -/
theorem other_hung (hop : ∀ self oldName newDir newName, op ≠ .rename self oldName newDir newName) (h : Hung s)
    (hvalid : ∀ d ∈ op.handles, d < s.next) (hf : (op.run ops (!above.isEmpty) held s).final = some t) : Hung t := by
  have hself : ∀ {m : Comp (Mount σ ι) Error Unit}, Triple (Later s) m (fun _ => Later s) (Later s) →
      (m s).final = some t → Hung t := fun hm hf => (hm.final h.later hf).hung
  have hmake : ∀ {α : Type} {m : Comp (Mount σ ι) Error α}, Triple (Later s) m (fun _ => Later s) (Later s) →
      Triple (Later s) (do let _ ← m : Comp (Mount σ ι) Error Unit) (fun _ => Later s) (Later s) :=
    fun hm => Triple.bind hm fun _ => Triple.pure fun _ => id
  cases op with
  | create self name type
  | mknod self name => exact hself (hmake (make_later (hvalid self (by simp [Op.handles])))) hf
  | lookup self name =>
    exact hself (hmake ((lookup_later (hvalid self (by simp [Op.handles]))).consequence (fun _ => id)
      (fun _ _ h => h.1)
      fun _ => id)) hf
  | link self old name =>
    exact hself (link_later (hvalid self (by cases old <;> simp [Op.handles]))) hf
  | unlink self name => exact hself (m := unlink ops held self name) remove_later hf
  | rmdir self name => exact hself (m := rmdir ops held self name) remove_later hf
  | rename self oldName newDir newName => exact absurd rfl (hop self oldName newDir newName)
  | setMountpoint self mounted =>
    obtain rfl : s.setMountpoint self mounted = t := Option.some.inj hf
    refine h.keep rfl (fun d => setMountpoint_nameAndParent _ _ _ _) fun D n d hc => ?_
    rw [setMountpoint_child] at hc
    exact h.linked D n d hc

theorem hung (h : Hung s) (hvalid : call.Valid s) (hf : (call.run ops above held s).final = some t) : Hung t := by
  cases call with
  | mkdirat path name => exact (sysMkdirat_hung h hvalid).final rfl hf
  | renameat oldPath oldName dirOnly newPath newName =>
    exact (sysRenameat_hung h hvalid.1 hvalid.2).final rfl hf
  | other op hop => exact other_hung hop h hvalid hf

end Call

/-- The states that calls lead to, over any file system. Calls may fail; `held` says which dentries someone holds at
the time of the call. -/
inductive Calls (ops : InodeOps σ ι) (above : List Name) : Mount σ ι → Prop
  | new {fs : σ} {root : ι} : Calls ops above (.new fs root)
  | step {s t : Mount σ ι} {call : Call} {held : Nat → Bool} (h : Calls ops above s) (hvalid : call.Valid s)
      (hf : (call.run ops above held s).final = some t) : Calls ops above t

theorem Hung.new (fs : σ) (root : ι) : Hung (new fs root) where
  rootLt := Nat.one_pos
  top := rfl
  linked _ _ _ hc := nomatch hc
  parentLt _ _ _ _ hp := nomatch hp
  chain d hd := ⟨[], (Nat.lt_one_iff.mp hd : d = 0) ▸ .root rfl⟩

theorem Calls.hung {above : List Name} (h : Calls ops above s) : Hung s := by
  induction h with
  | new => exact Hung.new _ _
  | step _ hvalid hf ih => exact Call.hung ih hvalid hf

/-- **The dentries are a tree** in every reached state: each has a way to the root, none is above its parent, and its
absolute path is computed within as many steps as there are dentries. -/
theorem dentries_tree {ops : InodeOps σ ι} {above : List Name} {s : Mount σ ι} (h : Calls ops above s) :
    ∀ d < s.next, (∃ names, s.Chain d names) ∧ (∀ n p, s.nameAndParent d = some (n, p) → ¬ s.Above d p) ∧
      (s.absPath above d).isSome := by
  intro d hd
  obtain ⟨l, hl⟩ := h.hung.chain d hd
  refine ⟨⟨l, hl⟩, fun n p hup habove => ?_, by rw [h.hung.absPath above hd hl]; rfl⟩
  obtain ⟨l', hl'⟩ := h.hung.chain p (h.hung.parentLt d hd n p hup)
  have hle := habove.length_le hl hl'
  rw [hl.unique (.up hup hl'), List.length_cons] at hle
  omega

def Call.next (call : Call) (s : Mount MapFs Nat) : Mount MapFs Nat :=
  ((call.run MapFs.ops [] (fun _ => false) s).final).getD s

theorem Calls.next {s : Mount MapFs Nat} (call : Call) (h : Calls MapFs.ops [] s) (hvalid : call.Valid s)
    (hf : (call.run MapFs.ops [] (fun _ => false) s).final = some (call.next s)) : Calls MapFs.ops [] (call.next s) :=
  .step h hvalid hf

/-- `/a` and `/b`, and `/a` moved to `/b/c`. -/
def dirMoved : Mount MapFs Nat :=
  Call.next (.renameat [.start 0] [97] false [.start 0, .name [98]] [99]) <| Call.next (.mkdirat [.start 0] [98]) <|
    Call.next (.mkdirat [.start 0] [97]) <| .new MapFs.empty 0

theorem dentries_tree_dirMoved : dirMoved.nameAndParent 1 = some ([99], 2) ∧
    dirMoved.absPath [] 1 = some [47, 98, 47, 99] ∧ ∃ names, dirMoved.Chain 1 names := by
  have hrun : Calls MapFs.ops [] dirMoved :=
    ((Calls.new.next (.mkdirat [.start 0] [97]) (by simp [Call.Valid, Mount.new]) rfl).next (.mkdirat [.start 0] [98])
      (fun d hd => by simp at hd; subst hd; decide) rfl).next
        (.renameat [.start 0] [97] false [.start 0, .name [98]] [99])
      ⟨fun d hd => by simp at hd; subst hd; decide, fun d hd => by simp at hd; subst hd; decide⟩ rfl
  exact ⟨by decide, by decide, (dentries_tree hrun 1 (by decide)).1⟩

/-! ## What the comparison rejects

`sys_renameat` tells by the strings of two absolute paths whether one dentry is above another. The old path has no slash
at its end, so its last name needs to be no more than the beginning of the name that stands at its place in the new path.
-/

section paths

/-- A component of a path. -/
def Proper (n : Name) : Prop := n ≠ [] ∧ 47 ∉ n

instance (n : Name) : Decidable (Proper n) := inferInstanceAs (Decidable (_ ∧ _))

/-- Names from the root down, each after a slash. -/
def joined : List Name → Path
  | [] => []
  | n :: ns => 47 :: (n ++ joined ns)

/-- A path begins with the names of another, of whose last one it has the beginning only. -/
def begins : List Name → List Name → Bool
  | [], _ => true
  | _ :: _, [] => false
  | [n], m :: _ => n.isPrefixOf m
  | n :: n' :: ns, m :: ms => n == m && begins (n' :: ns) ms

variable {n m : Name} {xs ys : List Name} {path rest : Path}

theorem joined_cons (n : Name) (ns : List Name) : joined (n :: ns) = 47 :: (n ++ joined ns) := rfl

theorem joined_append (xs ys : List Name) : joined (xs ++ ys) = joined xs ++ joined ys := by
  induction xs with
  | nil => rfl
  | cons n xs ih => simp [joined, ih]

/-- What has no slash and begins a name with a path after it begins the name. -/
theorem prefix_name (hn : 47 ∉ n) (h : n <+: m ++ joined ys) : n <+: m := by
  rcases prefix_or_prefix_of_prefix h (prefix_append m (joined ys)) with hle | ⟨t, rfl⟩
  · exact hle
  · have ht : t <+: joined ys := (prefix_append_right_inj m).mp h
    cases t with
    | nil => rw [append_nil]
    | cons c t =>
      -- the name would have the slash with which the path begins
      cases ys with
      | nil => exact absurd ht (by simp [joined])
      | cons y ys =>
        rw [(cons_prefix_cons.mp ht).1] at hn
        exact absurd (by simp) hn

theorem append_prefix_name (hn : 47 ∉ n) (hm : 47 ∉ m) :
    n ++ joined (rest :: xs) <+: m ++ joined ys ↔ n = m ∧ joined (rest :: xs) <+: joined ys := by
  constructor
  · intro h
    obtain ⟨t, rfl⟩ := prefix_name hn ((prefix_append n _).trans h)
    rw [append_assoc, prefix_append_right_inj] at h
    cases t with
    | nil => exact ⟨(append_nil n).symm, h⟩
    | cons c t =>
      rw [← (cons_prefix_cons.mp h).1] at hm
      exact absurd (by simp) hm
  · rintro ⟨rfl, h⟩
    exact (prefix_append_right_inj n).mpr h

theorem joined_prefix_iff (hxs : ∀ n ∈ xs, Proper n) (hys : ∀ n ∈ ys, Proper n) :
    joined xs <+: joined ys ↔ begins xs ys = true := by
  fun_induction begins xs ys with
  | case1 ys => simp [joined]
  | case2 n ns => simp [joined]
  | case3 n m ms =>
    rw [joined_cons n, joined_cons m, cons_prefix_cons, joined, append_nil, isPrefixOf_iff_prefix]
    exact ⟨fun h => prefix_name (hxs n (by simp)).2 h.2, fun h => ⟨rfl, h.trans (prefix_append _ _)⟩⟩
  | case4 n n' ns m ms ih =>
    rw [joined_cons n, joined_cons m, cons_prefix_cons, append_prefix_name (hxs n (by simp)).2 (hys m (by simp)).2,
      ih (fun x hx => hxs x (by simp [hx])) (fun x hx => hys x (by simp [hx])), Bool.and_eq_true, beq_iff_eq]
    exact ⟨fun h => h.2, fun h => ⟨rfl, h⟩⟩

theorem begins_antisymm (h : begins xs ys = true) (h' : begins ys xs = true) : xs = ys := by
  fun_induction begins xs ys with
  | case1 ys =>
    cases ys with
    | nil => rfl
    | cons y ys => cases h'
  | case2 => cases h
  | case3 n m ms =>
    cases ms with
    | nil =>
      have hle : m <+: n := isPrefixOf_iff_prefix.mp h'
      rw [List.IsPrefix.eq_of_length_le ( isPrefixOf_iff_prefix.mp h) hle.length_le]
    | cons m' ms =>
      rw [begins, Bool.and_eq_true] at h'
      cases h'.2
  | case4 n n' ns m ms ih =>
    rw [Bool.and_eq_true, beq_iff_eq] at h
    cases ms with
    | nil => cases h.2
    | cons m' ms =>
      rw [begins, Bool.and_eq_true] at h'
      rw [h.1, ih h.2 h'.2]

/-- Different names make different paths. -/
theorem joined_inj (hxs : ∀ n ∈ xs, Proper n) (hys : ∀ n ∈ ys, Proper n) : joined xs = joined ys ↔ xs = ys := by
  refine ⟨fun h => ?_, congrArg joined⟩
  exact begins_antisymm ((joined_prefix_iff hxs hys).mp (h ▸ List.prefix_refl _))
    ((joined_prefix_iff hys hxs).mp (h ▸ List.prefix_refl _))

theorem climb_names (hxs : ∀ n ∈ xs, Proper n) : climb (xs ++ [slash]) path = joined xs.reverse ++ 47 :: path := by
  induction xs generalizing path with
  | nil => rfl
  | cons n xs ih =>
    have hne : (n != slash) = true := by
      rw [bne_iff_ne]
      rintro rfl
      exact absurd (hxs slash (by simp)).2 (by decide)
    rw [cons_append, climb, if_pos hne, ih (fun x hx => hxs x (by simp [hx])), reverse_cons, joined_append]
    simp [joined, slash]

end paths

namespace Mount

variable {above : List Name}

/-- The names from the root of all mounts down to a dentry. -/
def route (above l : List Name) : List Name := (l ++ above.dropLast).reverse

theorem chainNames_eq (htop : above = [] ∨ above.getLast? = some slash) (l : List Name) :
    (chainNames above l).1 :: (chainNames above l).2 = l ++ above.dropLast ++ [slash] := by
  induction l with
  | nil =>
    rcases htop with rfl | htop
    · rfl
    · cases above with
      | nil => cases htop
      | cons a as =>
        rw [nil_append]
        exact (dropLast_append_getLast? slash htop).symm
  | cons n l ih => rw [chainNames, ih, cons_append, cons_append]

/-- The path of a dentry, by the names from the root down. -/
theorem chainPath_eq (htop : above = [] ∨ above.getLast? = some slash) {l : List Name}
    (hnames : ∀ n ∈ route above l, Proper n) :
    chainPath above l = if route above l = [] then slash else joined (route above l) := by
  have heq := chainNames_eq htop l
  unfold chainPath
  unfold route at hnames ⊢
  generalize l ++ above.dropLast = names at heq hnames ⊢
  cases names with
  | nil =>
    obtain ⟨hfirst, hrest⟩ := cons.inj heq
    rw [hfirst, hrest]
    rfl
  | cons n names =>
    rw [cons_append] at heq
    obtain ⟨hfirst, hrest⟩ := cons.inj heq
    rw [hfirst, hrest, climb_names (fun x hx => hnames x (by simp [hx])), if_neg (by simp), reverse_cons, joined_append]
    simp [joined]

theorem Chain.above_root (h : s.Chain d l) : s.Above Mount.root d := by
  induction h with
  | root => exact .refl
  | up hup _ ih => exact .up hup ih

theorem Chain.eq_root (h : s.Chain d []) : d = Mount.root := by
  cases h
  rfl

end Mount

/-- The call is rejected exactly if the destination is below the source, whatever the file system does: otherwise it
returns at once, or goes on to `rename`. -/
def RejectsExactly (s : Mount σ ι) (above : List Name) (old oldDir : Nat) (oldName : Name) (newDir : Nat)
    (newName : Name) : Prop :=
  ∀ (ops : InodeOps σ ι) (held : Nat → Bool),
    (s.Above old newDir → renameChecked ops held above old oldDir oldName newDir newName s =
      .err (.withMessage .EINVAL "newpath contains a path prefix of the oldpath") s) ∧
    (¬ s.Above old newDir → renameChecked ops held above old oldDir oldName newDir newName s = .ok () s ∨
      renameChecked ops held above old oldDir oldName newDir newName s =
        rename ops held oldDir oldName (.here newDir) newName s)

/-- Names that tell whether one dentry is above another: it is, or the new directory is the root (so that the new path has
two slashes), or the names of the old path do not begin those of the new one, or are the same. -/
def NamesTell (s : Mount σ ι) (old newDir : Nat) (oldNames newDirNames : List Name) (newName : Name) : Prop :=
  s.Above old newDir ∨ newDirNames = [] ∨ begins oldNames (newDirNames ++ [newName]) = false ∨
    oldNames = newDirNames ++ [newName]

section reject

variable {above : List Name} {old oldDir newDir : Nat} {oldName newName : Name}

/-- A file system in which `rename` finds no directory. -/
def noDirs : InodeOps σ ι where
  type _ _ := .file
  executable _ _ := .panic
  cacheable _ := false
  create _ _ _ _ := .panic
  mknod _ _ _ := .panic
  lookup _ _ _ := .panic
  link _ _ _ _ := .panic
  unlink _ _ _ := .panic
  rmdir _ _ _ := .panic
  rename _ _ _ _ _ := .panic

theorem rename_noDirs (held : Nat → Bool) : rename noDirs held oldDir oldName (.here newDir) newName s ≠
    .err (.withMessage .EINVAL "newpath contains a path prefix of the oldpath") s := by
  unfold rename
  intro h
  rcases bind_err.mp h with h | ⟨_, s', -, h⟩
  · unfold when at h
    split at h <;> cases h
  · rcases bind_err.mp h with h | ⟨_, s'', hdir, -⟩
    · cases h
    · cases hdir

/-- The call, by the paths as strings. -/
theorem renameChecked_eq (hs : Hung s) (hold : old < s.next) (hnew : newDir < s.next) (hl : s.Chain old l)
    (hl' : s.Chain newDir l') (ops : InodeOps σ ι) (held : Nat → Bool) :
    renameChecked ops held above old oldDir oldName newDir newName s =
      (if (chainPath above l).isPrefixOf (chainPath above l' ++ slash ++ newName) then
        when ((chainPath above l' ++ slash ++ newName).length != (chainPath above l).length)
          (fail (.withMessage .EINVAL "newpath contains a path prefix of the oldpath"))
      else rename ops held oldDir oldName (.here newDir) newName) s := by
  show (expect (s.absPath above old) >>= _) s = _
  rw [hs.absPath above hold hl, hs.absPath above hnew hl']
  rfl

theorem renameChecked_above (hs : Hung s) (hold : old < s.next) (hnew : newDir < s.next) (ops : InodeOps σ ι)
    (held : Nat → Bool) (habove : s.Above old newDir) :
    renameChecked ops held above old oldDir oldName newDir newName s =
      .err (.withMessage .EINVAL "newpath contains a path prefix of the oldpath") s := by
  obtain ⟨l, hl⟩ := hs.chain old hold
  obtain ⟨l', hl'⟩ := hs.chain newDir hnew
  have hle := habove.chain_le above hl hl'
  have hlen := hle.length_le
  rw [renameChecked_eq hs hold hnew hl hl', if_pos, when, if_pos]
  · rfl
  · simp [slash]
    omega
  · rw [ isPrefixOf_iff_prefix, append_assoc]
    exact hle.trans (prefix_append _ _)

theorem proper_append {xs ys : List Name} (hnames : ∀ n ∈ newName :: (xs ++ ys), Proper n) :
    ∀ n ∈ ys ++ [newName], Proper n := by
  intro n hn
  rcases mem_append.mp hn with hn | hn
  · exact hnames n (by simp [hn])
  · exact hnames n (by rw [mem_singleton.mp hn]; simp)

/-- The new path, below the root. -/
theorem newPath_eq (htop : above = [] ∨ above.getLast? = some slash) (hnames : ∀ n ∈ route above l', Proper n)
    (hdeep : route above l' ≠ []) (newName : Name) :
    chainPath above l' ++ slash ++ newName = joined (route above l' ++ [newName]) := by
  rw [chainPath_eq htop hnames, if_neg hdeep, joined_append]
  simp [joined, slash]

variable (htop : above = [] ∨ above.getLast? = some slash) (hold : route above l ≠ [])
  (hnames : ∀ n ∈ newName :: (route above l ++ route above l'), Proper n)
include htop hold hnames

/-- **The comparison by names**, for a dentry that is not above the new directory. -/
theorem comparison_iff : (chainPath above l).isPrefixOf (chainPath above l' ++ slash ++ newName) = true ↔
      route above l' ≠ [] ∧ begins (route above l) (route above l' ++ [newName]) = true := by
  have hl : ∀ n ∈ route above l, Proper n := fun n hn => hnames n (by simp [hn])
  have hl' : ∀ n ∈ route above l', Proper n := fun n hn => hnames n (by simp [hn])
  rw [chainPath_eq htop hl, if_neg hold, isPrefixOf_iff_prefix]
  by_cases hroot : route above l' = []
  · -- two slashes, of which the second one begins no name
    refine ⟨fun h => ?_, fun h => absurd hroot h.1⟩
    rw [chainPath_eq htop hl', if_pos hroot] at h
    cases hroute : route above l with
    | nil => exact absurd hroute hold
    | cons n ns =>
      rw [hroute] at h hl
      obtain ⟨hne, hno⟩ := hl n (by simp)
      cases n with
      | nil => exact absurd rfl hne
      | cons c n =>
        have hc := (cons_prefix_cons.mp (cons_prefix_cons.mp h).2).1
        rw [hc] at hno
        exact absurd (by simp) hno
  · rw [newPath_eq htop hl' hroot, joined_prefix_iff hl (proper_append hnames)]
    exact ⟨fun h => ⟨hroot, h⟩, fun h => h.2⟩

/-- A path that begins another one is as long only if the names are the same. -/
theorem length_eq_iff (hdeep : route above l' ≠ [])
    (hbegins : begins (route above l) (route above l' ++ [newName]) = true) :
    (chainPath above l' ++ slash ++ newName).length = (chainPath above l).length ↔
      route above l = route above l' ++ [newName] := by
  have hl : ∀ n ∈ route above l, Proper n := fun n hn => hnames n (by simp [hn])
  have hl' : ∀ n ∈ route above l', Proper n := fun n hn => hnames n (by simp [hn])
  rw [newPath_eq htop hl' hdeep, chainPath_eq htop hl, if_neg hold, ← joined_inj hl (proper_append hnames)]
  have hprefix := (joined_prefix_iff hl (proper_append hnames)).mpr hbegins
  exact ⟨fun h => hprefix.eq_of_length h.symm, fun h => by rw [h]⟩

end reject

/-- `/d` and `/d/a`. -/
def dirsMade : Mount MapFs Nat :=
  Call.next (.mkdirat [.start 0, .name [100]] [97]) <| Call.next (.mkdirat [.start 0] [100]) <| .new MapFs.empty 0

theorem dirsMade_calls : Calls MapFs.ops [] dirsMade :=
  (Calls.new.next (.mkdirat [.start 0] [100]) (by simp [Call.Valid, Mount.new]) rfl).next
    (.mkdirat [.start 0, .name [100]] [97]) (fun d hd => by simp at hd; subst hd; decide) rfl

theorem dirsMade_chain : dirsMade.Chain 1 [[100]] ∧ dirsMade.Chain 2 [[97], [100]] :=
  ⟨.up rfl (.root rfl), .up rfl (.up rfl (.root rfl))⟩

end AsterKernel.Vfs
