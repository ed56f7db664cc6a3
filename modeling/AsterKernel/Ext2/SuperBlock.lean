import AsterKernel.Ext2.Alloc

/-!
# `Ext2.SuperBlock` — the block groups that are loaded

The superblock says how many blocks and inodes there are, and how many of them are in a group. The number of groups is
the quotient of the former rounded down, so what does not fill a group is in no group that is loaded; that the inodes
fit into the groups is not checked.
-/

namespace AsterKernel.Ext2

open Lib Lib.Comp

inductive MountErrno where
  | EINVAL
  | EUCLEAN
deriving DecidableEq, Repr

/-- `SuperBlock`, as far as it tells where blocks and inodes are. -/
structure SuperBlock where
  inodesCount : Nat
  blocksCount : Nat
  firstDataBlock : Nat
  blocksPerGroup : Nat
  inodesPerGroup : Nat
  freeBlocksCount : Nat
  freeInodesCount : Nat

/-- `RawSuperBlock`: these are taken over as they are, what follows is checked. -/
structure RawSuperBlock extends SuperBlock where
  logBlockSize : Nat
  magic : Nat
  state : Nat
  errors : Nat
  creatorOs : Nat
  revLevel : Nat
  inodeSize : Nat
  featureCompat : Nat
  featureIncompat : Nat
  featureRoCompat : Nat

namespace SuperBlock

/-- The checks of `SuperBlock::try_from`. -/
def check (sb : RawSuperBlock) : Except (MountErrno × String) Unit := do
  if sb.magic ≠ 0xef53 then throw (.EINVAL, "bad ext2 magic number")
  if sb.state ∉ [1, 2, 117] then throw (.EINVAL, "invalid fs state")
  if sb.state = 117 then throw (.EUCLEAN, "fs is corrupted")
  if sb.errors ∉ [1, 2, 3] then throw (.EINVAL, "invalid errors behaviour")
  if 4 < sb.creatorOs then throw (.EINVAL, "invalid creater os")
  if sb.creatorOs ≠ 0 then throw (.EINVAL, "not supported os id")
  if 1 < sb.revLevel then throw (.EINVAL, "invalid revision level")
  if sb.revLevel ≠ 1 then throw (.EINVAL, "not supported rev level")
  if sb.inodeSize < 128 then throw (.EINVAL, "inode size is too small")
  if 2 ^ 6 ≤ sb.featureCompat then throw (.EINVAL, "invalid feature compat set")
  if 2 ^ 5 ≤ sb.featureIncompat then throw (.EINVAL, "invalid feature incompat set")
  if 2 ^ 3 ≤ sb.featureRoCompat then throw (.EINVAL, "invalid feature ro compat set")

def tryFrom (sb : RawSuperBlock) : Except (MountErrno × String) SuperBlock := (check sb).map fun _ => sb.toSuperBlock

def blockGroupsCount (sb : SuperBlock) : Nat := sb.blocksCount / sb.blocksPerGroup

end SuperBlock

/-- `Ext2::open`. `load` is what `BlockGroup::load` finds on the device, unless the bitmap of a group is larger than a
block; that and a division by zero panic. The shift is that of a release build. -/
def openExt2 (raw : RawSuperBlock) (load : Nat → (Group × Group) × Nat) : Outcome Unit (MountErrno × String) Alloc :=
  match SuperBlock.tryFrom raw with
  | .error e => .err e ()
  | .ok sb =>
    let groups := (List.range sb.blockGroupsCount).map load
    if 1024 <<< (raw.logBlockSize % 64) ≠ 4096 ∨ sb.blocksPerGroup = 0 then .panic
    else if groups ≠ [] ∧ (8 * 4096 < sb.blocksPerGroup ∨ 8 * 4096 < sb.inodesPerGroup) then .panic
    else .ok
      { blocks := ⟨sb.freeBlocksCount, groups.map (·.1.1), sb.blocksPerGroup⟩
        inodes := ⟨sb.freeInodesCount, groups.map (·.1.2), sb.inodesPerGroup⟩
        dirsCounts := groups.map (·.2) } ()

namespace Alloc

/-- `block_group_of_bid` finds the group of a block, and `block_idx` a place in it. -/
def ReachesBlock (s : Alloc) (bid : Nat) : Prop :=
  ∃ group < s.blocks.groups.length, IdTable.groupOf bid s.blocks = .ok group s.blocks ∧
    bid % u32Card % s.blocks.perGroup < s.blocks.perGroup

/-- `block_group_of_ino` finds the group of an inode, and `inode_idx` a place in it. -/
def ReachesInode (s : Alloc) (ino : Nat) : Prop :=
  ∃ group < s.inodes.groups.length, IdTable.groupOf (ino - 1) s.inodes = .ok group s.inodes ∧
    (ino - 1) % s.inodes.perGroup < s.inodes.perGroup

end Alloc

theorem IdTable.groupOf_iff {t : IdTable} (n m : Nat) :
    (∃ group < t.groups.length, IdTable.groupOf n t = .ok group t ∧ m % t.perGroup < t.perGroup) ↔
      n < t.groups.length * t.perGroup := by
  unfold IdTable.groupOf
  rcases Nat.eq_zero_or_pos t.perGroup with hzero | hpos
  · simp [hzero]
  · rw [← Nat.div_lt_iff_lt_mul hpos, if_neg hpos.ne']
    constructor
    · rintro ⟨group, -, hok, -⟩
      by_contra hge
      rw [if_pos (Nat.le_of_not_lt hge)] at hok
      cases hok
    · intro hlt
      rw [if_neg hlt.not_ge]
      exact ⟨_, hlt, rfl, Nat.mod_lt _ hpos⟩

variable {raw : RawSuperBlock} {load : Nat → (Group × Group) × Nat} {s : Alloc}

/-- What the tables have from the superblock. -/
theorem openExt2_ok (h : openExt2 raw load = .ok s ()) :
    0 < raw.blocksPerGroup ∧ s.blocks.perGroup = raw.blocksPerGroup ∧ s.inodes.perGroup = raw.inodesPerGroup ∧
      s.blocks.groups.length = raw.blockGroupsCount ∧ s.inodes.groups.length = raw.blockGroupsCount := by
  unfold openExt2 SuperBlock.tryFrom at h
  cases hc : SuperBlock.check raw with
  | error e => simp [hc, Except.map] at h
  | ok _ =>
    simp only [hc, Except.map] at h
    split at h
    case isTrue => cases h
    case isFalse hsize =>
      split at h
      case isTrue => cases h
      case isFalse =>
        cases h
        simp at hsize ⊢
        omega

/-- Every inode is in a loaded group if the groups have places for all of them, and every block if the last group is
full, or there is no data block. -/
theorem reachable_iff (h : openExt2 raw load = .ok s ()) :
    (∀ ino, 1 ≤ ino → ino ≤ raw.inodesCount → s.ReachesInode ino) ∧
      (∀ bid, raw.firstDataBlock ≤ bid → bid < raw.blocksCount → s.ReachesBlock bid) ↔
    raw.inodesCount ≤ raw.blockGroupsCount * raw.inodesPerGroup ∧
      (raw.blocksCount ≤ raw.firstDataBlock ∨ raw.blocksPerGroup ∣ raw.blocksCount) := by
  obtain ⟨hpos, hblocks, hinodes, hlen, hlen'⟩ := openExt2_ok h
  have hino : ∀ ino, s.ReachesInode ino ↔ ino - 1 < raw.blockGroupsCount * raw.inodesPerGroup := by
    intro ino
    rw [← hlen', ← hinodes]
    exact IdTable.groupOf_iff _ _
  have hbid : ∀ bid, s.ReachesBlock bid ↔ bid < raw.blockGroupsCount * raw.blocksPerGroup := by
    intro bid
    rw [← hlen, ← hblocks]
    exact IdTable.groupOf_iff _ _
  simp only [hino, hbid]
  apply and_congr
  · constructor
    · intro hall
      rcases Nat.eq_zero_or_pos raw.inodesCount with hzero | hsome
      · omega
      · have := hall raw.inodesCount hsome le_rfl
        omega
    · intro hle ino h₁ h₂
      omega
  · -- the groups take up all blocks exactly if nothing is left over
    have hdvd : raw.blocksPerGroup ∣ raw.blocksCount ↔
        raw.blocksCount ≤ raw.blockGroupsCount * raw.blocksPerGroup := by
      rw [Nat.dvd_iff_div_mul_eq]
      have hle := Nat.div_mul_le_self raw.blocksCount raw.blocksPerGroup
      exact ⟨fun heq => heq.ge, fun hge => hle.antisymm hge⟩
    rw [hdvd]
    constructor
    · intro hall
      by_contra hnot
      have := hall (raw.blocksCount - 1) (by omega) (by omega)
      omega
    · intro hor bid h₁ h₂
      omega

/-- A superblock that is accepted, with groups of eight blocks and eight inodes. -/
def smallSuperBlock (inodesCount blocksCount : Nat) : RawSuperBlock :=
  ⟨⟨inodesCount, blocksCount, 0, 8, 8, 0, 0⟩, 2, 0xef53, 1, 1, 0, 1, 128, 0, 0, 0⟩

/-- Groups on the device without a free block or inode. -/
def fullGroups (_ : Nat) : (Group × Group) × Nat :=
  ((⟨0, ⟨.replicate 8 true, 8, rfl⟩⟩, ⟨0, ⟨.replicate 8 true, 8, rfl⟩⟩), 0)

theorem reachable_two_groups : ∃ s, openExt2 (smallSuperBlock 16 16) fullGroups = .ok s () ∧
    (∀ ino, 1 ≤ ino → ino ≤ 16 → s.ReachesInode ino) ∧ ∀ bid, 0 ≤ bid → bid < 16 → s.ReachesBlock bid :=
  ⟨_, rfl, (reachable_iff (show openExt2 (smallSuperBlock 16 16) fullGroups = .ok _ () from rfl)).mpr (by decide)⟩

/-- Of twelve blocks and sixteen inodes, the last four and the last eight are in no group. -/
theorem partial_group_lost : ∃ s, openExt2 (smallSuperBlock 16 12) fullGroups = .ok s () ∧
    IdTable.groupOf 11 s.blocks = .err (.new .ENOENT) s.blocks ∧
    IdTable.groupOf (16 - 1) s.inodes = .err (.new .ENOENT) s.inodes := ⟨_, rfl, rfl, rfl⟩

end AsterKernel.Ext2
