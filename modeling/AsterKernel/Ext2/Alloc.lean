import AsterKernel.Lib.Reach
import AsterKernel.Lib.Threads
import AsterKernel.Lib.Usize
import AsterKernel.Ext2.IdAlloc

/-!
# `Ext2.Alloc` — the allocators of blocks and inodes

A group has a bitmap and a counter of its clear bits, for its blocks and for its inodes; the superblock counts the
free blocks and inodes of all groups. An allocation starts at a given group and goes through all of them, wrapping
around; a group whose counter is zero is skipped without a look at its bitmap. The number of a block or of an inode
is made of the group and the place in the group.
-/

namespace AsterKernel.Ext2

open Lib Lib.Comp List

inductive Errno where
  | EEXIST
  | EINVAL
  | EISDIR
  | ENAMETOOLONG
  | ENOENT
  | ENOSPC
  | ENOTDIR
  | ENOTEMPTY
  | EPERM
deriving DecidableEq, Repr

/-- An error: its number and its message, if it has one. -/
structure Error where
  errno : Errno
  msg : Option String
deriving DecidableEq, Repr

def Error.new (errno : Errno) : Error := ⟨errno, none⟩

def Error.withMessage (errno : Errno) (msg : String) : Error := ⟨errno, some msg⟩

/-- All groups are full. -/
def noSpace : Error := .withMessage .ENOSPC "no space on device"

def u16Card : Nat := 2 ^ 16
def u32Card : Nat := 2 ^ 32

/-! ## Bitmaps and counters -/

/-- The bitmap of a group and its counter, a `u16`. -/
structure Group where
  freeCount : Nat
  bitmap : IdAlloc
deriving DecidableEq, Repr

/-- `BlockGroup::alloc_block` and `BlockGroup::alloc_inode`: the counter is the fast path. -/
def Group.alloc (p : Profile) : Comp Group Error (Option Nat) := fun g =>
  if g.freeCount = 0 then .ok none g
  else
    match g.bitmap.alloc with
    | none => .ok none g
    | some (id, bitmap) =>
      match p.sub u16Card g.freeCount 1 with
      | none => .panic
      | some n => .ok (some id) ⟨n, bitmap⟩

/-- `BlockGroup::free_block` and `BlockGroup::free_inode`: the id must be allocated. -/
def Group.release (p : Profile) (id : Nat) : Comp Group Error Unit := fun g =>
  match g.bitmap.isAllocated id with
  | some true =>
    match g.bitmap.free id, p.add u16Card g.freeCount 1 with
    | some bitmap, some n => .ok () ⟨n, bitmap⟩
    | _, _ => .panic
  | _ => .panic

/-- The groups, and the counter of the superblock, a `u32`. -/
structure IdTable where
  freeCount : Nat
  groups : List Group
  perGroup : Nat
deriving DecidableEq, Repr

namespace IdTable

/-- The loop over the groups: at most `n` more of them. -/
def search (p : Profile) : Nat → Nat → Comp IdTable Error (Nat × Nat)
  | 0, _ => fail noSpace
  | n + 1, idx => fun s =>
    let idx := if s.groups.length ≤ idx then 0 else idx
    match s.groups[idx]? with
    | none => .panic
    | some g =>
      match g.alloc p with
      | .ok (some id) g' => .ok (idx, id) { s with groups := s.groups.set idx g' }
      | .ok none _ => search p n (idx + 1) s
      | _ => .panic

/-- Allocate from a group or one of the others: the group and the place in it. -/
def alloc (p : Profile) (start : Nat) : Comp IdTable Error (Nat × Nat) := fun s =>
  if s.groups.length ≤ start then .err (.withMessage .EINVAL "invalid block group idx") s
  else search p s.groups.length start s

/-- `dec_free_blocks` and `dec_free_inodes` of the superblock. -/
def decFree (p : Profile) : Comp IdTable Error Unit := fun s =>
  match p.sub u32Card s.freeCount 1 with
  | none => .panic
  | some n => .ok () { s with freeCount := n }

/-- `inc_free_blocks` and `inc_free_inodes` of the superblock. -/
def incFree (p : Profile) : Comp IdTable Error Unit := fun s =>
  match p.add u32Card s.freeCount 1 with
  | none => .panic
  | some n => .ok () { s with freeCount := n }

def release (p : Profile) (group id : Nat) : Comp IdTable Error Unit := fun s =>
  match s.groups[group]? with
  | none => .panic
  | some g =>
    match g.release p id with
    | .ok _ g' => .ok () { s with groups := s.groups.set group g' }
    | _ => .panic

/-- The number of a place: `group as u32 * per_group + idx`. -/
def number (p : Profile) (group id : Nat) : Comp IdTable Error Nat := fun s =>
  match (p.mul u32Card (group % u32Card) s.perGroup).bind (p.add u32Card · id) with
  | none => .panic
  | some n => .ok n s

/-- The group of a number; with no numbers in a group the division panics. -/
def groupOf (n : Nat) : Comp IdTable Error Nat := fun s =>
  if s.perGroup = 0 then .panic
  else if s.groups.length ≤ n / s.perGroup then .err (.new .ENOENT) s
  else .ok (n / s.perGroup) s

def bit (s : IdTable) (n : Nat) : Option Bool := (s.groups[n / s.perGroup]?).bind fun g =>
    g.bitmap.bitset[n % s.perGroup]?

/-- Every group's bitmap is full. -/
def Full (s : IdTable) : Prop := ∀ g ∈ s.groups, ∀ b ∈ g.bitmap.bitset, b = true

/-- The counters agree with the bitmaps, and the numbers fit into a `u32`. -/
structure Agrees (s : IdTable) : Prop where
  count : ∀ g ∈ s.groups, g.freeCount = g.bitmap.zeros
  length : ∀ g ∈ s.groups, g.bitmap.bitset.length = s.perGroup
  sum : s.freeCount = total Group.freeCount s.groups
  small : s.perGroup ≤ 8 * 4096
  fits : s.groups.length * s.perGroup < u32Card

end IdTable

open IdTable

variable {p : Profile}

namespace Group

variable {g : Group} {id : Nat}

/-- Allocating from a group whose counter is right. -/
theorem alloc_spec (hcount : g.freeCount = g.bitmap.zeros) :
    ((∀ b ∈ g.bitmap.bitset, b = true) ∧ g.alloc p = .ok none g) ∨
    ∃ id g', g.alloc p = .ok (some id) g' ∧ g.bitmap.bitset[id]? = some false ∧
      g'.bitmap.bitset = g.bitmap.bitset.set id true ∧ g'.freeCount = g'.bitmap.zeros ∧
      g'.freeCount + 1 = g.freeCount := by
  unfold alloc
  by_cases hzero : g.freeCount = 0
  · refine .inl ⟨IdAlloc.zeros_eq_zero_iff.mp (by omega), if_pos hzero⟩
  · rw [if_neg hzero]
    cases ha : g.bitmap.alloc with
    | none => exact .inl ⟨IdAlloc.alloc_eq_none_iff.mp ha, rfl⟩
    | some r =>
      obtain ⟨id, bitmap⟩ := r
      obtain ⟨hbit, hset, hzeros⟩ := IdAlloc.alloc_some ha
      right
      dsimp only
      rw [Profile.sub_of_le (by omega)]
      exact ⟨id, ⟨g.freeCount - 1, bitmap⟩, rfl, hbit, hset, by dsimp only; omega, by dsimp only; omega⟩

theorem release_spec (hcount : g.freeCount = g.bitmap.zeros) (hsmall : g.bitmap.bitset.length < u16Card)
    (hbit : g.bitmap.bitset[id]? = some true) :
    ∃ g', g.release p id = .ok () g' ∧ g'.bitmap.bitset = g.bitmap.bitset.set id false ∧
      g'.freeCount = g'.bitmap.zeros ∧ g'.freeCount = g.freeCount + 1 := by
  obtain ⟨bitmap, hfree, hset, hzeros⟩ := IdAlloc.free_some hbit
  have hle : bitmap.zeros ≤ g.bitmap.bitset.length := by
    have := count_le_length (a := false) (l := bitmap.bitset)
    rwa [hset, length_set, ← hset] at this
  unfold release
  rw [IdAlloc.isAllocated, hbit]
  dsimp only
  rw [hfree, Profile.add_of_lt (by omega)]
  exact ⟨⟨g.freeCount + 1, bitmap⟩, rfl, hset, by dsimp only; omega, rfl⟩

theorem release_ok {g' : Group} (h : g.release p id = .ok () g') : g.bitmap.bitset[id]? = some true := by
  unfold release IdAlloc.isAllocated at h
  split at h
  case h_1 hbit => exact hbit
  case h_2 => cases h

end Group

namespace IdTable

variable {s t : IdTable} {n group id : Nat}

/-- One group has changed, in one bit. -/
structure Sets (s t : IdTable) (group id : Nat) (b : Bool) : Prop where
  perGroup : t.perGroup = s.perGroup
  length : t.groups.length = s.groups.length
  /-- The place exists. -/
  place : (s.groups[group]?).bind (fun g => g.bitmap.bitset[id]?) = some (!b)
  bits : ∀ i j, (t.groups[i]?).bind (fun g => g.bitmap.bitset[j]?) =
    if i = group ∧ j = id then some b else (s.groups[i]?).bind fun g => g.bitmap.bitset[j]?

variable {b : Bool} {e : Error} {g g' : Group}

/-- A changed group in the table. -/
theorem sets_of_group (hg : s.groups[group]? = some g) (hbit : g.bitmap.bitset[id]? = some (!b))
    (hset : g'.bitmap.bitset = g.bitmap.bitset.set id b) (n : Nat) :
    s.Sets { s with freeCount := n, groups := s.groups.set group g' } group id b := by
  obtain ⟨hlt, -⟩ := List.getElem?_eq_some_iff.mp hbit
  obtain ⟨hlt', -⟩ := List.getElem?_eq_some_iff.mp hg
  refine ⟨rfl, by simp, by rw [hg]; exact hbit, fun i j => ?_⟩
  dsimp only
  by_cases hi : i = group
  · subst hi
    rw [getElem?_set_self hlt', hg]
    show g'.bitmap.bitset[j]? = _
    rw [hset]
    by_cases hj : j = id
    · subst hj
      rw [if_pos ⟨rfl, rfl⟩, getElem?_set_self hlt]
    · rw [if_neg (by tauto), getElem?_set_ne (Ne.symm hj)]
      rfl
  · rw [if_neg (by tauto), getElem?_set_ne (Ne.symm hi)]

theorem Agrees.setGroup (hs : s.Agrees) (hg : s.groups[group]? = some g)
    (hset : g'.bitmap.bitset = g.bitmap.bitset.set id b) (hcount : g'.freeCount = g'.bitmap.zeros)
    (hsum : n + g.freeCount = s.freeCount + g'.freeCount) :
    ({ s with freeCount := n, groups := s.groups.set group g' } : IdTable).Agrees := by
  have htotal := total_set (w := Group.freeCount) hg g'
  refine ⟨fun u hu => ?_, fun u hu => ?_, ?_, hs.small, ?_⟩
  · rcases mem_or_eq_of_mem_set hu with hu | rfl
    · exact hs.count u hu
    · exact hcount
  · rcases mem_or_eq_of_mem_set hu with hu | rfl
    · exact hs.length u hu
    · rw [hset, length_set]
      exact hs.length g (mem_of_getElem? hg)
  · have := hs.sum
    dsimp only
    omega
  · simpa using hs.fits

theorem Agrees.full_iff (hs : s.Agrees) : s.Full ↔ s.freeCount = 0 := by
  rw [hs.sum]
  constructor
  · intro hfull
    refine total_eq_zero fun g hg => ?_
    rw [hs.count g hg, IdAlloc.zeros_eq_zero_iff]
    exact hfull g hg
  · intro hzero g hg
    obtain ⟨i, hi, rfl⟩ := mem_iff_getElem.mp hg
    have hle := le_total (w := Group.freeCount) (getElem?_eq_getElem hi)
    rw [← IdAlloc.zeros_eq_zero_iff, ← hs.count _ hg]
    omega

/-! ## The search -/

/-- The groups that the search looks at. -/
def visited (len : Nat) : Nat → Nat → List Nat
  | 0, _ => []
  | n + 1, idx => (if len ≤ idx then 0 else idx) :: visited len n ((if len ≤ idx then 0 else idx) + 1)

/-- After as many steps as there are groups, the search has looked at all of them. -/
theorem mem_visited {len idx j : Nat} (hidx : idx ≤ len) (hj : j < len)
    (h : (idx ≤ j ∧ j < idx + n) ∨ j + len < idx + n) : j ∈ visited len n idx := by
  induction n generalizing idx with
  | zero => omega
  | succ n ih =>
    rw [visited, mem_cons]
    by_cases hwrap : len ≤ idx
    · rw [if_pos hwrap]
      by_cases hj0 : j = 0
      · exact .inl hj0
      · exact .inr (ih (by omega) (by omega))
    · rw [if_neg hwrap]
      by_cases hji : j = idx
      · exact .inl hji
      · exact .inr (ih (by omega) (by omega))

theorem search_spec (hs : s.Agrees) (hlen : 0 < s.groups.length) : ∀ n idx,
    ((∀ i ∈ visited s.groups.length n idx, ∀ g, s.groups[i]? = some g → ∀ b ∈ g.bitmap.bitset, b = true) ∧
      search p n idx s = .err noSpace s) ∨
    ∃ group id g g', search p n idx s = .ok (group, id) { s with groups := s.groups.set group g' } ∧
      s.groups[group]? = some g ∧ g.bitmap.bitset[id]? = some false ∧
      g'.bitmap.bitset = g.bitmap.bitset.set id true ∧ g'.freeCount = g'.bitmap.zeros ∧
      g'.freeCount + 1 = g.freeCount := by
  intro n
  induction n with
  | zero =>
    intro idx
    exact .inl ⟨nofun, rfl⟩
  | succ n ih =>
    intro idx
    have hlt : (if s.groups.length ≤ idx then 0 else idx) < s.groups.length := by split <;> omega
    unfold search visited
    dsimp only
    generalize (if s.groups.length ≤ idx then 0 else idx) = i at hlt ⊢
    cases hg : s.groups[i]? with
    | none =>
      rw [getElem?_eq_none_iff] at hg
      omega
    | some g =>
      dsimp only
      rcases Group.alloc_spec (p := p) (hs.count g (mem_of_getElem? hg)) with
        ⟨hfull, hnone⟩ | ⟨id, g', hsome, hbit, hset, hcount, hsub⟩
      · rw [hnone]
        dsimp only
        rcases ih (i + 1) with ⟨hrest, herr⟩ | hok
        · refine .inl ⟨fun j hj u hu => ?_, herr⟩
          rcases mem_cons.mp hj with rfl | hj
          · rw [hg] at hu
            cases hu
            exact hfull
          · exact hrest j hj u hu
        · exact .inr hok
      · rw [hsome]
        exact .inr ⟨i, id, g, g', rfl, hg, hbit, hset, hcount, hsub⟩

/-- **An allocation finds a clear bit, or all groups are full.** The counter of the superblock follows. -/
theorem alloc_spec (hs : s.Agrees) {start : Nat} (hstart : start < s.groups.length) :
    (s.Full ∧ alloc p start s = .err noSpace s) ∨
    ∃ group id s₁ s₂, alloc p start s = .ok (group, id) s₁ ∧ decFree p s₁ = .ok () s₂ ∧
      s.Sets s₂ group id true ∧ s₂.Agrees ∧ s₂.freeCount + 1 = s.freeCount ∧ s₁.perGroup = s.perGroup := by
  have halloc : alloc p start s = search p s.groups.length start s := if_neg (by omega)
  rw [halloc]
  rcases search_spec (p := p) hs (by omega) s.groups.length start with
    ⟨hfull, herr⟩ | ⟨group, id, g, g', hok, hg, hbit, hset, hcount, hsub⟩
  · refine .inl ⟨fun g hg => ?_, herr⟩
    obtain ⟨i, hi, rfl⟩ := mem_iff_getElem.mp hg
    exact hfull i (mem_visited (by omega) hi (by omega)) _ (getElem?_eq_getElem hi)
  · right
    have hle := le_total (w := Group.freeCount) hg
    have hsum := hs.sum
    have hdec : decFree p { s with groups := s.groups.set group g' } =
        .ok () { s with freeCount := s.freeCount - 1, groups := s.groups.set group g' } := by
      unfold decFree
      dsimp only
      rw [Profile.sub_of_le (by omega)]
    exact ⟨group, id, _, _, hok, hdec, sets_of_group hg hbit hset _, hs.setGroup hg hset hcount (by omega),
      by dsimp only; omega, rfl⟩

/-- **A release clears the bit.** The counter of the superblock goes first. -/
theorem release_spec (hs : s.Agrees) (hbit : (s.groups[group]?).bind (fun g => g.bitmap.bitset[id]?) = some true) :
    ∃ s₁ s₂, incFree p s = .ok () s₁ ∧ release p group id s₁ = .ok () s₂ ∧ s.Sets s₂ group id false ∧ s₂.Agrees ∧
      s₂.freeCount = s.freeCount + 1 := by
  obtain ⟨g, hg, hbit⟩ := Option.bind_eq_some_iff.mp hbit
  have hmem := mem_of_getElem? hg
  have hlen := hs.length g hmem
  have hsmall := hs.small
  obtain ⟨g', hrel, hset, hcount, hadd⟩ := Group.release_spec (p := p) (hs.count g hmem)
    (by unfold u16Card; omega) hbit
  -- there is room in the counter, since the block itself is not free
  have hroom : s.freeCount + 1 < u32Card := by
    have htotal := total_set (w := Group.freeCount) hg g'
    have hbound : total Group.freeCount (s.groups.set group g') ≤ s.groups.length * s.perGroup := by
      have := total_le_of_forall_le (w := Group.freeCount) (k := s.perGroup) (s.groups.set group g')
        fun u hu => by
          rcases mem_or_eq_of_mem_set hu with hu | rfl
          · rw [hs.count u hu, ← hs.length u hu]
            exact count_le_length
          · rw [hcount, ← hlen]
            have := count_le_length (a := false) (l := u.bitmap.bitset)
            rwa [hset, length_set, ← hset] at this
      simpa using this
    have := hs.sum
    have := hs.fits
    omega
  refine ⟨{ s with freeCount := s.freeCount + 1 },
    { s with freeCount := s.freeCount + 1, groups := s.groups.set group g' },
    ?_, ?_, sets_of_group hg hbit hset _, hs.setGroup hg hset hcount (by omega), rfl⟩
  · unfold incFree
    rw [Profile.add_of_lt hroom]
  · unfold release
    dsimp only
    rw [hg]
    dsimp only
    rw [hrel]

/-! ## Numbers -/

theorem Agrees.place_lt (hs : s.Agrees)
    (h : (s.groups[group]?).bind (fun g => g.bitmap.bitset[id]?) = some b) : group < s.groups.length ∧ id <
      s.perGroup := by
  obtain ⟨g, hg, hbit⟩ := Option.bind_eq_some_iff.mp h
  obtain ⟨hgroup, -⟩ := List.getElem?_eq_some_iff.mp hg
  obtain ⟨hid, -⟩ := List.getElem?_eq_some_iff.mp hbit
  rw [hs.length g (mem_of_getElem? hg)] at hid
  exact ⟨hgroup, hid⟩

theorem div_number {k : Nat} (hid : id < k) : (group * k + id) / k = group := by
  rw [mul_comm, Nat.mul_add_div (by omega), Nat.div_eq_of_lt hid]
  rfl

theorem number_lt (hgroup : group < s.groups.length) (hid : id < s.perGroup) :
    group * s.perGroup + id < s.groups.length * s.perGroup := by
  have : (group + 1) * s.perGroup ≤ s.groups.length * s.perGroup := Nat.mul_le_mul_right _ hgroup
  rw [Nat.succ_mul] at this
  omega

theorem number_eq (hs : s.Agrees) (hgroup : group < s.groups.length) (hid : id < s.perGroup)
    (hper : t.perGroup = s.perGroup) : number p group id t = .ok (group * s.perGroup + id) t := by
  have hlt := number_lt hgroup hid
  have hfits := hs.fits
  have hpos : s.groups.length ≤ s.groups.length * s.perGroup := Nat.le_mul_of_pos_right _ (by omega)
  unfold number
  rw [hper, Nat.mod_eq_of_lt (by omega), Profile.mul_of_lt (by omega), Option.bind_some, Profile.add_of_lt (by omega)]

theorem Sets.bit (h : s.Sets t group id b) (hs : s.Agrees) (n : Nat) :
    t.bit n = if n = group * s.perGroup + id then some b else s.bit n := by
  have hid := (hs.place_lt h.place).2
  unfold IdTable.bit
  rw [h.perGroup, h.bits]
  by_cases hn : n = group * s.perGroup + id
  · rw [if_pos hn, if_pos ⟨by rw [hn, div_number hid], by rw [hn, Nat.mul_add_mod_of_lt hid]⟩]
  · rw [if_neg hn, if_neg]
    rintro ⟨rfl, rfl⟩
    exact hn (by rw [mul_comm, Nat.div_add_mod])

theorem Sets.bit_self (h : s.Sets t group id b) (hs : s.Agrees) : s.bit (group * s.perGroup + id) = some (!b) := by
  have hid := (hs.place_lt h.place).2
  rw [IdTable.bit, div_number hid, Nat.mul_add_mod_of_lt hid]
  exact h.place

theorem bit_lt (hs : s.Agrees) (h : s.bit n = some b) : n < s.groups.length * s.perGroup := by
  obtain ⟨hgroup, hid⟩ := hs.place_lt h
  rw [← Nat.div_lt_iff_lt_mul (by omega)]
  exact hgroup

theorem groupOf_ok {g : Nat} (h : groupOf n s = .ok g t) :
    g = n / s.perGroup ∧ t = s ∧ n < s.groups.length * s.perGroup := by
  unfold groupOf at h
  split at h
  · cases h
  · split at h
    · cases h
    case isFalse hzero hlt =>
      cases h
      exact ⟨rfl, rfl, (Nat.div_lt_iff_lt_mul (Nat.pos_of_ne_zero hzero)).mp (Nat.lt_of_not_le hlt)⟩

theorem groupOf_err (h : groupOf n s = .err e t) :
    t = s ∧ e = .new .ENOENT ∧ s.perGroup ≠ 0 ∧ s.groups.length ≤ n / s.perGroup := by
  unfold groupOf at h
  split at h
  · cases h
  · split at h
    · cases h
      exact ⟨rfl, rfl, ‹_›, ‹_›⟩
    · cases h

theorem groupOf_of_bit (hs : s.Agrees) (h : s.bit n = some b) : groupOf n s = .ok (n / s.perGroup) s := by
  obtain ⟨hgroup, hid⟩ := hs.place_lt h
  unfold groupOf
  rw [if_neg (by omega), if_neg (by omega)]

theorem release_ok_bit {s₁ s₂ : IdTable} (hinc : incFree p s = .ok () s₁) (hrel : release p group id s₁ = .ok () s₂) :
    (s.groups[group]?).bind (fun g => g.bitmap.bitset[id]?) = some true := by
  unfold incFree at hinc
  split at hinc
  · cases hinc
  · cases hinc
    unfold release at hrel
    dsimp only at hrel
    split at hrel
    · cases hrel
    case h_2 g hg =>
      split at hrel
      case h_1 u g' hok => rw [hg]; exact Group.release_ok hok
      case h_2 => cases hrel

theorem release_ne_err : release p group id s ≠ .err e t := by
  unfold release
  split
  · nofun
  · split
    · nofun
    · nofun

theorem incFree_ne_err : incFree p s ≠ .err e t := by
  unfold incFree
  split
  · nofun
  · nofun

end IdTable

/-! ## Blocks and inodes -/

/-- The allocation state of a file system: blocks, inodes, and for each group the number of directories. -/
structure Alloc where
  blocks : IdTable
  inodes : IdTable
  dirsCounts : List Nat
deriving DecidableEq, Repr

namespace Alloc

def onBlocks {α : Type} (m : Comp IdTable Error α) : Comp Alloc Error α := zoom blocks
    (fun t s => { s with blocks := t }) m

def onInodes {α : Type} (m : Comp IdTable Error α) : Comp Alloc Error α := zoom inodes
    (fun t s => { s with inodes := t }) m

/-- `Ext2::alloc_block`. -/
def allocBlock (p : Profile) (start : Nat) : Comp Alloc Error Nat := onBlocks do
  let place ← IdTable.alloc p start
  let bid ← IdTable.number p place.1 place.2
  IdTable.decFree p
  pure bid

/-- `Ext2::free_block`. -/
def freeBlock (p : Profile) (bid : Nat) : Comp Alloc Error Unit := onBlocks do
  let group ← IdTable.groupOf bid
  let s ← Comp.get
  IdTable.incFree p
  IdTable.release p group (bid % u32Card % s.perGroup)

def incDirs (p : Profile) (group : Nat) : Comp Alloc Error Unit := fun s =>
  match (s.dirsCounts[group]?).bind (p.add u16Card · 1) with
  | none => .panic
  | some n => .ok () { s with dirsCounts := s.dirsCounts.set group n }

def decDirs (p : Profile) (group : Nat) : Comp Alloc Error Unit := fun s =>
  match (s.dirsCounts[group]?).bind (p.sub u16Card · 1) with
  | none => .panic
  | some n => .ok () { s with dirsCounts := s.dirsCounts.set group n }

/-- `Ext2::alloc_ino`: the group and the inode number. -/
def allocIno (p : Profile) (start : Nat) (isDir : Bool) : Comp Alloc Error (Nat × Nat) := do
  let place ← onInodes (IdTable.alloc p start)
  when isDir (incDirs p place.1)
  let n ← onInodes (IdTable.number p place.1 place.2)
  let ino ← expect (p.add u32Card n 1)
  onInodes (IdTable.decFree p)
  pure (place.1, ino)

/-- `Ext2::free_inode`. -/
def freeInode (p : Profile) (ino : Nat) (isDir : Bool) : Comp Alloc Error Unit := do
  let n ← expect (p.sub u32Card ino 1)
  let group ← onInodes (IdTable.groupOf n)
  let s ← Comp.get
  onInodes (IdTable.incFree p)
  onInodes (IdTable.release p group (n % s.inodes.perGroup))
  when isDir (decDirs p group)

/-- The counters agree with the bitmaps. -/
structure Agrees (s : Alloc) : Prop where
  blocks : s.blocks.Agrees
  inodes : s.inodes.Agrees

variable {s t : Alloc} {start bid ino : Nat} {isDir : Bool} {n : Nat}

structure Took (s t : Alloc) (bid : Nat) : Prop where
  clear : s.blocks.bit bid = some false
  bit : ∀ n, t.blocks.bit n = if n = bid then some true else s.blocks.bit n
  count : t.blocks.freeCount + 1 = s.blocks.freeCount
  perGroup : t.blocks.perGroup = s.blocks.perGroup
  length : t.blocks.groups.length = s.blocks.groups.length
  inodes : t.inodes = s.inodes
  dirs : t.dirsCounts = s.dirsCounts
  agrees : t.Agrees

structure Gave (s t : Alloc) (bid : Nat) : Prop where
  set : s.blocks.bit bid = some true
  bit : ∀ n, t.blocks.bit n = if n = bid then some false else s.blocks.bit n
  count : t.blocks.freeCount = s.blocks.freeCount + 1
  perGroup : t.blocks.perGroup = s.blocks.perGroup
  length : t.blocks.groups.length = s.blocks.groups.length
  inodes : t.inodes = s.inodes
  dirs : t.dirsCounts = s.dirsCounts
  agrees : t.Agrees

/-- **Allocating a block.** It fails when all groups are full; otherwise one bit changes. -/
theorem allocBlock_spec (hs : s.Agrees) (hstart : start < s.blocks.groups.length) :
    (s.blocks.Full ∧ allocBlock p start s = .err noSpace s) ∨
    ∃ bid t, allocBlock p start s = .ok bid t ∧ s.Took t bid := by
  rcases alloc_spec (p := p) hs.blocks hstart with
    ⟨hfull, herr⟩ | ⟨group, id, s₁, s₂, hok, hdec, hsets, hagrees, hcount, hper⟩
  · refine .inl ⟨hfull, ?_⟩
    simp only [allocBlock, onBlocks, zoom, bind_eq, herr]
  · have hplace := hs.blocks.place_lt hsets.place
    have hnumber := number_eq (p := p) hs.blocks hplace.1 hplace.2 hper
    refine .inr ⟨group * s.blocks.perGroup + id, { s with blocks := s₂ }, ?_,
      ⟨hsets.bit_self hs.blocks, hsets.bit hs.blocks, hcount, hsets.perGroup, hsets.length, rfl, rfl,
        ⟨hagrees, hs.inodes⟩⟩⟩
    simp only [allocBlock, onBlocks, zoom, bind_eq, hok, hnumber, hdec, pure_apply]

theorem allocBlock_invalid (hstart : s.blocks.groups.length ≤ start) :
    allocBlock p start s = .err (.withMessage .EINVAL "invalid block group idx") s := by
  have halloc : alloc p start s.blocks = .err (.withMessage .EINVAL "invalid block group idx") s.blocks :=
    if_pos hstart
  simp only [allocBlock, onBlocks, zoom, bind_eq, halloc]

/-- **Freeing a block.** A block that is allocated. -/
theorem freeBlock_spec (hs : s.Agrees) (hbit : s.blocks.bit bid = some true) :
    ∃ t, freeBlock p bid s = .ok () t ∧ s.Gave t bid := by
  obtain ⟨s₁, s₂, hinc, hrel, hsets, hagrees, hcount⟩ := release_spec (p := p) hs.blocks hbit
  have hlt := bit_lt hs.blocks hbit
  have hfits := hs.blocks.fits
  have hbid : bid / s.blocks.perGroup * s.blocks.perGroup + bid % s.blocks.perGroup = bid := by
    rw [mul_comm, Nat.div_add_mod]
  refine ⟨{ s with blocks := s₂ }, ?_,
    ⟨hbit, fun n => ?_, hcount, hsets.perGroup, hsets.length, rfl, rfl, ⟨hagrees, hs.inodes⟩⟩⟩
  · simp only [freeBlock, onBlocks, zoom, bind_eq, groupOf_of_bit hs.blocks hbit, Comp.get, hinc,
      Nat.mod_eq_of_lt (a := bid) (b := u32Card) (by omega), hrel]
  · have := hsets.bit hs.blocks n
    rwa [hbid] at this

theorem freeBlock_ok (hs : s.Agrees) (h : freeBlock p bid s = .ok () t) : s.Gave t bid := by
  have hbit : s.blocks.bit bid = some true := by
    unfold freeBlock onBlocks at h
    obtain ⟨b, hok, -⟩ := zoom_ok.mp h
    obtain ⟨group, s₀, hgroup, hrest⟩ := bind_ok.mp hok
    obtain ⟨rfl, rfl, hlt⟩ := groupOf_ok hgroup
    have hfits := hs.blocks.fits
    rw [get_bind] at hrest
    obtain ⟨_, s₁, hinc, hrel⟩ := bind_ok.mp hrest
    rw [Nat.mod_eq_of_lt (a := bid) (by omega)] at hrel
    exact release_ok_bit hinc hrel
  obtain ⟨t', hok, hgave⟩ := freeBlock_spec (p := p) hs hbit
  rw [h] at hok
  cases hok
  exact hgave

/-- The only error is that of a number beyond the last group. -/
theorem freeBlock_err {e : Error} (h : freeBlock p bid s = .err e t) : t = s ∧ e = .new .ENOENT ∧
    s.blocks.perGroup ≠ 0 ∧ s.blocks.groups.length ≤ bid / s.blocks.perGroup := by
  unfold freeBlock onBlocks at h
  obtain ⟨b, herr, rfl⟩ := zoom_err.mp h
  rcases bind_err.mp herr with hgroup | ⟨group, s₀, hgroup, hrest⟩
  · obtain ⟨rfl, rfl, hbeyond⟩ := groupOf_err hgroup
    exact ⟨rfl, rfl, hbeyond⟩
  · rw [get_bind] at hrest
    rcases bind_err.mp hrest with hinc | ⟨_, _, hinc, hrel⟩
    · exact absurd hinc incFree_ne_err
    · exact absurd hrel release_ne_err

theorem freeBlock_of_beyond (hzero : s.blocks.perGroup ≠ 0) (hle : s.blocks.groups.length ≤ bid / s.blocks.perGroup) :
    freeBlock p bid s = .err (.new .ENOENT) s := by
  simp only [freeBlock, onBlocks, zoom, bind_eq, groupOf, if_neg hzero, if_pos hle]

structure TookIno (s t : Alloc) (group ino : Nat) : Prop where
  pos : 0 < ino
  lt : ino < u32Card
  group_eq : group = (ino - 1) / s.inodes.perGroup
  clear : s.inodes.bit (ino - 1) = some false
  bit : ∀ n, t.inodes.bit n = if n = ino - 1 then some true else s.inodes.bit n
  count : t.inodes.freeCount + 1 = s.inodes.freeCount
  perGroup : t.inodes.perGroup = s.inodes.perGroup
  length : t.inodes.groups.length = s.inodes.groups.length
  blocks : t.blocks = s.blocks
  agrees : t.Agrees

structure GaveIno (s t : Alloc) (ino : Nat) : Prop where
  pos : 0 < ino
  set : s.inodes.bit (ino - 1) = some true
  bit : ∀ n, t.inodes.bit n = if n = ino - 1 then some false else s.inodes.bit n
  count : t.inodes.freeCount = s.inodes.freeCount + 1
  perGroup : t.inodes.perGroup = s.inodes.perGroup
  length : t.inodes.groups.length = s.inodes.groups.length
  blocks : t.blocks = s.blocks
  agrees : t.Agrees

/-- Counting a directory changes the counters of directories, or it overflows. -/
theorem dirs_cases {op : Nat → Option Nat} {group : Nat} {c : Comp Alloc Error Unit}
    (hc : ∀ s : Alloc, c s = match (s.dirsCounts[group]?).bind op with
      | none => .panic
      | some n => .ok () { s with dirsCounts := s.dirsCounts.set group n }) (isDir : Bool) (s : Alloc) :
    (isDir = true ∧ when isDir c s = .panic) ∨ ∃ dirs, when isDir c s = .ok () { s with dirsCounts := dirs } := by
  cases isDir with
  | false => exact .inr ⟨s.dirsCounts, rfl⟩
  | true =>
    simp only [when, if_true, hc]
    split
    · exact .inl ⟨trivial, rfl⟩
    · exact .inr ⟨_, rfl⟩

theorem not_full_of_bit {i : IdTable} (h : i.bit n = some false) : ¬ i.Full := by
  intro hfull
  obtain ⟨g, hg, hbit⟩ := Option.bind_eq_some_iff.mp h
  have := hfull g (mem_of_getElem? hg) _ (mem_of_getElem? hbit)
  cases this

/-- **Allocating an inode.** It fails when all groups are full; otherwise one bit changes, unless the counter of
directories overflows. -/
theorem allocIno_spec (isDir : Bool) (hs : s.Agrees) (hstart : start < s.inodes.groups.length) :
    (s.inodes.Full ∧ allocIno p start isDir s = .err noSpace s) ∨
    (isDir = true ∧ ¬ s.inodes.Full ∧ allocIno p start isDir s = .panic) ∨
    ∃ group ino t, allocIno p start isDir s = .ok (group, ino) t ∧ s.TookIno t group ino := by
  rcases alloc_spec (p := p) hs.inodes hstart with
    ⟨hfull, herr⟩ | ⟨group, id, s₁, s₂, hok, hdec, hsets, hagrees, hcount, hper⟩
  · refine .inl ⟨hfull, ?_⟩
    simp only [allocIno, onInodes, zoom, bind_eq, herr]
  · right
    have hplace := hs.inodes.place_lt hsets.place
    have hnumber := number_eq (p := p) hs.inodes hplace.1 hplace.2 hper
    have hlt := number_lt hplace.1 hplace.2
    have hfits := hs.inodes.fits
    have hself := hsets.bit_self hs.inodes
    have hadd : p.add u32Card (group * s.inodes.perGroup + id) 1 = some _ := Profile.add_of_lt (by omega)
    have htook : ∀ dirs, s.TookIno ⟨s.blocks, s₂, dirs⟩ group (group * s.inodes.perGroup + id + 1) := fun dirs =>
      { pos := Nat.succ_pos _
        lt := by omega
        group_eq := by rw [Nat.add_sub_cancel, div_number hplace.2]
        clear := by rw [Nat.add_sub_cancel]; exact hself
        bit := by rw [Nat.add_sub_cancel]; exact hsets.bit hs.inodes
        count := hcount
        perGroup := hsets.perGroup
        length := hsets.length
        blocks := rfl
        agrees := ⟨hs.blocks, hagrees⟩ }
    have hfull : ¬ s.inodes.Full := not_full_of_bit hself
    rcases dirs_cases (c := incDirs p group) (fun _ => rfl) isDir { s with inodes := s₁ } with ⟨hdir, hdirs⟩ | ⟨dirs, hdirs⟩
    · refine .inl ⟨hdir, hfull, ?_⟩
      simp only [allocIno, onInodes, zoom, bind_eq, hok, hdirs]
    · refine .inr ⟨group, _, ⟨s.blocks, s₂, dirs⟩, ?_, htook dirs⟩
      simp only [allocIno, onInodes, zoom, bind_eq, hok, hdirs, hnumber, hadd, hdec, expect_some, pure_apply]

theorem allocIno_invalid (hstart : s.inodes.groups.length ≤ start) :
    allocIno p start isDir s = .err (.withMessage .EINVAL "invalid block group idx") s := by
  have halloc : alloc p start s.inodes = .err (.withMessage .EINVAL "invalid block group idx") s.inodes :=
    if_pos hstart
  simp only [allocIno, onInodes, zoom, bind_eq, halloc]

theorem release_inode (hs : s.Agrees) (hbit : s.inodes.bit n = some true) : ∃ s₁ s₂, incFree p s.inodes = .ok () s₁ ∧
      release p (n / s.inodes.perGroup) (n % s.inodes.perGroup) s₁ = .ok () s₂ ∧ s₂.Agrees ∧
      (∀ k, s₂.bit k = if k = n then some false else s.inodes.bit k) ∧ s₂.freeCount = s.inodes.freeCount + 1 ∧
      s₂.perGroup = s.inodes.perGroup ∧ s₂.groups.length = s.inodes.groups.length := by
  obtain ⟨s₁, s₂, hinc, hrel, hsets, hagrees, hcount⟩ := release_spec (p := p) hs.inodes hbit
  refine ⟨s₁, s₂, hinc, hrel, hagrees, fun k => ?_, hcount, hsets.perGroup, hsets.length⟩
  have := hsets.bit hs.inodes k
  rwa [mul_comm, Nat.div_add_mod] at this

/-- The place of an inode number; in the release profile the predecessor of zero is no inode. -/
theorem pred_ino (h : p.sub u32Card ino 1 = some n) (hlt : n + 1 < u32Card) : 0 < ino ∧ n = ino - 1 := by
  rcases Nat.eq_zero_or_pos ino with rfl | hpos
  · have hwrap : n = u32Card - 1 := by
      cases p with
      | dev => cases h
      | release => exact (Option.some.inj h).symm
    omega
  · rw [Profile.sub_of_le hpos] at h
    exact ⟨hpos, (Option.some.inj h).symm⟩

/-- **Freeing an inode.** If it returns, it has cleared a set bit. -/
theorem freeInode_ok (hs : s.Agrees) (h : freeInode p ino isDir s = .ok () t) : s.GaveIno t ino := by
  obtain ⟨n, hsub, h⟩ := (bind_ok_of expect_ok).mp h
  obtain ⟨group, s₁, hm, h⟩ := bind_ok.mp h
  obtain ⟨i₁, hgroup, rfl⟩ := zoom_ok.mp hm
  obtain ⟨rfl, rfl, hlt⟩ := groupOf_ok hgroup
  rw [get_bind] at h
  obtain ⟨_, s₂, hm₂, h⟩ := bind_ok.mp h
  obtain ⟨i₂, hinc, rfl⟩ := zoom_ok.mp hm₂
  obtain ⟨_, s₃, hm₃, hdirs⟩ := bind_ok.mp h
  obtain ⟨i₃, hrel, rfl⟩ := zoom_ok.mp hm₃
  have hfits := hs.inodes.fits
  obtain ⟨hpos, rfl⟩ := pred_ino hsub (by omega)
  have hbit : s.inodes.bit (ino - 1) = some true := release_ok_bit hinc hrel
  obtain ⟨j₁, j₂, hinc', hrel', hagrees, hbits, hcount, hper, hlen⟩ := release_inode (p := p) hs hbit
  rw [hinc'] at hinc
  cases hinc
  rw [hrel'] at hrel
  cases hrel
  rcases dirs_cases (c := decDirs p ((ino - 1) / s.inodes.perGroup)) (fun _ => rfl) isDir { s with inodes := i₃ } with
    ⟨-, hpanic⟩ | ⟨dirs, hok⟩
  · cases hdirs.symm.trans hpanic
  · cases hdirs.symm.trans hok
    exact ⟨hpos, hbit, hbits, hcount, hper, hlen, rfl, ⟨hs.blocks, hagrees⟩⟩

theorem freeInode_err {e : Error} (h : freeInode p ino isDir s = .err e t) : t = s ∧ e = .new .ENOENT := by
  rcases bind_err.mp h with h | ⟨n, s₀, hn, h⟩
  · exact absurd h expect_not_err
  obtain ⟨-, rfl⟩ := expect_ok.mp hn
  rcases bind_err.mp h with hm | ⟨group, s₁, hm, h⟩
  · obtain ⟨i, hgroup, rfl⟩ := zoom_err.mp hm
    obtain ⟨rfl, rfl, -, -⟩ := groupOf_err hgroup
    exact ⟨rfl, rfl⟩
  rw [get_bind] at h
  rcases bind_err.mp h with hm | ⟨_, s₂, -, h⟩
  · obtain ⟨i, hinc, -⟩ := zoom_err.mp hm
    exact absurd hinc incFree_ne_err
  rcases bind_err.mp h with hm | ⟨_, s₃, -, h⟩
  · obtain ⟨i, hrel, -⟩ := zoom_err.mp hm
    exact absurd hrel release_ne_err
  · rcases dirs_cases (c := decDirs p group) (fun _ => rfl) isDir s₃ with ⟨-, hpanic⟩ | ⟨dirs, hok⟩
    · cases h.symm.trans hpanic
    · cases h.symm.trans hok

/-! ## Runs -/

inductive Call where
  | allocBlock (start : Nat)
  | freeBlock (bid : Nat)
  | allocIno (start : Nat) (isDir : Bool)
  | freeInode (ino : Nat) (isDir : Bool)
deriving DecidableEq, Repr

/-- Where a call ends, with a value or an error. -/
def Call.final (p : Profile) (c : Call) (s : Alloc) : Option Alloc :=
  match c with
  | .allocBlock start => (Alloc.allocBlock p start s).final
  | .freeBlock bid => (Alloc.freeBlock p bid s).final
  | .allocIno start isDir => (Alloc.allocIno p start isDir s).final
  | .freeInode ino isDir => (Alloc.freeInode p ino isDir s).final

/-- What `Ext2::open` has read, with counters that agree with the bitmaps: a bitmap has at most as many bits as fit
into a block, and the total numbers of the superblock are `u32`s. -/
structure Mounted (blocksCount inodesCount : Nat) (s : Alloc) : Prop where
  blocksCount_lt : blocksCount < u32Card
  inodesCount_lt : inodesCount < u32Card
  blockGroups : s.blocks.groups.length = blocksCount / s.blocks.perGroup
  inodeGroups : s.inodes.groups.length * s.inodes.perGroup = inodesCount
  blockBitmaps : ∀ g ∈ s.blocks.groups, g.bitmap.bitset.length = s.blocks.perGroup
  inodeBitmaps : ∀ g ∈ s.inodes.groups, g.bitmap.bitset.length = s.inodes.perGroup
  blockCapacity : s.blocks.perGroup ≤ 8 * 4096
  inodeCapacity : s.inodes.perGroup ≤ 8 * 4096
  blockCounts : ∀ g ∈ s.blocks.groups, g.freeCount = g.bitmap.zeros
  inodeCounts : ∀ g ∈ s.inodes.groups, g.freeCount = g.bitmap.zeros
  blockSum : s.blocks.freeCount = total Group.freeCount s.blocks.groups
  inodeSum : s.inodes.freeCount = total Group.freeCount s.inodes.groups

theorem Mounted.agrees {blocksCount inodesCount : Nat} (h : Mounted blocksCount inodesCount s) : s.Agrees where
  blocks :=
    { count := h.blockCounts
      length := h.blockBitmaps
      sum := h.blockSum
      small := h.blockCapacity
      fits := by
        have := Nat.div_mul_le_self blocksCount s.blocks.perGroup
        rw [h.blockGroups]
        exact lt_of_le_of_lt this h.blocksCount_lt }
  inodes :=
    { count := h.inodeCounts
      length := h.inodeBitmaps
      sum := h.inodeSum
      small := h.inodeCapacity
      fits := by rw [h.inodeGroups]; exact h.inodesCount_lt }

section

variable (hs : s.Agrees)
include hs

/-- A call keeps the agreement, however it ends. -/
theorem Agrees.call {c : Call} (h : c.final p s = some t) : t.Agrees := by
  cases c with
  | allocBlock start =>
    by_cases hstart : start < s.blocks.groups.length
    · rcases allocBlock_spec (p := p) hs hstart with ⟨-, herr⟩ | ⟨bid, t', hok, htook⟩
      · rw [Call.final, herr] at h
        cases h
        exact hs
      · rw [Call.final, hok] at h
        cases h
        exact htook.agrees
    · rw [Call.final, allocBlock_invalid (by omega)] at h
      cases h
      exact hs
  | freeBlock bid =>
    rcases final_cases h with ⟨_, hok⟩ | ⟨e, herr⟩
    · exact (freeBlock_ok hs hok).agrees
    · obtain ⟨rfl, -⟩ := freeBlock_err herr
      exact hs
  | allocIno start isDir =>
    by_cases hstart : start < s.inodes.groups.length
    · rcases allocIno_spec (p := p) isDir hs hstart with
        ⟨-, herr⟩ | ⟨-, -, hpanic⟩ | ⟨group, ino, t', hok, htook⟩
      · rw [Call.final, herr] at h
        cases h
        exact hs
      · rw [Call.final, hpanic] at h
        cases h
      · rw [Call.final, hok] at h
        cases h
        exact htook.agrees
    · rw [Call.final, allocIno_invalid (by omega)] at h
      cases h
      exact hs
  | freeInode ino isDir =>
    rcases final_cases h with ⟨_, hok⟩ | ⟨e, herr⟩
    · exact (freeInode_ok hs hok).agrees
    · obtain ⟨rfl, -⟩ := freeInode_err herr
      exact hs

theorem allocBlock_clear (h : allocBlock p start s = .ok bid t) :
    groupOf bid s.blocks = .ok (bid / s.blocks.perGroup) s.blocks ∧
    (s.blocks.groups[bid / s.blocks.perGroup]?).bind (·.bitmap.isAllocated (bid % u32Card % s.blocks.perGroup)) =
      some false := by
  by_cases hstart : start < s.blocks.groups.length
  · rcases allocBlock_spec (p := p) hs hstart with ⟨-, herr⟩ | ⟨bid', t', hok, htook⟩
    · cases h.symm.trans herr
    · cases h.symm.trans hok
      have hlt := bit_lt hs.blocks htook.clear
      have hfits := hs.blocks.fits
      refine ⟨groupOf_of_bit hs.blocks htook.clear, ?_⟩
      rw [Nat.mod_eq_of_lt (a := bid) (by omega)]
      exact htook.clear
  · cases h.symm.trans (allocBlock_invalid (by omega))

theorem allocBlock_noSpace_iff : (∃ e t, allocBlock p start s = .err e t ∧ e.errno = .ENOSPC) ↔
      s.blocks.Full ∧ start < s.blocks.groups.length := by
  by_cases hstart : start < s.blocks.groups.length
  · rcases allocBlock_spec (p := p) hs hstart with ⟨hfull, herr⟩ | ⟨bid, t, hok, htook⟩
    · exact ⟨fun _ => ⟨hfull, hstart⟩, fun _ => ⟨_, _, herr, rfl⟩⟩
    · rw [hok]
      exact ⟨nofun, fun h => absurd h.1 (not_full_of_bit htook.clear)⟩
  · rw [allocBlock_invalid (by omega)]
    exact ⟨nofun, fun h => absurd h.2 hstart⟩

theorem allocIno_clear {group : Nat} (h : allocIno p start isDir s = .ok (group, ino) t) :
    ∃ n, p.sub u32Card ino 1 = some n ∧ groupOf n s.inodes = .ok group s.inodes ∧
      (s.inodes.groups[group]?).bind (·.bitmap.isAllocated (n % s.inodes.perGroup)) = some false := by
  by_cases hstart : start < s.inodes.groups.length
  · rcases allocIno_spec (p := p) isDir hs hstart with ⟨-, herr⟩ | ⟨-, -, hpanic⟩ | ⟨group', ino', t', hok, htook⟩
    · cases h.symm.trans herr
    · cases h.symm.trans hpanic
    · cases h.symm.trans hok
      refine ⟨ino - 1, Profile.sub_of_le htook.pos, ?_, ?_⟩
      · rw [htook.group_eq]
        exact groupOf_of_bit hs.inodes htook.clear
      · rw [htook.group_eq]
        exact htook.clear
  · cases h.symm.trans (allocIno_invalid (by omega))

theorem allocIno_noSpace_iff : (∃ e t, allocIno p start isDir s = .err e t ∧ e.errno = .ENOSPC) ↔
      s.inodes.Full ∧ start < s.inodes.groups.length := by
  by_cases hstart : start < s.inodes.groups.length
  · rcases allocIno_spec (p := p) isDir hs hstart with
      ⟨hfull, herr⟩ | ⟨-, hfull, hpanic⟩ | ⟨group, ino, t, hok, htook⟩
    · exact ⟨fun _ => ⟨hfull, hstart⟩, fun _ => ⟨_, _, herr, rfl⟩⟩
    · rw [hpanic]
      exact ⟨nofun, fun h => absurd h.1 hfull⟩
    · rw [hok]
      exact ⟨nofun, fun h => absurd h.1 (not_full_of_bit htook.clear)⟩
  · rw [allocIno_invalid (by omega)]
    exact ⟨nofun, fun h => absurd h.2 hstart⟩

end

/-- **Counters and bitmaps agree in every state that any calls reach.** What is allocated was clear in the group
that the number maps back to, and an allocation reports that there is no space exactly when all bitmaps are full. -/
theorem reach_counters_agree {blocksCount inodesCount : Nat}
    (h : Reach (Mounted blocksCount inodesCount) (fun s t => ∃ c : Call, c.final p s = some t) s) :
    (s.blocks.freeCount = total Group.freeCount s.blocks.groups ∧
      s.inodes.freeCount = total Group.freeCount s.inodes.groups) ∧
    ((∀ g ∈ s.blocks.groups, g.freeCount = g.bitmap.zeros) ∧ ∀ g ∈ s.inodes.groups, g.freeCount = g.bitmap.zeros) ∧
    (∀ start bid t, allocBlock p start s = .ok bid t →
      IdTable.groupOf bid s.blocks = .ok (bid / s.blocks.perGroup) s.blocks ∧
      (s.blocks.groups[bid / s.blocks.perGroup]?).bind (·.bitmap.isAllocated (bid % u32Card % s.blocks.perGroup)) =
        some false) ∧
    (∀ start isDir group ino t, allocIno p start isDir s = .ok (group, ino) t →
      ∃ n, p.sub u32Card ino 1 = some n ∧ IdTable.groupOf n s.inodes = .ok group s.inodes ∧
        (s.inodes.groups[group]?).bind (·.bitmap.isAllocated (n % s.inodes.perGroup)) = some false) ∧
    (∀ start, (∃ e t, allocBlock p start s = .err e t ∧ e.errno = .ENOSPC) ↔
      s.blocks.Full ∧ start < s.blocks.groups.length) ∧
    ∀ start isDir, (∃ e t, allocIno p start isDir s = .err e t ∧ e.errno = .ENOSPC) ↔
      s.inodes.Full ∧ start < s.inodes.groups.length := by
  have hs : s.Agrees :=
    h.invariant (fun _ hmounted => hmounted.agrees) fun _ _ hs ⟨_, hcall⟩ => hs.call hcall
  exact ⟨⟨hs.blocks.sum, hs.inodes.sum⟩, ⟨hs.blocks.count, hs.inodes.count⟩, fun _ _ _ => allocBlock_clear hs,
    fun _ _ _ _ _ => allocIno_clear hs, fun _ => allocBlock_noSpace_iff hs, fun _ _ => allocIno_noSpace_iff hs⟩

/-- Two groups of two blocks and one inode each; one block of the second group is free. -/
def nearlyFull : Alloc where
  blocks := ⟨1, [⟨0, .ofBits [true, true]⟩, ⟨1, .ofBits [true, false]⟩], 2⟩
  inodes := ⟨1, [⟨0, .ofBits [true]⟩, ⟨1, .ofBits [false]⟩], 1⟩
  dirsCounts := [1, 0]

theorem nearlyFull_mounted : Mounted 4 2 nearlyFull := by
  refine ⟨by decide, by decide, ?_, ?_, ?_, ?_, ?_, ?_, ?_, ?_, ?_, ?_⟩
  all_goals decide

/-- Its last block is block 3; after that there is no space. -/
theorem reach_counters_agree_nearlyFull : ∃ full, allocBlock .dev 0 nearlyFull = .ok 3 full ∧
      (full.blocks.freeCount = 0 ∧ full.blocks.freeCount = total Group.freeCount full.blocks.groups) ∧
      ∃ e t, allocBlock .dev 1 full = .err e t ∧ e.errno = .ENOSPC := by
  refine ⟨_, rfl, ?_⟩
  have hreach := reach_counters_agree (p := .dev) (.step (.init nearlyFull_mounted) ⟨.allocBlock 0, rfl⟩)
  exact ⟨⟨rfl, hreach.1.1⟩, (hreach.2.2.2.2.1 1).mpr ⟨by unfold IdTable.Full; decide, by decide⟩⟩

end Alloc

end AsterKernel.Ext2
