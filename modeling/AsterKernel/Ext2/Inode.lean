import AsterKernel.Ext2.Records

/-!
# `Ext2.Inode` — inodes, their blocks and their directory entries

An inode has its descriptor (size, links, number of blocks and block pointers) and its page cache. `resize` of the
descriptor allocates or frees blocks one by one and only then writes the new number of blocks and the new size; the
operations on directory entries change the page cache first and let the descriptor follow.
-/

namespace AsterKernel.Ext2

open Lib Lib.Comp List

/-- The number of block pointers, and how many of them are direct. -/
def BLOCK_PTR_CNT : Nat := 15
def DIRECT_END : Nat := 12

def FAST_SYMLINK_MAX_LEN : Nat := 60

/-! ## The descriptor -/

/-- `InodeImpl_` with its `InodeDesc`; the pointers are read below `BLOCK_PTR_CNT` only. -/
structure InodeImpl where
  type : FileType
  size : Nat
  hardLinks : Nat
  blocksCount : Nat
  data : Nat → Nat
  dirty : Bool
  /-- The blocks that have not been written yet. -/
  holes : List Bool
  isFreed : Bool

namespace InodeImpl

/-- `InodeDesc::new` and `InodeImpl_::new`. -/
def new (type : FileType) : InodeImpl where
  type := type
  size := 0
  hardLinks := 1
  blocksCount := 0
  data := fun _ => 0
  dirty := true
  holes := []
  isFreed := false

/-- `blocks_count()`: a directory's is read off its size, and must not exceed the stored one. -/
def blocks (i : InodeImpl) : Option Nat :=
  if i.type = .dir then
    if i.size / BLOCK_SIZE % u32Card ≤ i.blocksCount then some (i.size / BLOCK_SIZE % u32Card) else none
  else some i.blocksCount

/-- `BlocksHoleDesc::resize`: new blocks are holes. -/
def resizeHoles (holes : List Bool) (n : Nat) : List Bool := (holes ++ List.replicate n true).take n

def incHardLinks (p : Profile) (i : InodeImpl) : Option InodeImpl :=
  (p.add u16Card i.hardLinks 1).map fun n => { i with hardLinks := n, dirty := true }

def decHardLinks (p : Profile) (i : InodeImpl) : Option InodeImpl :=
  (p.sub u16Card i.hardLinks 1).map fun n => { i with hardLinks := n, dirty := true }

variable (p : Profile)

/-- The debug assertion that a block is direct, and the bound of the array. -/
def inBounds (fileBid : Nat) : Bool := fileBid < BLOCK_PTR_CNT && (p == .release || fileBid < DIRECT_END)

/-- The debug assertion comes before the allocation, the bound of the array after it. -/
def growStep (group fileBid : Nat) : Comp (Alloc × InodeImpl) Error Unit := fun s =>
  if p == .dev && !decide (fileBid < DIRECT_END) then .panic
  else
    match Alloc.allocBlock p group s.1 with
    | .ok bid a =>
      if fileBid < BLOCK_PTR_CNT then
        .ok () (a, { s.2 with data := fun i => if i = fileBid then bid % u32Card else s.2.data i, dirty := true })
      else .panic
    | .err e a => .err e (a, s.2)
    | .panic => .panic

def shrinkStep (fileBid : Nat) : Comp (Alloc × InodeImpl) Error Unit := fun s =>
  if inBounds p fileBid then
    match Alloc.freeBlock p (s.2.data fileBid) s.1 with
    | .ok _ a => .ok () (a, s.2)
    | .err e a => .err e (a, s.2)
    | .panic => .panic
  else .panic

def setBlocksCount (n : Nat) : Comp (Alloc × InodeImpl) Error Unit :=
  modify fun s => (s.1, { s.2 with blocksCount := n, dirty := true })

/-- The change of the number of blocks. -/
def resizeBlocks (group old new : Nat) : Comp (Alloc × InodeImpl) Error Unit :=
  if old < new then forEach (List.range' old (new - old)) (growStep p group) >>= fun _ => setBlocksCount new
  else if new < old then forEach (List.range' new (old - new)) (shrinkStep p) >>= fun _ => setBlocksCount new
  else pure ()

/-- The number of blocks for a size. -/
def newBlocks (type : FileType) (newSize : Nat) : Nat :=
  if type = .symlink ∧ newSize ≤ FAST_SYMLINK_MAX_LEN then 0 else (newSize + BLOCK_SIZE - 1) / BLOCK_SIZE % u32Card

def resize (group newSize : Nat) : Comp (Alloc × InodeImpl) Error Unit := fun s =>
  match s.2.blocks with
  | none => .panic
  | some old =>
    (resizeBlocks p group old (newBlocks s.2.type newSize) >>= fun _ =>
      modify fun t => (t.1, { t.2 with
        size := newSize, dirty := true, holes := resizeHoles t.2.holes (newBlocks s.2.type newSize) })) s

/-! ## Allocating a range of blocks -/

/-- What it means that the slots from `old` on have got new blocks. -/
structure Grown (a a' : Alloc) (d d' : Nat → Nat) (old k : Nat) : Prop where
  clear : ∀ n ∈ (List.range' old k).map d', a.blocks.bit n = some false
  nodup : ((List.range' old k).map d').Nodup
  bit : ∀ n, a'.blocks.bit n = if n ∈ (List.range' old k).map d' then some true else a.blocks.bit n
  keep : ∀ i, i < old ∨ old + k ≤ i → d' i = d i
  count : a'.blocks.freeCount + k = a.blocks.freeCount
  perGroup : a'.blocks.perGroup = a.blocks.perGroup
  length : a'.blocks.groups.length = a.blocks.groups.length
  inodes : a'.inodes = a.inodes
  dirs : a'.dirsCounts = a.dirsCounts
  agrees : a'.Agrees

variable {p : Profile} {a a' : Alloc} {d d' : Nat → Nat} {old k group : Nat} {i : InodeImpl} {a₁ : Alloc}

theorem Grown.zero (ha : a.Agrees) : Grown a a d d old 0 :=
  ⟨nofun, nodup_nil, fun _ => rfl, fun _ _ => rfl, rfl, rfl, rfl, rfl, rfl, ha⟩

/-- One more block in front. -/
theorem Grown.cons {bid : Nat} (htook : a.Took a₁ bid)
    (h : Grown a₁ a' (fun i => if i = old then bid else d i) d' (old + 1) k) : Grown a a' d d' old (k + 1) := by
  have hbid : d' old = bid := by rw [h.keep old (.inl (by omega)), if_pos rfl]
  have hrange : (range' old (k + 1)).map d' = bid :: (range' (old + 1) k).map d' := by
    rw [range'_succ, map_cons, hbid]
  have hne : ∀ n ∈ (range' (old + 1) k).map d', n ≠ bid := by
    rintro n hn rfl
    have := h.clear n hn
    rw [htook.bit, if_pos rfl] at this
    cases this
  refine ⟨fun n hn => ?_, ?_, fun n => ?_, fun i hi => ?_, ?_, h.perGroup.trans htook.perGroup,
    h.length.trans htook.length, h.inodes.trans htook.inodes, h.dirs.trans htook.dirs, h.agrees⟩
  · rw [hrange] at hn
    rcases mem_cons.mp hn with rfl | hn
    · exact htook.clear
    · have := h.clear n hn
      rwa [htook.bit, if_neg (hne n hn)] at this
  · rw [hrange]
    exact nodup_cons.mpr ⟨fun hmem => hne bid hmem rfl, h.nodup⟩
  · rw [h.bit, htook.bit, hrange]
    by_cases hn : n = bid
    · subst hn
      simp
    · simp only [mem_cons, hn, false_or, if_false]
  · rw [h.keep i (by omega), if_neg (by omega)]
  · have := h.count
    have := htook.count
    omega

/-- How many slots the loop that allocates looks at on a device with `free` blocks, if it does not end before. -/
def tested (p : Profile) (free : Nat) : Nat := if p = .release then free else free + 1

theorem growStep_inBounds {b : Nat} (h : inBounds p b = true) (s : Alloc × InodeImpl) :
    growStep p group b s = match Alloc.allocBlock p group s.1 with
      | .ok bid a => .ok () (a, { s.2 with data := fun i => if i = b then bid % u32Card else s.2.data i, dirty := true })
      | .err e a => .err e (a, s.2)
      | .panic => .panic := by
  simp only [inBounds, Bool.and_eq_true, Bool.or_eq_true, decide_eq_true_eq, beq_iff_eq] at h
  have hassert : (p == .dev && !decide (b < DIRECT_END)) = false := by
    rcases h.2 with rfl | hlt
    · rfl
    · simp [hlt]
  simp only [growStep, hassert, if_pos h.1]
  rfl

/-- **The loop that allocates** returns, or it fails on a full device, or it panics at a block that has no slot. -/
theorem growBlocks_spec (ha : a.Agrees) (hgroup : group < a.blocks.groups.length) :
    (∃ t, forEach (range' old k) (growStep p group) (a, i) = .ok () t ∧ Grown a t.1 i.data t.2.data old k ∧
      t.2 = { i with data := t.2.data, dirty := t.2.dirty } ∧ ∀ b, old ≤ b → b < old + k → inBounds p b = true) ∨
    (∃ e t, forEach (range' old k) (growStep p group) (a, i) = .err e t ∧
      t.2 = { i with data := t.2.data, dirty := t.2.dirty } ∧ (∀ b < old, t.2.data b = i.data b) ∧
      a.blocks.freeCount < k ∧ ∀ b, old ≤ b → b < old + tested p a.blocks.freeCount → inBounds p b = true) ∨
    forEach (range' old k) (growStep p group) (a, i) = .panic ∧
      ∃ b, old ≤ b ∧ b < old + k ∧ b < old + tested p a.blocks.freeCount ∧ inBounds p b = false := by
  induction k generalizing a i old with
  | zero => exact .inl ⟨(a, i), rfl, .zero ha, rfl, fun b _ _ => by omega⟩
  | succ k ih =>
    rw [range'_succ, forEach_cons]
    cases hin : inBounds p old with
    | false =>
      unfold inBounds at hin
      cases p with
      | dev =>
        have hassert : (Profile.dev == .dev && !decide (old < DIRECT_END)) = true := by
          unfold BLOCK_PTR_CNT DIRECT_END at *
          simp at hin ⊢
          omega
        refine .inr (.inr ⟨?_, old, le_rfl, by omega, by simp [tested], hin⟩)
        simp only [growStep, hassert, if_true]
      | release =>
        have hout : ¬ old < BLOCK_PTR_CNT := by simpa using hin
        rcases Alloc.allocBlock_spec (p := .release) ha hgroup with ⟨hfull, herr⟩ | ⟨bid, a₁, hok, htook⟩
        · have hnone := ha.blocks.full_iff.mp hfull
          refine .inr (.inl ⟨noSpace, (a, i), ?_, rfl, fun _ _ => rfl, by omega, fun b hb hlt => ?_⟩)
          · simp only [growStep, herr]
            rfl
          · rw [tested, if_pos rfl] at hlt
            omega
        · have hcount := htook.count
          refine .inr (.inr ⟨?_, old, le_rfl, by omega, by rw [tested, if_pos rfl]; omega, hin⟩)
          simp only [growStep, hok, if_neg hout]
          rfl
    | true =>
      rw [growStep_inBounds hin]
      have htested : tested p a.blocks.freeCount ≤ a.blocks.freeCount + 1 := by
        unfold tested
        split <;> omega
      rcases Alloc.allocBlock_spec (p := p) ha hgroup with ⟨hfull, herr⟩ | ⟨bid, a₁, hok, htook⟩
      · have hnone := ha.blocks.full_iff.mp hfull
        refine .inr (.inl ⟨noSpace, (a, i), ?_, rfl, fun _ _ => rfl, by omega, fun b hb hle => ?_⟩)
        · simp only [herr]
        · rwa [show b = old by omega]
      · have hlt := IdTable.bit_lt ha.blocks htook.clear
        have hfits := ha.blocks.fits
        have hcount := htook.count
        have hstep : tested p a.blocks.freeCount = tested p a₁.blocks.freeCount + 1 := by
          unfold tested
          split <;> omega
        simp only [hok, Nat.mod_eq_of_lt (show bid < u32Card by omega)]
        have hnext : ∀ {b}, (old + 1 ≤ b → inBounds p b = true) → old ≤ b → inBounds p b = true := by
          intro b hrest hb
          rcases Nat.eq_or_lt_of_le hb with rfl | hb
          · exact hin
          · exact hrest hb
        rcases @ih a₁ (old + 1) { i with data := fun j => if j = old then bid else i.data j, dirty := true } htook.agrees
          (by rw [htook.length]; exact hgroup) with
          ⟨t, ht, hgrown, heq, hbounds⟩ | ⟨e, t, ht, heq, hkeep, hfree, hbounds⟩ | ⟨hpanic, b, hb, hlt, hle, hout⟩
        · exact .inl ⟨t, ht, .cons htook hgrown, heq, fun b hb hlt => hnext (fun h => hbounds b h (by omega)) hb⟩
        · refine .inr (.inl ⟨e, t, ht, heq, fun b hb => ?_, by omega, fun b hb hle => ?_⟩)
          · rw [hkeep b (by omega)]
            exact if_neg (by omega)
          · exact hnext (fun h => hbounds b h (by omega)) hb
        · exact .inr (.inr ⟨hpanic, b, by omega, by omega, by omega, hout⟩)

/-! ## Resizing -/

/-- The descriptor after a resize, but for the pointers. -/
def resized (i : InodeImpl) (old newSize : Nat) (data : Nat → Nat) : InodeImpl :=
  { i with
    size := newSize
    blocksCount := if old = newBlocks i.type newSize then i.blocksCount else newBlocks i.type newSize
    data := data
    dirty := true
    holes := resizeHoles i.holes (newBlocks i.type newSize) }

/-- **A resize that does not shrink**, by how its loop ends. -/
theorem resize_grow (newSize : Nat) (ha : a.Agrees) (hgroup : group < a.blocks.groups.length)
    (hold : i.blocks = some old) (hle : old ≤ newBlocks i.type newSize) :
    (∃ a' d', resize p group newSize (a, i) = .ok () (a', i.resized old newSize d') ∧
      Grown a a' i.data d' old (newBlocks i.type newSize - old) ∧
      ∀ b, old ≤ b → b < newBlocks i.type newSize → inBounds p b = true) ∨
    (∃ e t, resize p group newSize (a, i) = .err e t ∧ t.2 = { i with data := t.2.data, dirty := t.2.dirty } ∧
      (∀ b < old, t.2.data b = i.data b) ∧ old + a.blocks.freeCount < newBlocks i.type newSize ∧
      ∀ b, old ≤ b → b < old + tested p a.blocks.freeCount → inBounds p b = true) ∨
    resize p group newSize (a, i) = .panic ∧
      ∃ b, old ≤ b ∧ b < newBlocks i.type newSize ∧ b < old + tested p a.blocks.freeCount ∧ inBounds p b = false := by
  unfold resize resized
  simp only [hold]
  generalize newBlocks i.type newSize = new at *
  unfold resizeBlocks
  rcases Nat.eq_or_lt_of_le hle with rfl | hlt
  · refine .inl ⟨a, i.data, ?_, ?_, fun b _ _ => by omega⟩
    · simp only [lt_irrefl, if_false, if_true]
      rfl
    · rw [Nat.sub_self]
      exact .zero ha
  · rw [if_pos hlt]
    simp only [bind_eq]
    rcases growBlocks_spec (p := p) (i := i) (k := new - old) ha hgroup with
      ⟨t, ht, hgrown, heq, hbounds⟩ | ⟨e, t, ht, heq, hkeep, hfree, hbounds⟩ | ⟨hpanic, b, hb, hlt, hle, hout⟩
    · rw [ht]
      refine .inl ⟨t.1, t.2.data, ?_, hgrown, fun b hb hlt => hbounds b hb (by omega)⟩
      generalize t.2.data = d, t.2.dirty = dirty at *
      rw [if_neg (by omega), setBlocksCount]
      simp only [Comp.modify, heq]
    · rw [ht]
      exact .inr (.inl ⟨e, t, rfl, heq, hkeep, by omega, hbounds⟩)
    · rw [hpanic]
      exact .inr (.inr ⟨rfl, b, hb, by omega, hle, hout⟩)

variable {s t : Alloc × InodeImpl}

theorem growStep_size {b : Nat} (h : (growStep p group b s).final = some t) : t.2.size = s.2.size := by
  unfold growStep at h
  split at h
  case isTrue => cases h
  case isFalse =>
    split at h
    · split at h
      · cases h; rfl
      · cases h
    · cases h; rfl
    · cases h

theorem shrinkStep_size {b : Nat} (h : (shrinkStep p b s).final = some t) : t.2.size = s.2.size := by
  unfold shrinkStep at h
  split at h
  case isTrue =>
    split at h
    · cases h; rfl
    · cases h; rfl
    · cases h
  case isFalse => cases h

theorem growStep_ok {b : Nat} (h : growStep p group b s = .ok () t) :
    b < BLOCK_PTR_CNT ∧ ∃ d, t.2 = { s.2 with data := d, dirty := true } := by
  unfold growStep at h
  split at h
  · cases h
  · split at h
    · split at h
      case isTrue hlt =>
        cases h
        exact ⟨hlt, _, rfl⟩
      · cases h
    · cases h
    · cases h

/-- A resize by one block, whatever the allocator. -/
theorem resize_one {newSize : Nat} (hold : s.2.blocks = some old) (hnew : newBlocks s.2.type newSize = old + 1)
    (h : resize p group newSize s = .ok () t) : old < BLOCK_PTR_CNT ∧ ∃ d holes,
      t.2 = { s.2 with data := d, dirty := true, blocksCount := old + 1, size := newSize, holes := holes } := by
  unfold resize resizeBlocks at h
  simp only [hold, hnew, if_pos (Nat.lt_succ_self old), Nat.add_sub_cancel_left, range'_one] at h
  obtain ⟨_, x, hblocks, hmod⟩ := bind_ok.mp h
  obtain ⟨_, y, hloop, hset⟩ := bind_ok.mp hblocks
  obtain ⟨⟨a', i'⟩, hstep, hnil⟩ := forEach_cons_ok.mp hloop
  obtain ⟨hlt, d, hd⟩ := growStep_ok hstep
  cases hnil
  cases hset
  cases hmod
  cases hd
  exact ⟨hlt, d, _, rfl⟩

theorem resize_size {newSize : Nat} (h : (resize p group newSize s).final = some t) :
    t.2.size = s.2.size ∨ t.2.size = newSize := by
  have hset : ∀ n, Triple (fun x : Alloc × InodeImpl => x.2.size = s.2.size) (setBlocksCount n)
      (fun _ x => x.2.size = s.2.size) (fun x => x.2.size = s.2.size) := fun n => ⟨fun x hx => hx⟩
  have hblocks : ∀ old new, Triple (fun x : Alloc × InodeImpl => x.2.size = s.2.size) (resizeBlocks p group old new)
      (fun _ x => x.2.size = s.2.size) (fun x => x.2.size = s.2.size) := fun old new => by
    unfold resizeBlocks
    split
    · exact (Triple.forEach fun b _ => .of_final fun x y hx hy => (growStep_size hy).trans hx).bind fun _ => hset new
    · split
      · exact (Triple.forEach fun b _ => .of_final fun x y hx hy => (shrinkStep_size hy).trans hx).bind
          fun _ => hset new
      · exact Triple.pure fun x hx => hx
  unfold resize at h
  cases hold : s.2.blocks with
  | none => rw [hold] at h; cases h
  | some old =>
    rw [hold] at h
    rcases bind_final.mp h with ⟨e, herr⟩ | ⟨_, x, -, hmod⟩
    · exact .inl ((hblocks _ _).of_err rfl herr)
    · cases hmod
      exact .inr rfl

end InodeImpl

/-! ## Inodes -/

/-- `Inode` with its `Inner`: the descriptor and the page cache. -/
structure Inode where
  ino : Nat
  blockGroupIdx : Nat
  impl : InodeImpl
  cache : PageCache

/-- `Inode::new` for a new descriptor: the page cache is empty. -/
def Inode.new (ino blockGroupIdx : Nat) (type : FileType) : Inode :=
  ⟨ino, blockGroupIdx, .new type, ⟨0, fun _ => 0⟩⟩

namespace Inner

variable (p : Profile)

def onCache {α : Type} (m : Comp PageCache Error α) : Comp (Alloc × Inode) Error α :=
  zoom (fun s => s.2.cache) (fun pc s => (s.1, { s.2 with cache := pc })) m

/-- `inode_impl.resize`. -/
def resizeImpl (newSize : Nat) : Comp (Alloc × Inode) Error Unit := fun s =>
  zoom (fun s : Alloc × Inode => (s.1, s.2.impl)) (fun x s => (x.1, { s.2 with impl := x.2 }))
    (InodeImpl.resize p s.2.blockGroupIdx newSize) s

def incHardLinks : Comp (Alloc × Inode) Error Unit := fun s =>
  match s.2.impl.incHardLinks p with
  | none => .panic
  | some i => .ok () (s.1, { s.2 with impl := i })

def decHardLinks : Comp (Alloc × Inode) Error Unit := fun s =>
  match s.2.impl.decHardLinks p with
  | none => .panic
  | some i => .ok () (s.1, { s.2 with impl := i })

def appendEntry (entry : DirEntry) (off : Nat) : Comp (Alloc × Inode) Error Unit := do
  let type ← expect entry.type
  onCache (DirEntryWriter.appendEntry p off entry)
  let s ← Comp.get
  when (s.2.impl.size < s.2.cache.size) (resizeImpl p s.2.cache.size)
  when (type == .dir && entry.name != dotdot) (incHardLinks p)

/-- `remove_entry`; the writer's offset is not used. -/
def removeEntry (name : Name) : Comp (Alloc × Inode) Error Unit := do
  let entry ← onCache (DirEntryWriter.removeEntry p name)
  let type ← expect entry.type
  let s ← Comp.get
  when (s.2.cache.size < s.2.impl.size) (resizeImpl p s.2.cache.size)
  when (type == .dir) (decHardLinks p)

def renameEntry (oldName newName : Name) (off : Nat) : Comp (Alloc × Inode) Error Unit := do
  onCache (DirEntryWriter.renameEntry p off oldName newName)
  let s ← Comp.get
  when (s.2.cache.size != s.2.impl.size) (resizeImpl p s.2.cache.size)

def initDir (selfIno parentIno : Nat) : Comp (Alloc × Inode) Error Unit := do
  let self ← expect (DirEntry.new p selfIno dot .dir)
  appendEntry p self 0
  let parent ← expect (DirEntry.new p parentIno dotdot .dir)
  appendEntry p parent 0

variable {p : Profile} {a : Alloc} {i : Inode} {t : Alloc × Inode} {recs : List DirEntry} {entry : DirEntry}
  {name oldName newName : Name} {off : Nat}

/-! ### The parts of the operations -/

theorem resizeImpl_ok {n : Nat} : resizeImpl p n (a, i) = .ok () t ↔
    ∃ x, InodeImpl.resize p i.blockGroupIdx n (a, i.impl) = .ok () x ∧ t = (x.1, { i with impl := x.2 }) := zoom_ok

variable {e : Error}

theorem resizeImpl_err {n : Nat} : resizeImpl p n (a, i) = .err e t ↔
    ∃ x, InodeImpl.resize p i.blockGroupIdx n (a, i.impl) = .err e x ∧ t = (x.1, { i with impl := x.2 }) := zoom_err

/-- What `inc_hard_links` and `dec_hard_links` have in common. -/
def countLinks (count : Nat → Option Nat) : Comp (Alloc × Inode) Error Unit := fun s =>
  match count s.2.impl.hardLinks with
  | none => .panic
  | some n => .ok () (s.1, { s.2 with impl := { s.2.impl with hardLinks := n, dirty := true } })

theorem incHardLinks_eq : incHardLinks p = countLinks (p.add u16Card · 1) := by
  funext s
  unfold incHardLinks InodeImpl.incHardLinks countLinks
  dsimp only
  cases p.add u16Card s.2.impl.hardLinks 1 <;> rfl

theorem decHardLinks_eq : decHardLinks p = countLinks (p.sub u16Card · 1) := by
  funext s
  unfold decHardLinks InodeImpl.decHardLinks countLinks
  dsimp only
  cases p.sub u16Card s.2.impl.hardLinks 1 <;> rfl

/-! ### The operations on the records -/

/-- Appending changes the page cache first; the rest is the descriptor's. -/
theorem appendEntry_eq (h : Layout i.cache recs) (hwf : entry.Wf) (hlen : entry.recordLen = entry.actualLen) :
    ∃ pc type, entry.type = some type ∧ Layout pc (appendRec entry recs) ∧
      pc.size = (if (insertGap entry recs).isSome then i.cache.size else i.cache.size + BLOCK_SIZE) ∧
      appendEntry p entry 0 (a, i) = ((when (i.impl.size < pc.size) (resizeImpl p pc.size)) >>= fun _ =>
        when (type == .dir && entry.name != dotdot) (incHardLinks p)) (a, { i with cache := pc }) := by
  obtain ⟨type, htype, -⟩ := hwf.type
  obtain ⟨pc, hok, hlayout, hsize⟩ := appendEntry_layout (p := p) h hwf hlen
  refine ⟨pc, type, htype, hlayout, hsize, ?_⟩
  have hcache : onCache (DirEntryWriter.appendEntry p 0 entry) (a, i) = .ok () (a, { i with cache := pc }) :=
    zoom_ok.mpr ⟨pc, hok, rfl⟩
  rw [appendEntry, bind_eq, htype, expect_some]
  dsimp only
  rw [bind_eq, hcache]
  dsimp only
  rw [get_bind]

/-- Removing, in a directory that is not larger than its page cache: the descriptor only loses a link. -/
theorem removeEntry_eq (name : Name) (h : Layout i.cache recs) (hhead : Headed recs) (hsmall : SmallPairs recs)
    (hsize : i.impl.size ≤ i.cache.size) :
    (removeRec name recs = none ∧ removeEntry p name (a, i) = .err (.new .ENOENT) (a, i)) ∨
    ∃ e recs' pc type, removeRec name recs = some (e, recs') ∧ e.type = some type ∧ Layout pc recs' ∧
      pc.size = i.cache.size ∧
      removeEntry p name (a, i) = when (type == .dir) (decHardLinks p) (a, { i with cache := pc }) := by
  rcases removeEntry_layout (p := p) name h hhead hsmall with
    ⟨hnone, herr⟩ | ⟨e, recs', pc, hsome, hok, hlayout, hsame⟩
  · refine .inl ⟨hnone, ?_⟩
    have hcache : onCache (DirEntryWriter.removeEntry p name) (a, i) = .err (.new .ENOENT) (a, i) :=
      zoom_err.mpr ⟨i.cache, herr, rfl⟩
    rw [removeEntry, bind_eq, hcache]
  · obtain ⟨_, _, -, -, -, hmem⟩ := removeRec_bindings hsome
    obtain ⟨type, htype, -⟩ := (h.seg.wf e hmem).type
    refine .inr ⟨e, recs', pc, type, hsome, htype, hlayout, hsame, ?_⟩
    have hcache : onCache (DirEntryWriter.removeEntry p name) (a, i) = .ok e (a, { i with cache := pc }) :=
      zoom_ok.mpr ⟨pc, hok, rfl⟩
    have hfits : (decide (pc.size < i.impl.size)) = false := by
      simp only [decide_eq_false_iff_not]
      omega
    rw [removeEntry, bind_eq, hcache]
    dsimp only
    rw [bind_eq, htype, expect_some]
    dsimp only
    rw [get_bind, hfits]
    rfl

/-- Renaming changes the page cache first; the rest is the descriptor's. -/
theorem renameEntry_eq (h : Layout i.cache recs) (hhead : Headed recs) (hsmall : SmallPairs recs)
    (hnew : Storable newName) (hoff : Reaches oldName recs off) :
    (renameRec oldName newName recs = none ∧ renameEntry p oldName newName off (a, i) = .err (.new .ENOENT) (a, i)) ∨
    ∃ recs' pc, renameRec oldName newName recs = some recs' ∧ Layout pc recs' ∧
      renameEntry p oldName newName off (a, i) =
        when (pc.size != i.impl.size) (resizeImpl p pc.size) (a, { i with cache := pc }) := by
  rcases renameEntry_layout (p := p) h hhead hsmall hnew hoff with ⟨hnone, herr⟩ | ⟨recs', pc, hsome, hok, hlayout⟩
  · refine .inl ⟨hnone, ?_⟩
    have hcache : onCache (DirEntryWriter.renameEntry p off oldName newName) (a, i) = .err (.new .ENOENT) (a, i) :=
      zoom_err.mpr ⟨i.cache, herr, rfl⟩
    rw [renameEntry, bind_eq, hcache]
  · refine .inr ⟨recs', pc, hsome, hlayout, ?_⟩
    have hcache : onCache (DirEntryWriter.renameEntry p off oldName newName) (a, i) = .ok ()
      (a, { i with cache := pc }) :=
      zoom_ok.mpr ⟨pc, hok, rfl⟩
    rw [renameEntry, bind_eq, hcache]
    dsimp only
    rw [get_bind]

end Inner

end AsterKernel.Ext2
