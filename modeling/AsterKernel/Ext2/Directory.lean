import AsterKernel.Ext2.Inode

/-!
# `Ext2.Directory` — a directory is a finite map

The operations on the entries of one directory, one after the other, the allocator being any at each of them. A
directory that `init_dir` has made binds "." and ".."; from then on appending, removing and renaming are the
operations of a finite map from names to inode numbers and types, and a call that fails does nothing. That needs a free
block where a record fits into no gap: the entry is in the page cache before the descriptor grows. And ".." is not to be
removed: once it is gone the two readers of `remove_entry` are no longer one record apart.
-/

namespace AsterKernel.Ext2

open Lib Lib.Comp Function DirEntry Ext2.Inner Option

/-! ## Calls -/

/-- A call of one of the three operations on entries. -/
inductive DirCall where
  | append (ino : Nat) (name : Name) (type : FileType)
  | remove (name : Name)
  | rename (oldName newName : Name) (off : Nat)
deriving DecidableEq

def DirCall.run (p : Profile) : DirCall → Comp (Alloc × Inode) Error Unit
  | .append ino name type => expect (DirEntry.new p ino name type) >>= fun e => Inner.appendEntry p e 0
  | .remove name => Inner.removeEntry p name
  | .rename oldName newName off => Inner.renameEntry p oldName newName off

/-- A call ends, with a value or an error, from some state of the allocator. -/
def DirCall.Ends (p : Profile) (c : DirCall) (i i' : Inode) : Prop := ∃ a a', (c.run p (a, i)).final = some (a', i')

/-- An inode number that can be stored. -/
def ValidIno (ino : Nat) : Prop := 0 < ino ∧ ino < u32Card

instance (ino : Nat) : Decidable (ValidIno ino) := inferInstanceAs (Decidable (_ ∧ _))

/-- A directory that `init_dir` has produced. -/
def Produced (p : Profile) (selfIno parentIno : Nat) (i : Inode) : Prop :=
  ValidIno selfIno ∧ ValidIno parentIno ∧ ∃ a a' group,
    Inner.initDir p selfIno parentIno (a, Inode.new selfIno group .dir) = .ok () (a', i)

/-! ## The page cache along a call -/

variable {recs : List DirEntry} {p : Profile} {name : Name} {a : Alloc} {i : Inode} {m : DirMap}

section calls

variable {t : Alloc × Inode}

/-- What follows the change of the page cache leaves it alone, and the directory is no larger than it. -/
theorem resizeImpl_final {b : Bool} {m : Comp (Alloc × Inode) Error Unit}
    (hm : ∀ s t, (m s).final = some t → t.2.cache = s.2.cache ∧ t.2.impl.size = s.2.impl.size)
    (hle : i.impl.size ≤ i.cache.size)
    (h : ((when b (resizeImpl p i.cache.size) >>= fun _ => m) (a, i)).final = some t) :
    t.2.cache = i.cache ∧ t.2.impl.size ≤ i.cache.size := by
  have hwhen : ∀ t, (when b (resizeImpl p i.cache.size) (a, i)).final = some t →
      t.2.cache = i.cache ∧ t.2.impl.size ≤ i.cache.size := by
    intro t ht
    cases b with
    | false =>
      cases ht
      exact ⟨rfl, hle⟩
    | true =>
      have hzoom : ∃ x, (InodeImpl.resize p i.blockGroupIdx i.cache.size (a, i.impl)).final = some x ∧
          t = (x.1, { i with impl := x.2 }) := by
        rcases final_cases ht with ⟨_, hok⟩ | ⟨e, herr⟩
        · obtain ⟨x, hx, rfl⟩ := resizeImpl_ok.mp hok
          exact ⟨x, by rw [hx]; rfl, rfl⟩
        · obtain ⟨x, hx, rfl⟩ := resizeImpl_err.mp herr
          exact ⟨x, by rw [hx]; rfl, rfl⟩
      obtain ⟨x, hx, rfl⟩ := hzoom
      refine ⟨rfl, ?_⟩
      rcases InodeImpl.resize_size hx with hsize | hsize
      · exact hsize.trans_le hle
      · exact hsize.le
  rcases bind_final.mp h with ⟨e, herr⟩ | ⟨_, s, hok, hrest⟩
  · exact hwhen t (by rw [herr]; rfl)
  · obtain ⟨hcache, hsize⟩ := hm s t hrest
    obtain ⟨hcache', hsize'⟩ := hwhen s (by rw [hok]; rfl)
    exact ⟨hcache.trans hcache', hsize.trans_le hsize'⟩

theorem countLinks_final {b : Bool} {s : Alloc × Inode} {count : Nat → Option Nat}
    (h : (when b (countLinks count) s).final = some t) : t.2.cache = s.2.cache ∧ t.2.impl.size = s.2.impl.size := by
  cases b with
  | false =>
    cases h
    exact ⟨rfl, rfl⟩
  | true =>
    have hrun : (countLinks count s).final = some t := h
    unfold countLinks at hrun
    split at hrun
    · cases hrun
    · cases hrun
      exact ⟨rfl, rfl⟩

/-- The records of a directory that is no larger than its page cache. -/
structure Holds (i : Inode) (recs : List DirEntry) : Prop where
  layout : Layout i.cache recs
  size : i.impl.size ≤ i.cache.size

/-- **An append** changes the page cache first; the descriptor follows, and counts the link of a directory. -/
theorem append_run_eq (h : Layout i.cache recs) {ino : Nat} {type : FileType} (hino : ValidIno ino)
    (hname : Storable name) : ∃ pc, Layout pc (appendRec (newRec ino name type) recs) ∧
      pc.size = (if (insertGap (newRec ino name type) recs).isSome then i.cache.size else i.cache.size + BLOCK_SIZE) ∧
      (DirCall.append ino name type).run p (a, i) = (when (i.impl.size < pc.size) (resizeImpl p pc.size) >>= fun _ =>
        when (type == .dir && name != dotdot) (countLinks (p.add u16Card · 1))) (a, { i with cache := pc }) := by
  obtain ⟨pc, type', htype, hlayout, hsize, heq⟩ := appendEntry_eq (p := p) (a := a) h
    (newRec_wf type hino.1 hino.2 hname) rfl
  have hsame : type' = type := some.inj (htype.symm.trans (FileType.ofCode_code type))
  refine ⟨pc, hlayout, hsize, ?_⟩
  rw [DirCall.run, new_eq hname, bind_eq, expect_some]
  dsimp only
  rw [heq, incHardLinks_eq, hsame]
  rfl

/-- The records after an append, whether it fails for want of space or not. -/
theorem append_holds (h : Holds i recs) {ino : Nat} {type : FileType} (hino : ValidIno ino) (hname : Storable name)
    (hrun : ((DirCall.append ino name type).run p (a, i)).final = some t) :
    Holds t.2 (appendRec (newRec ino name type) recs) := by
  obtain ⟨pc, hlayout, hsize, heq⟩ := append_run_eq (p := p) (a := a) h.layout hino hname
  have hgrow : i.cache.size ≤ pc.size := by
    rw [hsize]
    split
    · exact le_refl _
    · omega
  have hle := h.size
  rw [heq] at hrun
  have := resizeImpl_final (i := { i with cache := pc }) (fun s t => countLinks_final) (by dsimp only; omega) hrun
  exact ⟨by rw [this.1]; exact hlayout, by rw [this.1]; exact this.2⟩

theorem remove_holds (h : Holds i recs) (hhead : Headed recs) (hsmall : SmallPairs recs)
    (hrun : ((DirCall.remove name).run p (a, i)).final = some t) :
    Holds t.2 (((removeRec name recs).map Prod.snd).getD recs) := by
  rw [DirCall.run] at hrun
  rcases removeEntry_eq (p := p) (a := a) name h.layout hhead hsmall h.size with
    ⟨hnone, herr⟩ | ⟨e, recs', pc, type, hsome, -, hlayout, hsame, heq⟩
  · rw [herr] at hrun
    cases hrun
    rw [hnone]
    exact h
  · rw [heq, decHardLinks_eq] at hrun
    obtain ⟨hcache, hsize⟩ := countLinks_final hrun
    rw [hsome]
    have hle := h.size
    exact ⟨by rw [hcache]; exact hlayout, by rw [hcache, hsize]; dsimp only; omega⟩

theorem rename_holds (h : Holds i recs) (hhead : Headed recs) (hsmall : SmallPairs recs) {oldName newName : Name}
    {off : Nat} (hnew : Storable newName) (hoff : Reaches oldName recs off)
    (hspan : ∀ recs', renameRec oldName newName recs = some recs' → span recs ≤ span recs')
    (hrun : ((DirCall.rename oldName newName off).run p (a, i)).final = some t) :
    Holds t.2 ((renameRec oldName newName recs).getD recs) := by
  rw [DirCall.run] at hrun
  rcases renameEntry_eq (p := p) (a := a) h.layout hhead hsmall hnew hoff with
    ⟨hnone, herr⟩ | ⟨recs', pc, hsome, hlayout, heq⟩
  · rw [herr] at hrun
    cases hrun
    rw [hnone]
    exact h
  · have hgrow := hspan recs' hsome
    rw [← h.layout.size_eq, ← hlayout.size_eq] at hgrow
    have hle := h.size
    have hpure : (when (pc.size != i.impl.size) (resizeImpl p pc.size) >>= fun _ => pure ())
        (a, { i with cache := pc }) = when (pc.size != i.impl.size) (resizeImpl p pc.size)
          (a, { i with cache := pc }) := by
      rw [bind_eq]
      cases when (pc.size != i.impl.size) (resizeImpl p pc.size) (a, { i with cache := pc }) <;> rfl
    rw [heq, ← hpure] at hrun
    have := resizeImpl_final (i := { i with cache := pc })
      (fun s t hst => by cases hst; exact ⟨rfl, rfl⟩) (by dsimp only; omega) hrun
    rw [hsome]
    exact ⟨by rw [this.1]; exact hlayout, by rw [this.1]; exact this.2⟩

def initRecs (selfIno parentIno : Nat) : List DirEntry :=
  [newRec selfIno dot .dir, (newRec parentIno dotdot .dir).withLen 4084]

theorem appendRec_initRecs (selfIno parentIno : Nat) :
    appendRec (newRec parentIno dotdot .dir) (appendRec (newRec selfIno dot .dir) []) = initRecs selfIno
      parentIno := by
  simp [appendRec, insertGap, initRecs, newRec, gap, actualLen, alignUp4, headerLen, withLen, dot, dotdot, BLOCK_SIZE]

theorem storable_dot : Storable dot := ⟨by decide, by simp [dot]⟩

theorem storable_dotdot : Storable dotdot := ⟨by decide, by simp [dotdot]⟩

end calls

/-! ## Directories that can grow -/

/-- A directory whose descriptor and page cache are of the same size. -/
structure Regular (i : Inode) (recs : List DirEntry) : Prop where
  layout : Layout i.cache recs
  type : i.impl.type = .dir
  size : i.impl.size = i.cache.size
  blocks : i.impl.blocksCount = i.impl.size / BLOCK_SIZE

/-- There is a block for a directory. -/
structure HasBlock (a : Alloc) (i : Inode) : Prop where
  agrees : a.Agrees
  free : 1 ≤ a.blocks.freeCount
  group : i.blockGroupIdx < a.blocks.groups.length

/-- The page cache of a directory has at most as many blocks as an inode has pointers. -/
def Bounded (i : Inode) : Prop := i.cache.size ≤ BLOCK_PTR_CNT * BLOCK_SIZE

section regular

theorem newBlocks_aligned {n : Nat} (hn : n < u32Card) : InodeImpl.newBlocks .dir (n * BLOCK_SIZE) = n := by
  unfold InodeImpl.newBlocks BLOCK_SIZE u32Card at *
  rw [if_neg (by simp)]
  omega

/-- The blocks of a directory before and after it grows by one. -/
theorem Regular.counts (h : Regular i recs) (hb : Bounded i) : ∃ n, i.cache.size = n * BLOCK_SIZE ∧
    i.impl.blocks = some n ∧ InodeImpl.newBlocks i.impl.type (i.cache.size + BLOCK_SIZE) = n + 1 := by
  have halign := h.layout.aligned
  obtain ⟨n, hn⟩ : ∃ n, i.cache.size = n * BLOCK_SIZE := ⟨i.cache.size / BLOCK_SIZE, by unfold BLOCK_SIZE at *; omega⟩
  have hlt : n + 1 < u32Card := by unfold Bounded BLOCK_PTR_CNT BLOCK_SIZE u32Card at *; omega
  have hdiv : i.impl.size / BLOCK_SIZE = n := by rw [h.size, hn, Nat.mul_div_cancel _ (by decide)]
  refine ⟨n, hn, ?_, by rw [h.type, hn, ← Nat.succ_mul, newBlocks_aligned hlt]⟩
  unfold InodeImpl.blocks
  rw [if_pos h.type, h.blocks, hdiv, Nat.mod_eq_of_lt (by omega), if_pos (le_refl _)]

/-- The descriptor has followed the page cache by one block. -/
theorem Regular.resize_ok (h : Regular i recs) (hb : Bounded i) {x : Alloc × InodeImpl}
    (hx : InodeImpl.resize p i.blockGroupIdx (i.cache.size + BLOCK_SIZE) (a, i.impl) = .ok () x) :
    x.2.type = .dir ∧ x.2.size = i.cache.size + BLOCK_SIZE ∧ x.2.blocksCount = x.2.size / BLOCK_SIZE ∧
      x.2.hardLinks = i.impl.hardLinks ∧ i.cache.size + BLOCK_SIZE ≤ BLOCK_PTR_CNT * BLOCK_SIZE := by
  obtain ⟨n, hn, hold, hnew⟩ := h.counts hb
  obtain ⟨hlt, d, holes, heq⟩ := InodeImpl.resize_one hold hnew hx
  rw [heq]
  refine ⟨h.type, rfl, ?_, rfl, ?_⟩
  · dsimp only
    unfold BLOCK_SIZE at *
    omega
  · unfold BLOCK_SIZE BLOCK_PTR_CNT at *
    omega

/-- With a free block it does not fail. -/
theorem Regular.resize_not_err (h : Regular i recs) (hb : Bounded i) (ha : HasBlock a i) {e : Error}
    {t : Alloc × InodeImpl} :
    InodeImpl.resize p i.blockGroupIdx (i.cache.size + BLOCK_SIZE) (a, i.impl) ≠ .err e t := by
  intro herr
  obtain ⟨n, -, hold, hnew⟩ := h.counts hb
  have hfree := ha.free
  rcases InodeImpl.resize_grow (p := p) (i := i.impl) (i.cache.size + BLOCK_SIZE) ha.agrees ha.group hold
    (by omega) with ⟨a', d', hok, -, -⟩ | ⟨_, _, -, -, -, hfull, -⟩ | ⟨hpanic, -⟩
  · rw [hok] at herr
    cases herr
  · omega
  · rw [hpanic] at herr
    cases herr

/-- The descriptor can follow the page cache by one block. -/
theorem Regular.resize (h : Regular i recs) (ha : HasBlock a i) (hsmall : i.cache.size < DIRECT_END * BLOCK_SIZE) :
    ∃ x : Alloc × InodeImpl, InodeImpl.resize p i.blockGroupIdx (i.cache.size + BLOCK_SIZE) (a, i.impl) = .ok () x ∧
      x.2.type = .dir ∧ x.2.size = i.cache.size + BLOCK_SIZE ∧ x.2.blocksCount = x.2.size / BLOCK_SIZE ∧
      x.2.hardLinks = i.impl.hardLinks := by
  have hb : Bounded i := by unfold Bounded BLOCK_PTR_CNT DIRECT_END at *; omega
  obtain ⟨n, hn, hold, hnew⟩ := h.counts hb
  have hfree := ha.free
  have hin : ∀ b < n + 1, InodeImpl.inBounds p b = true := fun b hb => by
    unfold InodeImpl.inBounds BLOCK_PTR_CNT DIRECT_END BLOCK_SIZE at *
    simp only [Bool.and_eq_true, Bool.or_eq_true, decide_eq_true_eq]
    omega
  rcases InodeImpl.resize_grow (p := p) (i := i.impl) (i.cache.size + BLOCK_SIZE) ha.agrees ha.group hold
    (by omega) with ⟨a', d', hx, -, -⟩ | ⟨e, t, -, -, -, hfull, -⟩ | ⟨-, b, -, hlt, -, hout⟩
  · obtain ⟨htype, hsize, hblocks, hlinks, -⟩ := h.resize_ok hb hx
    exact ⟨_, hx, htype, hsize, hblocks, hlinks⟩
  · omega
  · rw [hin b (by omega)] at hout
    cases hout

/-- An entry can be appended if it fits into a gap, or while there is a free block and a direct pointer left. -/
theorem Regular.append (h : Regular i recs) (ino : Nat) (name : Name) (type : FileType)
    (hgrow : insertGap (newRec ino name type) recs = none → HasBlock a i ∧ i.cache.size < DIRECT_END * BLOCK_SIZE)
    (hlinks : i.impl.hardLinks + 1 < u16Card) (hino : ValidIno ino) (hname : Storable name) :
    ∃ a' i', (DirCall.append ino name type).run p (a, i) = .ok () (a', i') ∧
      Regular i' (appendRec (newRec ino name type) recs) ∧ i'.blockGroupIdx = i.blockGroupIdx ∧
      i'.impl.hardLinks = i.impl.hardLinks + if type = .dir ∧ name ≠ dotdot then 1 else 0 := by
  obtain ⟨pc, hlayout, hsize, heq⟩ := append_run_eq (p := p) (a := a) h.layout hino hname
  have hresize : ∃ a₁ x, when (i.impl.size < pc.size) (resizeImpl p pc.size) (a, { i with cache := pc }) =
      .ok () (a₁, { i with cache := pc, impl := x }) ∧ x.type = .dir ∧ x.size = pc.size ∧
      x.blocksCount = x.size / BLOCK_SIZE ∧ x.hardLinks = i.impl.hardLinks := by
    have hsz := h.size
    cases hins : insertGap (newRec ino name type) recs with
    | none =>
      obtain ⟨ha, hsmall⟩ := hgrow hins
      have hpc : pc.size = i.cache.size + BLOCK_SIZE := by rw [hsize, hins]; rfl
      obtain ⟨x, hx, hfields⟩ := h.resize (p := p) ha hsmall
      rw [← hpc] at hx hfields
      have hlt : i.impl.size < pc.size := by unfold BLOCK_SIZE at hpc; omega
      refine ⟨x.1, x.2, ?_, hfields⟩
      rw [decide_eq_true hlt]
      exact resizeImpl_ok.mpr ⟨x, hx, rfl⟩
    | some l =>
      have hpc : pc.size = i.cache.size := by rw [hsize, hins]; rfl
      refine ⟨a, i.impl, ?_, h.type, by omega, h.blocks, rfl⟩
      rw [decide_eq_false (by omega)]
      rfl
  obtain ⟨a₁, x, hok, hxtype, hxsize, hxblocks, hxlinks⟩ := hresize
  have hinc : p.add u16Card x.hardLinks 1 = some (x.hardLinks + 1) := Profile.add_of_lt (by omega)
  rw [heq, bind_eq, hok]
  dsimp only
  by_cases hdir : type = .dir ∧ name ≠ dotdot
  · have hb : (type == .dir && name != dotdot) = true := by
      simp only [Bool.and_eq_true, beq_iff_eq, bne_iff_ne]
      exact hdir
    rw [hb]
    refine ⟨a₁, { i with cache := pc, impl := { x with hardLinks := x.hardLinks + 1, dirty := true } }, ?_,
      ⟨hlayout, hxtype, hxsize, hxblocks⟩, rfl, by rw [if_pos hdir, ← hxlinks]⟩
    simp only [when, if_true, countLinks, hinc]
  · have hb : (type == .dir && name != dotdot) = false := by
      rw [Bool.eq_false_iff]
      simp only [ne_eq, Bool.and_eq_true, beq_iff_eq, bne_iff_ne]
      exact hdir
    rw [hb]
    exact ⟨a₁, { i with cache := pc, impl := x }, rfl, ⟨hlayout, hxtype, hxsize, hxblocks⟩, rfl,
      by rw [if_neg hdir]; exact hxlinks⟩

variable {recs' : List DirEntry} {pc : PageCache} {b : Bool} {e : Error} {t : Alloc × Inode}

theorem Regular.countLinks_ok (h : Regular i recs) (hb : Bounded i) {count : Nat → Option Nat}
    (hok : when b (countLinks count) (a, i) = .ok () t) : Regular t.2 recs ∧ Bounded t.2 := by
  cases b with
  | false =>
    cases hok
    exact ⟨h, hb⟩
  | true =>
    have hrun : countLinks count (a, i) = .ok () t := hok
    unfold countLinks at hrun
    split at hrun
    · cases hrun
    · cases hrun
      exact ⟨⟨h.layout, h.type, h.size, h.blocks⟩, hb⟩

theorem countLinks_not_err {count : Nat → Option Nat} : when b (countLinks count) (a, i) ≠ .err e t := by
  intro herr
  cases b with
  | false => cases herr
  | true =>
    have hrun : countLinks count (a, i) = .err e t := herr
    unfold countLinks at hrun
    split at hrun <;> cases hrun

section follow

variable (h : Regular i recs) (hbound : Bounded i)
  (hsize : pc.size = i.cache.size ∨ pc.size = i.cache.size + BLOCK_SIZE) (hb : b = true ↔ i.cache.size < pc.size)
include h hbound hsize hb

/-- The descriptor has followed a new page cache. -/
theorem Regular.follow (hlayout : Layout pc recs')
    (hok : when b (resizeImpl p pc.size) (a, { i with cache := pc }) = .ok () t) : Regular t.2 recs' ∧ Bounded t.2 := by
  cases b with
  | false =>
    cases hok
    have hsame : pc.size = i.cache.size := hsize.resolve_right fun heq => by
      have := mt hb.mpr Bool.false_ne_true
      unfold BLOCK_SIZE at heq
      omega
    exact ⟨⟨hlayout, h.type, h.size.trans hsame.symm, h.blocks⟩, hsame.le.trans hbound⟩
  | true =>
    have hpc : pc.size = i.cache.size + BLOCK_SIZE := hsize.resolve_left (hb.mp rfl).ne'
    obtain ⟨x, hx, rfl⟩ := resizeImpl_ok.mp hok
    rw [hpc] at hx
    obtain ⟨htype, hxsize, hblocks, -, hle⟩ := h.resize_ok hbound hx
    exact ⟨⟨hlayout, htype, hxsize.trans hpc.symm, hblocks⟩, hpc.le.trans hle⟩

theorem Regular.follow_not_err (ha : i.cache.size < pc.size → HasBlock a i) :
    when b (resizeImpl p pc.size) (a, { i with cache := pc }) ≠ .err e t := by
  intro herr
  cases b with
  | false => cases herr
  | true =>
    have hlt := hb.mp rfl
    obtain ⟨x, hx, -⟩ := resizeImpl_err.mp herr
    rw [hsize.resolve_left hlt.ne'] at hx
    exact h.resize_not_err hbound (ha hlt) hx

end follow

/-- An append that succeeds. -/
theorem Regular.append_ok (h : Regular i recs) (hb : Bounded i) {ino : Nat} {type : FileType} (hino : ValidIno ino)
    (hname : Storable name) (hok : (DirCall.append ino name type).run p (a, i) = .ok () t) :
    Regular t.2 (appendRec (newRec ino name type) recs) ∧ Bounded t.2 := by
  obtain ⟨pc, hlayout, hpc, heq⟩ := append_run_eq (p := p) (a := a) h.layout hino hname
  rw [heq] at hok
  obtain ⟨_, s, hresize, hlinks⟩ := bind_ok.mp hok
  obtain ⟨hregular, hbound⟩ := h.follow hb (by rw [hpc]; split <;> simp) (by rw [decide_eq_true_iff, h.size])
    hlayout hresize
  exact hregular.countLinks_ok hbound hlinks

theorem Regular.append_not_err (h : Regular i recs) (hb : Bounded i) {ino : Nat} {type : FileType} (hino : ValidIno ino)
    (hname : Storable name) (ha : insertGap (newRec ino name type) recs = none → HasBlock a i) :
    (DirCall.append ino name type).run p (a, i) ≠ .err e t := by
  intro herr
  obtain ⟨pc, -, hpc, heq⟩ := append_run_eq (p := p) (a := a) h.layout hino hname
  rw [heq] at herr
  rcases bind_err.mp herr with hresize | ⟨_, s, -, hlinks⟩
  · refine h.follow_not_err hb (by rw [hpc]; split <;> simp) (by rw [decide_eq_true_iff, h.size]) (fun hlt => ha ?_)
      hresize
    cases hins : insertGap (newRec ino name type) recs with
    | none => rfl
    | some l =>
      rw [hpc, hins] at hlt
      exact absurd hlt (lt_irrefl _)
  · exact countLinks_not_err hlinks

/-- **A new directory** has "." and "..". -/
theorem initDir_regular {selfIno parentIno : Nat} (h : Produced p selfIno parentIno i) :
    Regular i (initRecs selfIno parentIno) ∧ Bounded i := by
  obtain ⟨hself, hparent, a, a', group, hinit⟩ := h
  have hempty : Regular (Inode.new selfIno group .dir) [] := ⟨⟨rfl, rfl⟩, rfl, rfl, (Nat.zero_div _).symm⟩
  obtain ⟨self, s₀, hnew, hinit⟩ := bind_ok.mp hinit
  obtain ⟨hnew, rfl⟩ := expect_ok.mp hnew
  obtain ⟨_, ⟨a₁, i₁⟩, hok₁, hok₂⟩ := bind_ok.mp hinit
  have hself₁ : (DirCall.append selfIno dot .dir).run p (a, Inode.new selfIno group .dir) = .ok () (a₁, i₁) := by
    rw [DirCall.run, bind_eq, hnew]
    exact hok₁
  obtain ⟨h₁, hb₁⟩ := hempty.append_ok (Nat.zero_le _) hself storable_dot hself₁
  have hparent₂ : (DirCall.append parentIno dotdot .dir).run p (a₁, i₁) = .ok () (a', i) := hok₂
  have h₂ := h₁.append_ok hb₁ hparent storable_dotdot hparent₂
  rwa [appendRec_initRecs] at h₂

theorem Regular.ne_size (h : Regular i recs) (hsize : pc.size = i.cache.size ∨ pc.size = i.cache.size + BLOCK_SIZE) :
    (pc.size != i.impl.size) = true ↔ i.cache.size < pc.size := by
  rw [bne_iff_ne, h.size]
  omega

theorem Regular.holds (h : Regular i recs) : Holds i recs := ⟨h.layout, h.size.le⟩

theorem exists_produced (ha : a.Agrees) (hfree : 1 ≤ a.blocks.freeCount) {group : Nat}
    (hgroup : group < a.blocks.groups.length) {selfIno parentIno : Nat} (hself : ValidIno selfIno)
    (hparent : ValidIno parentIno) :
    ∃ i, Produced p selfIno parentIno i ∧ Regular i (initRecs selfIno parentIno) ∧ i.blockGroupIdx = group ∧
      i.impl.hardLinks = 2 := by
  have hempty : Regular (Inode.new selfIno group .dir) [] := ⟨⟨rfl, rfl⟩, rfl, rfl, (Nat.zero_div _).symm⟩
  obtain ⟨a₁, i₁, hok₁, h₁, hgroup₁, hlinks₁⟩ := hempty.append (p := p) (a := a) selfIno dot .dir
    (fun _ => ⟨⟨ha, hfree, hgroup⟩, show 0 < DIRECT_END * BLOCK_SIZE by decide⟩) (show 1 + 1 < u16Card by decide) hself
    storable_dot
  have hlinks : i₁.impl.hardLinks = 2 := hlinks₁
  have hgap : insertGap (newRec parentIno dotdot .dir) (appendRec (newRec selfIno dot .dir) []) ≠ none := by
    simp [appendRec, insertGap, newRec, gap, actualLen, alignUp4, headerLen, withLen, dot, dotdot, BLOCK_SIZE]
  obtain ⟨a₂, i₂, hok₂, h₂, hgroup₂, hlinks₂⟩ := h₁.append (p := p) (a := a₁) parentIno dotdot .dir
    (fun hnone => absurd hnone hgap) (by rw [hlinks]; decide) hparent storable_dotdot
  refine ⟨i₂, ⟨hself, hparent, a, a₂, group, ?_⟩, ?_, hgroup₂.trans hgroup₁, by rw [hlinks₂, hlinks]; rfl⟩
  · rw [DirCall.run, new_eq storable_dot, bind_eq, expect_some] at hok₁
    dsimp only at hok₁
    rw [initDir, bind_eq, new_eq storable_dot, expect_some]
    dsimp only
    rw [bind_eq, hok₁]
    exact hok₂
  · rwa [appendRec_initRecs] at h₂

theorem exists_dir (p : Profile) : ∃ i, Produced p 2 2 i ∧ Regular i (initRecs 2 2) ∧ i.blockGroupIdx = 0 ∧
    i.impl.hardLinks = 2 :=
  exists_produced Alloc.nearlyFull_mounted.agrees (by decide) (by decide) (by decide) (by decide)

end regular

/-! ## Operations on lists keep the first two records -/

section shape

variable {recs recs' : List DirEntry} {first second new e : DirEntry} {rest : List DirEntry}

theorem gap_lt_of_len (hlen : first.recordLen = 12) : first.gap < 8 := by
  have := le_actualLen (e := first)
  unfold gap headerLen at *
  omega

theorem newRec_len (ino : Nat) (name : Name) (type : FileType) : 8 ≤ (newRec ino name type).recordLen :=
  (Nat.le_add_right _ _).trans (le_alignUp4 (headerLen + name.length)).1

theorem appendRec_cons (h : first.gap < new.recordLen) : appendRec new (first :: rest) = first ::
    appendRec new rest := by
  unfold appendRec
  rw [insertGap, if_neg (by omega)]
  cases insertGap new rest with
  | none | some l => rfl

theorem appendRec_head (new : DirEntry) (h : recs = second :: rest) :
    ∃ second' rest', appendRec new recs = second' :: rest' ∧ second'.name = second.name := by
  subst h
  unfold appendRec
  rw [insertGap]
  split
  · exact ⟨_, _, rfl, rfl⟩
  · cases insertGap new rest with
    | none | some l => exact ⟨_, _, rfl, rfl⟩

theorem removeRec_cons (h : second.name ≠ name) :
    removeRec name (first :: second :: rest) = (removeRec name (second :: rest)).map fun x => (x.1, first :: x.2) :=
  if_neg h

theorem removeRec_head (h : removeRec name (second :: rest) = some (e, recs')) :
    ∃ second' rest', recs' = second' :: rest' ∧ second'.name = second.name := by
  obtain ⟨xs, x, ys, heq, rfl, -⟩ := removeRec_split h
  cases xs with
  | nil | cons y xs =>
    cases heq
    exact ⟨_, _, rfl, rfl⟩

/-- The first two records are those of "." and "..", and the first is as short as it can be. -/
def Dotted (recs : List DirEntry) : Prop :=
  ∃ first second rest, recs = first :: second :: rest ∧ first.recordLen = 12 ∧ first.name = dot ∧ second.name = dotdot

section

variable (h : Dotted recs)
include h

theorem Dotted.headed : Headed recs := by
  obtain ⟨first, second, rest, rfl, hlen, -, -⟩ := h
  exact ⟨first, second :: rest, rfl, hlen⟩

theorem Dotted.append (hnew : 8 ≤ new.recordLen) : Dotted (appendRec new recs) := by
  obtain ⟨first, second, rest, rfl, hlen, hfirst, hsecond⟩ := h
  have hgap := gap_lt_of_len hlen
  obtain ⟨second', rest', heq, hname⟩ := appendRec_head new (rfl : second :: rest = second :: rest)
  exact ⟨first, second', rest', by rw [appendRec_cons (by omega), heq], hlen, hfirst, hname.trans hsecond⟩

theorem Dotted.remove (hname : name ≠ dotdot) (hrem : removeRec name recs = some (e, recs')) : Dotted recs' := by
  obtain ⟨first, second, rest, rfl, hlen, hfirst, hsecond⟩ := h
  rw [removeRec_cons (by rw [hsecond]; exact Ne.symm hname)] at hrem
  obtain ⟨x, hx, heq⟩ := map_eq_some_iff.mp hrem
  cases heq
  obtain ⟨second', rest', heq, hname'⟩ := removeRec_head hx
  exact ⟨first, second', rest', by rw [heq], hlen, hfirst, hname'.trans hsecond⟩

theorem Dotted.replace (hdot : name ≠ dot) (hdotdot : name ≠ dotdot) (new : DirEntry) :
    Dotted (replaceRec name new recs) := by
  obtain ⟨first, second, rest, rfl, hlen, hfirst, hsecond⟩ := h
  refine ⟨first, second, replaceRec name new rest, ?_, hlen, hfirst, hsecond⟩
  rw [replaceRec, if_neg (by rw [hfirst]; exact Ne.symm hdot), replaceRec, if_neg
    (by rw [hsecond]; exact Ne.symm hdotdot)]

end

end shape

/-! ## Finite maps -/

/-- What a directory means: inode numbers and types by name. -/
abbrev DirMap := Name → Option (Nat × FileType)

namespace DirMap

/-- The operation of the map that a call stands for. -/
def exec (m : DirMap) : DirCall → DirMap
  | .append ino name type => Function.update m name (some (ino, type))
  | .remove name => Function.update m name none
  | .rename oldName newName _ =>
    match m oldName with
    | none => m
    | some v => Function.update (Function.update m oldName none) newName (some v)

def init (selfIno parentIno : Nat) : DirMap :=
  Function.update (Function.update (fun _ => none) dotdot (some (parentIno, .dir))) dot (some (selfIno, .dir))

/-- A list of bindings represents a map. -/
structure Repr (m : DirMap) (l : List (Name × (Nat × Nat))) : Prop where
  nodup : (keys l).Nodup
  lookup : ∀ n, l.lookup n = (m n).map fun v => (v.1, v.2.code)

variable {xs ys : List (Name × (Nat × Nat))} {k : Name} {l : List (Name × (Nat × Nat))}

theorem Repr.absent (h : Repr m l) : m k = none ↔ k ∉ keys l := by
  rw [← lookup_eq_none_iff, h.lookup, map_eq_none_iff]

theorem Repr.insert (h : Repr m (xs ++ ys)) (hk : m k = none) (ino : Nat) (type : FileType) :
    Repr (update m k (some (ino, type))) (xs ++ (k, ino, type.code) :: ys) := by
  have hmem := h.absent.mp hk
  refine ⟨nodup_keys_insert.mpr ⟨hmem, h.nodup⟩, fun n => ?_⟩
  rw [lookup_insert hmem, update_apply]
  split
  · rfl
  · exact h.lookup n

variable {v : Nat × Nat}

theorem Repr.erase (h : Repr m (xs ++ (k, v) :: ys)) : Repr (update m k none) (xs ++ ys) := by
  obtain ⟨hmem, hnodup⟩ := nodup_keys_insert.mp h.nodup
  refine ⟨hnodup, fun n => ?_⟩
  rw [update_apply]
  by_cases hn : n = k
  · rw [if_pos hn, hn, lookup_eq_none_iff.mpr hmem]
    rfl
  · have := h.lookup n
    rw [lookup_insert hmem, if_neg hn] at this
    rw [this, if_neg hn]

theorem Repr.value (h : Repr m (xs ++ (k, v) :: ys)) : (m k).map (fun v => (v.1, v.2.code)) = some v := by
  obtain ⟨hmem, -⟩ := nodup_keys_insert.mp h.nodup
  rw [← h.lookup, lookup_insert hmem, if_pos rfl]

end DirMap

/-! ## Refinement -/

/-- The records that the reader yields. -/
def PageCache.records (pc : PageCache) : List DirEntry := (pc.entries 0).map Prod.snd

theorem map_snd_place (off : Nat) (recs : List DirEntry) : (place off recs).map Prod.snd = recs := by
  induction recs generalizing off with
  | nil => rfl
  | cons e recs ih => rw [place, List.map_cons, ih]

theorem Layout.records {pc : PageCache} (h : Layout pc recs) : pc.records = recs := by
  rw [PageCache.records, h.entries, map_snd_place]

/-- A directory represents a map. -/
structure Represents (i : Inode) (m : DirMap) (recs : List DirEntry) : Prop where
  regular : Regular i recs
  bounded : Bounded i
  dotted : Dotted recs
  repr : m.Repr (bindings recs)

/-- The conditions on a call. What is appended is new, can be stored and has no reserved number, and there is a block for
it where it fits into no gap. The entry ".." is not removed, and neither it nor "." is renamed. Nothing is renamed to
another name that is there, and there is a block where the renamed entry fits nowhere. -/
def DirCall.Allowed (a : Alloc) (i : Inode) (m : DirMap) : DirCall → Prop
  | .append ino name type => ValidIno ino ∧ Storable name ∧ m name = none ∧
    (insertGap (newRec ino name type) i.cache.records = none → HasBlock a i)
  | .remove name => name ≠ dotdot
  | .rename oldName newName off =>
    oldName ≠ dot ∧ oldName ≠ dotdot ∧ Storable newName ∧ (m newName = none ∨ newName = oldName) ∧
    (off = 0 ∨ ∃ e, i.cache.getEntry oldName 0 = some (some (off, e))) ∧
    ∀ recs, renameRec oldName newName i.cache.records = some recs → i.cache.size < span recs → HasBlock a i

section refinement

variable {i' : Inode} {c : DirCall}

/-- In a small directory any two neighbours can be merged. -/
theorem smallPairs_of_size (h : Layout i.cache recs) (hsize : Bounded i) :
    SmallPairs recs := by
  rintro xs a b ys rfl
  have := h.size_eq
  rw [span_append, span_cons, span_cons] at this
  unfold Bounded BLOCK_PTR_CNT BLOCK_SIZE at hsize
  unfold u16Card
  omega

variable {recs' : List DirEntry}

theorem reaches_of_getEntry {off : Nat} (h : Layout i.cache recs)
    (hoff : off = 0 ∨ ∃ e, i.cache.getEntry name 0 = some (some (off, e))) : Reaches name recs off := by
  rcases hoff with rfl | ⟨e, hget⟩
  · exact .inl rfl
  · rcases getEntry_layout name h (.inl rfl) with ⟨-, hnone⟩ | ⟨xs, x, ys, hfirst, hsome⟩
    · rw [hnone] at hget
      cases hget
    · rw [hsome] at hget
      cases hget
      exact .inr ⟨xs, _, ys, hfirst, rfl⟩

theorem span_appendRec (hfits : ∀ e ∈ recs, e.actualLen ≤ e.recordLen) (new : DirEntry) :
    span (appendRec new recs) = span recs ∨ span (appendRec new recs) = span recs + BLOCK_SIZE := by
  unfold appendRec
  cases h : insertGap new recs with
  | none => exact .inr (by simp)
  | some recs' =>
    obtain ⟨xs, e, ys, rfl, -, rfl⟩ := insertGap_split h
    have := hfits e (by simp)
    refine .inl ?_
    simp [gap]
    omega

variable {e : DirEntry} {t : FileType} {selfIno parentIno : Nat}

theorem span_removeRec (h : removeRec name recs = some (e, recs')) : span recs' = span recs := by
  obtain ⟨xs, x, ys, rfl, rfl, -⟩ := removeRec_split h
  simp
  omega

theorem removeRec_fits (hfits : ∀ e ∈ recs, e.actualLen ≤ e.recordLen)
    (h : removeRec name recs = some (e, recs')) : ∀ e ∈ recs', e.actualLen ≤ e.recordLen := by
  obtain ⟨xs, x, ys, rfl, rfl, -⟩ := removeRec_split h
  intro y hy
  rcases List.mem_append.mp hy with hy | hy
  · exact hfits y (by simp [hy])
  · rcases List.mem_cons.mp hy with rfl | hy
    · have := hfits x (by simp)
      simp only [withLen_actualLen, withLen_recordLen]
      omega
    · exact hfits y (by simp [hy])

theorem renameRec_cases (oldName newName : Name) (hwf : ∀ e ∈ recs, e.Wf) :
    ((∀ e ∈ recs, e.name ≠ oldName) ∧ renameRec oldName newName recs = none) ∨
    ∃ xs e ys t, FirstAt oldName recs xs e ys ∧ e.fileType = t.code ∧
      (((newRec e.ino newName t).recordLen ≤ e.recordLen ∧ renameRec oldName newName recs =
          some (xs ++ (newRec e.ino newName t).withLen e.recordLen :: ys)) ∨
        (e.recordLen < (newRec e.ino newName t).recordLen ∧ renameRec oldName newName recs =
          (removeRec oldName recs).map fun x => appendRec (newRec e.ino newName t) x.2)) := by
  rcases firstAt_or_absent oldName recs with hnone | ⟨xs, e, ys, hfirst⟩
  · refine .inl ⟨hnone, ?_⟩
    unfold renameRec
    rw [List.find?_eq_none.mpr (by simpa using hnone)]
  · obtain ⟨t, htype, hcode⟩ := (hwf e (by rw [hfirst.eq]; simp)).type
    refine .inr ⟨xs, e, ys, t, hfirst, hcode, ?_⟩
    unfold renameRec
    rw [hfirst.find?]
    simp only [htype]
    by_cases hle : (newRec e.ino newName t).recordLen ≤ e.recordLen
    · exact .inl ⟨hle, by rw [if_pos hle, hfirst.replaceRec]⟩
    · exact .inr ⟨by omega, by rw [if_neg hle]⟩

theorem span_renameRec {oldName newName : Name} (hwf : ∀ e ∈ recs, e.Wf)
    (h : renameRec oldName newName recs = some recs') : span recs' = span recs ∨ span recs' = span recs + BLOCK_SIZE := by
  rcases renameRec_cases oldName newName hwf with ⟨-, hnone⟩ | ⟨xs, e, ys, t, hfirst, -, ⟨-, hsome⟩ | ⟨-, hmove⟩⟩
  · rw [hnone] at h
    cases h
  · rw [hsome] at h
    cases h
    rw [hfirst.eq]
    exact .inl (by simp)
  · rw [hmove] at h
    obtain ⟨⟨e', recs₁⟩, hrem, rfl⟩ := map_eq_some_iff.mp h
    rw [← span_removeRec hrem]
    exact span_appendRec (removeRec_fits (fun e he => (hwf e he).fits) hrem) _

theorem span_renameRec_le {oldName newName : Name} (hwf : ∀ e ∈ recs, e.Wf)
    (h : renameRec oldName newName recs = some recs') : span recs ≤ span recs' := by
  rcases span_renameRec hwf h with heq | heq <;> omega

theorem FileType.code_injective {u : FileType} (h : t.code = u.code) : t = u := by
  have := congrArg FileType.ofCode h
  rw [FileType.ofCode_code, FileType.ofCode_code] at this
  exact some.inj this

theorem DirMap.Repr.eq_some {xs ys : List (Name × (Nat × Nat))} {k : Name} {ino : Nat}
    (h : m.Repr (xs ++ (k, ino, t.code) :: ys)) : m k = some (ino, t) := by
  obtain ⟨⟨n, u⟩, hm, heq⟩ := map_eq_some_iff.mp h.value
  obtain ⟨rfl, hcode⟩ := Prod.mk.inj heq
  have hu : u = t := FileType.code_injective hcode
  rw [hm, hu]

theorem Represents.renamed {oldName newName : Name} (h : Represents i m recs) (hdot : oldName ≠ dot)
    (hdotdot : oldName ≠ dotdot) (hfree : m newName = none ∨ newName = oldName) (off : Nat)
    (hsome : renameRec oldName newName recs = some recs') :
    Dotted recs' ∧ (m.exec (.rename oldName newName off)).Repr (bindings recs') := by
  rcases renameRec_cases oldName newName h.regular.layout.seg.wf with
    ⟨-, hnone⟩ | ⟨xs, e, ys, t, hfirst, hcode, hmoved⟩
  · rw [hnone] at hsome
    cases hsome
  · have hrepr : m.Repr (bindings xs ++ (oldName, e.ino, t.code) :: bindings ys) := by
      have := h.repr
      rwa [hfirst.eq, bindings_append, bindings_cons, binding, hfirst.name_eq, hcode] at this
    have hfree' : update m oldName none newName = none := by
      rw [update_apply]
      split
      · rfl
      case isFalse hne => exact hfree.resolve_right hne
    have hexec : m.exec (.rename oldName newName off) =
        update (update m oldName none) newName (some (e.ino, t)) := by
      simp only [DirMap.exec, hrepr.eq_some]
    rw [hexec]
    rcases hmoved with ⟨-, hplace⟩ | ⟨-, hmove⟩
    · -- in place
      rw [hplace] at hsome
      cases hsome
      refine ⟨?_, ?_⟩
      · rw [← hfirst.replaceRec]
        exact h.dotted.replace hdot hdotdot _
      · rw [bindings_append, bindings_cons]
        exact hrepr.erase.insert hfree' e.ino t
    · -- removed and appended
      rw [hmove] at hsome
      obtain ⟨⟨e', recs₁⟩, hrem, rfl⟩ := map_eq_some_iff.mp hsome
      refine ⟨(h.dotted.remove hdotdot hrem).append (newRec_len _ _ _), ?_⟩
      obtain ⟨xs₁, ys₁, hold, hbind, hname', -⟩ := removeRec_bindings hrem
      obtain ⟨xs₂, ys₂, hold₂, hbind₂⟩ := appendRec_bindings (newRec e.ino newName t) recs₁
      have hrepr₁ : DirMap.Repr (update m oldName none) (xs₂ ++ ys₂) := by
        have := h.repr
        rw [hold, binding, hname'] at this
        rw [← hold₂, hbind]
        exact this.erase
      rw [hbind₂]
      exact hrepr₁.insert hfree' e.ino t

/-- **A call that succeeds.** The directory follows the map. -/
theorem Represents.step_ok {u : Alloc × Inode} (h : Represents i m recs) (hc : c.Allowed a i m)
    (hrun : c.run p (a, i) = .ok () u) : ∃ recs', Represents u.2 (m.exec c) recs' := by
  have hlayout := h.regular.layout
  have hwf := hlayout.seg.wf
  have hsmall := smallPairs_of_size hlayout h.bounded
  cases c with
  | append ino name type =>
    obtain ⟨hino, hname, hnew, -⟩ := hc
    obtain ⟨hregular, hbound⟩ := h.regular.append_ok h.bounded hino hname hrun
    refine ⟨_, hregular, hbound, h.dotted.append (newRec_len ino name type), ?_⟩
    obtain ⟨xs, ys, hold, hbind⟩ := appendRec_bindings (newRec ino name type) recs
    rw [hbind]
    exact (hold ▸ h.repr).insert hnew ino type
  | remove name =>
    rcases removeEntry_eq (p := p) (a := a) name hlayout h.dotted.headed hsmall h.regular.size.le with
      ⟨-, herr⟩ | ⟨e, recs', pc, type, hrem, -, hpc, hsame, heq⟩
    · rw [DirCall.run, herr] at hrun
      cases hrun
    · have hregular : Regular { i with cache := pc } recs' :=
        ⟨hpc, h.regular.type, h.regular.size.trans hsame.symm, h.regular.blocks⟩
      rw [DirCall.run, heq, decHardLinks_eq] at hrun
      obtain ⟨hregular, hbound⟩ := hregular.countLinks_ok (hsame.le.trans h.bounded) hrun
      obtain ⟨xs, ys, hold, hbind, hname, -⟩ := removeRec_bindings hrem
      refine ⟨recs', hregular, hbound, h.dotted.remove hc hrem, ?_⟩
      have hrepr := h.repr
      rw [hold, binding, hname] at hrepr
      rw [hbind]
      exact hrepr.erase
  | rename oldName newName off =>
    obtain ⟨hdot, hdotdot, hname, hfree, hoff, -⟩ := hc
    rcases renameEntry_eq (p := p) (a := a) hlayout h.dotted.headed hsmall hname (reaches_of_getEntry hlayout hoff)
      with ⟨-, herr⟩ | ⟨recs', pc, hsome, hpc, heq⟩
    · rw [DirCall.run, herr] at hrun
      cases hrun
    · rw [DirCall.run, heq] at hrun
      have hspan := span_renameRec hwf hsome
      rw [← hpc.size_eq, ← hlayout.size_eq] at hspan
      obtain ⟨hregular, hbound⟩ := h.regular.follow h.bounded hspan (h.regular.ne_size hspan) hpc hrun
      obtain ⟨hdotted, hrepr⟩ := h.renamed hdot hdotdot hfree off hsome
      exact ⟨recs', hregular, hbound, hdotted, hrepr⟩

/-- **A call that fails** has changed nothing. -/
theorem Represents.step_err {u : Alloc × Inode} {err : Error} (h : Represents i m recs) (hc : c.Allowed a i m)
    (hrun : c.run p (a, i) = .err err u) : u.2 = i := by
  have hlayout := h.regular.layout
  have hsmall := smallPairs_of_size hlayout h.bounded
  cases c with
  | append ino name type =>
    obtain ⟨hino, hname, -, hgrow⟩ := hc
    rw [hlayout.records] at hgrow
    exact absurd hrun (h.regular.append_not_err h.bounded hino hname hgrow)
  | remove name =>
    rcases removeEntry_eq (p := p) (a := a) name hlayout h.dotted.headed hsmall h.regular.size.le with
      ⟨-, herr⟩ | ⟨e, recs', pc, type, -, -, -, -, heq⟩
    · rw [DirCall.run, herr] at hrun
      cases hrun
      rfl
    · rw [DirCall.run, heq, decHardLinks_eq] at hrun
      exact absurd hrun countLinks_not_err
  | rename oldName newName off =>
    obtain ⟨-, -, hname, -, hoff, hgrow⟩ := hc
    rcases renameEntry_eq (p := p) (a := a) hlayout h.dotted.headed hsmall hname (reaches_of_getEntry hlayout hoff)
      with ⟨-, herr⟩ | ⟨recs', pc, hsome, hpc, heq⟩
    · rw [DirCall.run, herr] at hrun
      cases hrun
      rfl
    · rw [DirCall.run, heq] at hrun
      rw [hlayout.records] at hgrow
      have hspan := span_renameRec hlayout.seg.wf hsome
      rw [← hpc.size_eq, ← hlayout.size_eq] at hspan
      exact absurd hrun (h.regular.follow_not_err h.bounded hspan (h.regular.ne_size hspan) fun hlt =>
        hgrow recs' hsome (hpc.size_eq ▸ hlt))

theorem init_represents (h : Produced p selfIno parentIno i) :
    Represents i (DirMap.init selfIno parentIno) (initRecs selfIno parentIno) := by
  obtain ⟨hregular, hbound⟩ := initDir_regular h
  refine ⟨hregular, hbound, ⟨_, _, [], rfl, rfl, rfl, rfl⟩, ?_⟩
  have hempty : DirMap.Repr (fun _ => none) ([] ++ []) := ⟨List.nodup_nil, fun _ => rfl⟩
  have hparent : DirMap.Repr _ ([] ++ [(dotdot, parentIno, FileType.dir.code)]) :=
    hempty.insert (k := dotdot) rfl parentIno .dir
  exact hparent.insert (k := dot) (update_of_ne (by decide) _ _) selfIno .dir

/-- A call on a directory, and what it does to the map: an operation that fails does nothing. -/
inductive DirStep (p : Profile) : Inode × DirMap → Inode × DirMap → Prop where
  | ok {a a' : Alloc} {c : DirCall} {i i' : Inode} {m : DirMap} : c.Allowed a i m → c.run p (a, i) = .ok () (a', i') →
      DirStep p (i, m) (i', m.exec c)
  | err {a a' : Alloc} {c : DirCall} {i i' : Inode} {m : DirMap} {e : Error} : c.Allowed a i m →
      c.run p (a, i) = .err e (a', i') → DirStep p (i, m) (i', m)

/-- The states of a directory and of the map, along allowed calls. -/
abbrev DirReach (p : Profile) (selfIno parentIno : Nat) : Inode × DirMap → Prop :=
  Reach (fun s => Produced p selfIno parentIno s.1 ∧ s.2 = DirMap.init selfIno parentIno) (DirStep p)

theorem DirReach.represents {s : Inode × DirMap} (h : DirReach p selfIno parentIno s) :
    ∃ recs, Represents s.1 s.2 recs := by
  refine Reach.invariant (I := fun s => ∃ recs, Represents s.1 s.2 recs) ?_ ?_ h
  · rintro ⟨i, m⟩ ⟨hproduced, rfl⟩
    exact ⟨_, init_represents hproduced⟩
  · rintro _ _ ⟨recs, hrep⟩ (⟨hallowed, hrun⟩ | ⟨hallowed, hrun⟩)
    · exact hrep.step_ok hallowed hrun
    · have hsame := hrep.step_err hallowed hrun
      exact ⟨recs, by rwa [← hsame] at hrep⟩

/-- **A directory is a finite map.** After any allowed calls `get_entry` finds what the map has. -/
theorem dir_refines_map {selfIno parentIno : Nat} (h : DirReach p selfIno parentIno (i, m)) (name : Name) :
    ∃ found, i.cache.getEntry name 0 = some found ∧
      found.map (fun x => (x.2.ino, x.2.type)) = (m name).map fun v => (v.1, some v.2) := by
  obtain ⟨recs, hrep⟩ := h.represents
  dsimp only at hrep
  obtain ⟨found, hget, hfound⟩ := getEntry_bindings hrep.regular.layout name
  refine ⟨found, hget, ?_⟩
  rw [hrep.repr.lookup] at hfound
  cases found with
  | none =>
    rw [Option.map_none, eq_comm, Option.map_eq_none_iff] at hfound
    rw [hfound]
    rfl
  | some x =>
    cases hm : m name with
    | none =>
      rw [hm] at hfound
      cases hfound
    | some v =>
      rw [hm] at hfound
      obtain ⟨hino, hcode⟩ := Prod.mk.inj (Option.some.inj hfound)
      rw [Option.map_some, Option.map_some, hino, DirEntry.type, hcode, FileType.ofCode_code]

theorem exists_appended : ∃ i a' i', Produced .dev 2 2 i ∧ Regular i (initRecs 2 2) ∧
    (DirCall.append 5 [97] .file).run .dev (Alloc.nearlyFull, i) = .ok () (a', i') := by
  obtain ⟨i, hproduced, hregular, -, hlinks⟩ := exists_dir .dev
  have hgap : insertGap (newRec 5 [97] .file) (initRecs 2 2) ≠ none := by decide
  obtain ⟨a', i', hok, -⟩ := hregular.append (p := .dev) (a := Alloc.nearlyFull) 5 [97] .file
    (fun hnone => absurd hnone hgap) (by rw [hlinks]; decide) (by decide) ⟨by decide, by simp⟩
  exact ⟨i, a', i', hproduced, hregular, hok⟩

/-- A file is found after it has been appended. -/
theorem dir_refines_map_append : ∃ i m, DirReach .dev 2 2 (i, m) ∧ m [97] = some (5, .file) ∧
      ∃ found, i.cache.getEntry [97] 0 = some found ∧ found.map (fun x => (x.2.ino, x.2.type)) = some
        (5, some .file) := by
  obtain ⟨i, a', i', hproduced, hregular, hok⟩ := exists_appended
  have hgap : insertGap (newRec 5 [97] .file) (initRecs 2 2) ≠ none := by decide
  have hallowed : (DirCall.append 5 [97] .file).Allowed Alloc.nearlyFull i (DirMap.init 2 2) := by
    refine ⟨by decide, ⟨by decide, by simp⟩, (by decide : DirMap.init 2 2 [97] = none), fun hnone => ?_⟩
    rw [hregular.layout.records] at hnone
    exact absurd hnone hgap
  have hreach : DirReach .dev 2 2 (i', (DirMap.init 2 2).exec (.append 5 [97] .file)) :=
    .step (.init (s := (i, DirMap.init 2 2)) ⟨hproduced, rfl⟩) (.ok hallowed hok)
  exact ⟨i', _, hreach, by decide, dir_refines_map hreach [97]⟩

end refinement

end AsterKernel.Ext2
