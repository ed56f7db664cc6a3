import AsterKernel.Ext2.Directory

/-!
# `Ext2.Tiling` — the records of a directory tile its blocks

In a new directory and after any number of appends the records tile the blocks: they follow each other without a
gap, and none crosses the end of a block. A removal merges a record into the one before it; that stays within a block
unless the removed record is the first of its block. `remove_entry` means to shrink the directory in that case, but it
looks for the end of the list at the record to be removed, which is always there.
-/

namespace AsterKernel.Ext2

open Lib Lib.Comp List

/-- Records from an offset on, none of which crosses the end of a block. -/
def Tiled : Nat → List DirEntry → Prop
  | _, [] => True
  | off, e :: rest => off % BLOCK_SIZE + e.recordLen ≤ BLOCK_SIZE ∧ Tiled (off + e.recordLen) rest

instance decidableTiled : (off : Nat) → (recs : List DirEntry) → Decidable (Tiled off recs)
  | _, [] => .isTrue trivial
  | off, e :: rest => @instDecidableAnd _ _ _ (decidableTiled (off + e.recordLen) rest)

/-- What a reader has seen tiles the page cache: each record starts where the one before it ends, is as long as it
needs to be and ends in its block; the last one ends with the page cache. -/
def Tiles (size : Nat) : Nat → List (Nat × DirEntry) → Prop
  | off, [] => off = size
  | off, x :: rest => x.1 = off ∧ x.2.actualLen ≤ x.2.recordLen ∧ off % BLOCK_SIZE + x.2.recordLen ≤ BLOCK_SIZE ∧
      Tiles size (off + x.2.recordLen) rest

/-- The layout of a directory's page cache. -/
def PageCache.Tiled (pc : PageCache) : Prop := pc.size % BLOCK_SIZE = 0 ∧ Tiles pc.size 0 (pc.entries 0)

/-! ## Lists of records -/

variable {name : Name}

section lists

variable {off : Nat} {recs recs' xs ys : List DirEntry} {a e new : DirEntry} {pc : PageCache}

theorem tiled_append : Tiled off (xs ++ ys) ↔ Tiled off xs ∧ Tiled (off + span xs) ys := by
  induction xs generalizing off with
  | nil => simp [Tiled]
  | cons e xs ih =>
    rw [cons_append, Tiled, Tiled, ih, span_cons, ← add_assoc]
    tauto

/-- The reader sees that records tile the page cache, and only then. -/
theorem tiles_place (h : Seg pc off recs pc.size) : Tiles pc.size off (place off recs) ↔ Tiled off recs := by
  induction recs generalizing off with
  | nil => exact ⟨fun _ => trivial, fun _ => h⟩
  | cons e recs ih =>
    have hfits := h.2.1.fits
    rw [place, Tiles, Tiled, ih h.2.2]
    tauto

theorem Layout.tiled_iff (h : Layout pc recs) : pc.Tiled ↔ Ext2.Tiled 0 recs := by
  unfold PageCache.Tiled
  rw [h.entries, tiles_place h.seg]
  exact ⟨fun hpc => hpc.2, fun hrecs => ⟨h.aligned, hrecs⟩⟩

theorem Tiled.recordLen_le (h : Tiled off recs) : ∀ e ∈ recs, e.recordLen ≤ BLOCK_SIZE := by
  intro e he
  obtain ⟨xs, ys, rfl⟩ := append_of_mem he
  have := (tiled_append.mp h).2.1
  omega

theorem Tiled.smallPairs (h : Tiled off recs) : SmallPairs recs := by
  rintro xs a b ys rfl
  have ha := h.recordLen_le a (by simp)
  have hb := h.recordLen_le b (by simp)
  unfold BLOCK_SIZE at ha hb
  unfold u16Card
  omega

theorem Tiled.replace (h : Tiled off (xs ++ e :: ys)) (hlen : new.recordLen = e.recordLen) :
    Tiled off (xs ++ new :: ys) := by
  rw [tiled_append, Tiled] at h ⊢
  rwa [hlen]

theorem Tiled.split (h : Tiled off (xs ++ e :: ys)) (hlen : a.recordLen + new.recordLen = e.recordLen) :
    Tiled off (xs ++ a :: new :: ys) := by
  rw [tiled_append, Tiled] at h
  rw [tiled_append, Tiled, Tiled, add_assoc (off + span xs), hlen]
  obtain ⟨hxs, he, hys⟩ := h
  refine ⟨hxs, ?_, ?_, hys⟩
  · omega
  · unfold BLOCK_SIZE at *
    omega

theorem Tiled.merge (h : Tiled off (xs ++ a :: e :: ys)) (hlen : new.recordLen = a.recordLen + e.recordLen)
    (hfirst : (off + span xs + a.recordLen) % BLOCK_SIZE ≠ 0) : Tiled off (xs ++ new :: ys) := by
  rw [tiled_append, Tiled, Tiled] at h
  rw [tiled_append, Tiled, hlen, ← add_assoc (off + span xs)]
  obtain ⟨hxs, ha, he, hys⟩ := h
  refine ⟨hxs, ?_, hys⟩
  unfold BLOCK_SIZE at *
  omega

theorem Tiled.appendRec (h : Tiled 0 recs) (hfits : ∀ e ∈ recs, e.actualLen ≤ e.recordLen)
    (haligned : span recs % BLOCK_SIZE = 0) : Tiled 0 (appendRec new recs) := by
  unfold Ext2.appendRec
  cases hins : insertGap new recs with
  | none =>
    rw [Option.getD_none, tiled_append, zero_add]
    refine ⟨h, ?_, trivial⟩
    rw [haligned, zero_add, DirEntry.withLen_recordLen]
  | some recs' =>
    obtain ⟨xs, e, ys, rfl, -, rfl⟩ := insertGap_split hins
    have hfit := hfits e (by simp)
    apply h.split
    show e.actualLen + e.gap = e.recordLen
    unfold DirEntry.gap
    omega

theorem removeRec_firstAt {first : DirEntry} (h : removeRec name (first :: recs) = some (e, recs')) :
    ∃ xs a ys, first :: recs = xs ++ a :: e :: ys ∧ recs' = xs ++ a.withLen (a.recordLen + e.recordLen) :: ys ∧
      FirstAt name recs (xs ++ [a]).tail e ys ∧ first.recordLen + span (xs ++ [a]).tail = span xs + a.recordLen := by
  rcases findPair_place 0 name first recs with
    ⟨hnone, -⟩ | ⟨xs, a, b, ys, heq, hname, hbefore, -, hsome⟩
  · rw [hnone] at h
    cases h
  · rw [hsome] at h
    cases h
    refine ⟨xs, a, ys, heq, rfl, ⟨?_, hname, hbefore⟩, ?_⟩
    · cases xs with
      | nil => exact (cons.inj heq).2
      | cons x xs => simpa using (cons.inj heq).2
    · cases xs with
      | nil =>
        rw [(cons.inj heq).1]
        simp
      | cons x xs =>
        rw [(cons.inj heq).1]
        simp [add_assoc]

end lists

/-! ## Calls that keep the tiling -/

/-- What `remove_entry` would find under a name is neither the second record nor the first of a block. -/
def PageCache.Movable (pc : PageCache) (name : Name) : Prop :=
  ∀ x, (pc.entries 12).find? (fun x => x.2.name == name) = some x → x.1 ≠ 12 ∧ x.1 % BLOCK_SIZE ≠ 0

/-- The condition on a call. A renaming that does not fit in place removes the old entry, too. -/
def DirCall.KeepsBlocks (i : Inode) : DirCall → Prop
  | .append ino name _ => ValidIno ino ∧ Storable name
  | .remove name => i.cache.Movable name
  | .rename oldName newName off =>
    Storable newName ∧ (off = 0 ∨ ∃ e, i.cache.getEntry oldName 0 = some (some (off, e))) ∧
    ∀ o e, i.cache.getEntry oldName 0 = some (some (o, e)) →
      e.recordLen < DirEntry.alignUp4 (DirEntry.headerLen + newName.length) → i.cache.Movable oldName

/-- The records of a directory tile its blocks; the first one is as short as it can be. -/
structure Blocked (i : Inode) (recs : List DirEntry) : Prop where
  holds : Holds i recs
  headed : Headed recs
  tiled : Tiled 0 recs

section calls

variable {p : Profile} {i i' : Inode} {recs recs' : List DirEntry} {e new : DirEntry}

theorem Headed.append (h : Headed recs) (hnew : 8 ≤ new.recordLen) : Headed (appendRec new recs) := by
  obtain ⟨first, rest, rfl, hlen⟩ := h
  have hgap := gap_lt_of_len hlen
  exact ⟨first, appendRec new rest, appendRec_cons (by omega), hlen⟩

/-- Removing what is movable. -/
theorem Blocked.remove (h : Blocked i recs) (hmov : i.cache.Movable name)
    (hrem : removeRec name recs = some (e, recs')) : Headed recs' ∧ Tiled 0 recs' := by
  obtain ⟨first, rest, rfl, hlen⟩ := h.headed
  obtain ⟨xs, a, ys, heq, rfl, hfirst, hspan⟩ := removeRec_firstAt hrem
  have hseg : Seg i.cache 12 rest i.cache.size := by
    have := h.holds.layout.seg.2.2
    rwa [hlen, zero_add] at this
  obtain ⟨hsecond, hblock⟩ := hmov (12 + span (xs ++ [a]).tail, e) (by rw [hseg.entries, hfirst.find_place])
  dsimp only at hsecond hblock
  constructor
  · cases xs with
    | nil =>
      rw [nil_append, tail_cons, span_nil] at hsecond
      exact absurd rfl hsecond
    | cons x xs =>
      rw [← (cons.inj heq).1]
      exact ⟨first, _, rfl, hlen⟩
  · have htiled := h.tiled
    rw [heq] at htiled
    apply htiled.merge rfl
    rwa [zero_add, ← hspan, hlen]

/-- A call that removes no first record of a block keeps the tiling. -/
theorem Blocked.step {a a' : Alloc} {c : DirCall} (h : Blocked i recs) (hc : c.KeepsBlocks i)
    (hrun : (c.run p (a, i)).final = some (a', i')) : ∃ recs', Blocked i' recs' := by
  have hlayout := h.holds.layout
  have hwf := hlayout.seg.wf
  have hfits : ∀ e ∈ recs, e.actualLen ≤ e.recordLen := fun e he => (hwf e he).fits
  have haligned : span recs % BLOCK_SIZE = 0 := by
    rw [← hlayout.size_eq]
    exact hlayout.aligned
  have hsmall := h.tiled.smallPairs
  cases c with
  | append ino name type =>
    obtain ⟨hino, hname⟩ := hc
    exact ⟨_, append_holds h.holds hino hname hrun, h.headed.append (newRec_len ino name type),
      h.tiled.appendRec hfits haligned⟩
  | remove name =>
    have hholds := remove_holds h.holds h.headed hsmall hrun
    cases hrem : removeRec name recs with
    | none =>
      rw [hrem] at hholds
      exact ⟨recs, hholds, h.headed, h.tiled⟩
    | some x =>
      rw [hrem] at hholds
      obtain ⟨hheaded, htiled⟩ := h.remove hc hrem
      exact ⟨x.2, hholds, hheaded, htiled⟩
  | rename oldName newName off =>
    obtain ⟨hname, hoff, hmov⟩ := hc
    have hholds := rename_holds h.holds h.headed hsmall hname (reaches_of_getEntry hlayout hoff)
      (fun _ => span_renameRec_le hwf) hrun
    rcases renameRec_cases oldName newName hwf with ⟨-, hnone⟩ | ⟨xs, e, ys, t, hfirst, -, hmoved⟩
    · rw [hnone] at hholds
      exact ⟨recs, hholds, h.headed, h.tiled⟩
    · rcases hmoved with ⟨-, hsome⟩ | ⟨hlong, hmove⟩
      · -- in place: no length changes, that of the first record neither
        rw [hsome] at hholds
        refine ⟨_, hholds, ?_, ?_⟩
        · obtain ⟨first, rest, heq, hlen⟩ := h.headed
          rw [hfirst.eq] at heq
          cases xs with
          | nil => exact ⟨_, ys, rfl, by rw [DirEntry.withLen_recordLen, (cons.inj heq).1, hlen]⟩
          | cons x xs => exact ⟨x, _, rfl, by rw [(cons.inj heq).1, hlen]⟩
        · have htiled := h.tiled
          rw [hfirst.eq] at htiled
          exact htiled.replace DirEntry.withLen_recordLen
      · -- removed and appended
        have hget : ∃ o, i.cache.getEntry oldName 0 = some (some (o, e)) := by
          rcases getEntry_layout oldName hlayout (.inl rfl) with ⟨habsent, -⟩ | ⟨xs', e', ys', hfirst', hget⟩
          · exact absurd hfirst.name_eq (habsent e (by rw [hfirst.eq]; simp))
          · have hsame := hfirst.find?.symm.trans hfirst'.find?
            rw [Option.some.inj hsame]
            exact ⟨_, hget⟩
        obtain ⟨o, hget⟩ := hget
        cases hrem : removeRec oldName recs with
        | none =>
          rw [hmove, hrem] at hholds
          exact ⟨recs, hholds, h.headed, h.tiled⟩
        | some x =>
          rw [hmove, hrem] at hholds
          obtain ⟨hheaded, htiled⟩ := h.remove (hmov o e hget hlong) hrem
          refine ⟨_, hholds, hheaded.append (newRec_len _ _ _), htiled.appendRec (removeRec_fits hfits hrem) ?_⟩
          rw [span_removeRec hrem, haligned]

theorem init_blocked {selfIno parentIno : Nat} (h : Produced p selfIno parentIno i) :
    Blocked i (initRecs selfIno parentIno) :=
  ⟨(initDir_regular h).1.holds, ⟨_, _, rfl, rfl⟩, show 0 + 12 ≤ BLOCK_SIZE by decide,
    show (0 + 12) % BLOCK_SIZE + 4084 ≤ BLOCK_SIZE by decide, trivial⟩

/-- The directories reached by calls that keep the tiling. -/
abbrev BlockedReach (p : Profile) (selfIno parentIno : Nat) : Inode → Prop :=
  Reach (Produced p selfIno parentIno) fun i i' => ∃ c : DirCall, c.KeepsBlocks i ∧ c.Ends p i i'

/-- **The records of a directory tile its blocks**, after any calls that remove no first record of a block. -/
theorem dir_tiled {selfIno parentIno : Nat} (h : BlockedReach p selfIno parentIno i) : i.cache.Tiled := by
  have hinv : ∃ recs, Blocked i recs := by
    refine Reach.invariant (I := fun i => ∃ recs, Blocked i recs) ?_ ?_ h
    · intro i hproduced
      exact ⟨_, init_blocked hproduced⟩
    · rintro i i' ⟨recs, hblocked⟩ ⟨c, hc, a, a', hrun⟩
      exact hblocked.step hc hrun
  obtain ⟨recs, hblocked⟩ := hinv
  exact hblocked.holds.layout.tiled_iff.mpr hblocked.tiled

/-- The records tile a directory with one file. -/
theorem dir_tiled_append : ∃ i, BlockedReach .dev 2 2 i ∧ i.cache.Tiled := by
  obtain ⟨i, a', i', hproduced, -, hok⟩ := exists_appended
  have hreach : BlockedReach .dev 2 2 i' :=
    .step (.init hproduced) ⟨.append 5 [97] .file, ⟨by decide, by decide, by simp⟩, _, a', by rw [hok]; rfl⟩
  exact ⟨i', hreach, dir_tiled hreach⟩

/-! ## A full block, and a record across two -/

/-- Calls one after the other, the allocator being any at each of them. -/
inductive DirCall.Runs (p : Profile) (i : Inode) : List DirCall → Inode → Prop where
  | nil : Runs p i [] i
  | snoc {calls : List DirCall} {c : DirCall} {j k : Inode} : Runs p i calls j → c.Ends p j k → Runs p i
      (calls ++ [c]) k

/-- Names of 255 bytes, whose records take 264 bytes: 15 of them fit into the first block. -/
def longName (k : Nat) : Name := UInt8.ofNat (65 + k) :: List.replicate 254 97

def appendLong (k : Nat) : DirCall := .append (11 + k) (longName k) .file

/-- The records after some of these files have been appended. -/
def longRecs : Nat → List DirEntry
  | 0 => initRecs 2 2
  | k + 1 => appendRec (newRec (11 + k) (longName k) .file) (longRecs k)

theorem longName_storable : ∀ k < 16, Storable (longName k) := by
  intro k hk
  refine ⟨by rw [longName, length_cons, length_replicate]; decide, ?_⟩
  intro b hb
  rcases mem_cons.mp hb with rfl | hb
  · revert k
    decide
  · rw [eq_of_mem_replicate hb]
    decide

theorem longRecs_headed (k : Nat) : Headed (longRecs k) := by
  induction k with
  | zero => exact ⟨_, _, rfl, rfl⟩
  | succ k ih => exact ih.append (newRec_len _ _ _)

theorem longRecs_span : ∀ k < 16, span (longRecs k) < DIRECT_END * BLOCK_SIZE := by decide +kernel

/-- The files can be appended. -/
theorem runs_appendLong (h : Regular i (initRecs 2 2)) (hgroup : i.blockGroupIdx = 0)
    (hlinks : i.impl.hardLinks = 2) : ∀ k ≤ 16, ∃ j, DirCall.Runs p i ((range k).map appendLong) j ∧
      Regular j (longRecs k) ∧ j.blockGroupIdx = 0 ∧ j.impl.hardLinks = 2 := by
  intro k hk
  induction k with
  | zero => exact ⟨i, .nil, h, hgroup, hlinks⟩
  | succ k ih =>
    obtain ⟨j, hruns, hregular, hgroup', hlinks'⟩ := ih (by omega)
    have hsize : j.cache.size < DIRECT_END * BLOCK_SIZE := by
      rw [hregular.layout.size_eq]
      exact longRecs_span k (by omega)
    obtain ⟨a', j', hok, hregular', hg, hl⟩ := hregular.append (p := p) (a := Alloc.nearlyFull) (11 + k)
      (longName k) .file
      (fun _ => ⟨⟨Alloc.nearlyFull_mounted.agrees, by decide, by rw [hgroup']; decide⟩, hsize⟩)
      (by rw [hlinks']; decide) ⟨by omega, by unfold u32Card; omega⟩ (longName_storable k (by omega))
    refine ⟨j', ?_, hregular', hg.trans hgroup', hl.trans hlinks'⟩
    rw [range_succ, map_append]
    exact hruns.snoc ⟨Alloc.nearlyFull, a', by rw [appendLong, hok]; rfl⟩

/-- The entry of a name is not there before, and there after the name has been appended. -/
theorem longRecs_find : insertGap (newRec 26 (longName 15) .file) (longRecs 15) = none ∧
    ((longRecs 15).find? (·.name == longName 15)).isNone ∧
    ((longRecs 16).find? (·.name == longName 15)).map DirEntry.ino = some 26 := by decide +kernel

/-- A device that has no block left. -/
def Alloc.full : Alloc where
  blocks := ⟨0, [⟨0, .ofBits [true, true]⟩, ⟨0, .ofBits [true, true]⟩], 2⟩
  inodes := ⟨1, [⟨0, .ofBits [true]⟩, ⟨1, .ofBits [false]⟩], 1⟩
  dirsCounts := [1, 0]

theorem Alloc.full_mounted : Mounted 4 2 full := by
  refine ⟨by decide, by decide, ?_, ?_, ?_, ?_, ?_, ?_, ?_, ?_, ?_, ?_⟩
  all_goals decide

/-- On a full device a directory of one block does not get a second one. -/
theorem Regular.resize_full (h : Regular i recs) (hgroup : i.blockGroupIdx = 0) (hsize : i.cache.size = BLOCK_SIZE) :
    ∃ e x, InodeImpl.resize .dev i.blockGroupIdx (i.cache.size + BLOCK_SIZE) (Alloc.full, i.impl) = .err e x := by
  obtain ⟨n, hn, hold, hnew⟩ := h.counts (by rw [Bounded, hsize]; decide)
  have hone : n = 1 := by unfold BLOCK_SIZE at *; omega
  subst hone
  have hlength : i.blockGroupIdx < Alloc.full.blocks.groups.length := by rw [hgroup]; decide
  rcases InodeImpl.resize_grow (p := .dev) (i := i.impl) (i.cache.size + BLOCK_SIZE) Alloc.full_mounted.agrees
    hlength hold (by omega) with ⟨a', d', -, hgrown, -⟩ | ⟨e, t, herr, -⟩ | ⟨-, b, hle, hlt, -, hout⟩
  · have hcount : a'.blocks.freeCount + _ = 0 := hgrown.count
    omega
  · exact ⟨e, t, herr⟩
  · have hb : b = 1 := by omega
    subst hb
    cases hout

/-- The entry is in the page cache before the directory fails to grow. -/
theorem Regular.append_full (h : Regular i recs) (hgroup : i.blockGroupIdx = 0) (hsize : i.cache.size = BLOCK_SIZE)
    {ino : Nat} {type : FileType} (hino : ValidIno ino) (hname : Storable name)
    (hgap : insertGap (newRec ino name type) recs = none) :
    ∃ e a' i', (DirCall.append ino name type).run .dev (Alloc.full, i) = .err e (a', i') ∧
      Layout i'.cache (Ext2.appendRec (newRec ino name type) recs) := by
  obtain ⟨pc, hlayout, hpc, heq⟩ := append_run_eq (p := .dev) (a := Alloc.full) h.layout hino hname
  have hgrown : pc.size = i.cache.size + BLOCK_SIZE := by rw [hpc, hgap]; rfl
  obtain ⟨e, x, herr⟩ := h.resize_full hgroup hsize
  refine ⟨e, x.1, { i with cache := pc, impl := x.2 }, ?_, hlayout⟩
  rw [heq, bind_err, decide_eq_true (by rw [h.size, hgrown]; unfold BLOCK_SIZE; omega)]
  exact .inl (Inner.resizeImpl_err.mpr ⟨x, by rw [hgrown]; exact herr, rfl⟩)

/-- Fifteen files fill the first block. Appending another one then fails on a full device, but its entry is found. -/
theorem failed_append_found : ∃ i j e a' j', Produced .dev 2 2 i ∧ DirCall.Runs .dev i ((List.range 15).map appendLong) j ∧
    Alloc.Mounted 4 2 Alloc.full ∧ (appendLong 15).run .dev (Alloc.full, j) = .err e (a', j') ∧
    j.cache.getEntry (longName 15) 0 = some none ∧
    ∃ off x, j'.cache.getEntry (longName 15) 0 = some (some (off, x)) ∧ x.ino = 26 := by
  obtain ⟨hgap, hbefore, hafter⟩ := longRecs_find
  obtain ⟨i, hproduced, hregular, hgroup, hlinks⟩ := exists_dir .dev
  obtain ⟨j, hruns, hj, hgroup', -⟩ := runs_appendLong (p := .dev) hregular hgroup hlinks 15 (by decide)
  obtain ⟨e, a', j', herr, hlayout⟩ := hj.append_full hgroup' (by rw [hj.layout.size_eq]; decide +kernel)
    (by decide : ValidIno 26) (longName_storable 15 (by decide)) hgap
  refine ⟨i, j, e, a', j', hproduced, hruns, Alloc.full_mounted, herr, ?_, ?_⟩
  · rcases getEntry_layout (longName 15) hj.layout (.inl rfl) with ⟨-, hnone⟩ | ⟨xs, x, ys, hfirst, -⟩
    · exact hnone
    · rw [hfirst.find?] at hbefore
      cases hbefore
  · rcases getEntry_layout (longName 15) hlayout (.inl rfl) with ⟨habsent, -⟩ | ⟨xs, x, ys, hfirst, hget⟩
    · rw [show longRecs 16 = appendRec (newRec 26 (longName 15) .file) (longRecs 15) from rfl,
        find?_eq_none.mpr (by simpa using habsent)] at hafter
      cases hafter
    · have hfind : (longRecs 16).find? (·.name == longName 15) = some x := hfirst.find?
      rw [hfind] at hafter
      exact ⟨_, x, hget, Option.some.inj hafter⟩

theorem removeRec_longRecs : (removeRec (longName 15) (longRecs 16)).map (fun x => (x.1.type, decide (Tiled 0 x.2))) =
    some (some .file, false) := by decide +kernel

/-- Sixteen files are appended, of which the last one opens a second block, and the last one is removed: the record of
the one before it then crosses the end of the first block. -/
theorem remove_crosses_block : ∃ i i', Produced .dev 2 2 i ∧
    DirCall.Runs .dev i ((List.range 16).map appendLong ++ [.remove (longName 15)]) i' ∧ ¬ i'.cache.Tiled := by
  obtain ⟨i, hproduced, hregular, hgroup, hlinks⟩ := exists_dir .dev
  obtain ⟨j, hruns, hj, -, -⟩ := runs_appendLong (p := .dev) hregular hgroup hlinks 16 (le_refl _)
  have hsmall : SmallPairs (longRecs 16) := smallPairs_of_size hj.layout
    (by rw [Bounded, hj.layout.size_eq]; decide +kernel)
  rcases Inner.removeEntry_eq (p := .dev) (a := Alloc.nearlyFull) (longName 15) hj.layout
    (longRecs_headed 16) hsmall hj.size.le with ⟨hnone, -⟩ | ⟨e, recs', pc, type, hsome, htype, hlayout, -, heq⟩
  · have := removeRec_longRecs
    rw [hnone] at this
    cases this
  · have hresult := removeRec_longRecs
    rw [hsome, Option.map_some] at hresult
    obtain ⟨hfile, htiled⟩ := Prod.mk.inj (Option.some.inj hresult)
    dsimp only at hfile htiled
    refine ⟨i, { j with cache := pc }, hproduced, hruns.snoc ⟨Alloc.nearlyFull, Alloc.nearlyFull, ?_⟩, ?_⟩
    · rw [htype] at hfile
      rw [DirCall.run, heq, Option.some.inj hfile]
      rfl
    · rw [hlayout.tiled_iff]
      exact of_decide_eq_false htiled

end calls

end AsterKernel.Ext2
