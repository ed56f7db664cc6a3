import AsterKernel.Lib.Arcs
import AsterKernel.Ramfs.Fs

/-!
# `Ramfs.Links` — link counts and reachability

The file system read as a graph: an arc for every entry of a directory. Each operation changes the graph and the
counters in one of the ways of `Lib.Arcs`, except that a `rename` onto the name of a file takes away an arc whose end
is not told.
-/

namespace AsterKernel.Ramfs

open Lib Lib.Comp Vfs Function Inode Multiset

/-! ## The graph -/

/-- The inodes that a directory's entries refer to. -/
def Inode.refs (n : Inode) : Multiset Nat :=
  match n.inner with
  | .dir entries => ((entries.children.iter.map Prod.snd : List Nat) : Multiset Nat)
  | _ => 0

variable {entries : DirEntry} {name : Name} {n : Inode}

namespace Inode

variable {idx x y : Nat}

/-- A slot of a directory holds an entry for an inode. -/
def Holds (n : Inode) (idx x : Nat) : Prop :=
  ∃ entries old, n.inner = .dir entries ∧ entries.children.slots[idx - 2]? = some (some (old, x))

section

variable (h : n.inner = .dir entries)
include h

theorem refs_dir : n.refs = ((entries.children.iter.map Prod.snd : List Nat) : Multiset Nat) := by
  rw [refs, h]

theorem onDir_inner (g : DirEntry → DirEntry) : (n.onDir g).inner = .dir (g entries) := by
  rw [onDir, h]

theorem refs_appendEntry (name : Name) (x : Nat) :
    (n.onDir fun dir => dir.appendEntry name x).refs = x ::ₘ n.refs := by
  rw [refs_dir (onDir_inner h _), refs_dir h]
  exact coe_eq_coe.mpr ((entries.children.iter_put (cstr256 name, x)).map Prod.snd)

end

theorem Holds.refs_removeEntry (h : n.Holds idx x) : n.refs = x ::ₘ (n.onDir fun dir => dir.removeEntry idx).refs := by
  obtain ⟨entries, old, hn, hslot⟩ := h
  rw [refs_dir (onDir_inner hn _), refs_dir hn]
  exact coe_eq_coe.mpr ((SlotVec.iter_remove hslot).map Prod.snd)

theorem Holds.refs_substituteEntry (h : n.Holds idx x) (name : Name) :
    (n.onDir fun dir => dir.substituteEntry idx (name, x)).refs = n.refs := by
  obtain ⟨entries, old, hn, hslot⟩ := h
  have hperm := (entries.children.iter_putAt (idx - 2) (cstr256 name, x)).map Prod.snd
  rw [SlotVec.putAt_fst hslot] at hperm
  rw [refs_dir (onDir_inner hn _), refs_dir hn]
  exact coe_eq_coe.mpr (List.Perm.cons_inv hperm)

theorem refs_setParent (n : Inode) (parent : Nat) :
    (n.onDir fun dir => { dir with parent := parent }).refs = n.refs := by
  unfold onDir
  split
  case h_1 entries heq =>
    rw [refs_dir heq]
    rfl
  case h_2 => rfl

/-- Another slot is emptied. -/
theorem Holds.removeEntry {j : Nat} (h : n.Holds idx x) (hj : idx - 2 ≠ j - 2) :
    (n.onDir fun dir => dir.removeEntry j).Holds idx x := by
  obtain ⟨entries, old, hn, hslot⟩ := h
  refine ⟨_, old, onDir_inner hn _, ?_⟩
  show (entries.children.remove (j - 2)).2.slots[idx - 2]? = _
  rw [SlotVec.slots_remove, List.getElem?_set_ne hj.symm, hslot]

theorem Holds.mem (h : n.Holds idx x) : x ∈ n.refs := by
  rw [h.refs_removeEntry]
  exact mem_cons_self _ _

theorem refs_empty (h : n.inner = .dir entries) (hempty : entries.isEmptyChildren = true) : n.refs = 0 := by
  rw [refs_dir h, SlotVec.isEmpty_iff.mp hempty]
  rfl

theorem holds_of_getEntry (h : n.inner = .dir entries) {this : Nat} (hdot : name ≠ dot) (hdotdot : name ≠ dotdot)
    (hget : entries.getEntry this name = some (idx, x)) : n.Holds idx x := by
  unfold DirEntry.getEntry at hget
  rw [if_neg (by simpa using hdot), if_neg (by simpa using hdotdot)] at hget
  obtain ⟨⟨i, old, y⟩, hfind, heq⟩ := Option.map_eq_some_iff.mp hget
  obtain ⟨rfl, rfl⟩ := Prod.mk.inj heq
  exact ⟨entries, old, h, SlotVec.mem_idxesAndItems.mp (List.mem_of_find?_eq_some hfind)⟩

end Inode

variable {A : Multiset (Nat × Nat)} {p : Profile} {dir : Nat → Bool} {s t : Fs} {u : Unit} {L : Nat → Nat}

namespace Fs

def arcs (s : Fs) : Multiset (Nat × Nat) := ∑ d ∈ Finset.range s.next, (s.inodes d).refs.map fun x => (d, x)

def links (s : Fs) (ino : Nat) : Nat := (s.inodes ino).nlinks

/-- How the graph and the counters look; numbers that are not handed out yet are blank. -/
structure Looks (s : Fs) (next : Nat) (dir : Nat → Bool) (arcs : Multiset (Nat × Nat))
    (links : Nat → Nat) : Prop where
  next : s.next = next
  fresh : ∀ ino, s.next ≤ ino → s.inodes ino = blank
  dir : s.isDir = dir
  arcs : s.arcs = arcs
  links : s.links = links

variable {s : Fs} {next : Nat} {d x : Nat}

theorem arcs_upd (f : Inode → Inode) (hd : d < s.next) : (s.upd d f).arcs + (s.inodes d).refs.map (fun x => (d, x)) =
      s.arcs + (f (s.inodes d)).refs.map fun x => (d, x) := by
  have hmem : d ∈ Finset.range s.next := Finset.mem_range.mpr hd
  have hrest : ∀ e ∈ (Finset.range s.next).erase d,
      ((s.upd d f).inodes e).refs.map (fun x => (e, x)) = (s.inodes e).refs.map fun x => (e, x) := by
    intro e he
    rw [upd_of_ne f (Finset.ne_of_mem_erase he)]
  unfold arcs
  rw [upd_next, ← Finset.add_sum_erase _ _ hmem, ← Finset.add_sum_erase _ _ hmem, Finset.sum_congr rfl
    hrest, upd_self]
  abel

namespace Looks

variable {A' : Multiset (Nat × Nat)}

section

variable (h : s.Looks next dir A L)
include h

section

variable (hd : d < next) (f : Inode → Inode)
include hd f

section

variable (htype : (f (s.inodes d)).inner.type = (s.inodes d).inner.type)
include htype

/-- An inode changes, and keeps its type. -/
theorem upd {k : Nat} (hlinks : (f (s.inodes d)).nlinks = k)
    (hrefs : A' + (s.inodes d).refs.map (fun x => (d, x)) = A + (f (s.inodes d)).refs.map fun x => (d, x)) :
    (s.upd d f).Looks next dir A' (update L d k) where
  next := h.next
  fresh i hi := by
    have hlt : d < s.next := h.next.symm ▸ hd
    rw [upd_of_ne f (Nat.ne_of_gt (hlt.trans_le hi)), h.fresh i hi]
  dir := by
    rw [← h.dir]
    funext i
    by_cases hi : i = d
    · subst hi
      rw [isDir, type, upd_self, htype]
      rfl
    · rw [isDir, type, upd_of_ne f hi]
      rfl
  arcs := by
    have := arcs_upd f (h.next.symm ▸ hd)
    rw [h.arcs, ← hrefs] at this
    exact add_right_cancel this
  links := by
    rw [← h.links]
    funext i
    by_cases hi : i = d
    · subst hi
      rw [update_self, Fs.links, upd_self, hlinks]
    · rw [update_of_ne hi, Fs.links, upd_of_ne f hi]
      rfl

theorem upd_other
    (hlinks : (f (s.inodes d)).nlinks = (s.inodes d).nlinks) (hrefs : (f (s.inodes d)).refs = (s.inodes d).refs) :
    (s.upd d f).Looks next dir A L := by
  have := h.upd hd f htype hlinks (by rw [hrefs])
  rwa [← h.links, show (s.inodes d).nlinks = s.links d from rfl, update_eq_self, h.links] at this

end

theorem upd_links (hinner : (f (s.inodes d)).inner = (s.inodes d).inner) {k : Nat} (hlinks : (f (s.inodes d)).nlinks = k) :
    (s.upd d f).Looks next dir A (update L d k) := by
  refine h.upd hd f (by rw [hinner]) hlinks ?_
  rw [refs, refs, hinner]

end

theorem isDir_iff : dir d = true ↔ ∃ entries, (s.inodes d).inner = .dir entries := by
  rw [← h.dir, isDir, type, beq_iff_eq]
  cases (s.inodes d).inner with
  | dir entries => exact ⟨fun _ => ⟨entries, rfl⟩, fun _ => rfl⟩
  | device block => cases block <;> exact ⟨nofun, nofun⟩
  | file | symLink | socket => exact ⟨nofun, nofun⟩

theorem upd_dir (hd : d < next) (g : DirEntry → DirEntry) (hrefs : A' + (s.inodes d).refs.map (fun x => (d, x)) =
      A + ((s.inodes d).onDir g).refs.map fun x => (d, x)) : (s.upd d (onDir g)).Looks next dir A' L := by
  have htype : ((s.inodes d).onDir g).inner.type = (s.inodes d).inner.type := by
    unfold onDir
    split
    case h_1 entries heq =>
      rw [heq]
      rfl
    case h_2 => rfl
  have hlinks : ((s.inodes d).onDir g).nlinks = s.links d := by
    unfold onDir
    split
    case h_1 => rfl
    case h_2 => rfl
  have := h.upd hd (onDir g) htype hlinks hrefs
  rwa [h.links, update_eq_self] at this

theorem append (hd : d < next) (hdir : dir d = true) (name : Name) (x : Nat) :
    (s.upd d (onDir fun e => e.appendEntry name x)).Looks next dir ((d, x) ::ₘ A) L := by
  obtain ⟨entries, hn⟩ := h.isDir_iff.mp hdir
  refine h.upd_dir hd _ ?_
  rw [refs_appendEntry hn, map_cons, cons_add, add_cons]

end

section

variable {idx : Nat} (h : s.Looks next dir A L) (hd : d < next) (hold : (s.inodes d).Holds idx x)
include idx h hd hold

theorem remove : ∃ B, A = (d, x) ::ₘ B ∧ (s.upd d (onDir fun e => e.removeEntry idx)).Looks next dir B L := by
  have hmem : (d, x) ∈ A := by
    rw [← h.arcs, Fs.arcs, mem_sum]
    exact ⟨d, Finset.mem_range.mpr (h.next.symm ▸ hd), mem_map_of_mem _ hold.mem⟩
  obtain ⟨B, rfl⟩ := exists_cons_of_mem hmem
  refine ⟨B, rfl, h.upd_dir hd _ ?_⟩
  rw [hold.refs_removeEntry, map_cons, add_cons, cons_add]

theorem substitute (name : Name) : (s.upd d (onDir fun e => e.substituteEntry idx (name, x))).Looks next dir A L :=
  h.upd_dir hd _ (by rw [hold.refs_substituteEntry])

end

end Looks

end Fs

/-! ## The steps of the operations -/

section

variable {next : Nat} {d x idx ino : Nat} {msg : String} {locked : List Nat} {type : InodeType}

theorem checkDir_ok : checkDir d msg s = .ok u t ↔ s.isDir d = true ∧ s = t := by
  unfold checkDir
  rw [get_bind, guard_ok, eq_comm (a := t)]
  simp

theorem direntry_ok : direntry d s = .ok entries t ↔ (s.inodes d).inner = .dir entries ∧ s = t := by
  unfold direntry
  rw [get_bind, expect_ok]
  cases (s.inodes d).inner <;> simp [Inner.asDirentry]

theorem readType_ok : readType locked d s = .ok type t ↔ d ∉ locked ∧ s.type d = type ∧ s = t := by
  unfold readType
  rw [assert_bind_ok, get_bind, pure_ok]
  simp

theorem getEntry_ok : getEntry d name s = .ok (idx, x) t ↔
    ∃ entries, (s.inodes d).inner = .dir entries ∧ entries.getEntry d name = some (idx, x) ∧ s = t := by
  unfold getEntry
  rw [bind_ok]
  constructor
  · rintro ⟨entries, s', hdir, hget⟩
    obtain ⟨hn, rfl⟩ := direntry_ok.mp hdir
    refine ⟨entries, hn, ?_⟩
    cases hentry : entries.getEntry d name with
    | none =>
      rw [hentry] at hget
      exact absurd hget fail_ok
    | some entry =>
      rw [hentry] at hget
      obtain ⟨rfl, rfl⟩ := pure_ok.mp hget
      exact ⟨rfl, rfl⟩
  · rintro ⟨entries, hn, hentry, rfl⟩
    refine ⟨entries, s, direntry_ok.mpr ⟨hn, rfl⟩, ?_⟩
    rw [hentry]
    rfl

theorem onInode_bind {β : Type} (f : Inode → Inode) (g : Unit → Comp Fs Error β) (s : Fs) :
    (onInode d f >>= g) s = g () (s.upd d f) := id rfl

theorem onInode_ok {f : Inode → Inode} : onInode d f s = .ok u t ↔ s.upd d f = t := modify_ok

theorem allocate_ok : allocate n s = .ok ino t ↔ s.next = ino ∧ ⟨update s.inodes s.next n, s.next + 1⟩ = t := by
  unfold allocate
  rw [get_bind, set_bind, pure_ok]

namespace Fs.Looks

section

variable (h : s.Looks next dir A L) (hd : d < next)
include h hd

theorem incSize : (s.upd d incSize).Looks next dir A L :=
  h.upd_other hd _ rfl rfl rfl

theorem incNlinks : (s.upd d incNlinks).Looks next dir A (update L d (L d + 1)) := by
  have hlinks : (s.inodes d).nlinks = L d := congrFun h.links d
  exact h.upd_links hd _ rfl (congrArg (· + 1) hlinks)

theorem decSize (hok : decSize p d s = .ok u t) : t.Looks next dir A L := by
  unfold Ramfs.decSize at hok
  rw [get_bind] at hok
  obtain ⟨size, -, hok⟩ := (bind_ok_of expect_ok).mp hok
  obtain rfl := modify_ok.mp hok
  exact h.upd_other hd _ rfl rfl rfl

theorem decNlinks (hpos : 0 < L d) (hok : decNlinks p d s = .ok u t) : t.Looks next dir A (update L d (L d - 1)) := by
  unfold Ramfs.decNlinks at hok
  rw [get_bind] at hok
  obtain ⟨k, hk, hok⟩ := (bind_ok_of expect_ok).mp hok
  obtain rfl := modify_ok.mp hok
  have hlinks : (s.inodes d).nlinks = L d := congrFun h.links d
  have hle : 1 ≤ L d := hpos
  rw [Profile.sub, hlinks, if_pos hle, Option.some.injEq] at hk
  exact h.upd_links hd _ rfl hk.symm

end

theorem allocate (h : s.Looks next dir A L) (n : Inode) (hrefs : n.refs = 0) :
    (⟨update s.inodes s.next n, s.next + 1⟩ : Fs).Looks (next + 1)
      (update dir next (n.inner.type == .dir)) A (update L next n.nlinks) := by
  obtain ⟨rfl, hfresh, rfl, rfl, rfl⟩ := h
  refine ⟨rfl, ?_, ?_, ?_, ?_⟩
  · intro i hi
    show update s.inodes s.next n i = _
    rw [update_of_ne (show i ≠ s.next by rintro rfl; exact absurd hi (by simp)), hfresh i (Nat.le_of_succ_le hi)]
  · funext i
    by_cases hi : i = s.next
    · subst hi
      show ((update s.inodes s.next n s.next).inner.type == _) = _
      rw [update_self, update_self]
    · show ((update s.inodes s.next n i).inner.type == _) = _
      rw [update_of_ne hi, update_of_ne hi]
      rfl
  · have hkeep : ∀ d ∈ Finset.range s.next, (update s.inodes s.next n d).refs.map (fun x => (d, x)) =
        (s.inodes d).refs.map fun x => (d, x) := by
      intro d hd
      rw [update_of_ne (ne_of_lt (Finset.mem_range.mp hd))]
    show ∑ d ∈ Finset.range (s.next + 1), (update s.inodes s.next n d).refs.map _ = _
    rw [Finset.sum_range_succ, Finset.sum_congr rfl hkeep, update_self, hrefs, map_zero, add_zero]
    rfl
  · funext i
    by_cases hi : i = s.next
    · subst hi
      show (update s.inodes s.next n s.next).nlinks = _
      rw [update_self, update_self]
    · show (update s.inodes s.next n i).nlinks = _
      rw [update_of_ne hi, update_of_ne hi]
      rfl

end Fs.Looks

/-- The counters agree, and the numbers that are not handed out are blank. -/
def Fs.Tally (s : Fs) : Prop :=
  ∃ next dir A L, s.Looks next dir A L ∧ Tallied ROOT_INO dir A L

theorem Fs.Tally.looks (h : s.Tally) :
    s.Looks s.next s.isDir s.arcs s.links ∧ Tallied ROOT_INO s.isDir s.arcs s.links := by
  obtain ⟨_, _, _, _, hlooks, htally⟩ := h
  obtain ⟨rfl, hfresh, rfl, rfl, rfl⟩ := hlooks
  exact ⟨⟨rfl, hfresh, rfl, rfl, rfl⟩, htally⟩

theorem newInode_some (h : newInode d type = some n) :
    n.refs = 0 ∧ ((type = .dir ∧ (n.inner.type == .dir) = true ∧ n.nlinks = 2) ∨
      (type ≠ .dir ∧ (n.inner.type == .dir) = false ∧ n.nlinks = 1)) := by
  cases type with
  | dir =>
    cases h
    exact ⟨rfl, .inl ⟨rfl, rfl, rfl⟩⟩
  | file | symLink | socket =>
    cases h
    exact ⟨rfl, .inr ⟨nofun, rfl, rfl⟩⟩
  | namedPipe | charDevice | blockDevice => cases h

/-! ## The operations -/

section

variable (h : s.Tally)
include h

/-- A number that is not handed out yet. -/
theorem Fs.Tally.next_blank : s.isDir s.next = false ∧ s.links s.next = 0 := by
  have hblank := h.looks.1.fresh s.next le_rfl
  rw [isDir, Fs.type, links, hblank]
  exact ⟨rfl, rfl⟩

section

variable (hd : d < s.next)
include hd

theorem Fs.Tally.newLeaf (hdir : s.isDir d = true) (name : Name) (hrefs : n.refs = 0)
    (htype : (n.inner.type == .dir) = false) (hlinks : n.nlinks = 1) :
    (((⟨update s.inodes s.next n, s.next + 1⟩ : Fs).upd d
      (onDir fun dir => dir.appendEntry name s.next)).upd d incSize).Tally := by
  obtain ⟨hlooks, htally⟩ := h.looks
  obtain ⟨hleaf, hzero⟩ := h.next_blank
  have hnew := hlooks.allocate n hrefs
  rw [htype, ← hleaf, update_eq_self, hlinks] at hnew
  refine ⟨_, _, _, _, (hnew.append (by omega) hdir name s.next).incSize (by omega), ?_⟩
  have := htally.addLeaf hdir hleaf
  rwa [hzero] at this

theorem Fs.Tally.newDir (hdir : s.isDir d = true) (name : Name) (hrefs : n.refs = 0)
    (htype : (n.inner.type == .dir) = true) (hlinks : n.nlinks = 2) :
    ((((⟨update s.inodes s.next n, s.next + 1⟩ : Fs).upd d incNlinks).upd d
      (onDir fun dir => dir.appendEntry name s.next)).upd d incSize).Tally := by
  obtain ⟨hlooks, htally⟩ := h.looks
  obtain ⟨hleaf, hzero⟩ := h.next_blank
  have hne : d ≠ s.next := by omega
  have hnew := hlooks.allocate n hrefs
  rw [htype, hlinks] at hnew
  have hdir' : update s.isDir s.next true d = true := by rwa [update_of_ne hne]
  refine ⟨_, _, _, _, ((hnew.incNlinks (by omega)).append (by omega) hdir' name s.next).incSize (by omega), ?_⟩
  have hfree : named s.arcs s.next = 0 := by rw [← htally.leaf _ hleaf, hzero]
  have hroot : s.next ≠ ROOT_INO := by
    intro heq
    rw [heq, htally.top.1] at hleaf
    cases hleaf
  have hfound := htally.found hleaf hfree
  refine hfound.addDir hdir' (update_self _ _ _) hroot hfree ?_
  rcases hfound.dirs s.next (update_self _ _ _) with hused | ⟨hremoved, -, -⟩
  · exact hused
  · -- nothing has an entry in it yet
    rw [update_self] at hremoved ⊢
    have hnone : below (update s.isDir s.next true) s.arcs s.next = 0 := by
      refine below_eq_zero fun a ha heq => ?_
      have := htally.source a ha
      rw [heq, hleaf] at this
      cases this
    omega

theorem create_tally (hok : create d name type s = .ok ino t) : t.Tally := by
  unfold create at hok
  obtain ⟨_, hdir, hok⟩ := (bind_ok_of checkDir_ok).mp hok
  obtain ⟨-, hok⟩ := guard_bind_ok.mp hok
  obtain ⟨entries, -, hok⟩ := (bind_ok_of direntry_ok).mp hok
  obtain ⟨-, hok⟩ := guard_bind_ok.mp hok
  obtain ⟨n, hnew, hok⟩ := (bind_ok_of expect_ok).mp hok
  obtain ⟨i, s', halloc, hok⟩ := bind_ok.mp hok
  obtain ⟨rfl, rfl⟩ := allocate_ok.mp halloc
  obtain ⟨_, s', hwhen, hok⟩ := bind_ok.mp hok
  rw [onInode_bind, onInode_bind, pure_ok] at hok
  obtain ⟨-, rfl⟩ := hok
  obtain ⟨hrefs, ⟨rfl, htype, hlinks⟩ | ⟨hne, htype, hlinks⟩⟩ := newInode_some hnew
  · obtain rfl := onInode_ok.mp hwhen
    exact h.newDir hd hdir name hrefs htype hlinks
  · rcases when_ok.mp hwhen with ⟨heq, -⟩ | ⟨-, rfl⟩
    · exact absurd (beq_iff_eq.mp heq) hne
    · exact h.newLeaf hd hdir name hrefs htype hlinks

theorem mknod_tally {block : Bool} (hok : mknod d name block s = .ok ino t) : t.Tally := by
  unfold mknod at hok
  obtain ⟨_, hdir, hok⟩ := (bind_ok_of checkDir_ok).mp hok
  obtain ⟨-, hok⟩ := guard_bind_ok.mp hok
  obtain ⟨entries, -, hok⟩ := (bind_ok_of direntry_ok).mp hok
  obtain ⟨-, hok⟩ := guard_bind_ok.mp hok
  obtain ⟨i, s', halloc, hok⟩ := bind_ok.mp hok
  obtain ⟨rfl, rfl⟩ := allocate_ok.mp halloc
  rw [onInode_bind, onInode_bind, pure_ok] at hok
  obtain ⟨-, rfl⟩ := hok
  exact h.newLeaf hd hdir name rfl (by cases block <;> rfl) rfl

theorem link_tally {old : Nat} (hold : old < s.next) (hok : link d (.here old) name s = .ok u t) : t.Tally := by
  obtain ⟨hlooks, htally⟩ := h.looks
  unfold link at hok
  obtain ⟨_, hdir, hok⟩ := (bind_ok_of checkDir_ok).mp hok
  obtain ⟨i, s', hsame, hok⟩ := bind_ok.mp hok
  obtain ⟨rfl, rfl⟩ := pure_ok.mp hsame
  rw [get_bind] at hok
  obtain ⟨hleaf, hok⟩ := guard_bind_ok.mp hok
  obtain ⟨entries, -, hok⟩ := (bind_ok_of direntry_ok).mp hok
  obtain ⟨-, hok⟩ := guard_bind_ok.mp hok
  rw [onInode_bind, onInode_bind, onInode_ok] at hok
  subst hok
  exact ⟨_, _, _, _, ((hlooks.append hd hdir name old).incSize hd).incNlinks hold, htally.addLeaf hdir hleaf⟩

end

end

theorem getEntry_holds (hdot : name ≠ dot) (hdotdot : name ≠ dotdot) (hok : getEntry d name s = .ok (idx, x) t) :
    (s.inodes d).Holds idx x ∧ s = t := by
  obtain ⟨entries, hn, hget, rfl⟩ := getEntry_ok.mp hok
  exact ⟨holds_of_getEntry hn hdot hdotdot hget, rfl⟩

section

variable (h : s.Tally) (hd : d < s.next)
include h hd

theorem Fs.Tally.lt_of_holds (hold : (s.inodes d).Holds idx x) : x < s.next := by
  obtain ⟨hlooks, htally⟩ := h.looks
  obtain ⟨B, hA, -⟩ := hlooks.remove hd hold
  by_contra hge
  have hblank := hlooks.fresh x (by omega)
  have hleaf : s.isDir x = false := by
    rw [isDir, Fs.type, hblank]
    rfl
  have hcount := htally.leaf x hleaf
  rw [hA, named_cons, if_pos rfl, links, hblank] at hcount
  exact absurd hcount (by simp [blank])

theorem unlink_tally (hok : unlink p d name s = .ok u t) : t.Tally := by
  obtain ⟨hlooks, htally⟩ := h.looks
  unfold unlink at hok
  obtain ⟨_, hdir, hok⟩ := (bind_ok_of checkDir_ok).mp hok
  obtain ⟨hdots, hok⟩ := guard_bind_ok.mp hok
  obtain ⟨hdot, hdotdot⟩ : name ≠ dot ∧ name ≠ dotdot := by simpa using hdots
  obtain ⟨⟨idx, x⟩, s', hentry, hok⟩ := bind_ok.mp hok
  obtain ⟨hold, rfl⟩ := getEntry_holds hdot hdotdot hentry
  obtain ⟨type, s', hread, hok⟩ := bind_ok.mp hok
  obtain ⟨-, rfl, rfl⟩ := readType_ok.mp hread
  obtain ⟨hleaf, hok⟩ := guard_bind_ok.mp hok
  rw [onInode_bind] at hok
  obtain ⟨_, s', hsize, hok⟩ := bind_ok.mp hok
  obtain ⟨B, hA, hremoved⟩ := hlooks.remove hd hold
  have hx := h.lt_of_holds hd hold
  rw [hA] at htally
  have hpos : 0 < s.links x := by
    rw [htally.leaf x hleaf, named_cons, if_pos rfl]
    omega
  exact ⟨_, _, _, _, (hremoved.decSize hd hsize).decNlinks hx hpos hok, htally.dropLeaf hleaf⟩

theorem rmdir_tally (hok : rmdir p d name s = .ok u t) : t.Tally := by
  obtain ⟨hlooks, htally⟩ := h.looks
  unfold rmdir at hok
  obtain ⟨_, -, hok⟩ := (bind_ok_of checkDir_ok).mp hok
  obtain ⟨hdot, hok⟩ := guard_bind_ok.mp hok
  obtain ⟨hdotdot, hok⟩ := guard_bind_ok.mp hok
  obtain ⟨⟨idx, x⟩, s', hentry, hok⟩ := bind_ok.mp hok
  obtain ⟨hold, rfl⟩ := getEntry_holds (by simpa using hdot) (by simpa using hdotdot) hentry
  obtain ⟨type, s', hread, hok⟩ := bind_ok.mp hok
  obtain ⟨hne, rfl, rfl⟩ := readType_ok.mp hread
  obtain ⟨hisDir, hok⟩ := guard_bind_ok.mp hok
  obtain ⟨entries, -, hok⟩ := (bind_ok_of direntry_ok).mp hok
  obtain ⟨-, hok⟩ := guard_bind_ok.mp hok
  rw [onInode_bind] at hok
  obtain ⟨_, s₁, hsize, hok⟩ := bind_ok.mp hok
  obtain ⟨_, s₂, hself, hok⟩ := bind_ok.mp hok
  obtain ⟨_, s₃, hone, htwo⟩ := bind_ok.mp hok
  have hdx : d ≠ x := fun heq => hne (by simp [heq])
  have hxdir : s.isDir x = true := by simpa [Fs.isDir] using hisDir
  obtain ⟨B, hA, hremoved⟩ := hlooks.remove hd hold
  have hx := h.lt_of_holds hd hold
  rw [hA] at htally
  obtain ⟨hroot, hfree, hused⟩ := htally.dropped hxdir hdx
  -- the counter of the directory that is left, and twice that of the one that goes
  have hused' : update s.links d (s.links d - 1) x = 2 + below s.isDir B x := by
    rw [update_of_ne hdx.symm, hused]
  have h₁ := (hremoved.decSize hd hsize).decNlinks hd (htally.pos hxdir) hself
  have h₂ := h₁.decNlinks hx (by omega) hone
  have h₃ := h₂.decNlinks hx (by rw [update_self]; omega) htwo
  rw [update_self, update_idem] at h₃
  exact ⟨_, _, _, _, h₃, (htally.dropDir hxdir).retire hroot hxdir hfree hused'⟩

end

theorem checkReplaceInode_ok {src dst : Nat} (hok : checkReplaceInode locked src dst s = .ok u t) :
    s = t ∧ dst ∉ locked ∧
      (src ≠ dst → s.isDir dst = s.isDir src ∧ (s.isDir src = true → (s.inodes dst).refs = 0)) := by
  unfold checkReplaceInode at hok
  obtain ⟨srcType, s', hsrc, hok⟩ := bind_ok.mp hok
  obtain ⟨-, rfl, rfl⟩ := readType_ok.mp hsrc
  obtain ⟨dstType, s', hdst, hok⟩ := bind_ok.mp hok
  obtain ⟨hlocked, rfl, rfl⟩ := readType_ok.mp hdst
  split at hok
  case isTrue heq =>
    obtain ⟨-, rfl⟩ := pure_ok.mp hok
    exact ⟨rfl, hlocked, fun hne => absurd (beq_iff_eq.mp heq) hne⟩
  split at hok
  case isTrue hboth =>
    obtain ⟨hsrcDir, hdstDir⟩ := Bool.and_eq_true_iff.mp hboth
    obtain ⟨entries, hn, hok⟩ := (bind_ok_of direntry_ok).mp hok
    obtain ⟨hempty, rfl⟩ := guard_ok.mp hok
    refine ⟨rfl, hlocked, fun _ => ⟨hdstDir.trans hsrcDir.symm, fun _ => refs_empty hn ?_⟩⟩
    simpa using hempty
  split at hok
  case isTrue => exact absurd hok fail_ok
  case isFalse hsrcDir =>
    split at hok
    case isTrue => exact absurd hok fail_ok
    case isFalse hdstDir =>
      obtain ⟨-, rfl⟩ := pure_ok.mp hok
      have hsrcDir : s.isDir src = false := Bool.eq_false_iff.mpr hsrcDir
      have hdstDir : s.isDir dst = false := Bool.eq_false_iff.mpr hdstDir
      exact ⟨rfl, hlocked, fun _ => ⟨hdstDir.trans hsrcDir.symm, fun h => by rw [hsrcDir] at h; cases h⟩⟩

end

/-! ## Renaming -/

/-- What a `rename` that replaces nothing, or a directory by another one, does to the graph and the counters. -/
inductive Renamed (s t : Fs) (self target src : Nat) : Option Nat → Prop
  | within (heq : self = target) (looks : t.Looks s.next s.isDir s.arcs s.links) : Renamed s t self target src none
  | withinOver {dst : Nat} {B : Multiset (Nat × Nat)} (heq : self = target) (hA : s.arcs = (self, dst) ::ₘ B)
      (hdst : s.isDir dst = true) (hempty : (s.inodes dst).refs = 0)
      (looks : t.Looks s.next s.isDir B (Function.update s.links self (s.links self - 1))) :
      Renamed s t self target src (some dst)
  | across {B : Multiset (Nat × Nat)} (hne : self ≠ target) (hA : s.arcs = (self, src) ::ₘ B) (htarget : src ≠ target)
      (hleaf : s.isDir src = false) (looks : t.Looks s.next s.isDir ((target, src) ::ₘ B) s.links) :
      Renamed s t self target src none
  | acrossDir {B : Multiset (Nat × Nat)} {L : Nat → Nat} (hne : self ≠ target) (hA : s.arcs = (self, src) ::ₘ B)
      (hself : src ≠ self) (hdir : s.isDir src = true) (hL : L = Function.update s.links self (s.links self - 1))
      (looks : t.Looks s.next s.isDir ((target, src) ::ₘ B) (Function.update L target (L target + 1))) :
      Renamed s t self target src none
  | acrossOver {dst : Nat} {C : Multiset (Nat × Nat)} (hne : self ≠ target)
      (hA : s.arcs = (self, src) ::ₘ (target, dst) ::ₘ C) (hself : src ≠ self) (htarget : src ≠ target)
      (hdir : s.isDir src = true) (hdst : s.isDir dst = true) (hempty : (s.inodes dst).refs = 0)
      (looks : t.Looks s.next s.isDir ((target, src) ::ₘ C) (Function.update s.links self (s.links self - 1))) :
      Renamed s t self target src (some dst)

section

variable {self target : Nat} {oldName newName : Name} {o : Option Nat}

theorem find_eq {d : Nat} (h : (s.inodes d).inner = .dir entries) :
    s.find d name = (entries.getEntry d name).map Prod.snd := by
  unfold Fs.find
  rw [h]
  show (entries.getEntry d name).bind (fun entry => some entry.2) = _
  cases entries.getEntry d name with
  | none | some entry => rfl

/-- The names of a `rename` stand for two different directories, if the second one stands for anything. -/
def Apart (s : Fs) (self : Nat) (oldName : Name) (target : Nat) (newName : Name) : Prop :=
  ∀ src dst, s.find self oldName = some src → s.find target newName = some dst → s.isDir src = true ∧ src ≠ dst

section

variable (h : s.Tally) (hself : self < s.next)
include h hself

theorem renameWithin_renamed (hapart : Apart s self oldName self newName)
    (hold : oldName ≠ dot ∧ oldName ≠ dotdot) (hnew : newName ≠ dot ∧ newName ≠ dotdot)
    (hok : renameWithin p self oldName newName s = .ok u t) :
    ∃ src, s.find self oldName = some src ∧ Renamed s t self self src (s.find self newName) := by
  obtain ⟨hlooks, htally⟩ := h.looks
  unfold renameWithin at hok
  obtain ⟨⟨srcIdx, src⟩, s', hentry, hok⟩ := bind_ok.mp hok
  obtain ⟨entries, hn, hsrc, rfl⟩ := getEntry_ok.mp hentry
  obtain ⟨srcType, s', hread, hok⟩ := bind_ok.mp hok
  obtain ⟨-, rfl, rfl⟩ := readType_ok.mp hread
  obtain ⟨entries', hn', hok⟩ := (bind_ok_of direntry_ok).mp hok
  obtain rfl := Inner.dir.inj (hn'.symm.trans hn)
  have hsrcHold := holds_of_getEntry hn hold.1 hold.2 hsrc
  refine ⟨src, by rw [find_eq hn, hsrc]; rfl, ?_⟩
  rw [find_eq hn]
  cases hdst : entries'.getEntry self newName with
  | none =>
    rw [hdst] at hok
    obtain rfl := onInode_ok.mp hok
    exact .within rfl (hlooks.substitute hself hsrcHold newName)
  | some entry =>
    obtain ⟨dstIdx, dst⟩ := entry
    rw [hdst] at hok
    have hdstHold := holds_of_getEntry hn hnew.1 hnew.2 hdst
    obtain ⟨hsrcDir, hne⟩ := hapart src dst (by rw [find_eq hn, hsrc]; rfl) (by rw [find_eq hn, hdst]; rfl)
    obtain ⟨_, s', hcheck, hok⟩ := bind_ok.mp hok
    obtain ⟨rfl, -, hreplace⟩ := checkReplaceInode_ok hcheck
    obtain ⟨hdstDir, hempty⟩ := hreplace hne
    rw [onInode_bind, onInode_bind] at hok
    obtain ⟨_, s', hsize, hok⟩ := bind_ok.mp hok
    rw [show (s.type src == .dir) = true from hsrcDir] at hok
    -- the two slots are different, so the first one is still there
    have hidx : srcIdx - 2 ≠ dstIdx - 2 := by
      intro heq
      obtain ⟨e, o, he, hslot⟩ := hsrcHold
      obtain ⟨e', o', he', hslot'⟩ := hdstHold
      obtain rfl := Inner.dir.inj (he.symm.trans he')
      rw [heq, hslot'] at hslot
      exact hne (congrArg Prod.snd (Option.some.inj (Option.some.inj hslot))).symm
    obtain ⟨B, hA, hremoved⟩ := hlooks.remove hself hdstHold
    have hkept := hsrcHold.removeEntry hidx
    rw [← Fs.upd_self s self (onDir fun dir => dir.removeEntry dstIdx)] at hkept
    have hdstDir := hdstDir.trans hsrcDir
    rw [hA] at htally
    exact .withinOver rfl hA hdstDir (hempty hsrcDir)
      (((hremoved.substitute hself hkept newName).decSize hself hsize).decNlinks hself (htally.pos hdstDir) hok)

/-- The part of a `rename` across directories that has locked both, followed by the change of the parent. -/
theorem renameAcross_renamed (htarget : target < s.next) (hne : self ≠ target)
    (hapart : Apart s self oldName target newName) (hold : oldName ≠ dot ∧ oldName ≠ dotdot)
    (hnew : newName ≠ dot ∧ newName ≠ dotdot) (htdir : s.isDir target = true)
    (hok : renameAcross p self target oldName newName s = .ok u t) :
    ∃ src, s.find self oldName = some src ∧ Renamed s t self target src (s.find target newName) := by
  obtain ⟨hlooks, htally⟩ := h.looks
  unfold renameAcross at hok
  obtain ⟨⟨srcIdx, src⟩, s', hentry, hok⟩ := bind_ok.mp hok
  obtain ⟨entries, hn, hsrc, rfl⟩ := getEntry_ok.mp hentry
  obtain ⟨-, hok⟩ := guard_bind_ok.mp hok
  obtain ⟨srcType, s', hread, hok⟩ := bind_ok.mp hok
  obtain ⟨hlocked, rfl, rfl⟩ := readType_ok.mp hread
  obtain ⟨_, s₁, hlock, hparent⟩ := bind_ok.mp hok
  obtain ⟨hsrcSelf, hsrcTarget⟩ : src ≠ self ∧ src ≠ target := by simpa using hlocked
  have hsrcHold := holds_of_getEntry hn hold.1 hold.2 hsrc
  have hsrcLt := h.lt_of_holds hself hsrcHold
  obtain ⟨B, hA, hremoved⟩ := hlooks.remove hself hsrcHold
  have htally' := hA ▸ htally
  -- the parent is not part of the graph
  have hset : ∀ {dir A L}, s₁.Looks s.next dir A L → t.Looks s.next dir A L := by
    intro dir A L h₁
    rcases when_ok.mp hparent with ⟨-, hparent⟩ | ⟨-, rfl⟩
    · obtain rfl := onInode_ok.mp hparent
      exact h₁.upd_dir hsrcLt _ (by rw [refs_setParent])
    · exact h₁
  unfold renameLocked at hlock
  obtain ⟨entries', hn', hlock⟩ := (bind_ok_of direntry_ok).mp hlock
  refine ⟨src, by rw [find_eq hn, hsrc]; rfl, ?_⟩
  rw [find_eq hn']
  cases hdst : entries'.getEntry target newName with
  | none =>
    rw [hdst] at hlock
    dsimp only at hlock
    rw [onInode_bind, onInode_bind] at hlock
    obtain ⟨_, s', hsize, hlock⟩ := bind_ok.mp hlock
    rw [onInode_bind] at hlock
    have hmoved := ((hremoved.append htarget htdir newName src).decSize hself hsize).incSize htarget
    rcases when_ok.mp hlock with ⟨hdir, hlock⟩ | ⟨hleaf, rfl⟩
    · obtain ⟨_, s', hdec, hinc⟩ := bind_ok.mp hlock
      obtain rfl := onInode_ok.mp hinc
      exact .acrossDir hne hA hsrcSelf hdir rfl
        (hset ((hmoved.decNlinks hself (htally'.pos hdir) hdec).incNlinks htarget))
    · exact .across hne hA hsrcTarget hleaf (hset hmoved)
  | some entry =>
    obtain ⟨dstIdx, dst⟩ := entry
    rw [hdst] at hlock
    dsimp only at hlock
    have hdstHold := holds_of_getEntry hn' hnew.1 hnew.2 hdst
    obtain ⟨hsrcDir, hne'⟩ := hapart src dst (by rw [find_eq hn, hsrc]; rfl) (by rw [find_eq hn', hdst]; rfl)
    obtain ⟨-, hlock⟩ := guard_bind_ok.mp hlock
    obtain ⟨_, s', hcheck, hlock⟩ := bind_ok.mp hlock
    obtain ⟨rfl, -, hreplace⟩ := checkReplaceInode_ok hcheck
    obtain ⟨hdstDir, hempty⟩ := hreplace hne'
    rw [onInode_bind, onInode_bind, onInode_bind] at hlock
    obtain ⟨_, s', hsize, hlock⟩ := bind_ok.mp hlock
    rw [show (s.type src == .dir) = true from hsrcDir] at hlock
    rw [← Fs.upd_of_ne (onDir fun dir => dir.removeEntry srcIdx) hne.symm] at hdstHold
    obtain ⟨C, rfl, hremoved'⟩ := hremoved.remove htarget hdstHold
    exact .acrossOver hne hA hsrcSelf hsrcTarget hsrcDir (hdstDir.trans hsrcDir) (hempty hsrcDir)
      (hset (((hremoved'.append htarget htdir newName src).decSize hself hsize).decNlinks hself
        (htally'.pos hsrcDir) hlock))

theorem rename_renamed (htarget : target < s.next)
    (hapart : Apart s self oldName target newName) (hok : rename p self oldName (.here target) newName s = .ok u t) :
    s.isDir target = true ∧ ∃ src, s.find self oldName = some src ∧ Renamed s t self target src
      (s.find target newName) := by
  unfold rename at hok
  obtain ⟨_, -, hok⟩ := (bind_ok_of checkDir_ok).mp hok
  obtain ⟨i, s', hsame, hok⟩ := bind_ok.mp hok
  obtain ⟨rfl, rfl⟩ := pure_ok.mp hsame
  obtain ⟨_, htdir, hok⟩ := (bind_ok_of checkDir_ok).mp hok
  obtain ⟨hold, hok⟩ := guard_bind_ok.mp hok
  obtain ⟨hnew, hrename⟩ := guard_bind_ok.mp hok
  refine ⟨htdir, ?_⟩
  split at hrename
  case isTrue heq =>
    obtain rfl := beq_iff_eq.mp heq
    exact renameWithin_renamed h hself hapart (by simpa using hold) (by simpa using hnew) hrename
  case isFalse hne =>
    exact renameAcross_renamed h hself htarget (by simpa using hne) hapart (by simpa using hold) (by simpa using hnew)
      htdir hrename

end

/-- The counters after a `rename`. -/
theorem Renamed.tally {src : Nat} (hr : Renamed s t self target src o) (h : s.Tally)
    (htdir : s.isDir target = true) : t.Tally := by
  obtain ⟨hlooks, htally⟩ := h.looks
  cases hr with
  | within heq looks => exact ⟨_, _, _, _, looks, htally⟩
  | withinOver heq hA hdst hempty looks => exact ⟨_, _, _, _, looks, (hA ▸ htally).dropDir hdst⟩
  | across hne hA htarget hleaf looks =>
    rw [hA] at htally
    have hpos : 0 < s.links src := by
      rw [htally.leaf src hleaf, named_cons, if_pos rfl]
      omega
    have := (htally.dropLeaf hleaf).addLeaf htdir hleaf
    rw [update_self, update_idem, Nat.sub_add_cancel hpos, update_eq_self] at this
    exact ⟨_, _, _, _, looks, this⟩
  | acrossDir hne hA hself hdir hL looks =>
    subst hL
    rw [hA] at htally
    obtain ⟨hroot, hfree, hused⟩ := htally.dropped hdir hself.symm
    exact ⟨_, _, _, _, looks, (htally.dropDir hdir).addDir htdir hdir hroot hfree (by rw [update_of_ne hself, hused])⟩
  | @acrossOver dst C hne hA hself htarget hdir hdst hempty looks =>
    rw [hA] at htally
    obtain ⟨hroot, hfree, hused⟩ := htally.dropped hdir hself.symm
    have hone := htally.dropDir hdir
    have hpos := hone.pos hdst
    rw [named_cons] at hfree
    rw [below_cons, if_neg (by simp [htarget.symm]), add_zero] at hused
    have := (hone.dropDir hdst).addDir htdir hdir hroot (by omega)
      (by rw [update_of_ne htarget, update_of_ne hself, hused])
    rw [update_self, update_idem, Nat.sub_add_cancel hpos, update_eq_self] at this
    exact ⟨_, _, _, _, looks, this⟩

/-- An inode that the root leads to. -/
def Fs.Reachable (s : Fs) (ino : Nat) : Prop := Leads s.arcs ROOT_INO ino

theorem Fs.arcs_of_empty {d : Nat} (h : (s.inodes d).refs = 0) (x : Nat) : (d, x) ∉ s.arcs := by
  intro hmem
  obtain ⟨e, -, he⟩ := mem_sum.mp hmem
  obtain ⟨y, hy, heq⟩ := mem_map.mp he
  obtain ⟨rfl, rfl⟩ := Prod.mk.inj heq
  rw [h] at hy
  exact absurd hy (notMem_zero y)

/-- A `rename` to another directory finds it in the tree, and not below what it moves. -/
def Upward (s : Fs) (self : Nat) (oldName : Name) (target : Nat) : Prop :=
  self ≠ target → s.Reachable target ∧ ∀ src, s.find self oldName = some src → ¬ Leads s.arcs src target

/-- What is reachable after a `rename`. -/
theorem Renamed.reaches {src ino : Nat} (hr : Renamed s t self target src o)
    (hup : Upward s self oldName target) (hsrc : s.find self oldName = some src) (hreach : s.Reachable ino)
    (hkept : o ≠ some ino) : t.Reachable ino := by
  -- an arc to `src` that comes from `target` now
  have hmove : ∀ (rest : Multiset (Nat × Nat)) (gone : Nat → Prop), self ≠ target → t.arcs = (target, src) ::ₘ rest →
      (∀ u v, (u, v) ∈ s.arcs → (u, v) ∈ rest ∨ v = src ∨ gone v) → (∀ y, gone y → (s.inodes y).refs = 0) →
      ¬ gone target → t.Reachable ino ∨ gone ino := by
    intro rest gone hne harcs hkeep hempty hgone
    obtain ⟨htarget, hsub⟩ := hup hne
    refine Leads.of_moved (fun u v huv => ?_) (harcs ▸ mem_cons_self _ _)
      (fun y hy => Fs.arcs_of_empty (hempty y hy)) hgone htarget (hsub src hsrc) hreach
    exact (hkeep u v huv).imp_left fun h => harcs ▸ mem_cons_of_mem h
  -- an arc to `src` is taken away
  have hcons : ∀ {d u v : Nat} {rest : Multiset (Nat × Nat)}, (u, v) ∈ (d, src) ::ₘ rest → (u, v) ∈ rest
    ∨ v = src := by
    intro d u v rest huv
    rcases mem_cons.mp huv with heq | huv
    · exact .inr (Prod.mk.inj heq).2
    · exact .inl huv
  cases hr with
  | within heq looks =>
    rw [Fs.Reachable, looks.arcs]
    exact hreach
  | @withinOver dst B heq hA hdst hempty looks =>
    have hkeep : ∀ u v, (u, v) ∈ s.arcs → (u, v) ∈ t.arcs ∨ v = dst := by
      intro u v huv
      rw [hA] at huv
      rw [looks.arcs]
      rcases mem_cons.mp huv with heq | huv
      · exact .inr (Prod.mk.inj heq).2
      · exact .inl huv
    exact (Leads.of_kept hkeep (fun y hy => hy ▸ Fs.arcs_of_empty hempty) hreach).resolve_right
      fun heq => hkept (by rw [heq])
  | across hne hA htarget hleaf looks | acrossDir hne hA hself hdir hL looks =>
    refine (hmove _ (fun _ => False) hne looks.arcs (fun u v huv => ?_) nofun id).resolve_right id
    exact (hcons (hA ▸ huv)).imp_right .inl
  | @acrossOver dst C hne hA hself htarget hdir hdst hempty looks =>
    have hmem : (target, dst) ∈ s.arcs := by
      rw [hA]
      exact mem_cons_of_mem (mem_cons_self _ _)
    refine (hmove C (fun y => y = dst) hne looks.arcs (fun u v huv => ?_) (fun y hy => hy ▸ hempty) ?_).resolve_right
      fun heq => hkept (by rw [heq])
    · rcases hcons (hA ▸ huv) with huv | hv
      · rcases mem_cons.mp huv with heq | huv
        · exact .inr (.inr (Prod.mk.inj heq).2)
        · exact .inl huv
      · exact .inr (.inl hv)
    · rintro rfl
      exact Fs.arcs_of_empty hempty _ hmem

end

/-! ## Runs -/

inductive Op where
  | create (self : Nat) (name : Name) (type : InodeType)
  | mknod (self : Nat) (name : Name) (block : Bool)
  | link (self : Nat) (old : Handle) (name : Name)
  | unlink (self : Nat) (name : Name)
  | rmdir (self : Nat) (name : Name)
  | rename (self : Nat) (oldName : Name) (target : Handle) (newName : Name)

namespace Op

def run (p : Profile) : Op → Comp Fs Error Unit
  | create self name type => do let _ ← Ramfs.create self name type
  | mknod self name block => do let _ ← Ramfs.mknod self name block
  | link self old name => Ramfs.link self old name
  | unlink self name => Ramfs.unlink p self name
  | rmdir self name => Ramfs.rmdir p self name
  | rename self oldName target newName => Ramfs.rename p self oldName target newName

/-- The inodes that the caller has. -/
def handles : Op → List Nat
  | create self _ _ => [self]
  | mknod self _ _ => [self]
  | link self (.here old) _ => [self, old]
  | link self .elsewhere _ => [self]
  | unlink self _ => [self]
  | rmdir self _ => [self]
  | rename self _ (.here target) _ => [self, target]
  | rename self _ .elsewhere _ => [self]

def Held (s : Fs) (op : Op) : Prop := ∀ ino ∈ op.handles, ino < s.next

instance (s : Fs) (op : Op) : Decidable (op.Held s) := inferInstanceAs (Decidable (∀ ino ∈ op.handles, ino < s.next))

def next (p : Profile) (op : Op) (s : Fs) : Fs :=
  match op.run p s with
  | .ok _ t => t
  | _ => s

/-- A `rename` replaces nothing or a directory by another one, and moves nothing out of the tree. -/
def Orderly (s : Fs) : Op → Prop
  | rename self oldName (.here target) newName =>
    Apart s self oldName target newName ∧ Upward s self oldName target
  | _ => True

variable {op : Op}

/-- The counters agree after every operation that does not rename onto a file or onto its own inode. -/
theorem tally (h : s.Tally) (hheld : op.Held s) (hord : op.Orderly s) (hok : op.run p s = .ok u t) : t.Tally := by
  cases op with
  | create self name type =>
    obtain ⟨_, s', hcreate, hpure⟩ := bind_ok.mp hok
    obtain ⟨-, rfl⟩ := pure_ok.mp hpure
    exact create_tally h (hheld self (by simp [handles])) hcreate
  | mknod self name block =>
    obtain ⟨_, s', hmknod, hpure⟩ := bind_ok.mp hok
    obtain ⟨-, rfl⟩ := pure_ok.mp hpure
    exact mknod_tally h (hheld self (by simp [handles])) hmknod
  | link self old name =>
    cases old with
    | here ino => exact link_tally h (hheld self (by simp [handles])) (hheld ino (by simp [handles])) hok
    | elsewhere =>
      obtain ⟨_, s', -, hok⟩ := bind_ok.mp hok
      obtain ⟨_, s', hsame, -⟩ := bind_ok.mp hok
      exact absurd hsame fail_ok
  | unlink self name => exact unlink_tally h (hheld self (by simp [handles])) hok
  | rmdir self name => exact rmdir_tally h (hheld self (by simp [handles])) hok
  | rename self oldName target newName =>
    cases target with
    | here target =>
      obtain ⟨htdir, src, -, hr⟩ := rename_renamed h (hheld self (by simp [handles]))
        (hheld target (by simp [handles])) hord.1 hok
      exact hr.tally h htdir
    | elsewhere =>
      obtain ⟨_, s', -, hok⟩ := bind_ok.mp hok
      obtain ⟨_, s', hsame, -⟩ := bind_ok.mp hok
      exact absurd hsame fail_ok

end Op

/-- The states that successful operations lead to from a new file system, if each of them is as `cond` says. -/
inductive Run (p : Profile) (cond : Fs → Op → Prop) : Fs → Prop
  | new : Run p cond .new
  | step {s t : Fs} {op : Op} {u : Unit} (h : Run p cond s) (hheld : op.Held s) (hcond : cond s op)
      (hok : op.run p s = .ok u t) : Run p cond t

/-- The entries of all directories that refer to an inode. -/
def Fs.names (s : Fs) (ino : Nat) : Nat := named s.arcs ino

/-- The entries of a directory that refer to directories. -/
def Fs.subdirs (s : Fs) (ino : Nat) : Nat := below s.isDir s.arcs ino

/-- A directory that is neither the root nor named. -/
def Fs.Removed (s : Fs) (ino : Nat) : Prop := s.names ino = 0 ∧ ino ≠ ROOT_INO

/-- The link counts of all inodes. -/
def Fs.LinksCounted (s : Fs) : Prop :=
  ∀ ino, if s.isDir ino then s.links ino = 2 + s.subdirs ino ∨ s.Removed ino else s.links ino = s.names ino

theorem Fs.new_inodes {ino : Nat} (h : ino ≠ ROOT_INO) : Fs.new.inodes ino = blank :=
  show update (fun _ => blank) ROOT_INO (newDir ROOT_INO) ino = blank from update_of_ne h _ _

theorem Fs.new_tally : Fs.new.Tally := by
  have hdir : ∀ ino, Fs.new.isDir ino = true ↔ ino = ROOT_INO := by
    intro ino
    by_cases h : ino = ROOT_INO
    · subst h
      exact ⟨fun _ => rfl, fun _ => rfl⟩
    · rw [isDir, Fs.type, new_inodes h]
      exact ⟨nofun, fun h' => absurd h' h⟩
  refine ⟨_, _, 0, _, ⟨rfl, fun ino hino => new_inodes ?_, rfl, by decide, rfl⟩, ⟨⟨rfl, rfl⟩, nofun, ?_, ?_, ?_⟩⟩
  · rintro rfl
    exact absurd hino (by decide)
  · exact fun _ _ => Nat.zero_le 1
  · intro ino h
    obtain rfl := (hdir ino).mp h
    exact .inl rfl
  · intro ino h
    have hne : ino ≠ ROOT_INO := fun heq => by rw [(hdir ino).mpr heq] at h; cases h
    rw [links, new_inodes hne]
    rfl

theorem Run.tally (h : Run p (fun s op => op.Orderly s) s) : s.Tally := by
  induction h with
  | new => exact Fs.new_tally
  | step _ hheld hcond hok ih => exact Op.tally ih hheld hcond hok

/-- **Link counts and reachability** along every run in which a `rename` replaces nothing, or a directory by another
one, and takes what it moves to a directory of the tree that is not below it. -/
theorem nlinks_counted {p : Profile} {s : Fs} (h : Run p (fun s op => op.Orderly s) s) : s.LinksCounted ∧
      ∀ self oldName target newName u t ino, (Op.rename self oldName (.here target) newName).Held s →
        (Op.rename self oldName (.here target) newName).Orderly s →
        rename p self oldName (.here target) newName s = .ok u t →
        s.Reachable ino → s.find target newName ≠ some ino → t.Reachable ino := by
  have htally := h.tally
  refine ⟨fun ino => ?_, ?_⟩
  · obtain ⟨-, hcount⟩ := htally.looks
    split
    case isTrue hdir =>
      rcases hcount.dirs ino hdir with hlinks | ⟨-, hnone, hroot⟩
      · exact .inl hlinks
      · exact .inr ⟨hnone, hroot⟩
    case isFalse hleaf => exact hcount.leaf ino (by simpa using hleaf)
  · intro self oldName target newName u t ino hheld hord hok hreach hkept
    obtain ⟨-, src, hsrc, hr⟩ := rename_renamed htally (hheld self (by simp [Op.handles]))
      (hheld target (by simp [Op.handles])) hord.1 hok
    exact hr.reaches hord.2 hsrc hreach hkept

theorem Run.next {cond : Fs → Op → Prop} (op : Op) (h : Run p cond s) (hheld : op.Held s)
    (hcond : cond s op) (hok : op.run p s = .ok () (op.next p s)) : Run p cond (op.next p s) :=
  .step h hheld hcond hok

/-- A directory and a file, in the root. -/
def dirAndFile : Fs := Op.next .dev (.create ROOT_INO [102] .file) (Op.next .dev (.create ROOT_INO [97] .dir) .new)

/-- The file is moved into the directory. -/
theorem nlinks_counted_moved :
    ∃ t, rename .dev ROOT_INO [102] (.here 2) [103] dirAndFile = .ok () t ∧ dirAndFile.LinksCounted ∧
      t.Reachable 3 := by
  have hrun : Run .dev (fun s op => op.Orderly s) dirAndFile :=
    (Run.new.next (.create ROOT_INO [97] .dir) (by decide) trivial rfl).next
      (.create ROOT_INO [102] .file) (by decide)
      trivial rfl
  have hreach : ∀ ino, ino = 2 ∨ ino = 3 → dirAndFile.Reachable ino := by
    rintro ino (rfl | rfl)
    · exact .single (by decide)
    · exact .single (by decide)
  have hfinal : ∀ x, (3, x) ∉ dirAndFile.arcs := Fs.arcs_of_empty rfl
  obtain ⟨hcounted, hkept⟩ := nlinks_counted hrun
  refine ⟨_, rfl, hcounted, hkept ROOT_INO [102] 2 [103] () _ 3 (by decide)
    ⟨?_, fun _ => ⟨hreach 2 (.inl rfl), ?_⟩⟩ rfl
    (hreach 3 (.inr rfl)) (by decide)⟩
  · intro src dst _ hdst
    cases hdst
  · intro src hsrc hleads
    obtain rfl : 3 = src := Option.some.inj hsrc
    exact absurd (hleads.eq_of_final hfinal) (by decide)

/-- Two files and a second name of the one that is replaced. -/
def replaced : Fs :=
  Op.next .dev (.rename ROOT_INO [97] (.here ROOT_INO) [98]) <| Op.next .dev (.link ROOT_INO (.here 3) [99]) <|
    Op.next .dev (.create ROOT_INO [98] .file) <| Op.next .dev (.create ROOT_INO [97] .file) .new

/-- A directory in another one. -/
def nested : Fs := Op.next .dev (.create 2 [98] .dir) (Op.next .dev (.create ROOT_INO [97] .dir) .new)

/-- **A replaced file keeps its count**, although it has lost a name; and a directory can be moved below itself, out
of the tree. -/
theorem rename_keeps_nlinks :
    (Run .dev (fun _ _ => True) replaced ∧ replaced.isDir 3 = false ∧ replaced.links 3 = 2 ∧ replaced.names 3 = 1) ∧
      ∃ t, Run .dev (fun _ _ => True) nested ∧ rename .dev ROOT_INO [97] (.here 3) [99] nested = .ok () t ∧
        nested.Reachable 2 ∧ nested.find 3 [99] = none ∧ ¬ t.Reachable 2 := by
  refine ⟨⟨?_, by decide, by decide, by decide⟩, _, ?_, rfl, .single (by decide), by decide, fun hreach => ?_⟩
  · exact (((Run.new.next _ (by decide) trivial rfl).next _ (by decide) trivial rfl).next _ (by decide)
      trivial rfl).next _
      (by decide) trivial rfl
  · exact (Run.new.next _ (by decide) trivial rfl).next _ (by decide) trivial rfl
  · have := hreach.eq_of_final (Fs.arcs_of_empty rfl)
    exact absurd this (by decide)

end AsterKernel.Ramfs
