import AsterKernel.Vfs.Dentry

/-!
# `Vfs.Coherence` — the cached children agree with the file system

A file system is any whose operations are those on a map from a directory and a name to an inode (`Lawful`). The cache
agrees with it because no two dentries have the same directory (`Sound.unique`): an operation through one of them
would leave the children of the other behind. That in turn needs that a directory which still has a name is found in
the cache under it, if it has a dentry at all (`Sound.cached`).
-/

namespace AsterKernel.Vfs

open Lib Lib.Comp Function Mount

variable {σ ι : Type} [DecidableEq ι] {self newDir d : Nat} {s t : Mount σ ι} {name oldName newName : Name}
  {held : Nat → Bool} {i : ι}

/-! ## File systems as maps -/

/-- What names stand for in each directory, which inodes are directories, and which have been made so far. -/
structure View (ι : Type) where
  names : ι → Name → Option ι
  dir : ι → Bool
  born : ι → Prop

namespace View

variable {v w : View ι} {d d' e i root : ι} {n n' m : Name}

def set (v : View ι) (d : ι) (n : Name) (o : Option ι) : View ι :=
  { v with names := Function.update v.names d (Function.update (v.names d) n o) }

theorem set_self (v : View ι) (d : ι) (n : Name) (o : Option ι) : (v.set d n o).names d n = o := by
  simp [set]

theorem set_of_ne (v : View ι) (o : Option ι) (h : ¬ (e = d ∧ m = n)) : (v.set d n o).names e m = v.names e m := by
  show update v.names d _ e m = _
  by_cases he : e = d
  · subst he
    have hm : m ≠ n := fun hm => h ⟨rfl, hm⟩
    rw [update_self, update_of_ne hm]
  · rw [update_of_ne he]

/-- What a name stands for was assigned, or it stood for it before. -/
theorem set_cases {o : Option ι} {j : ι} (h : (v.set d n o).names e m = some j) :
    (e = d ∧ m = n ∧ o = some j) ∨ ¬ (e = d ∧ m = n) ∧ v.names e m = some j := by
  by_cases hem : e = d ∧ m = n
  · obtain ⟨rfl, rfl⟩ := hem
    exact .inl ⟨rfl, rfl, (set_self v e m o).symm.trans h⟩
  · exact .inr ⟨hem, (set_of_ne v o hem).symm.trans h⟩

/-- A name for a new inode. -/
def Made (d : ι) (n : Name) (v : View ι) (i : ι) (w : View ι) : Prop :=
  v.names d n = none ∧ ¬ v.born i ∧
    ∃ dir, w = { v.set d n (some i) with dir := Function.update v.dir i dir, born := fun j => j = i ∨ v.born j }

/-- A name is moved; between two names of one inode nothing need happen. -/
def Renamed (d : ι) (n : Name) (d' : ι) (n' : Name) (v w : View ι) : Prop :=
  ∃ i, v.names d n = some i ∧
    (w = (v.set d n none).set d' n' (some i) ∨ (v.names d' n' = some i ∧ w = v))

/-- A tree, as far as directories are concerned: none has two names, the root has none. -/
structure Good (v : View ι) (root : ι) : Prop where
  born : v.born root
  rootDir : v.dir root = true
  named : ∀ d n i, v.names d n = some i → v.born i
  free : ∀ d n, v.names d n ≠ some root
  once : ∀ d n d' n' i, v.names d n = some i → v.names d' n' = some i → v.dir i = true → d = d' ∧ n = n'

namespace Good

section

variable (h : v.Good root)
include h

/-- A name that stands for nothing any more. -/
theorem unset (d : ι) (n : Name) : (v.set d n none).Good root := by
  have hname : ∀ e m j, (v.set d n none).names e m = some j → v.names e m = some j := by
    intro e m j hj
    rcases set_cases hj with ⟨-, -, hnone⟩ | ⟨-, hj⟩
    · cases hnone
    · exact hj
  exact ⟨h.born, h.rootDir, fun e m j hj => h.named e m j (hname e m j hj), fun e m hj => h.free e m
    (hname e m root hj),
    fun e m e' m' j hj hj' => h.once e m e' m' j (hname e m j hj) (hname e' m' j hj')⟩

theorem assign (hborn : v.born i) (hroot : i ≠ root)
    (hfree : v.dir i = true → ∀ e m, v.names e m ≠ some i) (d : ι) (n : Name) : (v.set d n (some i)).Good root := by
  refine ⟨h.born, h.rootDir, ?_, ?_, ?_⟩
  · intro e m j hj
    rcases set_cases hj with ⟨-, -, ⟨⟩⟩ | ⟨-, hj⟩
    · exact hborn
    · exact h.named e m j hj
  · intro e m hj
    rcases set_cases hj with ⟨-, -, ⟨⟩⟩ | ⟨-, hj⟩
    · exact hroot rfl
    · exact h.free e m hj
  · intro e m e' m' j hj hj' hdir
    rcases set_cases hj with ⟨rfl, rfl, ⟨⟩⟩ | ⟨-, hold⟩
    · rcases set_cases hj' with ⟨rfl, rfl, -⟩ | ⟨-, hold'⟩
      · exact ⟨rfl, rfl⟩
      · exact absurd hold' (hfree hdir e' m')
    · rcases set_cases hj' with ⟨-, -, ⟨⟩⟩ | ⟨-, hold'⟩
      · exact absurd hold (hfree hdir e m)
      · exact h.once e m e' m' j hold hold' hdir

theorem made (hm : Made d n v i w) : w.Good root := by
  obtain ⟨-, hnew, dir, rfl⟩ := hm
  have hroot : root ≠ i := fun heq => hnew (heq ▸ h.born)
  have hfree : ∀ e m, v.names e m ≠ some i := fun e m hi => hnew (h.named e m i hi)
  have hgood : Good ⟨v.names, update v.dir i dir, fun j => j = i ∨ v.born j⟩ root := by
    refine ⟨.inr h.born, (update_of_ne hroot ..).trans h.rootDir, fun e m j hj => .inr (h.named e m j hj), h.free, ?_⟩
    intro e m e' m' j hj hj' hdir
    have hne : j ≠ i := fun heq => hfree e m (heq ▸ hj)
    exact h.once e m e' m' j hj hj' ((update_of_ne hne ..).symm.trans hdir)
  exact hgood.assign (.inl rfl) hroot.symm (fun _ => hfree) d n

theorem renamed (hr : Renamed d n d' n' v w) : w.Good root := by
  obtain ⟨i, hi, rfl | ⟨-, rfl⟩⟩ := hr
  · refine (h.unset d n).assign (h.named d n i hi) (fun heq => h.free d n (heq ▸ hi)) ?_ d' n'
    intro hdir e m hj
    rcases set_cases hj with ⟨-, -, hnone⟩ | ⟨hem, hj⟩
    · cases hnone
    · exact hem (h.once e m d n i hj hi hdir)
  · exact h

end

end Good

end View

/-- A computation changes the view as said if it succeeds, and not at all if it fails. -/
def Obeys {α : Type} (view : σ → View ι) (m : Comp σ Error α) (spec : View ι → α → View ι → Prop) : Prop :=
  ∀ s, match m s with
    | .ok a t => spec (view s) a (view t)
    | .err _ t => view t = view s
    | .panic => True

omit [DecidableEq ι] in
theorem Obeys.mono {α : Type} {view : σ → View ι} {m : Comp σ Error α} {spec spec' : View ι → α → View ι → Prop}
    (h : Obeys view m spec) (himp : ∀ {v a w}, spec v a w → spec' v a w) : Obeys view m spec' := by
  intro s
  have := h s
  split at this
  · exact himp this
  · exact this
  · trivial

/-- The operations of the file system are those on a map. It is never asked for "." or "..", which it may know or not. -/
structure Lawful (ops : InodeOps σ ι) (view : σ → View ι) : Prop where
  type : ∀ s i, (ops.type s i == .dir) = (view s).dir i
  executable : ∀ i, Obeys view (ops.executable i) fun v _ w => w = v
  create : ∀ d n type, Obeys view (ops.create d n type) (View.Made d n)
  mknod : ∀ d n, Obeys view (ops.mknod d n) (View.Made d n)
  lookup : ∀ d n, n ≠ dot → n ≠ dotdot → Obeys view (ops.lookup d n) fun v i w => v.names d n = some i ∧ w = v
  link : ∀ d i n, Obeys view (ops.link d i n) fun v _ w =>
    v.names d n = none ∧ v.dir i = false ∧ w = v.set d n (some i)
  unlink : ∀ d n, Obeys view (ops.unlink d n) fun v _ w =>
    (∃ i, v.names d n = some i ∧ v.dir i = false) ∧ w = v.set d n none
  rmdir : ∀ d n, Obeys view (ops.rmdir d n) fun v _ w =>
    (∃ i, v.names d n = some i ∧ v.dir i = true ∧ ∀ m, v.names i m = none) ∧ w = v.set d n none
  rename : ∀ d n d' n', Obeys view (ops.rename d n d' n') fun v _ w => View.Renamed d n d' n' v w

/-! ## The cache -/

/-- The cache and the file system agree. -/
structure Sound (v : View ι) (s : Mount σ ι) : Prop where
  good : v.Good (s.inode Mount.root)
  rootLt : Mount.root < s.next
  fresh : ∀ d, s.next ≤ d → ∀ n, s.child d n = none
  lt : ∀ D n d, s.child D n = some d → d < s.next
  coherent : ∀ D n d, s.child D n = some d →
    v.names (s.inode D) n = some (s.inode d) ∧ s.nameAndParent d = some (n, D)
  dcached : ∀ D n d, s.child D n = some d → s.dcache (n, D) = some d
  born : ∀ d < s.next, v.born (s.inode d)
  unique : ∀ d < s.next, ∀ d' < s.next, s.inode d = s.inode d' → v.dir (s.inode d) = true → d = d'
  cached : ∀ d < s.next, v.dir (s.inode d) = true → ∀ p n, v.names p n = some (s.inode d) →
    ∃ D, s.inode D = p ∧ s.child D n = some d

namespace Sound

variable {v w : View ι} {s : Mount σ ι} {t : Mount σ ι}

omit [DecidableEq ι] in
theorem parent_lt (h : Sound v s) {D : Nat} {n : Name} (hc : s.child D n = some d) : D < s.next := by
  by_contra hge
  rw [h.fresh D (by omega)] at hc
  cases hc

omit [DecidableEq ι] in
/-- Dentries of one directory. -/
theorem eq_of_inode (h : Sound v s) (hself : self < s.next) (hdir : v.dir (s.inode self) = true) {D : Nat} {n : Name}
    (hc : s.child D n = some d) (heq : s.inode D = s.inode self) : D = self :=
  h.unique D (h.parent_lt hc) self hself heq (heq ▸ hdir)

omit [DecidableEq ι] in
/-- **A child leaves its name**, for another one if it is `moved`. A directory that the new name stands for has no other
dentry than the one that is moved there. -/
theorem relink (h : Sound v s) (moved : Option Nat) (hself : self < s.next)
    (hdir : v.dir (s.inode self) = true) (hnewDir : newDir < s.next) (hdir' : v.dir (s.inode newDir) = true)
    (hmoved : ∀ d, moved = some d → s.child self oldName = some d ∧
      w.names (s.inode newDir) newName = some (s.inode d) ∧ t.dcache (newName, newDir) = some d)
    (hold : ∀ j, w.names (s.inode self) oldName = some j → w.dir j = false)
    (hnew : ∀ e < s.next, w.names (s.inode newDir) newName = some (s.inode e) → w.dir (s.inode e) = true →
      moved = some e) (hother : ∀ e m, ¬ (e = s.inode self ∧ m = oldName) → ¬ (e = s.inode newDir ∧ m = newName) →
      w.names e m = v.names e m)
    (hgood : w.Good (s.inode root)) (hdirs : w.dir = v.dir) (hborn : w.born = v.born) (hnext : t.next = s.next)
    (hinode : ∀ e, t.inode e = s.inode e)
    (hlink : ∀ e, t.nameAndParent e = if moved = some e then some (newName, newDir) else s.nameAndParent e)
    (hchild : ∀ e m, t.child e m = if e = newDir ∧ m = newName then moved
      else if e = self ∧ m = oldName then none else s.child e m)
    (hdcache : ∀ k, k ≠ (oldName, self) → k ≠ (newName, newDir) → t.dcache k = s.dcache k) : Sound w t := by
  have hcases : ∀ D n c, t.child D n = some c → (D = newDir ∧ n = newName ∧ moved = some c) ∨
      (s.child D n = some c ∧ ¬ (D = self ∧ n = oldName) ∧ ¬ (D = newDir ∧ n = newName) ∧
        w.names (s.inode D) n = v.names (s.inode D) n) := by
    intro D n c hc
    rw [hchild] at hc
    split at hc
    case isTrue heq => exact .inl ⟨heq.1, heq.2, hc⟩
    case isFalse hn =>
      split at hc
      case isTrue heq => cases hc
      case isFalse ho =>
        refine .inr ⟨hc, ho, hn, hother _ _ (fun heq => ho ⟨?_, heq.2⟩) fun heq => hn ⟨?_, heq.2⟩⟩
        · exact h.eq_of_inode hself hdir hc heq.1
        · exact h.eq_of_inode hnewDir hdir' hc heq.1
  have hkept : ∀ D n c, s.child D n = some c → ¬ (D = self ∧ n = oldName) → moved ≠ some c := by
    intro D n c hc hn hm
    have := (h.coherent D n c hc).2.symm.trans (h.coherent self oldName c (hmoved c hm).1).2
    cases this
    exact hn ⟨rfl, rfl⟩
  refine ⟨?_, ?_, ?_, ?_, ?_, ?_, ?_, ?_, ?_⟩
  · rw [hinode]
    exact hgood
  · rw [hnext]
    exact h.rootLt
  · intro e he n
    rw [hnext] at he
    rw [hchild, if_neg (by omega), if_neg (by omega)]
    exact h.fresh e he n
  · intro D n c hc
    rw [hnext]
    rcases hcases D n c hc with ⟨-, -, hm⟩ | ⟨hc, -⟩
    · exact h.lt self oldName c (hmoved c hm).1
    · exact h.lt D n c hc
  · intro D n c hc
    rw [hinode, hinode, hlink]
    rcases hcases D n c hc with ⟨rfl, rfl, hm⟩ | ⟨hc, ho, -, hsame⟩
    · rw [if_pos hm]
      exact ⟨(hmoved c hm).2.1, rfl⟩
    · rw [if_neg (hkept D n c hc ho), hsame]
      exact h.coherent D n c hc
  · intro D n c hc
    rcases hcases D n c hc with ⟨rfl, rfl, hm⟩ | ⟨hc, ho, hn, -⟩
    · exact (hmoved c hm).2.2
    · rw [hdcache _ (fun heq => ho ⟨(Prod.mk.inj heq).2, (Prod.mk.inj heq).1⟩)
        fun heq => hn ⟨(Prod.mk.inj heq).2, (Prod.mk.inj heq).1⟩]
      exact h.dcached D n c hc
  · intro e he
    rw [hinode, hborn]
    exact h.born e (hnext ▸ he)
  · intro e he e' he'
    rw [hinode, hinode, hdirs]
    exact h.unique e (hnext ▸ he) e' (hnext ▸ he')
  · intro e he hed p n hp
    rw [hinode] at hed hp
    rw [hnext] at he
    by_cases hpn : p = s.inode newDir ∧ n = newName
    · obtain ⟨rfl, rfl⟩ := hpn
      exact ⟨newDir, hinode newDir, by rw [hchild, if_pos ⟨rfl, rfl⟩, hnew e he hp hed]⟩
    · have hpo : ¬ (p = s.inode self ∧ n = oldName) := by
        rintro ⟨rfl, rfl⟩
        rw [hold _ hp] at hed
        cases hed
      rw [hother p n hpo hpn] at hp
      obtain ⟨D, rfl, hc⟩ := h.cached e he (by rwa [← hdirs]) p n hp
      refine ⟨D, hinode D, ?_⟩
      rw [hchild, if_neg fun heq => hpn ⟨by rw [heq.1], heq.2⟩, if_neg fun heq => hpo ⟨by rw [heq.1], heq.2⟩]
      exact hc

omit [DecidableEq ι] in
theorem alive (h : Sound v s) (held : Nat → Bool) (hc : s.child self name = some d) : s.alive held d = true := by
  have hkey : s.key d = (name, self) := by rw [Mount.key, (h.coherent _ _ _ hc).2]
  rw [Mount.alive, hkey, h.dcached _ _ _ hc, beq_self_eq_true, Bool.true_or]

omit [DecidableEq ι] in
theorem findDentry (h : Sound v s) (held : Nat → Bool) (self : Nat) (name : Name) :
    findDentry held self name s = .ok (s.child self name) s := by
  unfold Vfs.findDentry
  rw [get_bind]
  cases hc : s.child self name with
  | none => rfl
  | some d =>
    dsimp only
    rw [if_pos (h.alive held hc)]
    rfl

omit [DecidableEq ι] in
theorem withFs (h : Sound v s) (fs : σ) : Sound v { s with fs := fs } :=
  ⟨h.good, h.rootLt, h.fresh, h.lt, h.coherent, h.dcached, h.born, h.unique, h.cached⟩

end Sound

/-! ## Steps of the calls -/

section

variable {v w : View ι} {name newName : Name} {ops : InodeOps σ ι} {α : Type}

/-- The state after `newDentry` and `insertDentry`. -/
def Mount.entered (s : Mount σ ι) (i : ι) (name : Name) (self : Nat) : Mount σ ι :=
  ((s.push i name self).setDcache (name, self) (some s.next)).setChild self name (some s.next)

omit [DecidableEq ι] in
theorem insertDentry_push (hcache : ops.cacheable i = true) :
    insertDentry ops self s.next (s.push i name self) = .ok () (s.entered i name self) := by
  have hinode : (s.push i name self).inode s.next = i := by rw [Mount.push_inode, if_pos rfl]
  have hlink : (s.push i name self).nameAndParent s.next = some (name, self) :=
    by rw [Mount.push_nameAndParent, if_pos rfl]
  have hkey : (s.push i name self).key s.next = (name, self) := by rw [Mount.key, hlink]
  have hname : (s.push i name self).name s.next = name := by rw [Mount.name, hlink]
  unfold insertDentry
  rw [get_bind, hinode, hcache]
  show Outcome.ok () (((s.push i name self).setDcache ((s.push i name self).key s.next) (some s.next)).setChild self
    ((s.push i name self).name s.next) (some s.next)) = _
  rw [hkey, hname]
  rfl

omit [DecidableEq ι] in
theorem insertDentry_moved (hcache : ops.cacheable (s.inode d) = true) :
    insertDentry ops newDir d (s.setNameAndParent d newName newDir) =
      .ok () (((s.setNameAndParent d newName newDir).setDcache (newName, newDir) (some d)).setChild newDir newName
        (some d)) := by
  have hlink : (s.setNameAndParent d newName newDir).nameAndParent d = some (newName, newDir) := by
    rw [setNameAndParent_nameAndParent, if_pos rfl]
  have hkey : (s.setNameAndParent d newName newDir).key d = (newName, newDir) := by rw [key, hlink]
  have hname : (s.setNameAndParent d newName newDir).name d = newName := by rw [name, hlink]
  unfold insertDentry
  rw [get_bind, setNameAndParent_inode, hcache]
  show Outcome.ok () (((s.setNameAndParent d newName newDir).setDcache ((s.setNameAndParent d newName newDir).key d)
    (some d)).setChild newDir ((s.setNameAndParent d newName newDir).name d) (some d)) = _
  rw [hkey, hname]

omit [DecidableEq ι] in
theorem newDentry_bind (i : ι) (name : Name) (self : Nat) (f : Nat → Comp (Mount σ ι) Error α) (s : Mount σ ι) :
    (newDentry i name self >>= f) s = f s.next (s.push i name self) := id rfl

omit [DecidableEq ι] in
/-- **A new dentry.** -/
theorem Sound.entered (h : Sound v s) (hself : self < s.next) (hdir : v.dir (s.inode self) = true)
    (hnone : s.child self name = none) (hname : w.names (s.inode self) name = some i)
    (hother : ∀ e m, ¬ (e = s.inode self ∧ m = name) → w.names e m = v.names e m)
      (hgood : w.Good (s.inode Mount.root))
    (hdirs : ∀ d < s.next, w.dir (s.inode d) = v.dir (s.inode d)) (hborn : ∀ j, v.born j → w.born j)
    (hnew : w.dir i = true → ∀ d < s.next, s.inode d ≠ i) : Sound w (s.entered i name self) := by
  have hnext : (s.entered i name self).next = s.next + 1 := rfl
  have hinode : ∀ e, (s.entered i name self).inode e = if e = s.next then i else s.inode e := by
    intro e
    rw [Mount.entered, Mount.setChild_inode, Mount.setDcache_inode, Mount.push_inode]
  have hlink : ∀ e, (s.entered i name self).nameAndParent e =
      if e = s.next then some (name, self) else s.nameAndParent e := by
    intro e
    rw [Mount.entered, Mount.setChild_nameAndParent, Mount.setDcache_nameAndParent, Mount.push_nameAndParent]
  have hchild : ∀ e m, (s.entered i name self).child e m =
      if e = self ∧ m = name then some s.next else s.child e m := by
    intro e m
    rw [Mount.entered, Mount.setChild_child, Mount.setDcache_child, Mount.push_child]
    by_cases he : e = s.next
    · rw [if_pos he, he, h.fresh s.next le_rfl]
    · rw [if_neg he]
  have hdcache : ∀ k, (s.entered i name self).dcache k = if k = (name, self) then some s.next else s.dcache k :=
    fun k => update_apply ..
  generalize s.entered i name self = t at *
  have hinode' : ∀ e, e < s.next → t.inode e = s.inode e := fun e he => by rw [hinode, if_neg (ne_of_lt he)]
  have hi : t.inode s.next = i := by rw [hinode, if_pos rfl]
  -- a child is the new dentry, or was there before and its name stands for what it did
  have hcases : ∀ D n d, t.child D n = some d → (D = self ∧ n = name ∧ d = s.next) ∨
      (s.child D n = some d ∧ ¬ (D = self ∧ n = name) ∧ w.names (s.inode D) n = v.names (s.inode D) n) := by
    intro D n d hc
    rw [hchild] at hc
    split at hc
    case isTrue heq => exact .inl ⟨heq.1, heq.2, (Option.some.inj hc).symm⟩
    case isFalse hne =>
      refine .inr ⟨hc, hne, hother _ _ fun heq => hne ⟨h.eq_of_inode hself hdir hc heq.1, heq.2⟩⟩
  refine ⟨?_, ?_, ?_, ?_, ?_, ?_, ?_, ?_, ?_⟩
  · rw [hinode' _ h.rootLt]
    exact hgood
  · have := h.rootLt
    omega
  · intro d hd n
    rw [hchild, if_neg (by omega)]
    exact h.fresh d (by omega) n
  · intro D n d hc
    rcases hcases D n d hc with ⟨-, -, rfl⟩ | ⟨hc, -, -⟩
    · omega
    · have := h.lt D n d hc
      omega
  · intro D n d hc
    rcases hcases D n d hc with ⟨rfl, rfl, rfl⟩ | ⟨hc, -, hkept⟩
    · rw [hinode' D hself, hi, hlink, if_pos rfl]
      exact ⟨hname, rfl⟩
    · have hd := h.lt D n d hc
      rw [hinode' D (h.parent_lt hc), hinode' d hd, hlink, if_neg (ne_of_lt hd), hkept]
      exact h.coherent D n d hc
  · intro D n d hc
    rw [hdcache]
    rcases hcases D n d hc with ⟨rfl, rfl, rfl⟩ | ⟨hc, hne, -⟩
    · rw [if_pos rfl]
    · rw [if_neg fun heq => hne ⟨(Prod.mk.inj heq).2, (Prod.mk.inj heq).1⟩]
      exact h.dcached D n d hc
  · intro d hd
    by_cases heq : d = s.next
    · rw [heq, hi]
      exact hgood.named _ _ _ hname
    · rw [hinode' d (by omega)]
      exact hborn _ (h.born d (by omega))
  · intro d hd d' hd' heq hdd
    by_cases hn : d = s.next
    · subst hn
      rw [hi] at heq hdd
      by_contra hne
      rw [hinode' d' (by omega)] at heq
      exact hnew hdd d' (by omega) heq.symm
    · rw [hinode' d (by omega)] at heq hdd
      by_cases hn' : d' = s.next
      · subst hn'
        rw [hi] at heq
        exact absurd heq (hnew (heq ▸ hdd) d (by omega))
      · rw [hinode' d' (by omega)] at heq
        exact h.unique d (by omega) d' (by omega) heq (by rwa [← hdirs d (by omega)])
  · intro d hd hdd p n hp
    by_cases hn : d = s.next
    · subst hn
      rw [hi] at hdd hp
      obtain ⟨rfl, rfl⟩ := hgood.once _ _ _ _ _ hname hp hdd
      exact ⟨self, hinode' self hself, by rw [hchild, if_pos ⟨rfl, rfl⟩]⟩
    · have hlt : d < s.next := by omega
      rw [hinode' d hlt] at hdd hp
      have hpn : ¬ (p = s.inode self ∧ n = name) := by
        rintro ⟨rfl, rfl⟩
        rw [hname] at hp
        exact hnew ((Option.some.inj hp) ▸ hdd) d hlt (Option.some.inj hp).symm
      rw [hother p n hpn] at hp
      obtain ⟨D, rfl, hc⟩ := h.cached d hlt (by rwa [← hdirs d hlt]) p n hp
      refine ⟨D, hinode' D (h.parent_lt hc), ?_⟩
      rw [hchild, if_neg ?_]
      · exact hc
      · rintro ⟨rfl, rfl⟩
        rw [hnone] at hc
        cases hc

/-- What `delete_dentry` leaves. -/
structure Deleted (s t : Mount σ ι) (D : Nat) (name : Name) : Prop where
  fs : t.fs = s.fs
  next : t.next = s.next
  inode : ∀ e, t.inode e = s.inode e
  link : ∀ e, t.nameAndParent e = s.nameAndParent e
  child : ∀ e m, t.child e m = if e = D ∧ m = name then none else s.child e m
  dcache : ∀ k, k ≠ (name, D) → t.dcache k = s.dcache k

omit [DecidableEq ι] in
theorem Sound.deleteDentry (h : Sound v s) (held : Nat → Bool) (self : Nat) (name : Name) :
    ∃ t, deleteDentry held self name s = .ok () t ∧ Deleted s t self name := by
  unfold Vfs.deleteDentry
  rw [get_bind]
  cases hc : s.child self name with
  | none =>
    refine ⟨s, rfl, rfl, rfl, fun _ => rfl, fun _ => rfl, fun e m => ?_, fun _ _ => rfl⟩
    split
    case isTrue heq => rw [heq.1, heq.2, hc]
    case isFalse => rfl
  | some d =>
    have hkey : (s.setChild self name none).key d = (name, self) := by
      rw [key, setChild_nameAndParent, (h.coherent _ _ _ hc).2]
    refine ⟨(s.setChild self name none).setDcache (name, self) none, ?_, rfl, rfl, fun e => ?_, fun e => ?_,
      fun e m => ?_, fun k hk => update_of_ne hk _ _⟩
    · dsimp only
      rw [modify_bind, h.alive held hc]
      show Outcome.ok () ((s.setChild self name none).setDcache ((s.setChild self name none).key d) none) = _
      rw [hkey]
    · rw [setDcache_inode, setChild_inode]
    · rw [setDcache_nameAndParent, setChild_nameAndParent]
    · rw [setDcache_child, setChild_child]

variable {view : σ → View ι}

theorem checkDir_bind_final {f : Unit → Comp (Mount σ ι) Error α} (hlaw : Lawful ops view)
    (h : ((checkDir ops self >>= f) s).final = some t) :
    t = s ∨ ((view s.fs).dir (s.inode self) = true ∧ (f () s).final = some t) := by
  unfold checkDir at h
  rcases bind_final.mp h with ⟨e, herr⟩ | ⟨_, s', hok, hf⟩
  · rw [get_bind] at herr
    rcases when_err.mp herr with ⟨-, herr⟩
    obtain ⟨-, rfl⟩ := Outcome.err.inj herr
    exact .inl rfl
  · rw [get_bind] at hok
    obtain ⟨hdir, rfl⟩ := guard_ok.mp hok
    rw [← hlaw.type]
    exact .inr ⟨by simpa using hdir, hf⟩

omit [DecidableEq ι] in
/-- Where a call of the file system ends. -/
theorem onFs_bind_final {β : Type} {m : Comp σ Error α} {spec : View ι → α → View ι → Prop}
    {f : α → Comp (Mount σ ι) Error β} (h : Obeys view m spec) (hf : ((onFs m >>= f) s).final = some t) :
    ∃ fs, (t = { s with fs := fs } ∧ view fs = view s.fs) ∨
      ∃ a, spec (view s.fs) a (view fs) ∧ (f a { s with fs := fs }).final = some t := by
  have hobeys := h s.fs
  rcases bind_final.mp hf with ⟨e, herr⟩ | ⟨a, s', hok, hf⟩
  · obtain ⟨fs, hm, rfl⟩ := zoom_err.mp herr
    rw [hm] at hobeys
    exact ⟨fs, .inl ⟨rfl, hobeys⟩⟩
  · obtain ⟨fs, hm, rfl⟩ := zoom_ok.mp hok
    rw [hm] at hobeys
    exact ⟨fs, .inr ⟨a, hobeys, hf⟩⟩

omit [DecidableEq ι] in
theorem Sound.of_view {fs : σ} (h : Sound (view s.fs) s) (heq : view fs = view s.fs) :
    Sound (view fs) { s with fs := fs } := heq ▸ h.withFs fs

omit [DecidableEq ι] in
theorem findDentry_bind_final (h : Sound v s) {f : Option Nat → Comp (Mount σ ι) Error α}
    (hf : ((findDentry held self name >>= f) s).final = some t) : (f (s.child self name) s).final = some t := by
  rwa [bind_eq, h.findDentry] at hf

end

/-! ## Calls -/

section

variable {ops : InodeOps σ ι} {view : σ → View ι}

variable {v : View ι} {w : View ι} {n n' : Name}

omit [DecidableEq ι] in
theorem checked_bind_final {α : Type} {f : Option Nat → Comp (Mount σ ι) Error α} (h : Sound v s)
    (hf : ((findDentryWithCheckingMountpoint held self name >>= f) s).final = some t) :
    t = s ∨ (f (s.child self name) s).final = some t := by
  unfold findDentryWithCheckingMountpoint at hf
  rcases bind_final.mp hf with ⟨e, herr⟩ | ⟨found, s', hok, hf⟩
  · rw [bind_eq, h.findDentry] at herr
    dsimp only at herr
    rw [get_bind] at herr
    rcases bind_err.mp herr with herr | ⟨_, s', -, herr⟩
    · obtain ⟨-, herr⟩ := when_err.mp herr
      exact .inl (Outcome.err.inj herr).2.symm
    · cases herr
  · rw [bind_eq, h.findDentry] at hok
    dsimp only at hok
    rw [get_bind] at hok
    obtain ⟨-, hok⟩ := guard_bind_ok.mp hok
    obtain ⟨rfl, rfl⟩ := pure_ok.mp hok
    exact .inr hf

/-- What a `rename` of the file system does to the names, and what it leaves alone. -/
theorem View.Renamed.names {d d' : ι} (hr : View.Renamed d n d' n' v w) :
    ∃ i, v.names d n = some i ∧ w.names d' n' = some i ∧ w.dir = v.dir ∧ w.born = v.born ∧
      ∀ e m, ¬ (e = d ∧ m = n) → ¬ (e = d' ∧ m = n') → w.names e m = v.names e m := by
  obtain ⟨i, hi, rfl | ⟨hi', rfl⟩⟩ := hr
  · exact ⟨i, hi, View.set_self _ _ _ _, rfl, rfl, fun e m h h' => by
      rw [View.set_of_ne _ _ h', View.set_of_ne _ _ h]⟩
  · exact ⟨i, hi, hi', rfl, rfl, fun _ _ _ _ => rfl⟩

/-- The old name of a directory is gone, unless it is the new one. -/
theorem View.Renamed.old {root d d' : ι} (hr : View.Renamed d n d' n' v w)
    (hgood : v.Good root) (hne : ¬ (d = d' ∧ n = n')) {j : ι} (hj : w.names d n = some j) : w.dir j = false := by
  obtain ⟨i, hi, rfl | ⟨hi', rfl⟩⟩ := hr
  · rw [View.set_of_ne _ _ hne, View.set_self] at hj
    cases hj
  · obtain rfl := Option.some.inj (hi.symm.trans hj)
    by_contra hdir
    exact hne (hgood.once d n d' n' i hi hi' (by simpa using hdir))

variable (hlaw : Lawful ops view) (hcache : ∀ i, ops.cacheable i = true) (h : Sound (view s.fs) s)
  (hself : self < s.next)

include hlaw hcache h hself

theorem make_sound {op : ι → Comp σ Error ι} (hop : ∀ dir, Obeys view (op dir) (View.Made dir name))
    (hf : (make ops held op self name s).final = some t) : Sound (view t.fs) t := by
  unfold make at hf
  rcases checkDir_bind_final hlaw hf with rfl | ⟨hdir, hf⟩
  · exact h
  have hf := findDentry_bind_final h hf
  rcases guard_bind_final hf with rfl | ⟨hnone, hf⟩
  · exact h
  replace hnone : s.child self name = none := by simpa using hnone
  rw [get_bind] at hf
  obtain ⟨fs, ⟨rfl, hview⟩ | ⟨i, hmade, hf⟩⟩ := onFs_bind_final (hop (s.inode self)) hf
  · exact h.of_view hview
  -- the file system has the name now, the cache not yet
  have hgood := h.good.made hmade
  obtain ⟨-, hnew, dir, hw⟩ := hmade
  have hne : ∀ d < s.next, s.inode d ≠ i := fun d hd heq => hnew (heq ▸ h.born d hd)
  have hs := h.withFs fs
  rw [newDentry_bind, bind_eq, insertDentry_push (hcache i)] at hf
  obtain rfl := pure_final.mp hf
  show Sound (view fs) _
  refine hs.entered hself hdir hnone ?_ ?_ hgood ?_ ?_ fun _ => hne
  · rw [hw]
    exact View.set_self _ _ _ _
  · intro e m hem
    rw [hw]
    exact View.set_of_ne _ _ hem
  · intro d hd
    rw [hw]
    exact update_of_ne (hne d hd) _ _
  · intro j hj
    rw [hw]
    exact .inr hj

theorem lookupChild_sound (hdot : name ≠ dot) (hdotdot : name ≠ dotdot) (hdir : (view s.fs).dir (s.inode self) = true)
    (hf : (lookupChild ops held self name s).final = some t) : Sound (view t.fs) t := by
  unfold lookupChild at hf
  have hf := findDentry_bind_final h hf
  rw [get_bind] at hf
  cases hchild : s.child self name with
  | some d =>
    rw [hchild] at hf
    obtain rfl := pure_final.mp hf
    exact h
  | none =>
    rw [hchild] at hf
    obtain ⟨fs, ⟨rfl, hview⟩ | ⟨i, ⟨hname, hview⟩, hf⟩⟩ :=
      onFs_bind_final (hlaw.lookup (s.inode self) name hdot hdotdot) hf
    · exact h.of_view hview
    rw [newDentry_bind, bind_eq, insertDentry_push (hcache i)] at hf
    obtain rfl := pure_final.mp hf
    show Sound (view fs) _
    rw [hview]
    refine (h.withFs fs).entered hself hdir hchild hname (fun _ _ _ => rfl) h.good (fun _ _ => rfl) (fun _ => id) ?_
    -- a directory with a dentry would have been found
    intro hidir d hd heq
    replace heq : s.inode d = i := heq
    obtain ⟨D, hD, hc⟩ := h.cached d hd (by rw [heq]; exact hidir) (s.inode self) name (by rw [heq]; exact hname)
    obtain rfl := h.eq_of_inode hself hdir hc hD
    rw [hchild] at hc
    cases hc

theorem lookup_sound {above : Bool} (hf : (lookup ops held above self name s).final = some t) :
    Sound (view t.fs) t := by
  unfold lookup at hf
  rcases checkDir_bind_final hlaw hf with rfl | ⟨hdir, hf⟩
  · exact h
  rw [get_bind] at hf
  obtain ⟨fs, ⟨rfl, hview⟩ | ⟨executable, hview, hf⟩⟩ := onFs_bind_final (hlaw.executable (s.inode self)) hf
  · exact h.of_view hview
  have hs := h.of_view hview
  rcases guard_bind_final hf with rfl | ⟨-, hf⟩
  · exact hs
  rcases guard_bind_final hf with rfl | ⟨-, hf⟩
  · exact hs
  split at hf
  case isTrue =>
    obtain rfl := pure_final.mp hf
    exact hs
  case isFalse hdot =>
    split at hf
    case isTrue =>
      obtain rfl := pure_final.mp hf
      exact hs
    case isFalse hdotdot =>
      exact lookupChild_sound (s := { s with fs := fs }) hlaw hcache hs hself (by simpa using hdot)
        (by simpa using hdotdot) (hview ▸ hdir) hf

theorem link_sound {old : Handle} (hheld : ∀ d, old = .here d → d < s.next)
    (hf : (link ops held self old name s).final = some t) : Sound (view t.fs) t := by
  unfold link at hf
  rcases checkDir_bind_final hlaw hf with rfl | ⟨hdir, hf⟩
  · exact h
  have hf := findDentry_bind_final h hf
  rcases guard_bind_final hf with rfl | ⟨hnone, hf⟩
  · exact h
  replace hnone : s.child self name = none := by simpa using hnone
  cases old with
  | elsewhere =>
    cases hf
    exact h
  | here old =>
    dsimp only at hf
    rw [get_bind] at hf
    obtain ⟨fs, ⟨rfl, hview⟩ | ⟨_, ⟨hfree, hleaf, hview⟩, hf⟩⟩ :=
      onFs_bind_final (hlaw.link (s.inode self) (s.inode old) name) hf
    · exact h.of_view hview
    rw [newDentry_bind, insertDentry_push (hcache _)] at hf
    cases hf
    show Sound (view fs) _
    have hborn := h.born old (hheld old rfl)
    have hroot : s.inode old ≠ s.inode root := by
      intro heq
      rw [heq, h.good.rootDir] at hleaf
      cases hleaf
    rw [hview]
    refine (h.withFs fs).entered hself hdir hnone (View.set_self _ _ _ _) (fun e m hem => View.set_of_ne _ _ hem)
      (h.good.assign hborn hroot (fun hd => ?_) _ _) (fun _ _ => rfl) (fun _ => id) fun hd => ?_
    · rw [hleaf] at hd
      cases hd
    · have hd : (view s.fs).dir (s.inode old) = true := hd
      rw [hleaf] at hd
      cases hd

omit hcache in
theorem remove_sound {op : ι → Comp σ Error Unit}
    (hop : ∀ dir, Obeys view (op dir) fun v _ w => w = v.set dir name none)
    (hf : (remove ops held op self name s).final = some t) : Sound (view t.fs) t := by
  unfold remove at hf
  rcases checkDir_bind_final hlaw hf with rfl | ⟨hdir, hf⟩
  · exact h
  rcases checked_bind_final h hf with rfl | hf
  · exact h
  rw [get_bind] at hf
  obtain ⟨fs, ⟨rfl, hview⟩ | ⟨_, hview, hf⟩⟩ := onFs_bind_final (hop (s.inode self)) hf
  · exact h.of_view hview
  obtain ⟨t', hdelete, hdel⟩ := (h.withFs fs).deleteDentry held self name
  rw [hdelete] at hf
  obtain rfl := Option.some.inj hf
  have hnone : ∀ j, ((view s.fs).set (s.inode self) name none).names (s.inode self) name ≠ some j := by
    intro j hj
    rw [View.set_self] at hj
    cases hj
  rw [hdel.fs]
  show Sound (view fs) t'
  rw [hview]
  refine h.relink none hself hdir hself hdir nofun (fun j hj => absurd hj (hnone j)) (fun e _ he => absurd he (hnone _))
    (fun e m hem _ => View.set_of_ne _ _ hem) (h.good.unset _ _) rfl rfl hdel.next hdel.inode
    (fun e => (hdel.link e).trans (if_neg nofun).symm) (fun e m => ?_) fun k hk _ => hdel.dcache k hk
  rw [hdel.child]
  split_ifs <;> rfl

theorem renameLocked_sound (hnewDir : newDir < s.next) (hdir : (view s.fs).dir (s.inode self) = true)
    (hdir' : (view s.fs).dir (s.inode newDir) = true) (hne : ¬ (self = newDir ∧ oldName = newName))
    (hf : (renameLocked ops held self oldName newDir newName s).final = some t) : Sound (view t.fs) t := by
  unfold renameLocked at hf
  rcases checked_bind_final h hf with rfl | hf
  · exact h
  rcases checked_bind_final h hf with rfl | hf
  · exact h
  rw [get_bind] at hf
  obtain ⟨fs, ⟨rfl, hview⟩ | ⟨_, hr, hf⟩⟩ :=
    onFs_bind_final (hlaw.rename (s.inode self) oldName (s.inode newDir) newName) hf
  · exact h.of_view hview
  -- two dentries of one directory are one
  have hne' : ¬ (s.inode self = s.inode newDir ∧ oldName = newName) :=
    fun heq => hne ⟨h.unique self hself newDir hnewDir heq.1 hdir, heq.2⟩
  have hgood := h.good.renamed hr
  have hold := fun j => hr.old (j := j) h.good hne'
  obtain ⟨i, hi, hi', hdirs, hborn, hother⟩ := hr.names
  have hs := h.withFs fs
  cases hchild : s.child self oldName with
  | some d =>
    rw [hchild] at hf
    dsimp only at hf
    obtain ⟨t', hdelete, hdel⟩ := hs.deleteDentry held self oldName
    rw [bind_eq, hdelete] at hf
    dsimp only at hf
    rw [modify_bind, insertDentry_moved (hcache _)] at hf
    obtain rfl := Option.some.inj hf
    show Sound (view t'.fs) _
    rw [hdel.fs]
    show Sound (view fs) _
    obtain rfl : s.inode d = i := Option.some.inj ((h.coherent _ _ _ hchild).1.symm.trans hi)
    refine h.relink (some d) hself hdir hnewDir hdir' ?_ hold ?_ hother hgood hdirs hborn
      hdel.next ?_ ?_ ?_ ?_
    · rintro _ ⟨⟩
      exact ⟨hchild, hi', update_self _ _ _⟩
    · intro e he hname hed
      have hinode := Option.some.inj (hi'.symm.trans hname)
      rw [h.unique d (h.lt _ _ _ hchild) e he hinode (by rw [hinode, ← hdirs]; exact hed)]
    · intro e
      rw [setChild_inode, setDcache_inode, setNameAndParent_inode, hdel.inode]
      rfl
    · intro e
      rw [setChild_nameAndParent, setDcache_nameAndParent,
        setNameAndParent_nameAndParent, hdel.link]
      exact if_congr ⟨fun he => he ▸ rfl, fun he => (Option.some.inj he).symm⟩ rfl rfl
    · intro e m
      rw [setChild_child, setDcache_child, setNameAndParent_child, hdel.child]
      rfl
    · intro k hk hk'
      exact (update_of_ne hk' _ _).trans (hdel.dcache k hk)
  | none =>
    rw [hchild] at hf
    dsimp only at hf
    obtain ⟨t', hdelete, hdel⟩ := hs.deleteDentry held newDir newName
    rw [hdelete] at hf
    obtain rfl := Option.some.inj hf
    rw [hdel.fs]
    show Sound (view fs) t'
    refine h.relink none hself hdir hnewDir hdir' nofun hold ?_ hother hgood hdirs hborn hdel.next hdel.inode
      (fun e => (hdel.link e).trans (if_neg nofun).symm) (fun e m => ?_) fun k _ hk => hdel.dcache k hk
    · -- the directory that has moved has no dentry: it would have been found under its old name
      intro e he hname hed
      obtain rfl := Option.some.inj (hi'.symm.trans hname)
      obtain ⟨D, hD, hc⟩ := h.cached e he (by rw [← hdirs]; exact hed) _ _ hi
      obtain rfl := h.eq_of_inode hself hdir hc hD
      rw [hchild] at hc
      cases hc
    · rw [hdel.child]
      split_ifs with hn ho
      · rfl
      · rw [ho.1, ho.2]
        exact hchild
      · rfl

theorem rename_sound {newDir : Handle} (hheld : ∀ d, newDir = .here d → d < s.next)
    (hf : (rename ops held self oldName newDir newName s).final = some t) : Sound (view t.fs) t := by
  unfold rename at hf
  rcases guard_bind_final hf with rfl | ⟨-, hf⟩
  · exact h
  rcases checkDir_bind_final hlaw hf with rfl | ⟨hdir, hf⟩
  · exact h
  cases newDir with
  | elsewhere =>
    cases hf
    exact h
  | here newDir =>
    dsimp only at hf
    rcases checkDir_bind_final hlaw hf with rfl | ⟨hdir', hf⟩
    · exact h
    split at hf
    case isTrue =>
      obtain rfl := pure_final.mp hf
      exact h
    case isFalse hne =>
      exact renameLocked_sound hlaw hcache h hself (hheld newDir rfl) hdir hdir' (by simpa using hne) hf

end

/-! ## Runs -/

/-- The calls of dentries. -/
inductive Op where
  | create (self : Nat) (name : Name) (type : InodeType)
  | mknod (self : Nat) (name : Name)
  | lookup (self : Nat) (name : Name)
  | link (self : Nat) (old : Handle) (name : Name)
  | unlink (self : Nat) (name : Name)
  | rmdir (self : Nat) (name : Name)
  | rename (self : Nat) (oldName : Name) (newDir : Handle) (newName : Name)
  /-- Another file system is mounted on a dentry, or unmounted. -/
  | setMountpoint (self : Nat) (mounted : Bool)

namespace Op

variable (ops : InodeOps σ ι) (above : Bool) (held : Nat → Bool)

def run : Op → Comp (Mount σ ι) Error Unit
  | create self name type => do let _ ← Vfs.create ops held self name type
  | mknod self name => do let _ ← Vfs.mknod ops held self name
  | lookup self name => do let _ ← Vfs.lookup ops held above self name
  | link self old name => Vfs.link ops held self old name
  | unlink self name => Vfs.unlink ops held self name
  | rmdir self name => Vfs.rmdir ops held self name
  | rename self oldName newDir newName => Vfs.rename ops held self oldName newDir newName
  | setMountpoint self mounted => modify fun s => s.setMountpoint self mounted

/-- The dentries that the caller has. -/
def handles : Op → List Nat
  | create self _ _ => [self]
  | mknod self _ => [self]
  | lookup self _ => [self]
  | link self (.here old) _ => [self, old]
  | link self .elsewhere _ => [self]
  | unlink self _ => [self]
  | rmdir self _ => [self]
  | rename self _ (.here newDir) _ => [self, newDir]
  | rename self _ .elsewhere _ => [self]
  | setMountpoint self _ => [self]

variable {ops above held} {view : σ → View ι} {op : Op}

omit [DecidableEq ι] in
theorem ignored_final {α : Type} {m : Comp (Mount σ ι) Error α}
    (hf : ((do let _ ← m : Comp (Mount σ ι) Error Unit) s).final = some t) : (m s).final = some t := by
  rcases bind_final.mp hf with ⟨e, herr⟩ | ⟨a, s', hok, hpure⟩
  · rw [herr]
    rfl
  · obtain rfl := pure_final.mp hpure
    rw [hok]
    rfl

/-- Every call keeps the cache sound, whether it succeeds or fails. -/
theorem sound (hlaw : Lawful ops view) (hcache : ∀ i, ops.cacheable i = true) (h : Sound (view s.fs) s)
    (hheld : ∀ d ∈ op.handles, d < s.next) (hf : (op.run ops above held s).final = some t) : Sound (view t.fs) t := by
  cases op with
  | create self name type =>
    exact make_sound hlaw hcache h (hheld self (by simp [handles])) (fun dir => hlaw.create dir name type)
      (ignored_final hf)
  | mknod self name =>
    exact make_sound hlaw hcache h (hheld self (by simp [handles])) (fun dir => hlaw.mknod dir name)
      (ignored_final hf)
  | lookup self name => exact lookup_sound hlaw hcache h (hheld self (by simp [handles])) (ignored_final hf)
  | link self old name =>
    refine link_sound hlaw hcache h (hheld self ?_) (fun d heq => hheld d ?_) hf
    · cases old <;> simp [handles]
    · subst heq
      simp [handles]
  | unlink self name =>
    replace hf : (remove ops held (fun dir => ops.unlink dir name) self name s).final = some t := hf
    exact remove_sound hlaw h (hheld self (by simp [handles]))
      (fun dir => (hlaw.unlink dir name).mono fun h => h.2) hf
  | rmdir self name =>
    replace hf : (remove ops held (fun dir => ops.rmdir dir name) self name s).final = some t := hf
    exact remove_sound hlaw h (hheld self (by simp [handles])) (fun dir => (hlaw.rmdir dir name).mono fun h => h.2) hf
  | rename self oldName newDir newName =>
    refine rename_sound hlaw hcache h (hheld self ?_) (fun d heq => hheld d ?_) hf
    · cases newDir <;> simp [handles]
    · subst heq
      simp [handles]
  | setMountpoint self mounted =>
    obtain rfl : s.setMountpoint self mounted = t := Option.some.inj hf
    obtain ⟨good, rootLt, fresh, lt, coherent, dcached, born, unique, cached⟩ := h
    refine ⟨?_, rootLt, ?_, ?_, ?_, ?_, ?_, ?_, ?_⟩
    all_goals simp only [setMountpoint_inode, setMountpoint_child, setMountpoint_nameAndParent]
    all_goals assumption

end Op

/-- The states that calls lead to, from a mount of any file system that is a tree. Calls may fail; `held` says which
dentries someone holds at the time of the call. -/
inductive Run (ops : InodeOps σ ι) (view : σ → View ι) (above : Bool) : Mount σ ι → Prop
  | new {fs : σ} {root : ι} (hgood : (view fs).Good root) : Run ops view above (.new fs root)
  | step {s t : Mount σ ι} {op : Op} {held : Nat → Bool} (h : Run ops view above s)
      (hheld : ∀ d ∈ op.handles, d < s.next)
      (hf : (op.run ops above held s).final = some t) : Run ops view above t

omit [DecidableEq ι] in
theorem Sound.new {v : View ι} {fs : σ} {root : ι} (h : v.Good root) : Sound v (new fs root) where
  good := h
  rootLt := Nat.one_pos
  fresh _ _ _ := rfl
  lt _ _ _ hc := nomatch hc
  coherent _ _ _ hc := nomatch hc
  dcached _ _ _ hc := nomatch hc
  born _ _ := h.born
  unique d hd d' hd' _ _ := by
    have hd : d < 1 := hd
    have hd' : d' < 1 := hd'
    omega
  cached _ _ _ p n hp := absurd hp (h.free p n)

/-- Each cached child is what its name stands for, and has its name and its parent. -/
def Mount.Coherent (view : σ → View ι) (s : Mount σ ι) : Prop :=
  ∀ D n d, s.child D n = some d →
    (view s.fs).names (s.inode D) n = some (s.inode d) ∧ s.nameAndParent d = some (n, D)

/-- **The cache is coherent** in every reached state. -/
theorem cache_coherent {ops : InodeOps σ ι} {view : σ → View ι} {above : Bool} {s : Mount σ ι}
    (hlaw : Lawful ops view)
    (hcache : ∀ i, ops.cacheable i = true) (h : Run ops view above s) : s.Coherent view := by
  have hsound : Sound (view s.fs) s := by
    induction h with
    | new hgood => exact Sound.new hgood
    | step _ hheld hf ih => exact Op.sound hlaw hcache ih hheld hf
  exact hsound.coherent

/-! ## A file system that is nothing but the map -/

/-- The names, the directories and the inodes made so far. -/
structure MapFs where
  names : Nat → Name → Option Nat
  dir : Nat → Bool
  next : Nat

namespace MapFs

def view (s : MapFs) : View Nat := ⟨s.names, s.dir, fun i => i < s.next⟩

def assign (s : MapFs) (d : Nat) (n : Name) (o : Option Nat) : MapFs :=
  { s with names := Function.update s.names d (Function.update (s.names d) n o) }

def make (d : Nat) (n : Name) (dir : Bool) : Comp MapFs Error Nat := fun s =>
  if (s.names d n).isSome then .err (.new .EEXIST) s
  else .ok s.next { s.assign d n (some s.next) with dir := Function.update s.dir s.next dir, next := s.next + 1 }

/-- Directories are never removed. -/
def ops : InodeOps MapFs Nat where
  type s i := if s.dir i then .dir else .file
  executable _ := pure true
  cacheable _ := true
  create d n type := make d n (type == .dir)
  mknod d n := make d n false
  lookup d n := fun s =>
    match s.names d n with
    | some i => .ok i s
    | none => .err (.new .ENOENT) s
  link d i n := fun s =>
    if (s.names d n).isSome then .err (.new .EEXIST) s
    else if s.dir i then .err (.new .EPERM) s
    else .ok () (s.assign d n (some i))
  unlink d n := fun s =>
    match s.names d n with
    | some i => if s.dir i then .err (.new .EISDIR) s else .ok () (s.assign d n none)
    | none => .err (.new .ENOENT) s
  rmdir _ _ := fail (.new .ENOTEMPTY)
  rename d n d' n' := fun s =>
    match s.names d n with
    | some i => .ok () ((s.assign d n none).assign d' n' (some i))
    | none => .err (.new .ENOENT) s

theorem make_obeys (d : Nat) (n : Name) (dir : Bool) : Obeys view (make d n dir) (View.Made d n) := by
  intro s
  unfold make
  cases h : s.names d n with
  | some i => rfl
  | none =>
    refine ⟨h, lt_irrefl _, dir, ?_⟩
    have hborn : (fun i => i < s.next + 1) = fun j => j = s.next ∨ j < s.next := by
      funext j
      exact propext ⟨fun h => by omega, fun h => by omega⟩
    show View.mk _ _ (fun i => i < s.next + 1) = _
    rw [hborn]
    rfl

theorem lawful : Lawful ops view where
  type s i := by
    show ((if s.dir i then InodeType.dir else .file) == .dir) = s.dir i
    cases s.dir i with
    | true | false => rfl
  executable _ _ := rfl
  create d n type := make_obeys d n _
  mknod d n := make_obeys d n _
  lookup d n _ _ s := by
    unfold ops
    dsimp only
    cases h : s.names d n with
    | none => rfl
    | some i => exact ⟨h, rfl⟩
  link d i n s := by
    unfold ops
    dsimp only
    cases h : s.names d n with
    | some j => rfl
    | none =>
      cases hdir : s.dir i with
      | true => rfl
      | false => exact ⟨h, hdir, rfl⟩
  unlink d n s := by
    unfold ops
    dsimp only
    cases h : s.names d n with
    | none => rfl
    | some i =>
      dsimp only
      cases hdir : s.dir i with
      | true => rfl
      | false => exact ⟨⟨i, h, hdir⟩, rfl⟩
  rmdir d n s := rfl
  rename d n d' n' s := by
    unfold ops
    dsimp only
    cases h : s.names d n with
    | none => rfl
    | some i => exact ⟨i, h, .inl rfl⟩

def empty : MapFs := ⟨fun _ _ => none, fun i => i == 0, 1⟩

theorem empty_good : empty.view.Good 0 := ⟨Nat.one_pos, rfl, nofun, nofun, nofun⟩

end MapFs

def Op.next (op : Op) (s : Mount MapFs Nat) : Mount MapFs Nat :=
    ((op.run MapFs.ops false (fun _ => false) s).final).getD s

theorem Run.next {s : Mount MapFs Nat} (op : Op) (h : Run MapFs.ops MapFs.view false s)
    (hheld : ∀ d ∈ op.handles, d < s.next)
    (hf : (op.run MapFs.ops false (fun _ => false) s).final = some (op.next s)) : Run MapFs.ops MapFs.view
      false (op.next s) :=
  .step h hheld hf

/-- A directory, a file in it, and the file moved to the root. -/
def fileMoved : Mount MapFs Nat :=
  Op.next (.rename 1 [98] (.here 0) [99]) <| Op.next (.create 1 [98] .file) <| Op.next (.create 0 [97] .dir) <|
    .new MapFs.empty 0

theorem cache_coherent_fileMoved : fileMoved.child 0 [99] = some 2 ∧ fileMoved.Coherent MapFs.view := by
  have hrun : Run MapFs.ops MapFs.view false fileMoved :=
    (((Run.new MapFs.empty_good).next (.create 0 [97] .dir) (by decide) rfl).next (.create 1 [98] .file) (by decide)
      rfl).next (.rename 1 [98] (.here 0) [99]) (by decide) rfl
  exact ⟨by decide, cache_coherent MapFs.lawful (fun _ => rfl) hrun⟩

/-- **A directory has one dentry.** In every reached state two dentries of one directory are the same, and the cache has
it under every name by which the file system knows the directory. -/
theorem directory_dentry_unique {ops : InodeOps σ ι} {view : σ → View ι} {above : Bool} {s : Mount σ ι}
    (hlaw : Lawful ops view) (hcache : ∀ i, ops.cacheable i = true) (h : Run ops view above s) :
    ∀ d < s.next, (view s.fs).dir (s.inode d) = true → (∀ d' < s.next, s.inode d = s.inode d' → d = d') ∧
      ∀ p n, (view s.fs).names p n = some (s.inode d) → ∃ D, s.inode D = p ∧ s.child D n = some d := by
  have hsound : Sound (view s.fs) s := by
    induction h with
    | new hgood => exact Sound.new hgood
    | step _ hheld hf ih => exact Op.sound hlaw hcache ih hheld hf
  exact fun d hd hdir => ⟨fun d' hd' heq => hsound.unique d hd d' hd' heq hdir, hsound.cached d hd hdir⟩

def dirMade : Mount MapFs Nat := Op.next (.create 0 [97] .dir) (.new MapFs.empty 0)

theorem directory_dentry_unique_dirMade : ∃ D, dirMade.inode D = 0 ∧ dirMade.child D [97] = some 1 :=
  have hrun := (Run.new MapFs.empty_good).next (.create 0 [97] .dir) (by decide) rfl
  (directory_dentry_unique MapFs.lawful (fun _ => rfl) hrun 1 (by decide) (by decide)).2 0 [97] (by decide)

end AsterKernel.Vfs
