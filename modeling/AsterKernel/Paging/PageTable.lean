import AsterKernel.Lib.Radix
import AsterKernel.Paging.Entry

/-!
# `Paging.PageTable` — the multi-level page table refines a finite map

The page table of a user address space is a tree of tables in physical memory. `map` walks down to the last level
and creates the tables that are missing on the way; `unmap` and `protect` give up where a table is missing. The
frame allocator hands out zeroed frames that nobody else has; when it has none, `map` panics.

The abstract page table is a finite map from page to frame and flags. A page counts as mapped when its flags have
`PRESENT`, as in `is_mapped`.
-/

namespace AsterKernel.Paging

open Lib Lib.Comp Lib.Radix Function PageTableEntry List

inductive PageTableError where
  | invalidModification
  | invalidVaddr
deriving DecidableEq, Repr

/-- The number of levels. -/
inductive AddressWidth where
  | level3
  | level4
  | level5
deriving DecidableEq, Repr

def AddressWidth.levels : AddressWidth → Nat
  | .level3 => 3
  | .level4 => 4
  | .level5 => 5

/-- A page table, the physical memory (by the address of a word), and the frames that the allocator hands out. -/
structure State where
  mem : Nat → PageTableEntry
  supply : List VmFrame
  rootPaddr : Nat
  tables : List VmFrame
  width : AddressWidth

def isKernelVaddr (va : Nat) : Bool := va >>> 47 &&& 1 == 1

def isUserVaddr (va : Nat) : Bool := va >>> 47 == 0

/-- The physical address of an entry: eight bytes each. -/
def ptePaddr (table va level : Nat) : Nat := table + 8 * (pageIndex va level).val

/-- A new frame is zeroed. -/
def zeroFrame (frame : VmFrame) (mem : Nat → PageTableEntry) : Nat → PageTableEntry := fun a =>
  if frame.startPaddr ≤ a ∧ a < frame.startPaddr + PAGE_SIZE then .zero else mem a

namespace State

def writePte (s : State) (pte : Nat) (e : PageTableEntry) : State := { s with mem := Function.update s.mem pte e }

/-- The state after a table has been created at an entry. -/
def linkTable (s : State) (pte : Nat) (frame : VmFrame) (rest : List VmFrame) : State :=
  { s with
    mem := Function.update (zeroFrame frame s.mem) pte (.new frame.startPaddr .table)
    supply := rest
    tables := s.tables ++ [frame] }

end State

/-- Create the next table: `alloc_single().unwrap()`, update the entry, keep the frame. -/
def createTable (pte : Nat) : Comp State PageTableError Unit := fun s =>
  match s.supply with
  | [] => .panic
  | frame :: rest => .ok () (s.linkTable pte frame rest)

/-- Whether there is a next table; if not, it may be created. -/
def ensureTable (create : Bool) (pte : Nat) : Comp State PageTableError Bool := do
  let s ← get
  if (s.mem pte).flags.isPresent then pure true
  else if create then do
    createTable pte
    pure true
  else pure false

/-- The loop of `do_page_walk_mut`, from an entry on some level. -/
def walkMut (va : Nat) (create : Bool) : Nat → Nat → Comp State PageTableError (Option Nat)
  | level + 2, pte => do
    if ← ensureTable create pte then do
      let s ← get
      if (s.mem pte).flags.isHuge then pure (some pte)
      else walkMut va create (level + 1) (ptePaddr (s.mem pte).paddr va (level + 1))
    else pure none
  | _, pte => pure (some pte)

/-- `do_page_walk_mut`: the address of the last entry. -/
def doPageWalkMut (va : Nat) (create : Bool) : Comp State PageTableError (Option Nat) := do
  let s ← get
  walkMut va create s.width.levels (ptePaddr s.rootPaddr va s.width.levels)

/-- The loop of `do_page_walk`. -/
def walk (mem : Nat → PageTableEntry) (va : Nat) : Nat → Nat → Option Nat
  | level + 2, pte =>
    if !(mem pte).flags.isPresent then none
    else if (mem pte).flags.isHuge then some pte
    else walk mem va (level + 1) (ptePaddr (mem pte).paddr va (level + 1))
  | _, pte => some pte

def State.doPageWalk (s : State) (va : Nat) : Option PageTableEntry :=
  (walk s.mem va s.width.levels (ptePaddr s.rootPaddr va s.width.levels)).map s.mem

def doMap (va paddr : Nat) (flags : PageTableFlags) : Comp State PageTableError Unit := do
  match ← doPageWalkMut va true with
  | none => abort
  | some pte => do
    let s ← get
    if (s.mem pte).isMapped then fail .invalidModification
    else modify fun s => s.writePte pte (.new paddr flags)

def doUnmap (va : Nat) : Comp State PageTableError Unit := do
  match ← doPageWalkMut va false with
  | none => fail .invalidModification
  | some pte => do
    let s ← get
    if (s.mem pte).isMapped then modify fun s => s.writePte pte .zero
    else fail .invalidModification

/-- `do_protect`: it returns the old flags. -/
def doProtect (va : Nat) (flags : PageTableFlags) : Comp State PageTableError PageTableFlags := do
  match ← doPageWalkMut va false with
  | none => fail .invalidModification
  | some pte => do
    let s ← get
    if (s.mem pte).isMapped then do
      modify fun s => s.writePte pte (.new (s.mem pte).paddr flags)
      pure (s.mem pte).flags
    else fail .invalidModification

/-- `PageTable<_, UserMode>::map`. -/
def map (va : Nat) (frame : VmFrame) (flags : PageTableFlags) : Comp State PageTableError Unit :=
  if isKernelVaddr va then fail .invalidVaddr else doMap va frame.startPaddr flags

def unmap (va : Nat) : Comp State PageTableError Unit :=
  if isKernelVaddr va then fail .invalidVaddr else doUnmap va

def protect (va : Nat) (flags : PageTableFlags) : Comp State PageTableError PageTableFlags :=
  if isKernelVaddr va then fail .invalidVaddr else doProtect va flags

namespace State

def isMapped (s : State) (va : Nat) : Bool :=
  match s.doPageWalk va with
  | none => false
  | some e => e.isMapped

/-- `PageTable::new`: the root table is the first frame of the supply. -/
def new (mem : Nat → PageTableEntry) (root : VmFrame) (supply : List VmFrame) (width : AddressWidth) : State :=
  ⟨zeroFrame root mem, supply, root.startPaddr, [root], width⟩

/-! ## The tree of tables -/

def child (e : PageTableEntry) : Option Nat := if e.flags.isPresent then some e.paddr else none

def heap (mem : Nat → PageTableEntry) (table : Nat) (i : Fin 512) : PageTableEntry := mem (table + 8 * i.val)

/-- The table at the end of a path. -/
def tableAt (s : State) (p : List (Fin 512)) : Option Nat := node child (heap s.mem) s.rootPaddr p

/-- The last entry of a path, zero if its table is missing. -/
def leaf (s : State) (p : List (Fin 512)) (i : Fin 512) : PageTableEntry :=
  ((s.tableAt p).map fun f => heap s.mem f i).getD .zero

def entryOf (s : State) (va : Nat) : PageTableEntry := s.leaf (dirs va s.width.levels) (pageIndex va 1)

/-- The tables are separate, they are frames of the page table, no table has a huge page, and the allocator hands
out other frames. -/
structure Inv (s : State) : Prop where
  sep : Separate child (heap s.mem) s.rootPaddr s.width.levels
  owned : ∀ (p : List (Fin 512)) (f : Nat), p.length < s.width.levels → s.tableAt p = some f →
    ∃ frame ∈ s.tables, frame.startPaddr = f
  small : ∀ (p : List (Fin 512)) (f : Nat) (i : Fin 512), p.length + 1 < s.width.levels → s.tableAt p = some f →
    (heap s.mem f i).flags.isHuge = false
  fresh : ((s.tables ++ s.supply).map VmFrame.startPaddr).Nodup

end State

/-! ## Cells of frames -/

variable {f g : VmFrame} {va : Nat} {s s' : State}

/-- Entries of different frames, or with different indices, have different addresses. -/
theorem cell_injective {i j : Fin 512}
    (h : f.startPaddr + 8 * i.val = g.startPaddr + 8 * j.val) : f.startPaddr = g.startPaddr ∧ i = j := by
  have hf := f.aligned
  have hg := g.aligned
  unfold PAGE_SIZE at hf hg
  exact ⟨by omega, Fin.ext (by omega)⟩

theorem zeroFrame_other (h : f.startPaddr ≠ g.startPaddr) (mem : Nat → PageTableEntry) (i : Fin 512) :
    zeroFrame f mem (g.startPaddr + 8 * i.val) = mem (g.startPaddr + 8 * i.val) := by
  have hf := f.aligned
  have hg := g.aligned
  unfold PAGE_SIZE at hf hg
  unfold zeroFrame PAGE_SIZE
  rw [if_neg]
  omega

theorem zeroFrame_self (f : VmFrame) (mem : Nat → PageTableEntry) (i : Fin 512) :
    zeroFrame f mem (f.startPaddr + 8 * i.val) = .zero := by
  unfold zeroFrame PAGE_SIZE
  rw [if_pos]
  omega

namespace State

variable {p : List (Fin 512)} {f pte : Nat} {i : Fin 512}

theorem tableAt_snoc (h : s.tableAt p = some f) (i : Fin 512) : s.tableAt (p ++ [i]) = child (heap s.mem f i) := by
  unfold tableAt at *
  rw [node_snoc, h]
  rfl

theorem leaf_of_some (h : s.tableAt p = some f) : s.leaf p i = heap s.mem f i := by
  rw [State.leaf, h]
  rfl

theorem leaf_of_none (h : s.tableAt p = none) : s.leaf p i = .zero := by
  rw [State.leaf, h]
  rfl

theorem child_zero : child .zero = none := by decide

theorem child_new (paddr : Nat) (flags : PageTableFlags) (h : flags.isPresent = true) :
    child (.new paddr flags) = some (paddr &&& PHYS_ADDR_MASK) := by
  rw [child, flags_new, if_pos h, paddr_new]

theorem child_table (frame : VmFrame) : child (.new frame.startPaddr .table) = some frame.startPaddr := by
  rw [child_new _ _ PageTableFlags.table_isPresent, and_mask frame.aligned frame.inRange]

variable {frame : VmFrame} {rest : List VmFrame}

theorem Inv.links (hs : s.Inv) (hf : s.tableAt p = some f) (hp : p.length + 1 < s.width.levels)
    (hfree : child (heap s.mem f i) = none) (hsupply : s.supply = frame :: rest) :
    Links child (heap s.mem) (heap (s.linkTable (f + 8 * i.val) frame rest).mem) s.rootPaddr f frame.startPaddr i
      s.width.levels := by
  obtain ⟨t, ht, rfl⟩ := hs.owned p f (by omega) hf
  -- the new frame is none of the tables
  have hnew : ∀ u ∈ s.tables, u.startPaddr ≠ frame.startPaddr := by
    intro u hu heq
    have hnodup := hs.fresh
    rw [hsupply, map_append, nodup_append] at hnodup
    exact hnodup.2.2 _ (mem_map_of_mem hu) _ (mem_map_of_mem mem_cons_self) heq
  refine ⟨hfree, ?_, ?_, ?_, ?_⟩
  · intro q hq hnode
    obtain ⟨u, hu, heq⟩ := hs.owned q _ hq hnode
    exact hnew u hu heq
  · simp only [heap, linkTable, update_self]
    exact child_table frame
  · intro j
    have hne : frame.startPaddr + 8 * j.val ≠ t.startPaddr + 8 * i.val :=
      fun heq => hnew t ht (cell_injective heq).1.symm
    simp only [heap, linkTable, update_of_ne hne, zeroFrame_self]
    exact child_zero
  · intro q g j hq hnode hne
    obtain ⟨u, hu, rfl⟩ := hs.owned q g hq hnode
    have hcell : u.startPaddr + 8 * j.val ≠ t.startPaddr + 8 * i.val := by
      intro heq
      obtain ⟨h1, h2⟩ := cell_injective heq
      tauto
    simp only [heap, linkTable, update_of_ne hcell]
    exact zeroFrame_other (Ne.symm (hnew u hu)) _ j

/-- The page table has grown: it may have more tables, but every page has the entry it had. -/
structure Grows (s s' : State) : Prop where
  inv : s'.Inv
  width : s'.width = s.width
  rootPaddr : s'.rootPaddr = s.rootPaddr
  leaf : ∀ (p : List (Fin 512)) (i : Fin 512), p.length + 1 = s.width.levels → s'.leaf p i = s.leaf p i

theorem Grows.refl (hs : s.Inv) : s.Grows s := ⟨hs, rfl, rfl, fun _ _ _ => rfl⟩

theorem Grows.trans {s₁ s₂ s₃ : State} (h₁ : s₁.Grows s₂) (h₂ : s₂.Grows s₃) : s₁.Grows s₃ :=
  ⟨h₂.inv, h₂.width.trans h₁.width, h₂.rootPaddr.trans h₁.rootPaddr, fun p i hp =>
    (h₂.leaf p i (by rw [h₁.width]; exact hp)).trans (h₁.leaf p i hp)⟩

theorem Grows.entryOf (h : s.Grows s') (hw : 0 < s.width.levels) (va : Nat) : s'.entryOf va = s.entryOf va := by
  unfold State.entryOf
  rw [h.width]
  refine h.leaf _ _ ?_
  obtain ⟨n, hn⟩ : ∃ n, s.width.levels = n + 1 := ⟨s.width.levels - 1, by omega⟩
  rw [hn, dirs_length]

/-- Creating a table. -/
theorem Inv.linkTable (hs : s.Inv) (hf : s.tableAt p = some f) (hp : p.length + 1 < s.width.levels)
    (hfree : child (heap s.mem f i) = none) (hsupply : s.supply = frame :: rest) :
    s.Grows (s.linkTable (f + 8 * i.val) frame rest) ∧
      (s.linkTable (f + 8 * i.val) frame rest).tableAt (p ++ [i]) = some frame.startPaddr := by
  have hlinks := hs.links hf hp hfree hsupply
  have hnode : ∀ q, q.length < s.width.levels → (s.linkTable (f + 8 * i.val) frame rest).tableAt q =
      if q = p ++ [i] then some frame.startPaddr else s.tableAt q :=
    fun q hq => node_link hs.sep hlinks hf hp q hq
  have hbelow : s.tableAt (p ++ [i]) = none := by
    rw [tableAt_snoc hf]
    exact hfree
  have hnewZero : ∀ j, heap (s.linkTable (f + 8 * i.val) frame rest).mem frame.startPaddr j = .zero := by
    intro j
    obtain ⟨t, ht, rfl⟩ := hs.owned p f (by omega) hf
    have hne : frame.startPaddr + 8 * j.val ≠ t.startPaddr + 8 * i.val := by
      intro heq
      have hnone := hlinks.fresh p (by omega)
      rw [(cell_injective heq).1] at hnone
      exact hnone hf
    simp only [heap, State.linkTable, update_of_ne hne, zeroFrame_self]
  refine ⟨⟨⟨?_, ?_, ?_, ?_⟩, rfl, rfl, ?_⟩, ?_⟩
  · exact hs.sep.link hlinks hf hp
  · intro q g hq hg
    rw [hnode q hq] at hg
    by_cases hql : q = p ++ [i]
    · rw [if_pos hql] at hg
      exact ⟨frame, mem_append_right _ (mem_singleton_self _), Option.some.inj hg⟩
    · rw [if_neg hql] at hg
      obtain ⟨t, ht, rfl⟩ := hs.owned q g hq hg
      exact ⟨t, mem_append_left _ ht, rfl⟩
  · intro q g j hq hg
    have hq' : q.length < s.width.levels := Nat.lt_of_succ_lt hq
    rw [hnode q hq'] at hg
    by_cases hql : q = p ++ [i]
    · rw [if_pos hql] at hg
      rw [← Option.some.inj hg, hnewZero j]
      decide
    · rw [if_neg hql] at hg
      by_cases hcell : g = f ∧ j = i
      · obtain ⟨rfl, rfl⟩ := hcell
        simp only [heap, State.linkTable, update_self, flags_new]
        exact PageTableFlags.table_not_isHuge
      · rw [hlinks.same q g j hq' hg (by tauto)]
        exact hs.small q g j hq hg
  · have := hs.fresh
    rw [hsupply] at this
    simpa [State.linkTable] using this
  · intro q j hq
    have hq' : q.length < s.width.levels := by omega
    have hnode' := hnode q hq'
    by_cases hql : q = p ++ [i]
    · rw [if_pos hql] at hnode'
      rw [leaf_of_some hnode', hnewZero j, hql, leaf_of_none hbelow]
    · rw [if_neg hql] at hnode'
      cases hg : s.tableAt q with
      | none => rw [leaf_of_none hg, leaf_of_none (hnode'.trans hg)]
      | some g =>
        -- a last table is not one that links
        have hne : g ≠ f := by
          rintro rfl
          have hqp := hs.sep q p g hq' (by omega) hg hf
          rw [hqp] at hq
          omega
        rw [leaf_of_some hg, leaf_of_some (hnode'.trans hg)]
        exact hlinks.same q g j hq' hg (.inl hne)
  · rw [hnode _ (by simpa using hp), if_pos rfl]

theorem Inv.writeLeaf (hs : s.Inv) (e : PageTableEntry) (hf : s.tableAt p = some f)
    (hp : p.length + 1 = s.width.levels) :
    (s.writePte (f + 8 * i.val) e).Inv ∧ ∀ (q : List (Fin 512)) (j : Fin 512), q.length + 1 = s.width.levels →
      (s.writePte (f + 8 * i.val) e).leaf q j = if q = p ∧ j = i then e else s.leaf q j := by
  obtain ⟨t, ht, rfl⟩ := hs.owned p f (by omega) hf
  -- the stored cell is an entry of the one table
  have hcell : ∀ (q : List (Fin 512)) (g : Nat) (j : Fin 512), q.length < s.width.levels → s.tableAt q = some g →
      (q ≠ p ∨ j ≠ i) → heap (s.writePte (t.startPaddr + 8 * i.val) e).mem g j = heap s.mem g j := by
    intro q g j hq hg hne
    obtain ⟨u, hu, rfl⟩ := hs.owned q g hq hg
    have haddr : u.startPaddr + 8 * j.val ≠ t.startPaddr + 8 * i.val := by
      intro heq
      obtain ⟨h1, h2⟩ := cell_injective heq
      rw [h1] at hg
      rcases hne with hne | hne
      · exact hne (hs.sep q p _ hq (by omega) hg hf)
      · exact hne h2
    simp only [heap, writePte, update_of_ne haddr]
  have hnode : ∀ q : List (Fin 512), q.length < s.width.levels →
      (s.writePte (t.startPaddr + 8 * i.val) e).tableAt q = s.tableAt q := by
    refine node_frame fun q g j hq hg => hcell q g j (by omega) hg (.inl ?_)
    rintro rfl
    omega
  refine ⟨⟨?_, ?_, ?_, hs.fresh⟩, ?_⟩
  · intro q q' g hq hq' hg hg'
    have h1 := hnode q hq
    have h2 := hnode q' hq'
    exact hs.sep q q' g hq hq' (h1.symm.trans hg) (h2.symm.trans hg')
  · intro q g hq hg
    rw [hnode q hq] at hg
    exact hs.owned q g hq hg
  · intro q g j hq hg
    have hq' : q.length < s.width.levels := Nat.lt_of_succ_lt hq
    rw [hnode q hq'] at hg
    rw [hcell q g j hq' hg (.inl ?_)]
    · exact hs.small q g j hq hg
    · rintro rfl
      exact absurd hp (ne_of_lt hq)
  · intro q j hq
    have hnode' := hnode q (by omega)
    by_cases hqp : q = p ∧ j = i
    · obtain ⟨rfl, rfl⟩ := hqp
      rw [leaf_of_some (hnode'.trans hf), if_pos ⟨rfl, rfl⟩]
      simp [heap, writePte]
    · rw [if_neg hqp]
      cases hg : s.tableAt q with
      | none => rw [leaf_of_none hg, leaf_of_none (hnode'.trans hg)]
      | some g =>
        rw [leaf_of_some hg, leaf_of_some (hnode'.trans hg)]
        exact hcell q g j (by omega) hg (by tauto)

theorem tableAt_below (h : s.tableAt p = none) (q : List (Fin 512)) : s.tableAt (p ++ q) = none := by
  unfold tableAt at *
  rw [node_append, h]
  rfl

/-! ## Walks -/

variable {l : Nat} {create : Bool}

theorem walk_eq (hs : s.Inv) (va : Nat) : ∀ {p : List (Fin 512)} {f : Nat}, s.tableAt p = some f →
    p.length + (l + 1) = s.width.levels →
    walk s.mem va (l + 1) (ptePaddr f va (l + 1)) = (s.tableAt (p ++ dirs va (l + 1))).map fun g =>
      ptePaddr g va 1 := by
  induction l with
  | zero =>
    intro p f hf hlen
    simp [walk, dirs, hf]
  | succ l ih =>
    intro p f hf hlen
    have hnext := tableAt_snoc hf (pageIndex va (l + 2))
    have hpath : p ++ dirs va (l + 2) = (p ++ [pageIndex va (l + 2)]) ++ dirs va (l + 1) := by
      rw [dirs, append_assoc]
      rfl
    rw [hpath]
    by_cases hpresent : (heap s.mem f (pageIndex va (l + 2))).flags.isPresent = true
    · have hsmall := hs.small p f (pageIndex va (l + 2)) (by omega) hf
      rw [child, if_pos hpresent] at hnext
      have hrec := ih hnext (by simp; omega)
      simp only [heap] at hpresent hsmall hrec
      simp only [walk, ptePaddr, hpresent, hsmall, Bool.not_true, Bool.false_eq_true, if_false]
      exact hrec
    · rw [child, if_neg hpresent] at hnext
      rw [tableAt_below hnext]
      simp only [heap, Bool.not_eq_true] at hpresent
      simp [walk, ptePaddr, hpresent]

theorem ensureTable_present (h : (s.mem pte).flags.isPresent = true) : ensureTable create pte s = .ok true s := by
  simp only [ensureTable, get_bind, h, if_true]
  rfl

section

variable (h : (s.mem pte).flags.isPresent = false)
include h

theorem ensureTable_keep : ensureTable false pte s = .ok false s := by
  simp only [ensureTable, get_bind, h, Bool.false_eq_true, if_false]
  rfl

theorem ensureTable_create (hsupply : s.supply = frame :: rest) :
    ensureTable true pte s = .ok true (s.linkTable pte frame rest) := by
  simp only [ensureTable, bind_eq, Comp.get, h, Bool.false_eq_true, if_false, if_true, createTable, hsupply]
  rfl

theorem ensureTable_panic (hsupply : s.supply = []) : ensureTable true pte s = .panic := by
  simp only [ensureTable, bind_eq, Comp.get, h, Bool.false_eq_true, if_false, if_true, createTable, hsupply]

end

theorem walkMut_down (h : ensureTable create pte s = .ok true s') (hsmall : (s'.mem pte).flags.isHuge = false) :
    walkMut va create (l + 2) pte s = walkMut va create (l + 1) (ptePaddr (s'.mem pte).paddr va (l + 1)) s' := by
  simp only [walkMut, bind_eq, h, if_true, Comp.get, hsmall, Bool.false_eq_true, if_false]

theorem walkMut_keep (va : Nat) : ∀ (l pte : Nat), walkMut va false l pte s = .ok (walk s.mem va l pte) s
  | 0, _ => rfl
  | 1, _ => rfl
  | l + 2, pte => by
      cases hpresent : (s.mem pte).flags.isPresent with
      | false =>
        simp only [walkMut, walk, bind_eq, ensureTable_keep hpresent, hpresent, Bool.not_false, if_true,
          Bool.false_eq_true, if_false]
        rfl
      | true =>
        cases hhuge : (s.mem pte).flags.isHuge with
        | false =>
          rw [walkMut_down (ensureTable_present hpresent) hhuge, walkMut_keep va (l + 1)]
          simp [walk, hpresent, hhuge]
        | true =>
          simp only [walkMut, walk, bind_eq, ensureTable_present hpresent, hpresent, hhuge, Bool.not_true,
            Bool.false_eq_true, if_true, if_false, Comp.get]
          rfl

/-- **The creating walk reaches the entry of the page and changes no entry of any page**, unless the allocator runs
out of frames. -/
theorem walkMut_create (va : Nat) : ∀ {s : State} {p : List (Fin 512)} {f : Nat}, s.Inv →
    s.tableAt p = some f → p.length + (l + 1) = s.width.levels →
    (s.supply.length < l ∧ walkMut va true (l + 1) (ptePaddr f va (l + 1)) s = .panic) ∨
    ∃ g s', walkMut va true (l + 1) (ptePaddr f va (l + 1)) s = .ok (some (ptePaddr g va 1)) s' ∧ s.Grows s' ∧
      s'.tableAt (p ++ dirs va (l + 1)) = some g ∧ s.supply.length ≤ s'.supply.length + l := by
  induction l with
  | zero =>
    intro s p f hs hf _
    exact .inr ⟨f, s, rfl, .refl hs, by simpa [dirs] using hf, le_refl _⟩
  | succ l ih =>
    intro s p f hs hf hlen
    have hpath : p ++ dirs va (l + 2) = (p ++ [pageIndex va (l + 2)]) ++ dirs va (l + 1) := by
      rw [dirs, append_assoc]
      rfl
    have hlen' : (p ++ [pageIndex va (l + 2)]).length + (l + 1) = s.width.levels := by
      rw [length_append, length_singleton]
      omega
    rw [hpath]
    have hsmall : (s.mem (ptePaddr f va (l + 2))).flags.isHuge = false := hs.small p f _ (by omega) hf
    have hnext : s.tableAt (p ++ [pageIndex va (l + 2)]) = child (s.mem (ptePaddr f va (l + 2))) :=
      tableAt_snoc hf _
    cases hpresent : (s.mem (ptePaddr f va (l + 2))).flags.isPresent with
    | true =>
      -- the table is there
      rw [child, if_pos hpresent] at hnext
      rw [walkMut_down (ensureTable_present hpresent) hsmall]
      rcases ih hs hnext hlen' with ⟨hlt, hpanic⟩ | ⟨g, s', hok, hgrows, hg, hsup⟩
      · exact .inl ⟨by omega, hpanic⟩
      · exact .inr ⟨g, s', hok, hgrows, hg, by omega⟩
    | false =>
      cases hsupply : s.supply with
      | nil =>
        left
        refine ⟨by simp, ?_⟩
        simp only [walkMut, bind_eq, ensureTable_panic hpresent hsupply]
      | cons frame rest =>
        -- the new table is empty, and the walk goes on in it
        have hfree : child (s.mem (ptePaddr f va (l + 2))) = none := by
          simp [child, hpresent]
        obtain ⟨hgrows, hnew⟩ : s.Grows (s.linkTable (ptePaddr f va (l + 2)) frame rest) ∧
            (s.linkTable (ptePaddr f va (l + 2)) frame rest).tableAt (p ++ [pageIndex va (l + 2)]) =
              some frame.startPaddr := hs.linkTable hf (by omega) hfree hsupply
        have hentry : (s.linkTable (ptePaddr f va (l + 2)) frame rest).mem (ptePaddr f va (l + 2)) =
            .new frame.startPaddr .table := by
          simp [State.linkTable]
        have hhuge : ((s.linkTable (ptePaddr f va (l + 2)) frame rest).mem (ptePaddr f va (l + 2))).flags.isHuge
            = false := by
          rw [hentry, flags_new]
          exact PageTableFlags.table_not_isHuge
        have hpaddr : ((s.linkTable (ptePaddr f va (l + 2)) frame rest).mem (ptePaddr f va (l + 2))).paddr =
            frame.startPaddr := by
          rw [hentry, paddr_new, and_mask frame.aligned frame.inRange]
        rw [walkMut_down (ensureTable_create hpresent hsupply) hhuge, hpaddr]
        rcases ih hgrows.inv hnew hlen' with ⟨hlt, hpanic⟩ | ⟨g, s', hok, hgrows', hg, hsup⟩
        · refine .inl ⟨?_, hpanic⟩
          simp only [State.linkTable] at hlt
          simp
          omega
        · refine .inr ⟨g, s', hok, hgrows.trans hgrows', hg, ?_⟩
          simp only [State.linkTable] at hsup
          simp
          omega

end State

/-! ## The abstract page table -/

/-- A finite map from page to frame and flags. -/
abbrev Spec := Nat → Option (VmFrame × PageTableFlags)

/-- The page has an entry whose flags have `PRESENT`. -/
def Spec.isMapped (σ : Spec) (va : Nat) : Bool :=
  match σ va with
  | none => false
  | some (_, flags) => flags.isPresent

def encode : Option (VmFrame × PageTableFlags) → PageTableEntry
  | none => .zero
  | some (frame, flags) => .new frame.startPaddr flags

theorem encode_isMapped (σ : Spec) (va : Nat) : (encode (σ va)).isMapped = σ.isMapped va := by
  unfold Spec.isMapped
  cases σ va with
  | none => exact zero_isMapped
  | some e =>
    show (new _ _).isMapped = _
    rw [isMapped_eq, flags_new]

/-- The calls of a user of the page table. -/
inductive Op where
  | map (va : Nat) (frame : VmFrame) (flags : PageTableFlags)
  | unmap (va : Nat)
  | protect (va : Nat) (flags : PageTableFlags)

def Op.vaddr : Op → Nat
  | .map va _ _ => va
  | .unmap va => va
  | .protect va _ => va

/-- What a call returns: an error, or the old flags in the case of `protect`. -/
abbrev Result := Except PageTableError (Option PageTableFlags)

/-- A call on the abstract page table. It changes the entry of its own page only. -/
def Spec.exec (σ : Spec) : Op → Result × Spec
  | .map va frame flags =>
    if σ.isMapped va then (.error .invalidModification, σ)
    else (.ok none, Function.update σ va (some (frame, flags)))
  | .unmap va =>
    if σ.isMapped va then (.ok none, Function.update σ va none) else (.error .invalidModification, σ)
  | .protect va flags =>
    match σ va with
    | none => (.error .invalidModification, σ)
    | some (frame, old) =>
      if old.isPresent then (.ok (some old), Function.update σ va (some (frame, flags)))
      else (.error .invalidModification, σ)

/-- A sequence of calls on the abstract page table. -/
def Spec.execAll (σ : Spec) : List Op → List Result × Spec
  | [] => ([], σ)
  | op :: ops => ((σ.exec op).1 :: ((σ.exec op).2.execAll ops).1, ((σ.exec op).2.execAll ops).2)

def Op.exec : Op → Comp State PageTableError (Option PageTableFlags)
  | .map va frame flags => do
    Paging.map va frame flags
    pure none
  | .unmap va => do
    Paging.unmap va
    pure none
  | .protect va flags => do
    let old ← Paging.protect va flags
    pure (some old)

/-- What a call returns and the state it leaves, unless it panics. -/
def Op.run (op : Op) (s : State) : Option (Result × State) :=
  match op.exec s with
  | .ok r s' => some (.ok r, s')
  | .err e s' => some (.error e, s')
  | .panic => none

def State.runAll (s : State) : List Op → Option (List Result × State)
  | [] => some ([], s)
  | op :: ops => (op.run s).bind fun (r, s') => (s'.runAll ops).map fun (rs, s'') => (r :: rs, s'')

/-- A page-aligned user address. -/
def UserPage (va : Nat) : Prop := va % PAGE_SIZE = 0 ∧ isUserVaddr va = true

theorem UserPage.lt (h : UserPage va) : va < 2 ^ 47 := by
  have := h.2
  rw [isUserVaddr, beq_iff_eq, Nat.shiftRight_eq_div_pow] at this
  omega

theorem UserPage.not_kernel (h : UserPage va) : isKernelVaddr va = false := by
  have := h.2
  rw [isUserVaddr, beq_iff_eq] at this
  rw [isKernelVaddr, this]
  rfl

/-- The walks of different pages end in different entries. -/
theorem UserPage.path_injective {vb l : Nat} (ha : UserPage va) (hb : UserPage vb) (hl : 3 ≤ l)
    (hdirs : dirs va (l + 1) = dirs vb (l + 1)) (hlast : pageIndex va 1 = pageIndex vb 1) : va = vb := by
  have hmod := Paging.path_injective ha.1 hb.1 hdirs hlast
  have hpow : 2 ^ 47 ≤ 2 ^ (12 + 9 * (l + 1)) := Nat.pow_le_pow_right (by decide) (by omega)
  rwa [Nat.mod_eq_of_lt (lt_of_lt_of_le ha.lt hpow), Nat.mod_eq_of_lt (lt_of_lt_of_le hb.lt hpow)] at hmod

/-- The page table stands for a finite map. -/
structure Refines (s : State) (σ : Spec) : Prop where
  inv : s.Inv
  covers : 4 ≤ s.width.levels
  entry : ∀ va, UserPage va → s.entryOf va = encode (σ va)

namespace Refines

variable {σ : Spec}

section

variable (h : Refines s σ)
include h

theorem grows (hg : s.Grows s') : Refines s' σ :=
  ⟨hg.inv, by rw [hg.width]; exact h.covers, fun va hva =>
    (hg.entryOf (by have := h.covers; omega) va).trans (h.entry va hva)⟩

section

variable (hva : UserPage va)
include hva

/-- Storing the entry of a page. -/
theorem write {f : Nat}
    (hf : s.tableAt (dirs va s.width.levels) = some f) {x : Option (VmFrame × PageTableFlags)} {e : PageTableEntry}
    (he : e = encode x) : Refines (s.writePte (ptePaddr f va 1) e) (update σ va x) := by
  obtain ⟨l, hl⟩ : ∃ l, s.width.levels = l + 1 := ⟨s.width.levels - 1, by have := h.covers; omega⟩
  have hcovers := h.covers
  obtain ⟨hinv, hleaf⟩ := h.inv.writeLeaf (i := pageIndex va 1) e hf (by rw [hl, dirs_length])
  refine ⟨hinv, h.covers, fun vb hvb => ?_⟩
  have hleafb := hleaf (dirs vb s.width.levels) (pageIndex vb 1) (by rw [hl, dirs_length])
  show (s.writePte (f + 8 * (pageIndex va 1).val) e).leaf (dirs vb s.width.levels) (pageIndex vb 1) = _
  rw [hleafb]
  by_cases hab : vb = va
  · subst hab
    rw [if_pos ⟨rfl, rfl⟩, update_self, he]
  · rw [if_neg, update_of_ne hab]
    · exact h.entry vb hvb
    · rintro ⟨hdirs, hlast⟩
      rw [hl] at hdirs
      exact hab (hvb.path_injective hva (by omega) hdirs hlast)

theorem walk_create : (s.supply.length < s.width.levels - 1 ∧ doPageWalkMut va true s = .panic) ∨
    ∃ f s', doPageWalkMut va true s = .ok (some (ptePaddr f va 1)) s' ∧ Refines s' σ ∧ s'.width = s.width ∧
      s'.tableAt (dirs va s'.width.levels) = some f ∧ s'.mem (ptePaddr f va 1) = encode (σ va) ∧
      s.supply.length ≤ s'.supply.length + (s.width.levels - 1) := by
  obtain ⟨l, hl⟩ : ∃ l, s.width.levels = l + 1 := ⟨s.width.levels - 1, by have := h.covers; omega⟩
  have hroot : s.tableAt [] = some s.rootPaddr := rfl
  have hwalk : doPageWalkMut va true s = walkMut va true (l + 1) (ptePaddr s.rootPaddr va (l + 1)) s := by
    rw [doPageWalkMut, get_bind, hl]
  rw [hwalk, hl]
  rcases State.walkMut_create va (l := l) h.inv hroot (by rw [hl]; simp) with ⟨hlt, hpanic⟩ |
    ⟨f, s', hok, hg, hf, hsup⟩
  · exact .inl ⟨by omega, hpanic⟩
  · have href := h.grows hg
    rw [nil_append, ← hl, ← hg.width] at hf
    refine .inr ⟨f, s', hok, href, hg.width, hf, ?_, by omega⟩
    rw [← href.entry va hva, State.entryOf, State.leaf_of_some hf]
    rfl

theorem walk_keep :
    (doPageWalkMut va false s = .ok none s ∧ σ.isMapped va = false ∧ s.doPageWalk va = none ∧ encode (σ va) = .zero) ∨
    ∃ f, doPageWalkMut va false s = .ok (some (ptePaddr f va 1)) s ∧ s.tableAt (dirs va s.width.levels) = some f ∧
      s.mem (ptePaddr f va 1) = encode (σ va) ∧ s.doPageWalk va = some (encode (σ va)) := by
  obtain ⟨l, hl⟩ : ∃ l, s.width.levels = l + 1 := ⟨s.width.levels - 1, by have := h.covers; omega⟩
  have hroot : s.tableAt [] = some s.rootPaddr := rfl
  have hwalk : walk s.mem va s.width.levels (ptePaddr s.rootPaddr va s.width.levels) =
      (s.tableAt (dirs va s.width.levels)).map fun g => ptePaddr g va 1 := by
    have := State.walk_eq h.inv va hroot (l := l) (by rw [hl]; simp)
    rwa [nil_append, ← hl] at this
  have hmut : doPageWalkMut va false s =
      .ok ((s.tableAt (dirs va s.width.levels)).map fun g => ptePaddr g va 1) s := by
    rw [doPageWalkMut, get_bind, State.walkMut_keep, hwalk]
  have hentry := h.entry va hva
  rw [State.entryOf] at hentry
  cases hf : s.tableAt (dirs va s.width.levels) with
  | none =>
    rw [hf] at hmut hwalk
    rw [State.leaf_of_none hf] at hentry
    refine .inl ⟨hmut, ?_, ?_, hentry.symm⟩
    · rw [← encode_isMapped, ← hentry]
      exact zero_isMapped
    · rw [State.doPageWalk, hwalk]
      rfl
  | some f =>
    rw [hf] at hmut hwalk
    rw [State.leaf_of_some hf] at hentry
    refine .inr ⟨f, hmut, rfl, hentry, ?_⟩
    rw [State.doPageWalk, hwalk]
    exact congrArg some hentry

theorem map (frame : VmFrame) (flags : PageTableFlags) :
    (s.supply.length < s.width.levels - 1 ∧ (Op.map va frame flags).run s = none) ∨
    ∃ s', (Op.map va frame flags).run s = some ((σ.exec (.map va frame flags)).1, s') ∧
      Refines s' (σ.exec (.map va frame flags)).2 ∧ s'.width = s.width ∧
      s.supply.length ≤ s'.supply.length + (s.width.levels - 1) := by
  have hexec : (Op.map va frame flags).exec s = (doMap va frame.startPaddr flags >>= fun _ => pure none) s := by
    simp only [Op.exec, Paging.map, hva.not_kernel, Bool.false_eq_true, if_false]
  rcases h.walk_create hva with ⟨hlt, hpanic⟩ | ⟨f, s₁, hok, href, hwidth, hf, hmem, hsup⟩
  · refine .inl ⟨hlt, ?_⟩
    simp only [Op.run, hexec, doMap, bind_eq, hpanic]
  · right
    have hentry := congrArg isMapped hmem
    rw [encode_isMapped] at hentry
    cases hmapped : σ.isMapped va with
    | true =>
      rw [hmapped] at hentry
      refine ⟨s₁, ?_, ?_, hwidth, hsup⟩
      · simp only [Op.run, hexec, doMap, bind_eq, hok, Comp.get, hentry, if_true, fail, Spec.exec, hmapped]
      · simp only [Spec.exec, hmapped, if_true]
        exact href
    | false =>
      rw [hmapped] at hentry
      refine ⟨s₁.writePte (ptePaddr f va 1) (.new frame.startPaddr flags), ?_, ?_, hwidth, hsup⟩
      · simp only [Op.run, hexec, doMap, bind_eq, hok, Comp.get, hentry, Bool.false_eq_true, if_false, Comp.modify,
          Spec.exec, hmapped]
        rfl
      · simp only [Spec.exec, hmapped, Bool.false_eq_true, if_false]
        exact href.write hva hf rfl

theorem unmap : ∃ s', (Op.unmap va).run s = some ((σ.exec (.unmap va)).1, s') ∧ Refines s' (σ.exec (.unmap va)).2 ∧
      s'.width = s.width ∧ s'.supply = s.supply := by
  have hexec : (Op.unmap va).exec s = (doUnmap va >>= fun _ => pure none) s := by
    simp only [Op.exec, Paging.unmap, hva.not_kernel, Bool.false_eq_true, if_false]
  rcases h.walk_keep hva with ⟨hnone, hmapped, -, -⟩ | ⟨f, hok, hf, hmem, -⟩
  · refine ⟨s, ?_, ?_, rfl, rfl⟩
    · simp only [Op.run, hexec, doUnmap, bind_eq, hnone, fail, Spec.exec, hmapped]
      rfl
    · simp only [Spec.exec, hmapped]
      exact h
  · have hentry := congrArg isMapped hmem
    rw [encode_isMapped] at hentry
    cases hmapped : σ.isMapped va with
    | true =>
      rw [hmapped] at hentry
      refine ⟨s.writePte (ptePaddr f va 1) .zero, ?_, ?_, rfl, rfl⟩
      · simp only [Op.run, hexec, doUnmap, bind_eq, hok, Comp.get, hentry, if_true, Comp.modify, Spec.exec, hmapped]
        rfl
      · simp only [Spec.exec, hmapped, if_true]
        exact h.write hva hf rfl
    | false =>
      rw [hmapped] at hentry
      refine ⟨s, ?_, ?_, rfl, rfl⟩
      · simp only [Op.run, hexec, doUnmap, bind_eq, hok, Comp.get, hentry, Bool.false_eq_true, if_false, fail,
          Spec.exec, hmapped]
      · simp only [Spec.exec, hmapped]
        exact h

theorem protect (flags : PageTableFlags) :
    ∃ s', (Op.protect va flags).run s = some ((σ.exec (.protect va flags)).1, s') ∧
      Refines s' (σ.exec (.protect va flags)).2 ∧ s'.width = s.width ∧ s'.supply = s.supply := by
  have hexec : (Op.protect va flags).exec s = (doProtect va flags >>= fun old => pure (some old)) s := by
    simp only [Op.exec, Paging.protect, hva.not_kernel, Bool.false_eq_true, if_false]
  -- what the abstract call does when the page is not mapped
  have hfail : σ.isMapped va = false → σ.exec (.protect va flags) = (.error .invalidModification, σ) := by
    intro hmapped
    unfold Spec.isMapped at hmapped
    cases hσ : σ va with
    | none => simp [Spec.exec, hσ]
    | some e =>
      rw [hσ] at hmapped
      simp [Spec.exec, hσ, hmapped]
  rcases h.walk_keep hva with ⟨hnone, hmapped, -, -⟩ | ⟨f, hok, hf, hmem, -⟩
  · refine ⟨s, ?_, ?_, rfl, rfl⟩
    · simp only [Op.run, hexec, doProtect, bind_eq, hnone, fail, hfail hmapped]
    · rw [hfail hmapped]
      exact h
  · have hentry := congrArg isMapped hmem
    rw [encode_isMapped] at hentry
    cases hmapped : σ.isMapped va with
    | true =>
      rw [hmapped] at hentry
      unfold Spec.isMapped at hmapped
      cases hσ : σ va with
      | none => simp [hσ] at hmapped
      | some e =>
        obtain ⟨frame, old⟩ := e
        rw [hσ] at hmapped hmem
        have hexecσ : σ.exec (.protect va flags) = (.ok (some old), update σ va (some (frame, flags))) := by
          simp [Spec.exec, hσ, show old.isPresent = true from hmapped]
        have hold : (s.mem (ptePaddr f va 1)).flags = old := by
          rw [hmem]
          exact flags_new _ _
        have hnew : new (s.mem (ptePaddr f va 1)).paddr flags = encode (some (frame, flags)) := by
          rw [hmem, encode, encode, paddr_new, and_mask frame.aligned frame.inRange]
        refine ⟨s.writePte (ptePaddr f va 1) (.new (s.mem (ptePaddr f va 1)).paddr flags), ?_, ?_, rfl, rfl⟩
        · simp only [Op.run, hexec, doProtect, bind_eq, hok, Comp.get, hentry, if_true, Comp.modify, hexecσ]
          rw [← hold]
          rfl
        · rw [hexecσ]
          exact h.write hva hf hnew
    | false =>
      rw [hmapped] at hentry
      refine ⟨s, ?_, ?_, rfl, rfl⟩
      · simp only [Op.run, hexec, doProtect, bind_eq, hok, Comp.get, hentry, Bool.false_eq_true, if_false, fail,
          hfail hmapped]
      · rw [hfail hmapped]
        exact h

end

theorem step (op : Op) (hop : UserPage op.vaddr) : (s.supply.length < s.width.levels - 1 ∧ op.run s = none) ∨
    ∃ s', op.run s = some ((σ.exec op).1, s') ∧ Refines s' (σ.exec op).2 ∧ s'.width = s.width ∧
      s.supply.length ≤ s'.supply.length + (s.width.levels - 1) := by
  cases op with
  | map va frame flags => exact h.map hop frame flags
  | unmap va =>
    obtain ⟨s', hrun, href, hwidth, hsup⟩ := h.unmap hop
    exact .inr ⟨s', hrun, href, hwidth, by rw [hsup]; omega⟩
  | protect va flags =>
    obtain ⟨s', hrun, href, hwidth, hsup⟩ := h.protect hop flags
    exact .inr ⟨s', hrun, href, hwidth, by rw [hsup]; omega⟩

/-- **A sequence of calls on both levels.** It panics only when the allocator runs out of frames. -/
theorem runAll : ∀ {ops : List Op}, (∀ op ∈ ops, UserPage op.vaddr) →
    ((s.width.levels - 1) * ops.length ≤ s.supply.length → (s.runAll ops).isSome = true) ∧
    ∀ rs s', s.runAll ops = some (rs, s') → rs = (σ.execAll ops).1 ∧ Refines s' (σ.execAll ops).2 := by
  intro ops
  induction ops generalizing s σ with
  | nil =>
    intro _
    refine ⟨fun _ => rfl, fun rs s' hrun => ?_⟩
    cases hrun
    exact ⟨rfl, h⟩
  | cons op ops ih =>
    intro hops
    rcases h.step op (hops op mem_cons_self) with ⟨hlt, hpanic⟩ | ⟨s₁, hrun₁, href, hwidth, hsup⟩
    · refine ⟨fun hsupply => ?_, fun rs s' hrun => ?_⟩
      · rw [length_cons, Nat.mul_succ] at hsupply
        omega
      · rw [State.runAll, hpanic] at hrun
        cases hrun
    · obtain ⟨hsome, hres⟩ := ih href fun op hop => hops op (mem_cons_of_mem _ hop)
      rw [hwidth] at hsome
      refine ⟨fun hsupply => ?_, fun rs s' hrun => ?_⟩
      · rw [length_cons, Nat.mul_succ] at hsupply
        rw [State.runAll, hrun₁]
        simpa using hsome (by omega)
      · rw [State.runAll, hrun₁] at hrun
        obtain ⟨r, hr, heq⟩ := Option.map_eq_some_iff.mp hrun
        cases heq
        obtain ⟨hrs, href'⟩ := hres r.1 r.2 hr
        exact ⟨by rw [hrs]; rfl, href'⟩

end

end Refines

theorem AddressWidth.levels_of_ne {w : AddressWidth} (h : w ≠ .level3) : 4 ≤ w.levels := by
  cases w with
  | level3 => exact absurd rfl h
  | level4 | level5 => decide

theorem Refines.new (mem : Nat → PageTableEntry) {root : VmFrame} {supply : List VmFrame} {width : AddressWidth}
    (hw : width ≠ .level3) (hfresh : ((root :: supply).map VmFrame.startPaddr).Nodup) :
    Refines (State.new mem root supply width) fun _ => none := by
  have hcovers := AddressWidth.levels_of_ne hw
  -- the root is the only table, and all its entries are zero
  have hheap : ∀ i, State.heap (State.new mem root supply width).mem root.startPaddr i = .zero :=
    fun i => zeroFrame_self root mem i
  have hnode : ∀ p : List (Fin 512), p ≠ [] → (State.new mem root supply width).tableAt p = none := by
    intro p hp
    cases p with
    | nil => exact absurd rfl hp
    | cons i p =>
      show (State.child (State.heap _ root.startPaddr i)).bind _ = none
      rw [hheap, State.child_zero]
      rfl
  have honly : ∀ (p : List (Fin 512)) (f : Nat), (State.new mem root supply width).tableAt p = some f →
      p = [] ∧ f = root.startPaddr := by
    intro p f hf
    by_cases hp : p = []
    · subst hp
      exact ⟨rfl, (Option.some.inj hf).symm⟩
    · rw [hnode p hp] at hf
      cases hf
  refine ⟨⟨?_, ?_, ?_, hfresh⟩, hcovers, ?_⟩
  · intro p q f _ _ hp hq
    rw [(honly p f hp).1, (honly q f hq).1]
  · intro p f _ hf
    exact ⟨root, mem_singleton_self _, (honly p f hf).2.symm⟩
  · intro p f i _ hf
    rw [(honly p f hf).2, hheap]
    decide
  · intro va _
    obtain ⟨l, hl⟩ : ∃ l, width.levels = l + 2 := ⟨width.levels - 2, by omega⟩
    refine State.leaf_of_none (hnode _ ?_)
    show dirs va width.levels ≠ []
    rw [hl, dirs]
    exact cons_ne_nil _ _

/-- **The page table behaves as a finite map.** For every sequence of calls on user pages, starting from an empty
page table: the calls return what they return on the finite map, and at the end a walk finds for every user page what
the finite map has. With enough frames no call panics. -/
theorem run_refines {mem : Nat → PageTableEntry} {root : VmFrame} {supply : List VmFrame} {width : AddressWidth}
    {ops : List Op} (hw : width ≠ .level3) (hfresh : ((root :: supply).map VmFrame.startPaddr).Nodup)
    (hops : ∀ op ∈ ops, UserPage op.vaddr) :
    ((width.levels - 1) * ops.length ≤ supply.length → ((State.new mem root supply width).runAll ops).isSome = true) ∧
    ∀ rs s, (State.new mem root supply width).runAll ops = some (rs, s) → rs = (Spec.execAll (fun _ => none) ops).1 ∧
      ∀ va, UserPage va → s.isMapped va = (Spec.execAll (fun _ => none) ops).2.isMapped va ∧
        (s.doPageWalk va).getD .zero = encode ((Spec.execAll (fun _ => none) ops).2 va) ∧
        ∀ frame flags, (Spec.execAll (fun _ => none) ops).2 va = some (frame, flags) → flags.isPresent = true →
          ∃ e, s.doPageWalk va = some e ∧ e.paddr = frame.startPaddr ∧ e.flags = flags := by
  obtain ⟨hsome, hres⟩ := (Refines.new mem hw hfresh).runAll hops
  refine ⟨hsome, fun rs s hrun => ?_⟩
  obtain ⟨hrs, href⟩ := hres rs s hrun
  refine ⟨hrs, fun va hva => ?_⟩
  generalize (Spec.execAll (fun _ => none) ops).2 = σ at href ⊢
  rcases href.walk_keep hva with ⟨-, hmapped, hwalk, hzero⟩ | ⟨f, -, -, -, hwalk⟩
  · refine ⟨?_, ?_, fun frame flags hσ hpresent => ?_⟩
    · rw [State.isMapped, hwalk, hmapped]
    · rw [hwalk, hzero]
      rfl
    · rw [Spec.isMapped, hσ] at hmapped
      exact absurd hpresent (by simpa using hmapped)
  · refine ⟨?_, ?_, fun frame flags hσ _ => ⟨_, hwalk, ?_, ?_⟩⟩
    · rw [State.isMapped, hwalk]
      exact encode_isMapped σ va
    · rw [hwalk]
      rfl
    · rw [hσ, encode, PageTableEntry.paddr_new, PageTableEntry.and_mask frame.aligned frame.inRange]
    · rw [hσ, encode, PageTableEntry.flags_new]

def VmFrame.ofNumber (n : Fin (2 ^ 40)) : VmFrame :=
  ⟨n.val * PAGE_SIZE, by simp [PAGE_SIZE], by have := n.isLt; unfold PAGE_SIZE; omega⟩

/-- Ten frames: one for the root table, and enough for three calls. -/
def frames : List VmFrame := (List.finRange 9).map fun n => .ofNumber ⟨n.val + 2, by omega⟩

/-- A page is mapped, loses its flags, and is mapped again. -/
def mapTwice : List Op :=
  [.map 0x5000 (.ofNumber 40) .table, .protect 0x5000 .new, .map 0x5000 (.ofNumber 41) .PRESENT]

theorem run_refines_mapTwice :
    ((State.new (fun _ => .zero) (.ofNumber 1) frames .level4).runAll mapTwice).isSome = true :=
  (run_refines (by decide) (by decide) (by
    intro op hop
    simp only [mapTwice, List.mem_cons, List.not_mem_nil, or_false] at hop
    rcases hop with rfl | rfl | rfl <;> exact ⟨by decide, by decide⟩)).1 (by decide)

end AsterKernel.Paging
