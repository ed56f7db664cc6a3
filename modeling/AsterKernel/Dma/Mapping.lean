import AsterKernel.Lib.BTreeMap
import AsterKernel.Lib.Run
import AsterKernel.Paging.Entry

/-!
# `Dma.Mapping` — the pages of DMA mappings

A page belongs to at most one DMA mapping. `DMA_MAPPING_SET` has the pages of all mappings; a new one first checks all of
its pages against the set and then enters them. A mapping has handles that are cloned and dropped; with the last of them
its pages leave the set.

Coherent mappings for devices that do not snoop switch the cache off in the kernel's page table, where a page may share
its entry with others. With an IOMMU the pages are entered in its page table, whose three levels take the low 39 bits
of an address.
-/

namespace AsterKernel.Dma

open Lib Lib.Comp Paging Function List

inductive DmaError where
  | invalidArgs
  | alreadyMapped
deriving DecidableEq, Repr

inductive DmaDirection where
  | toDevice
  | fromDevice
  | bidirectional
deriving DecidableEq, Repr

/-- `VmSegment`: frames that follow each other. -/
@[ext]
structure VmSegment where
  startPaddr : Nat
  nframes : Nat
  aligned : startPaddr % PAGE_SIZE = 0
deriving Repr

instance : DecidableEq VmSegment := fun _ _ => decidable_of_iff _ VmSegment.ext_iff.symm

/-- The addresses of the pages, in the order of the loops. -/
def VmSegment.pages (segment : VmSegment) : List Nat :=
  (List.range segment.nframes).map fun i => segment.startPaddr + i * PAGE_SIZE

/-- `DmaStreamInner` and `DmaCoherentInner`, without the segment. -/
inductive Kind where
  | stream (direction : DmaDirection) (isCacheCoherent : Bool)
  | coherent (isCacheCoherent : Bool)
deriving DecidableEq, Repr

/-- A mapping and the number of its handles. -/
structure Mapping where
  segment : VmSegment
  kind : Kind
  handles : Nat
deriving DecidableEq, Repr

def Mapping.live (m : Mapping) : Bool := 0 < m.handles

/-- Whether there is an IOMMU, and the entry of the kernel's page table that maps a page. -/
structure Platform where
  hasIommu : Bool
  entryOf : Nat → Nat

/-- `DMA_MAPPING_SET`, the flags in the kernel's page table, the page table of the IOMMU, and the mappings. -/
structure State where
  mappingSet : BTreeSet
  kernelFlags : Nat → PageTableFlags
  iommu : Nat → Option Nat
  mappings : List Mapping

abbrev Call (α : Type) := Comp State DmaError α

def checkAndInsertDmaMapping (segment : VmSegment) : Call Bool := do
  let s ← get
  if segment.pages.any s.mappingSet.contains then pure false
  else do
    modify fun s => { s with mappingSet := segment.pages.foldl BTreeSet.insert s.mappingSet }
    pure true

def removeDmaMapping (segment : VmSegment) : Call Unit :=
  modify fun s => { s with mappingSet := segment.pages.foldl BTreeSet.remove s.mappingSet }

/-- The entry of an address in a page table with three levels. -/
def iommuIndex (paddr : Nat) : Nat := paddr / PAGE_SIZE % 2 ^ 27

/-- What an entry has after a page was written to it: an entry for the address 0 counts as unused. -/
def iommuEntry (paddr : Nat) : Option Nat := if paddr &&& 0xFFFF_FFFF_F000 = 0 then none else some paddr

/-- `iommu::map(paddr, paddr).unwrap()`. -/
def iommuMap (paddr : Nat) : Call Unit := do
  let s ← get
  assert (s.iommu (iommuIndex paddr)).isNone
  modify fun s => { s with iommu := Function.update s.iommu (iommuIndex paddr) (iommuEntry paddr) }

/-- `iommu::unmap(paddr).unwrap()`. -/
def iommuUnmap (paddr : Nat) : Call Unit := do
  let s ← get
  assert (s.iommu (iommuIndex paddr)).isSome
  modify fun s => { s with iommu := Function.update s.iommu (iommuIndex paddr) none }

/-- `page_table.protect(vaddr, flags).unwrap()` with flags made from the old ones. -/
def protect (pf : Platform) (change : PageTableFlags → PageTableFlags) (paddr : Nat) : Call Unit := do
  let s ← get
  assert (s.kernelFlags (pf.entryOf paddr)).isPresent
  modify fun s => { s with
    kernelFlags := Function.update s.kernelFlags (pf.entryOf paddr) (change (s.kernelFlags (pf.entryOf paddr))) }

/-- The segment is claimed, or the call fails. -/
def claim (segment : VmSegment) : Call Unit := do
  let inserted ← checkAndInsertDmaMapping segment
  when (!inserted) (fail .alreadyMapped)

/-- The device addresses: those of the pages. -/
def connect (pf : Platform) (segment : VmSegment) : Call Unit :=
  when pf.hasIommu (forEach segment.pages iommuMap)

/-- A new mapping with one handle; returns its number. -/
def attach (segment : VmSegment) (kind : Kind) : Call Nat := do
  let s ← get
  modify fun s => { s with mappings := s.mappings ++ [⟨segment, kind, 1⟩] }
  pure s.mappings.length

def DmaStream.map (pf : Platform) (segment : VmSegment) (direction : DmaDirection) (isCacheCoherent : Bool) :
    Call Nat := do
  claim segment
  connect pf segment
  attach segment (.stream direction isCacheCoherent)

def DmaCoherent.map (pf : Platform) (segment : VmSegment) (isCacheCoherent : Bool) : Call Nat := do
  claim segment
  when (!isCacheCoherent) (forEach segment.pages (protect pf fun flags => flags.insert .NO_CACHE))
  connect pf segment
  attach segment (.coherent isCacheCoherent)

/-- `DmaStreamInner::drop` and `DmaCoherentInner::drop`. -/
def dropInner (pf : Platform) (segment : VmSegment) (kind : Kind) : Call Unit := do
  when pf.hasIommu (forEach segment.pages iommuUnmap)
  when (kind == .coherent false) (forEach segment.pages (protect pf fun flags => flags.remove .NO_CACHE))
  removeDmaMapping segment

/-- A mapping gets another number of handles. -/
def State.setHandles (s : State) (i : Nat) (m : Mapping) (handles : Nat) : State :=
  { s with mappings := s.mappings.set i { m with handles := handles } }

inductive Op where
  | mapStream (segment : VmSegment) (direction : DmaDirection) (isCacheCoherent : Bool)
  | mapCoherent (segment : VmSegment) (isCacheCoherent : Bool)
  | clone (i : Nat)
  | drop (i : Nat)

def State.clone (i : Nat) (s : State) : Option State :=
  match s.mappings[i]? with
  | some m => if m.live then some (s.setHandles i m (m.handles + 1)) else none
  | none => none

/-- The drop of a handle; the last one drops the mapping. -/
def State.drop (pf : Platform) (i : Nat) (s : State) : Option State :=
  match s.mappings[i]? with
  | some m =>
    if m.handles = 0 then none
    else if m.handles = 1 then (dropInner pf m.segment m.kind (s.setHandles i m 0)).final
    else some (s.setHandles i m (m.handles - 1))
  | none => none

/-- The segment of a call that maps, and the call. -/
def Op.mapping (pf : Platform) : Op → Option (VmSegment × Call Nat)
  | .mapStream segment direction isCacheCoherent => some (segment, DmaStream.map pf segment direction isCacheCoherent)
  | .mapCoherent segment isCacheCoherent => some (segment, DmaCoherent.map pf segment isCacheCoherent)
  | _ => none

def Op.run (pf : Platform) : Op → State → Option State
  | .mapStream segment direction isCacheCoherent, s => (DmaStream.map pf segment direction isCacheCoherent s).final
  | .mapCoherent segment isCacheCoherent, s => (DmaCoherent.map pf segment isCacheCoherent s).final
  | .clone i, s => s.clone i
  | .drop i, s => s.drop pf i

def State.new (kernelFlags : Nat → PageTableFlags) : State := ⟨.empty, kernelFlags, fun _ => none, []⟩

/-- The states of a system that starts without mappings. -/
abbrev Reached (pf : Platform) (kernelFlags : Nat → PageTableFlags) : State → Prop :=
  Run (Op.run pf) (fun _ _ => True) (.new kernelFlags)

/-- A segment has a page of a live mapping. -/
def State.Overlaps (s : State) (segment : VmSegment) : Prop :=
  ∃ m ∈ s.mappings, m.live = true ∧ ∃ paddr ∈ m.segment.pages, paddr ∈ segment.pages

/-! ## What the calls do -/

/-- The part of the state that the page tables are not. -/
def State.books (s : State) : BTreeSet × List Mapping := (s.mappingSet, s.mappings)

/-- An assertion about the state, and a change. -/
theorem checked_keeps {β : Type} {part : State → β} {b : State → Bool} {g : State → State}
    (hg : ∀ s, part (g s) = part s) : Keeps part (do assert (b (← get)); modify g : Comp State Error Unit) :=
  Reads.get.keeps.bind fun _ => (Reads.assert _).keeps.bind fun _ => Keeps.modify hg

theorem iommuMap_keeps (paddr : Nat) : Keeps State.books (iommuMap paddr) :=
  checked_keeps fun _ => rfl

theorem iommuUnmap_keeps (paddr : Nat) : Keeps State.books (iommuUnmap paddr) :=
  checked_keeps fun _ => rfl

theorem protect_keeps (pf : Platform) (change : PageTableFlags → PageTableFlags) (paddr : Nat) :
    Keeps State.books (protect pf change paddr) :=
  checked_keeps fun _ => rfl

variable {pf : Platform} {segment : VmSegment} {kind : Kind} {s t : State} {e : DmaError}

theorem any_contains {set : BTreeSet} :
    segment.pages.any set.contains = true ↔ ∃ paddr ∈ segment.pages, set.contains paddr = true :=
  any_eq_true

theorem claim_eq (segment : VmSegment) (s : State) :
    claim segment s = if segment.pages.any s.mappingSet.contains then .err .alreadyMapped s
      else .ok () { s with mappingSet := segment.pages.foldl BTreeSet.insert s.mappingSet } := by
  unfold claim checkAndInsertDmaMapping
  rw [bind_eq, get_bind]
  by_cases hany : segment.pages.any s.mappingSet.contains = true
  · rw [if_pos hany, if_pos hany]
    rfl
  · rw [if_neg hany, if_neg hany]
    rfl

theorem iommuMap_not_err (paddr : Nat) (s t : State) (e : DmaError) : ¬ iommuMap paddr s = .err e t := by
  intro h
  unfold iommuMap at h
  rw [get_bind] at h
  rcases bind_err.mp h with herr | ⟨_, _, _, herr⟩
  · exact assert_not_err herr
  · cases herr

theorem protect_not_err (change : PageTableFlags → PageTableFlags) (paddr : Nat) (s t : State) (e : DmaError) :
    ¬ protect pf change paddr s = .err e t := by
  intro h
  unfold protect at h
  rw [get_bind] at h
  rcases bind_err.mp h with herr | ⟨_, _, _, herr⟩
  · exact assert_not_err herr
  · cases herr

theorem connect_not_err : ¬ connect pf segment s = .err e t := by
  intro h
  exact forEach_not_err iommuMap_not_err (when_err.mp h).2

theorem connect_keeps (pf : Platform) (segment : VmSegment) : Keeps State.books (connect pf segment) :=
  (Keeps.forEach iommuMap_keeps).when

theorem protect_keepsIommu (pf : Platform) (change : PageTableFlags → PageTableFlags) (paddr : Nat) :
    Keeps State.iommu (protect pf change paddr) :=
  checked_keeps fun _ => rfl

variable {p i : Nat} {u : Unit} {coherent : Bool} {call : Call Nat} {paddr : Nat}

theorem connect_entered {k : Nat} (h : connect pf segment s = .ok u t) (hk : t.iommu k = some p) :
    s.iommu k = some p ∨ pf.hasIommu = true ∧ p ∈ segment.pages ∧ iommuIndex p = k := by
  have htriple : Triple (fun t => ∀ k p, t.iommu k = some p → s.iommu k = some p ∨
      p ∈ segment.pages ∧ iommuIndex p = k) (forEach segment.pages iommuMap)
      (fun _ t => ∀ k p, t.iommu k = some p → s.iommu k = some p ∨ p ∈ segment.pages ∧ iommuIndex p = k)
      (fun t => ∀ k p, t.iommu k = some p → s.iommu k = some p ∨ p ∈ segment.pages ∧ iommuIndex p = k) := by
    refine Triple.forEach fun paddr hin => Triple.of_final fun s₁ t₁ hs₁ hfinal k p hk => ?_
    rcases final_cases hfinal with ⟨u, hok⟩ | ⟨e, herr⟩
    · unfold iommuMap at hok
      rw [get_bind] at hok
      obtain ⟨_, hok⟩ := assert_bind_ok.mp hok
      obtain rfl := modify_ok.mp hok
      by_cases hki : k = iommuIndex paddr
      · subst hki
        have hentry : iommuEntry paddr = some p := by
          rw [← hk]
          exact (update_self (iommuIndex paddr) _ s₁.iommu).symm
        obtain rfl := Option.some.inj (Option.ite_none_left_eq_some.mp hentry).2
        exact .inr ⟨hin, rfl⟩
      · exact hs₁ k p ((update_of_ne hki ..).symm.trans hk)
    · exact absurd herr (iommuMap_not_err _ _ _ _)
  rcases when_ok.mp h with ⟨hiommu, hloop⟩ | ⟨-, rfl⟩
  · exact (htriple.of_ok (fun _ _ hp => .inl hp) hloop k p hk).imp_right fun hin => ⟨hiommu, hin⟩
  · exact .inl hk

/-- What a call that maps a segment does. -/
structure Mapped (pf : Platform) (segment : VmSegment) (kind : Kind) (s t : State) : Prop where
  free : ∀ paddr ∈ segment.pages, s.mappingSet.contains paddr = false
  set : t.mappingSet = segment.pages.foldl BTreeSet.insert s.mappingSet
  mappings : t.mappings = s.mappings ++ [⟨segment, kind, 1⟩]
  entered : ∀ k p, t.iommu k = some p →
    s.iommu k = some p ∨ pf.hasIommu = true ∧ p ∈ segment.pages ∧ iommuIndex p = k

/-- The claim of the pages, steps that leave the books alone, and the new mapping. -/
theorem Mapped.of_steps {s₁ s₂ : State} (hclaim : claim segment s = .ok u s₁) (hbooks : s₂.books = s₁.books)
    (hentered : ∀ k p, s₂.iommu k = some p →
      s₁.iommu k = some p ∨ pf.hasIommu = true ∧ p ∈ segment.pages ∧ iommuIndex p = k)
    (hattach : attach segment kind s₂ = .ok i t) : Mapped pf segment kind s t := by
  rw [claim_eq] at hclaim
  split at hclaim
  · cases hclaim
  · rename_i hany
    obtain ⟨hset, hmappings⟩ := Prod.mk.inj hbooks
    cases hclaim
    cases hattach
    refine ⟨fun paddr hin => ?_, hset, congrArg (· ++ _) hmappings, hentered⟩
    rw [← Bool.not_eq_true]
    intro hcontains
    exact hany (any_contains.mpr ⟨paddr, hin, hcontains⟩)

theorem DmaStream.map_ok {direction : DmaDirection} (h : DmaStream.map pf segment direction coherent s = .ok i t) :
    Mapped pf segment (.stream direction coherent) s t := by
  obtain ⟨_, s₁, hclaim, h⟩ := bind_ok.mp h
  obtain ⟨_, s₂, hconnect, hattach⟩ := bind_ok.mp h
  have hbooks : s₂.books = s₁.books := connect_keeps pf segment s₁ s₂ (by rw [hconnect]; rfl)
  exact .of_steps hclaim hbooks (fun k p hk => connect_entered hconnect hk) hattach

theorem DmaCoherent.map_ok (h : DmaCoherent.map pf segment coherent s = .ok i t) :
    Mapped pf segment (.coherent coherent) s t := by
  obtain ⟨_, s₁, hclaim, h⟩ := bind_ok.mp h
  obtain ⟨_, s₂, huncache, h⟩ := bind_ok.mp h
  obtain ⟨_, s₃, hconnect, hattach⟩ := bind_ok.mp h
  have hfinal : ((when (!coherent) (forEach segment.pages (protect pf fun flags => flags.insert .NO_CACHE)) :
      Call Unit) s₁).final = some s₂ := by rw [huncache]; rfl
  have hbooks₂ : s₂.books = s₁.books := (Keeps.forEach (protect_keeps pf _)).when s₁ s₂ hfinal
  have hiommu : s₂.iommu = s₁.iommu := (Keeps.forEach (protect_keepsIommu pf _)).when s₁ s₂ hfinal
  have hbooks₃ : s₃.books = s₂.books := connect_keeps pf segment s₂ s₃ (by rw [hconnect]; rfl)
  refine .of_steps hclaim (hbooks₃.trans hbooks₂) (fun k p hk => ?_) hattach
  rw [← hiommu]
  exact connect_entered hconnect hk

theorem Op.mapping_err (op : Op) (hop : op.mapping pf = some (segment, call)) :
    call s = .err e t ↔ segment.pages.any s.mappingSet.contains = true ∧ e = .alreadyMapped ∧ t = s := by
  have herr : ∀ {rest : Unit → Call Nat}, (∀ u s t, ¬ rest u s = .err e t) → ((claim segment >>= rest) s = .err e t ↔
        segment.pages.any s.mappingSet.contains = true ∧ e = .alreadyMapped ∧ t = s) := by
    intro rest hrest
    rw [bind_err, claim_eq]
    split
    · rename_i hany
      simp only [hany, true_and]
      constructor
      · rintro (h | ⟨_, _, h, -⟩)
        · cases h; exact ⟨rfl, rfl⟩
        · cases h
      · rintro ⟨rfl, rfl⟩
        exact .inl rfl
    · rename_i hany
      constructor
      · rintro (h | ⟨u, s₁, -, h⟩)
        · cases h
        · exact absurd h (hrest u s₁ t)
      · exact fun h => absurd h.1 hany
  have hattach : ∀ {kind : Kind} {s t : State}, ¬ attach segment kind s = .err e t := nofun
  cases op with
  | mapStream segment' direction coherent =>
    cases hop
    refine herr fun _ s t h => ?_
    rcases bind_err.mp h with h | ⟨_, _, _, h⟩
    · exact connect_not_err h
    · exact hattach h
  | mapCoherent segment' coherent =>
    cases hop
    refine herr fun _ s t h => ?_
    rcases bind_err.mp h with h | ⟨_, _, _, h⟩
    · exact forEach_not_err (protect_not_err _) (when_err.mp h).2
    · rcases bind_err.mp h with h | ⟨_, _, _, h⟩
      · exact connect_not_err h
      · exact hattach h
  | clone i | drop i => cases hop

structure Dropped (pf : Platform) (segment : VmSegment) (s t : State) : Prop where
  set : t.mappingSet = segment.pages.foldl BTreeSet.remove s.mappingSet
  mappings : t.mappings = s.mappings
  entered : ∀ k p, t.iommu k = some p → s.iommu k = some p ∧
    (pf.hasIommu = true → ∀ paddr ∈ segment.pages, iommuIndex paddr ≠ k)

theorem iommuUnmap_final (h : (iommuUnmap paddr s).final = some t) :
    t.iommu = update s.iommu (iommuIndex paddr) none := by
  unfold iommuUnmap at h
  rw [get_bind] at h
  rcases bind_final.mp h with ⟨e, herr⟩ | ⟨_, s₁, hassert, h⟩
  · exact absurd herr assert_not_err
  · obtain ⟨-, rfl⟩ := assert_ok.mp hassert
    rw [modify_final.mp h]

theorem iommuUnmap_not_err (paddr : Nat) (s t : State) (e : DmaError) : ¬ iommuUnmap paddr s = .err e t := by
  intro h
  unfold iommuUnmap at h
  rw [get_bind] at h
  rcases bind_err.mp h with herr | ⟨_, _, _, herr⟩
  · exact assert_not_err herr
  · cases herr

/-- The loop over the pages leaves no entry of them. -/
theorem forEach_iommuUnmap {pages : List Nat} (h : forEach pages iommuUnmap s = .ok u t) {k : Nat}
    (hk : t.iommu k = some p) : s.iommu k = some p ∧ ∀ paddr ∈ pages, iommuIndex paddr ≠ k := by
  -- pages that are still to come may have an entry
  have hloop : Triple (fun t => ∀ k p, t.iommu k = some p →
        s.iommu k = some p ∧ ∀ paddr ∈ pages, iommuIndex paddr = k → ∃ q ∈ pages, iommuIndex q = k)
      (forEach pages iommuUnmap)
      (fun _ t => ∀ k p, t.iommu k = some p →
        s.iommu k = some p ∧ ∀ paddr ∈ pages, iommuIndex paddr = k → ∃ q ∈ ([] : List Nat), iommuIndex q = k)
      (fun _ => True) := by
    refine Triple.forEachRest (I := fun rest (t : State) => ∀ k p, t.iommu k = some p →
      s.iommu k = some p ∧ ∀ paddr ∈ pages, iommuIndex paddr = k → ∃ q ∈ rest, iommuIndex q = k)
      (fun paddr rest => Triple.intro (fun s₁ _ t₁ hs₁ hok k p hk => ?_) fun _ _ _ _ _ => trivial) pages
    rw [iommuUnmap_final (by rw [hok]; rfl)] at hk
    by_cases hki : k = iommuIndex paddr
    · rw [hki, update_self] at hk
      cases hk
    · rw [update_of_ne hki] at hk
      obtain ⟨hold, hpages⟩ := hs₁ k p hk
      refine ⟨hold, fun q hq hqk => ?_⟩
      obtain ⟨r, hr, hrk⟩ := hpages q hq hqk
      rcases mem_cons.mp hr with rfl | hr
      · exact absurd hrk.symm hki
      · exact ⟨r, hr, hrk⟩
  obtain ⟨hold, hnone⟩ := hloop.of_ok (fun k p hk => ⟨hk, fun paddr hin hidx => ⟨paddr, hin, hidx⟩⟩) h k p hk
  refine ⟨hold, fun paddr hin hidx => ?_⟩
  obtain ⟨_, hq, -⟩ := hnone paddr hin hidx
  cases hq

theorem dropInner_dropped (h : (dropInner pf segment kind s).final = some t) : Dropped pf segment s t := by
  rcases bind_final.mp h with ⟨e, herr⟩ | ⟨_, s₁, hunmap, h⟩
  · exact absurd (when_err.mp herr).2 (forEach_not_err iommuUnmap_not_err)
  rcases bind_final.mp h with ⟨e, herr⟩ | ⟨_, s₂, hcache, h⟩
  · exact absurd (when_err.mp herr).2 (forEach_not_err (protect_not_err _))
  rw [removeDmaMapping, modify_final] at h
  subst h
  have hbooks₁ : s₁.books = s.books := (Keeps.forEach iommuUnmap_keeps).when s s₁ (by rw [hunmap]; rfl)
  have hbooks₂ : s₂.books = s₁.books := (Keeps.forEach (protect_keeps pf _)).when s₁ s₂ (by rw [hcache]; rfl)
  have hiommu : s₂.iommu = s₁.iommu := (Keeps.forEach (protect_keepsIommu pf _)).when s₁ s₂ (by rw [hcache]; rfl)
  obtain ⟨hset, hmappings⟩ := Prod.mk.inj (hbooks₂.trans hbooks₁)
  refine ⟨congrArg (segment.pages.foldl BTreeSet.remove) hset, hmappings, fun k p hk => ?_⟩
  have hk₁ : s₁.iommu k = some p := hiommu ▸ hk
  rcases when_ok.mp hunmap with ⟨-, hloop⟩ | ⟨hoff, rfl⟩
  · obtain ⟨hold, hnone⟩ := forEach_iommuUnmap hloop hk₁
    exact ⟨hold, fun _ => hnone⟩
  · exact ⟨hk₁, fun hon => absurd (hoff.symm.trans hon) nofun⟩

/-! ## The invariant -/

/-- The set has the pages of the live mappings, which are apart, and what the IOMMU has is theirs. -/
structure Exclusive (pf : Platform) (s : State) : Prop where
  pages : ∀ paddr, s.mappingSet.contains paddr = true ↔ ∃ m ∈ s.mappings, m.live = true ∧ paddr ∈ m.segment.pages
  apart : ∀ (i j : Nat) (m n : Mapping), s.mappings[i]? = some m → s.mappings[j]? = some n → m.live = true →
    n.live = true → i ≠ j → ∀ paddr ∈ m.segment.pages, paddr ∉ n.segment.pages
  entered : ∀ k p, s.iommu k = some p → pf.hasIommu = true ∧
    ∃ m ∈ s.mappings, m.live = true ∧ p ∈ m.segment.pages ∧ iommuIndex p = k

namespace Exclusive

theorem new (kernelFlags : Nat → PageTableFlags) : Exclusive pf (.new kernelFlags) where
  pages paddr := ⟨nofun, fun h => by obtain ⟨_, h, -⟩ := h; cases h⟩
  apart _ _ _ _ h := by cases h
  entered _ _ h := by cases h

theorem overlaps_iff (h : Exclusive pf s) : segment.pages.any s.mappingSet.contains = true ↔ s.Overlaps segment := by
  rw [any_contains]
  constructor
  · rintro ⟨paddr, hin, hcontains⟩
    obtain ⟨m, hm, hlive, hpage⟩ := (h.pages paddr).mp hcontains
    exact ⟨m, hm, hlive, paddr, hpage, hin⟩
  · rintro ⟨m, hm, hlive, paddr, hpage, hin⟩
    exact ⟨paddr, hin, (h.pages paddr).mpr ⟨m, hm, hlive, hpage⟩⟩

/-- **A mapping is made.** -/
theorem map (h : Exclusive pf s) (hmapped : Mapped pf segment kind s t) : Exclusive pf t := by
  have hnew : ∀ {m : Mapping} {paddr : Nat}, m ∈ s.mappings → m.live = true → paddr ∈ m.segment.pages →
      paddr ∉ segment.pages := by
    intro m paddr hm hlive hpage hin
    have hfree := hmapped.free paddr hin
    rw [(h.pages paddr).mpr ⟨m, hm, hlive, hpage⟩] at hfree
    cases hfree
  have hlast : (⟨segment, kind, 1⟩ : Mapping) ∈ t.mappings := by
    rw [hmapped.mappings]
    exact mem_append_right _ (mem_singleton.mpr rfl)
  have hold : ∀ {m : Mapping}, m ∈ s.mappings → m ∈ t.mappings := fun hm => by
    rw [hmapped.mappings]
    exact mem_append_left _ hm
  refine ⟨fun paddr => ?_, fun i j m n hi hj hm hn hij paddr hpage hpage' => ?_, fun k p hk => ?_⟩
  · rw [hmapped.set, BTreeSet.contains_foldl_insert, h.pages]
    constructor
    · rintro (hin | ⟨m, hm, hlive, hpage⟩)
      · exact ⟨_, hlast, rfl, hin⟩
      · exact ⟨m, hold hm, hlive, hpage⟩
    · rintro ⟨m, hm, hlive, hpage⟩
      rw [hmapped.mappings, mem_append, mem_singleton] at hm
      rcases hm with hm | rfl
      · exact .inr ⟨m, hm, hlive, hpage⟩
      · exact .inl hpage
  · rw [hmapped.mappings] at hi hj
    -- one of the two may be the new one
    rw [getElem?_append] at hi hj
    split at hi
    · split at hj
      · exact h.apart i j m n hi hj hm hn hij paddr hpage hpage'
      · obtain rfl := mem_singleton.mp (mem_of_getElem? hj)
        exact hnew (mem_of_getElem? hi) hm hpage hpage'
    · split at hj
      · obtain rfl := mem_singleton.mp (mem_of_getElem? hi)
        exact hnew (List.mem_of_getElem? hj) hn hpage' hpage
      · have hlt := (List.getElem?_eq_some_iff.mp hi).1
        have hlt' := (List.getElem?_eq_some_iff.mp hj).1
        rw [length_singleton] at hlt hlt'
        omega
  · rcases hmapped.entered k p hk with hk | ⟨hiommu, hin, hidx⟩
    · obtain ⟨hiommu, m, hm, hrest⟩ := h.entered k p hk
      exact ⟨hiommu, m, hold hm, hrest⟩
    · exact ⟨hiommu, _, hlast, rfl, hin, hidx⟩

variable {m : Mapping}

section

variable (h : Exclusive pf s) (hi : s.mappings[i]? = some m) (hlive : m.live = true)
include h hi hlive

theorem setHandles {n : Nat} (hn : 0 < n) : Exclusive pf (s.setHandles i m n) := by
  have hlt : i < s.mappings.length := (List.getElem?_eq_some_iff.mp hi).1
  -- a mapping of one state has one of the other with the same segment
  have hsame : ∀ {j : Nat} {m' : Mapping}, (s.setHandles i m n).mappings[j]? = some m' → m'.live = true →
      ∃ m₀ : Mapping, s.mappings[j]? = some m₀ ∧ m₀.live = true ∧ m₀.segment = m'.segment := by
    intro j m' hj hm'
    rw [State.setHandles, getElem?_set] at hj
    split at hj
    · rename_i hij
      subst hij
      cases hj
      exact ⟨m, hi, hlive, rfl⟩
    · exact ⟨m', hj, hm', rfl⟩
  have hexists : ∀ {P : VmSegment → Prop}, (∃ m' ∈ (s.setHandles i m n).mappings, m'.live = true ∧ P m'.segment) ↔
      ∃ m' ∈ s.mappings, m'.live = true ∧ P m'.segment := by
    intro P
    constructor
    · rintro ⟨m', hm', hlive', hP⟩
      obtain ⟨j, hj⟩ := mem_iff_getElem?.mp hm'
      obtain ⟨m₀, hj₀, hlive₀, hseg⟩ := hsame hj hlive'
      exact ⟨m₀, mem_of_getElem? hj₀, hlive₀, hseg ▸ hP⟩
    · rintro ⟨m', hm', hlive', hP⟩
      obtain ⟨j, hj⟩ := mem_iff_getElem?.mp hm'
      by_cases hij : i = j
      · subst hij
        obtain rfl := Option.some.inj (hi.symm.trans hj)
        exact ⟨_, mem_set hlt _, decide_eq_true hn, hP⟩
      · exact ⟨m', mem_of_getElem? ((getElem?_set_ne hij).trans hj), hlive', hP⟩
  refine ⟨fun paddr => (h.pages paddr).trans (hexists (P := fun seg => paddr ∈ seg.pages)).symm, ?_, fun k p hk => ?_⟩
  · intro j j' a b hj hj' ha hb hjj paddr
    obtain ⟨a₀, hj₀, ha₀, hseg⟩ := hsame hj ha
    obtain ⟨b₀, hj₀', hb₀, hseg'⟩ := hsame hj' hb
    rw [← hseg, ← hseg']
    exact h.apart j j' a₀ b₀ hj₀ hj₀' ha₀ hb₀ hjj paddr
  · obtain ⟨hiommu, hmapping⟩ := h.entered k p hk
    exact ⟨hiommu, (hexists (P := fun seg => p ∈ seg.pages ∧ iommuIndex p = k)).mpr hmapping⟩

/-- **The last handle goes**: the mapping's pages leave the set, and they are no other mapping's. -/
theorem drop (hdropped : Dropped pf m.segment (s.setHandles i m 0) t) : Exclusive pf t := by
  have hmappings : t.mappings = s.mappings.set i { m with handles := 0 } := hdropped.mappings
  have hold : ∀ {j : Nat} {m' : Mapping}, t.mappings[j]? = some m' → m'.live = true →
      i ≠ j ∧ s.mappings[j]? = some m' := by
    intro j m' hj hm'
    rw [hmappings, getElem?_set] at hj
    split at hj
    · split at hj
      · cases hj
        exact absurd hm' nofun
      · cases hj
    · exact ⟨‹_›, hj⟩
  have hkept : ∀ {j : Nat} {m' : Mapping}, i ≠ j → s.mappings[j]? = some m' → m' ∈ t.mappings := by
    intro j m' hij hj
    rw [hmappings]
    exact mem_of_getElem? ((getElem?_set_ne hij).trans hj)
  refine ⟨fun paddr => ?_, fun j j' a b hj hj' ha hb => ?_, fun k p hk => ?_⟩
  · have hset : t.mappingSet.contains paddr = true ↔
        s.mappingSet.contains paddr = true ∧ paddr ∉ m.segment.pages := by
      rw [hdropped.set, BTreeSet.contains_foldl_remove, and_comm]
      rfl
    rw [hset, h.pages]
    constructor
    · rintro ⟨⟨m', hm', hlive', hpage⟩, hout⟩
      obtain ⟨j, hj⟩ := mem_iff_getElem?.mp hm'
      refine ⟨m', hkept (fun hij => ?_) hj, hlive', hpage⟩
      subst hij
      obtain rfl := Option.some.inj (hi.symm.trans hj)
      exact hout hpage
    · rintro ⟨m', hm', hlive', hpage⟩
      obtain ⟨j, hj⟩ := mem_iff_getElem?.mp hm'
      obtain ⟨hij, hj₀⟩ := hold hj hlive'
      exact ⟨⟨m', mem_of_getElem? hj₀, hlive', hpage⟩,
        fun hin => h.apart i j m m' hi hj₀ hlive hlive' hij paddr hin hpage⟩
  · exact h.apart j j' a b (hold hj ha).2 (hold hj' hb).2 ha hb
  · obtain ⟨hk₀, hgone⟩ := hdropped.entered k p hk
    obtain ⟨hiommu, m', hm', hlive', hpage, hidx⟩ := h.entered k p hk₀
    obtain ⟨j, hj⟩ := mem_iff_getElem?.mp hm'
    refine ⟨hiommu, m', hkept (fun hij => ?_) hj, hlive', hpage, hidx⟩
    subst hij
    obtain rfl := Option.some.inj (hi.symm.trans hj)
    exact hgone hiommu p hpage hidx

end

theorem run (h : Exclusive pf s) {op : Op} (hrun : op.run pf s = some t) : Exclusive pf t := by
  cases op with
  | mapStream segment direction coherent =>
    rcases final_cases hrun with ⟨_, hok⟩ | ⟨_, herr⟩
    · exact h.map (DmaStream.map_ok hok)
    · rw [((Op.mapping_err (.mapStream segment direction coherent) rfl).mp herr).2.2]
      exact h
  | mapCoherent segment coherent =>
    rcases final_cases hrun with ⟨_, hok⟩ | ⟨_, herr⟩
    · exact h.map (DmaCoherent.map_ok hok)
    · rw [((Op.mapping_err (.mapCoherent segment coherent) rfl).mp herr).2.2]
      exact h
  | clone i =>
    simp only [Op.run, State.clone] at hrun
    split at hrun
    · rename_i m hi
      split at hrun
      · cases hrun
        exact h.setHandles hi ‹_› (Nat.succ_pos _)
      · cases hrun
    · cases hrun
  | drop i =>
    simp only [Op.run, State.drop] at hrun
    split at hrun
    · rename_i m hi
      split at hrun
      · cases hrun
      · rename_i hpos
        have hlive : m.live = true := decide_eq_true (Nat.pos_of_ne_zero hpos)
        split at hrun
        · exact h.drop hi hlive (dropInner_dropped hrun)
        · cases hrun
          exact h.setHandles hi hlive (by omega)
    · cases hrun

end Exclusive

/-! ## A call that does not overlap returns -/

/-- The entries of the kernel's page table that were present still are. -/
def State.KeepsPresent (kernelFlags : Nat → PageTableFlags) (s : State) : Prop :=
  ∀ entry, (kernelFlags entry).isPresent = true → (s.kernelFlags entry).isPresent = true

theorem insert_isPresent (flags : PageTableFlags) : (flags.insert .NO_CACHE).isPresent = flags.isPresent := by
  change ((flags.bits ||| 0x10) &&& 1 == 1) = (flags.bits &&& 1 == 1)
  rw [Nat.and_or_distrib_right, show 0x10 &&& 1 = 0 from rfl, Nat.or_zero]

theorem remove_isPresent (flags : PageTableFlags) : (flags.remove .NO_CACHE).isPresent = flags.isPresent := by
  change ((flags.bits ^^^ (flags.bits &&& 0x10)) &&& 1 == 1) = (flags.bits &&& 1 == 1)
  rw [Nat.and_xor_distrib_right, Nat.and_assoc, show 0x10 &&& 1 = 0 from rfl, Nat.and_zero, Nat.xor_zero]

variable {kernelFlags : Nat → PageTableFlags}

variable {change : PageTableFlags → PageTableFlags}

theorem protect_present (hchange : ∀ flags, (change flags).isPresent = flags.isPresent) (paddr : Nat) :
    Triple (State.KeepsPresent kernelFlags) (protect pf change paddr) (fun _ => State.KeepsPresent kernelFlags)
      (State.KeepsPresent kernelFlags) := by
  refine Triple.of_final fun s t hs hfinal entry hentry => ?_
  rcases final_cases hfinal with ⟨u, hok⟩ | ⟨e, herr⟩
  · unfold protect at hok
    rw [get_bind] at hok
    obtain ⟨_, hok⟩ := assert_bind_ok.mp hok
    obtain rfl := modify_ok.mp hok
    by_cases heq : entry = pf.entryOf paddr
    · subst heq
      refine (congrArg _ (update_self ..)).trans ?_
      exact (hchange _).trans (hs _ hentry)
    · exact (congrArg _ (update_of_ne heq ..)).trans (hs entry hentry)
  · exact absurd herr (protect_not_err _ _ _ _ _)

theorem keeps_present {α : Type} {c : Call α} (h : Keeps State.kernelFlags c) :
    Triple (State.KeepsPresent kernelFlags) c (fun _ => State.KeepsPresent kernelFlags)
      (State.KeepsPresent kernelFlags) := by
  refine Triple.of_final fun s t hs hfinal entry hentry => ?_
  rw [h s t hfinal]
  exact hs entry hentry

theorem uncache_present {b : Bool} (hchange : ∀ flags, (change flags).isPresent = flags.isPresent) :
    Triple (State.KeepsPresent kernelFlags) (when b (forEach segment.pages (protect pf change)))
      (fun _ => State.KeepsPresent kernelFlags) (State.KeepsPresent kernelFlags) := by
  cases b with
  | false => exact keeps_present (Reads.pure ()).keeps
  | true => exact Triple.forEach fun paddr _ => protect_present hchange paddr

theorem claim_keepsFlags (segment : VmSegment) : Keeps State.kernelFlags (claim segment) := by
  intro s t hfinal
  rw [claim_eq] at hfinal
  split at hfinal <;> cases hfinal <;> rfl

theorem iommuMap_keepsFlags (paddr : Nat) : Keeps State.kernelFlags (iommuMap paddr) :=
  checked_keeps fun _ => rfl

theorem iommuUnmap_keepsFlags (paddr : Nat) : Keeps State.kernelFlags (iommuUnmap paddr) :=
  checked_keeps fun _ => rfl

theorem connect_keepsFlags (pf : Platform) (segment : VmSegment) : Keeps State.kernelFlags (connect pf segment) :=
  (Keeps.forEach iommuMap_keepsFlags).when

theorem attach_keepsFlags (segment : VmSegment) (kind : Kind) : Keeps State.kernelFlags (attach segment kind) := by
  intro s t hfinal
  cases hfinal
  rfl

theorem removeDmaMapping_keepsFlags (segment : VmSegment) : Keeps State.kernelFlags (removeDmaMapping segment) :=
  Keeps.modify fun _ => id rfl

theorem dropInner_present :
    Triple (State.KeepsPresent kernelFlags) (dropInner pf segment kind) (fun _ => State.KeepsPresent kernelFlags)
      (State.KeepsPresent kernelFlags) :=
  (keeps_present (Keeps.forEach iommuUnmap_keepsFlags).when).bind fun _ =>
    (uncache_present remove_isPresent).bind fun _ => keeps_present (removeDmaMapping_keepsFlags segment)

/-- Every operation keeps the entries present. -/
theorem State.KeepsPresent.run (h : s.KeepsPresent kernelFlags) {op : Op} (hrun : op.run pf s = some t) :
    t.KeepsPresent kernelFlags := by
  cases op with
  | mapStream segment direction coherent =>
    refine Triple.final ?_ h hrun
    exact (keeps_present (claim_keepsFlags segment)).bind fun _ =>
      (keeps_present (connect_keepsFlags pf segment)).bind fun _ => keeps_present (attach_keepsFlags segment _)
  | mapCoherent segment coherent =>
    refine Triple.final ?_ h hrun
    exact (keeps_present (claim_keepsFlags segment)).bind fun _ =>
      (uncache_present insert_isPresent).bind fun _ =>
      (keeps_present (connect_keepsFlags pf segment)).bind fun _ => keeps_present (attach_keepsFlags segment _)
  | clone i =>
    simp only [Op.run, State.clone] at hrun
    split at hrun
    · split at hrun <;> cases hrun
      exact h
    · cases hrun
  | drop i =>
    simp only [Op.run, State.drop] at hrun
    split at hrun
    · split at hrun
      · cases hrun
      · split at hrun
        · refine Triple.final dropInner_present ?_ hrun
          exact h
        · cases hrun
          exact h
    · cases hrun

/-- The pages of a segment have entries of their own in the page table of the IOMMU, and these are unused. -/
structure State.Connectable (s : State) (pages : List Nat) : Prop where
  distinct : (pages.map iommuIndex).Nodup
  unused : ∀ paddr ∈ pages, s.iommu (iommuIndex paddr) = none

theorem connect_succeeds (segment : VmSegment) (h : pf.hasIommu = true → s.Connectable segment.pages) :
    ∃ t, connect pf segment s = .ok () t := by
  unfold connect
  cases hiommu : pf.hasIommu with
  | false => exact ⟨s, rfl⟩
  | true =>
    have hloop := forEach_succeeds (f := iommuMap) (I := fun pages s => State.Connectable s pages)
      (fun paddr rest s hs => ?_) (h hiommu)
    · obtain ⟨t, hloop, -⟩ := hloop
      exact ⟨t, hloop⟩
    · have hfree := hs.unused paddr mem_cons_self
      have hnodup := nodup_cons.mp hs.distinct
      refine ⟨{ s with iommu := update s.iommu (iommuIndex paddr) (iommuEntry paddr) }, ?_, hnodup.2, fun q hq => ?_⟩
      · unfold iommuMap
        rw [get_bind, hfree]
        rfl
      · have hne : iommuIndex q ≠ iommuIndex paddr := by
          intro heq
          exact hnodup.1 (heq ▸ mem_map_of_mem hq)
        exact (update_of_ne hne ..).trans (hs.unused q (mem_cons_of_mem _ hq))

theorem protect_succeeds (hchange : ∀ flags, (change flags).isPresent = flags.isPresent)
    (h : ∀ paddr ∈ segment.pages, (s.kernelFlags (pf.entryOf paddr)).isPresent = true) :
    ∃ t, forEach segment.pages (protect pf change) s = .ok () t := by
  have hloop := forEach_succeeds (f := protect pf change)
    (I := fun pages s => ∀ paddr ∈ pages, (s.kernelFlags (pf.entryOf paddr)).isPresent = true)
    (fun paddr rest s hs => ?_) h
  · obtain ⟨t, hloop, -⟩ := hloop
    exact ⟨t, hloop⟩
  · have hok : ∃ t, protect pf change paddr s = .ok () t := by
      unfold protect
      rw [get_bind, hs paddr mem_cons_self]
      exact ⟨_, rfl⟩
    obtain ⟨t, hok⟩ := hok
    have hkept : t.KeepsPresent s.kernelFlags := (protect_present hchange paddr).of_ok (fun _ => id) hok
    exact ⟨t, hok, fun q hq => hkept _ (hs q (mem_cons_of_mem _ hq))⟩

/-- A call that maps returns when no page is in the set, the kernel maps the pages and the IOMMU has room for them. -/
theorem Op.mapping_succeeds {op : Op} (hop : op.mapping pf = some (segment, call))
    (hfree : ¬ segment.pages.any s.mappingSet.contains = true)
    (hpresent : ∀ paddr ∈ segment.pages, (s.kernelFlags (pf.entryOf paddr)).isPresent = true)
    (hconnectable : pf.hasIommu = true → s.Connectable segment.pages) : ∃ i t, call s = .ok i t := by
  let s₁ : State := { s with mappingSet := segment.pages.foldl BTreeSet.insert s.mappingSet }
  have hclaim : claim segment s = .ok () s₁ := by
    rw [claim_eq, if_neg hfree]
  cases op with
  | mapStream segment' direction coherent =>
    cases hop
    obtain ⟨t, hconnect⟩ := connect_succeeds segment (s := s₁)
      fun hiommu => ⟨(hconnectable hiommu).distinct, (hconnectable hiommu).unused⟩
    exact ⟨_, _, bind_ok.mpr ⟨_, _, hclaim, bind_ok.mpr ⟨_, t, hconnect, rfl⟩⟩⟩
  | mapCoherent segment' coherent =>
    cases hop
    have huncache : ∃ s₂, (when (!coherent) (forEach segment.pages (protect pf fun flags => flags.insert .NO_CACHE)) :
        Call Unit) s₁ = .ok () s₂ := by
      cases coherent with
      | true => exact ⟨_, rfl⟩
      | false => exact protect_succeeds insert_isPresent hpresent
    obtain ⟨s₂, huncache⟩ := huncache
    have hiommu₂ : s₂.iommu = s.iommu :=
      (Keeps.forEach (protect_keepsIommu pf _)).when s₁ s₂ (congrArg Outcome.final huncache)
    obtain ⟨t, hconnect⟩ := connect_succeeds segment (s := s₂) fun hiommu =>
      ⟨(hconnectable hiommu).distinct, hiommu₂ ▸ (hconnectable hiommu).unused⟩
    exact ⟨_, _, bind_ok.mpr ⟨_, _, hclaim, bind_ok.mpr ⟨_, _, huncache, bind_ok.mpr ⟨_, t, hconnect, rfl⟩⟩⟩⟩
  | clone i | drop i => cases hop

/-- The page table of the IOMMU reaches the pages of a segment and those of the live mappings. -/
def State.Addressable (s : State) (segment : VmSegment) : Prop :=
  (∀ paddr ∈ segment.pages, paddr < 2 ^ 39) ∧
    ∀ m ∈ s.mappings, m.live = true → ∀ paddr ∈ m.segment.pages, paddr < 2 ^ 39

theorem VmSegment.mem_pages (h : paddr ∈ segment.pages) : paddr % PAGE_SIZE = 0 := by
  obtain ⟨i, -, rfl⟩ := mem_map.mp h
  rw [Nat.add_mul_mod_self_right]
  exact segment.aligned

theorem iommuIndex_inj {q : Nat} (hp : p < 2 ^ 39) (hq : q < 2 ^ 39) (hp' : p % PAGE_SIZE = 0)
    (hq' : q % PAGE_SIZE = 0) (h : iommuIndex p = iommuIndex q) : p = q := by
  unfold iommuIndex PAGE_SIZE at *
  omega

theorem VmSegment.nodup_pages (segment : VmSegment) : segment.pages.Nodup := by
  refine nodup_range.map fun i j hij => ?_
  simpa [PAGE_SIZE] using hij

/-- Segments that overlap no mapping can be connected. -/
theorem Exclusive.connectable (h : Exclusive pf s) (hover : ¬ s.Overlaps segment)
    (haddr : s.Addressable segment) : s.Connectable segment.pages := by
  constructor
  · refine List.Nodup.map_on (fun p hp q hq heq => ?_) segment.nodup_pages
    exact iommuIndex_inj (haddr.1 p hp) (haddr.1 q hq) (VmSegment.mem_pages hp) (VmSegment.mem_pages hq) heq
  · intro paddr hin
    cases hentry : s.iommu (iommuIndex paddr) with
    | none => rfl
    | some q =>
      obtain ⟨-, m, hm, hlive, hq, hidx⟩ := h.entered _ q hentry
      have heq := iommuIndex_inj (haddr.2 m hm hlive q hq) (haddr.1 paddr hin) (VmSegment.mem_pages hq)
        (VmSegment.mem_pages hin) hidx
      subst heq
      exact absurd ⟨m, hm, hlive, q, hq, hin⟩ hover

/-- **A device reaches live mappings only**: in every state that is reached, an entry of the IOMMU's page table leads to
a page of a live mapping, and it is the entry of that page. -/
theorem iommu_confined {pf : Platform} {kernelFlags : Nat → PageTableFlags} {s : State}
    (h : Reached pf kernelFlags s) {k p : Nat} (hk : s.iommu k = some p) :
    pf.hasIommu = true ∧ ∃ m ∈ s.mappings, m.live = true ∧ p ∈ m.segment.pages ∧ iommuIndex p = k := by
  have hexclusive : Exclusive pf s :=
    Run.invariant (I := fun s => Exclusive pf s) (.new kernelFlags) (fun _ _ _ hs _ hrun => hs.run hrun) h
  exact hexclusive.entered k p hk

theorem iommu_confined_stream : ∃ s : State, s.iommu 2 = some 0x2000 ∧
    ∃ m ∈ s.mappings, m.live = true ∧ 0x2000 ∈ m.segment.pages := by
  have hstream : Reached ⟨true, id⟩ (fun _ => .table) _ :=
    Run.next .start (.mapStream ⟨0x1000, 1, rfl⟩ .toDevice true) trivial rfl
  have hcoherent := hstream.next (.mapCoherent ⟨0x2000, 1, rfl⟩ true) trivial rfl
  have hdropped := hcoherent.next (.drop 0) trivial rfl
  obtain ⟨-, m, hm, hlive, hin, -⟩ := iommu_confined (k := 2) (p := 0x2000) hdropped rfl
  exact ⟨_, rfl, m, hm, hlive, hin⟩

end AsterKernel.Dma
