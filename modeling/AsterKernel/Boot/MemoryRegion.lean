import AsterKernel.Lib.Interval
import AsterKernel.Lib.Usize

/-!
# `Boot.MemoryRegion` — memory regions and the frames of the allocator

The regions that the firmware gives may overlap. Usable and reclaimable ones are cut by each unusable one in turn; the
frame allocator gets the whole pages of the usable pieces. That the end of a region is an address is part of its type.
-/

namespace AsterKernel.Boot

open Lib List

inductive MemoryRegionType where
  | badMemory
  | nonVolatileSleep
  | reserved
  | kernel
  | module_
  | framebuffer
  | reclaimable
  | usable
deriving DecidableEq, Repr

/-- Whether the regions of a type go to `regions_usable`. -/
def MemoryRegionType.isUsable : MemoryRegionType → Bool
  | .usable | .reclaimable => true
  | _ => false

structure MemoryRegion where
  base : Nat
  len : Nat
  typ : MemoryRegionType
  end_lt : base + len < usizeCard
deriving DecidableEq, Repr

namespace MemoryRegion

def range (r : MemoryRegion) : Range := ⟨r.base, r.base + r.len⟩

def truncate (self t : MemoryRegion) : List MemoryRegion :=
  have hself := self.end_lt
  if self.base < t.base then
    if hend : self.base + self.len > t.base then
      if htail : self.base + self.len > t.base + t.len then
        [⟨self.base, t.base - self.base, self.typ, by omega⟩,
          ⟨t.base + t.len, self.base + self.len - (t.base + t.len), self.typ, by omega⟩]
      else [⟨self.base, t.base - self.base, self.typ, by omega⟩]
    else [self]
  else if self.base < t.base + t.len then
    if htail : self.base + self.len > t.base + t.len then
      [⟨t.base + t.len, self.base + self.len - (t.base + t.len), self.typ, by omega⟩]
    else []
  else [self]

end MemoryRegion

/-- The loop of `non_overlapping_regions_from` over the unusable regions. -/
def truncateAll (unusable usable : List MemoryRegion) : List MemoryRegion :=
  unusable.foldl (fun src t => src.flatMap (·.truncate t)) usable

def nonOverlappingRegionsFrom (regions : List MemoryRegion) : List MemoryRegion :=
  let usable := regions.filter (·.typ.isUsable)
  let unusable := regions.filter (!·.typ.isUsable)
  unusable ++ truncateAll unusable usable

def PAGE_SIZE : Nat := 4096

/-- The frames that `frame_allocator::init` adds for a region. -/
def framesOf (r : MemoryRegion) : List Range :=
  let start := (r.base + (PAGE_SIZE - 1)) / PAGE_SIZE
  let stop := (r.base + r.len) / PAGE_SIZE
  if r.typ = .usable ∧ start < stop then [⟨start, stop⟩] else []

/-- `frame_allocator::init`: what is added, unless `align_up` overflows and panics. -/
def init (regions : List MemoryRegion) : Option (List Range) :=
  if ∀ r ∈ regions, r.typ = .usable → r.base + (PAGE_SIZE - 1) < usizeCard then some (regions.flatMap framesOf)
  else none

variable {s t : MemoryRegion} {typ : MemoryRegionType} {a : Nat} {f : Range} {frames : List Range}
  {regions usable unusable : List MemoryRegion}

theorem mem_truncate :
    (∃ r ∈ s.truncate t, r.typ = typ ∧ a ∈ r.range) ↔ (s.typ = typ ∧ a ∈ s.range) ∧ a ∉ t.range := by
  unfold MemoryRegion.truncate
  simp only [MemoryRegion.range, Range.mem_def]
  -- one case for each way in which the two can overlap
  split_ifs <;>
    simp only [mem_cons, not_mem_nil, or_false, false_and, exists_false, exists_eq_or_imp, exists_eq_left] <;>
    grind

theorem mem_truncateAll : (∃ r ∈ truncateAll unusable usable, r.typ = typ ∧ a ∈ r.range) ↔
    (∃ r ∈ usable, r.typ = typ ∧ a ∈ r.range) ∧ ∀ t ∈ unusable, a ∉ t.range := by
  induction unusable generalizing usable with
  | nil => simp [truncateAll]
  | cons t unusable ih =>
    show (∃ r ∈ truncateAll unusable (usable.flatMap (·.truncate t)), _) ↔ _
    have hstep : (∃ r ∈ usable.flatMap (·.truncate t), r.typ = typ ∧ a ∈ r.range) ↔
        (∃ r ∈ usable, r.typ = typ ∧ a ∈ r.range) ∧ a ∉ t.range := by
      simp only [mem_flatMap]
      constructor
      · rintro ⟨r, ⟨s, hs, hr⟩, hin⟩
        obtain ⟨hs', ht⟩ := mem_truncate.mp ⟨r, hr, hin⟩
        exact ⟨⟨s, hs, hs'⟩, ht⟩
      · rintro ⟨⟨s, hs, hin⟩, ht⟩
        obtain ⟨r, hr, hin⟩ := mem_truncate.mpr ⟨hin, ht⟩
        exact ⟨r, ⟨s, hs, hr⟩, hin⟩
    rw [ih, hstep, forall_mem_cons, and_assoc]

theorem mem_nonOverlapping (htyp : typ.isUsable = true) :
    (∃ r ∈ nonOverlappingRegionsFrom regions, r.typ = typ ∧ a ∈ r.range) ↔
      (∃ r ∈ regions, r.typ = typ ∧ a ∈ r.range) ∧ ∀ r ∈ regions, r.typ.isUsable = false → a ∉ r.range := by
  simp only [nonOverlappingRegionsFrom, mem_append, or_and_right, exists_or, mem_truncateAll, mem_filter]
  grind

/-- Frames lie in their region with all their addresses. -/
theorem mem_framesOf (hf : f ∈ framesOf s) :
    s.typ = .usable ∧ ∀ n ∈ f, ∀ a, n * PAGE_SIZE ≤ a → a < (n + 1) * PAGE_SIZE → a ∈ s.range := by
  simp only [framesOf, PAGE_SIZE, MemoryRegion.range, Range.mem_def] at hf ⊢
  grind

theorem init_eq (h : init regions = some frames) : regions.flatMap framesOf = frames := by
  unfold init at h
  split at h
  · exact Option.some.inj h
  · cases h

/-- **Unusable memory is not handed out.** An address lies in a result of a usable type exactly if it lies in an input
of that type and in no unusable one, and the frames that are added consist of such addresses. -/
theorem usable_exact (regions : List MemoryRegion) :
    (∀ typ : MemoryRegionType, typ.isUsable = true → ∀ a,
      (∃ r ∈ nonOverlappingRegionsFrom regions, r.typ = typ ∧ a ∈ r.range) ↔
        (∃ r ∈ regions, r.typ = typ ∧ a ∈ r.range) ∧ ∀ r ∈ regions, r.typ.isUsable = false → a ∉ r.range) ∧
    ∀ frames, init (nonOverlappingRegionsFrom regions) = some frames → ∀ f ∈ frames, ∀ n ∈ f, ∀ a,
      n * PAGE_SIZE ≤ a → a < (n + 1) * PAGE_SIZE →
      (∃ r ∈ regions, r.typ = .usable ∧ a ∈ r.range) ∧ ∀ r ∈ regions, r.typ.isUsable = false → a ∉ r.range := by
  refine ⟨fun typ htyp a => mem_nonOverlapping htyp, fun frames h f hf n hn a hlow hhigh => ?_⟩
  rw [← init_eq h] at hf
  obtain ⟨r, hr, hmem⟩ := mem_flatMap.mp hf
  obtain ⟨husable, hin⟩ := mem_framesOf hmem
  exact (mem_nonOverlapping rfl).mp ⟨r, hr, husable, hin n hn a hlow hhigh⟩

/-- No address lies in two regions. -/
def Apart (regions : List MemoryRegion) : Prop := regions.Pairwise fun r s => r.range.Disjoint s.range

theorem Apart.truncate (s t : MemoryRegion) : Apart (s.truncate t) := by
  unfold MemoryRegion.truncate
  simp only [Apart, MemoryRegion.range, Range.disjoint_iff]
  grind

/-- What remains of some regions is disjoint exactly if an address that two of them share lies in an unusable one. -/
theorem apart_truncateAll : Apart (truncateAll unusable usable) ↔
    usable.Pairwise fun r s => ∀ a ∈ r.range, a ∈ s.range → ∃ t ∈ unusable, a ∈ t.range := by
  induction unusable generalizing usable with
  | nil =>
    simp only [not_mem_nil, false_and, exists_false]
    rfl
  | cons t unusable ih =>
    have hone (s : MemoryRegion) : (s.truncate t).Pairwise fun p q => ∀ a ∈ p.range, a ∈ q.range →
        ∃ t ∈ unusable, a ∈ t.range := (Apart.truncate s t).imp fun hpq a hp hq => (hpq a hp hq).elim
    refine Iff.trans ih (pairwise_flatMap.trans ?_)
    rw [and_iff_right fun s _ => hone s]
    refine Pairwise.iff fun r s => ?_
    simp only [mem_cons, exists_eq_or_imp]
    constructor
    · intro h a hr hs
      by_cases ht : a ∈ t.range
      · exact .inl ht
      · -- the pieces of the two regions that have the address
        obtain ⟨p, hp, -, hap⟩ := mem_truncate.mpr ⟨⟨rfl, hr⟩, ht⟩
        obtain ⟨q, hq, -, haq⟩ := mem_truncate.mpr ⟨⟨rfl, hs⟩, ht⟩
        exact .inr (h p hp q hq a hap haq)
    · intro h p hp q hq a hap haq
      obtain ⟨⟨-, hr⟩, ht⟩ := mem_truncate.mp ⟨p, hp, rfl, hap⟩
      exact (h a hr (mem_truncate.mp ⟨q, hq, rfl, haq⟩).1.2).resolve_left ht

theorem Apart.added (h : Apart regions) : (regions.flatMap framesOf).Pairwise Range.Disjoint := by
  refine pairwise_flatMap.mpr ⟨fun r _ => ?_, h.imp fun {r s} hrs f hf g hg n hnf hng => ?_⟩
  · unfold framesOf
    dsimp only
    split
    · exact pairwise_singleton ..
    · exact .nil
  · have hhigh : n * PAGE_SIZE < (n + 1) * PAGE_SIZE := Nat.mul_lt_mul_of_pos_right n.lt_succ_self (by decide)
    exact hrs _ ((mem_framesOf hf).2 n hnf _ le_rfl hhigh) ((mem_framesOf hg).2 n hng _ le_rfl hhigh)

/-- **When the results are disjoint**, so that no frame is added twice: exactly if an address that lies in two usable
inputs lies in an unusable one as well, and none lies in two unusable inputs. -/
theorem regions_disjoint_iff (regions : List MemoryRegion) :
    (Apart (nonOverlappingRegionsFrom regions) ∧
      ∀ frames, init (nonOverlappingRegionsFrom regions) = some frames → frames.Pairwise Range.Disjoint) ↔
    ((regions.filter (·.typ.isUsable)).Pairwise fun r s => ∀ a ∈ r.range, a ∈ s.range →
      ∃ t ∈ regions.filter (!·.typ.isUsable), a ∈ t.range) ∧ Apart (regions.filter (!·.typ.isUsable)) := by
  constructor
  · rintro ⟨hapart, -⟩
    obtain ⟨hunusable, husable, -⟩ := pairwise_append.mp hapart
    exact ⟨apart_truncateAll.mp husable, hunusable⟩
  · rintro ⟨husable, hunusable⟩
    have hapart : Apart (nonOverlappingRegionsFrom regions) :=
      pairwise_append.mpr ⟨hunusable, apart_truncateAll.mpr husable, fun t ht r hr a hat har =>
        (mem_truncateAll.mp ⟨r, hr, rfl, har⟩).2 t ht hat⟩
    exact ⟨hapart, fun frames h => init_eq h ▸ hapart.added⟩

/-- A region that is given twice is returned twice, and its frame is added twice. -/
theorem same_region_twice :
    init (nonOverlappingRegionsFrom [⟨0, 4096, .usable, by decide⟩, ⟨0, 4096, .usable, by decide⟩]) =
      some [⟨0, 1⟩, ⟨0, 1⟩] := by decide

end AsterKernel.Boot
