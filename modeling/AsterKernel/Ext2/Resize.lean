import AsterKernel.Ext2.Inode

/-!
# `Ext2.Resize` — resizing a regular file

The loop that allocates takes one block after the other and stores it in the slot of its number. It ends in one of three
ways: all blocks are there, the device is full, or the slots are used up, which panics. The number of blocks is cast to
32 bits before. The loop that frees trusts the pointers: one that is beyond the device is an error, and one that is not
marked, or comes twice, a panic. Nothing checks a file that was read from the disk, so the condition is about any number
of blocks and any pointers.
-/

namespace AsterKernel.Ext2
namespace InodeImpl

open Lib Lib.Comp List

/-- The slots that the loops may use: a debug assertion excludes the indirect ones. -/
def slots (p : Profile) : Nat := if p = .release then BLOCK_PTR_CNT else DIRECT_END

theorem inBounds_iff {p : Profile} {b : Nat} : inBounds p b = true ↔ b < slots p := by
  unfold inBounds slots
  cases p
  · have hle : DIRECT_END ≤ BLOCK_PTR_CNT := by decide
    simp only [Bool.and_eq_true, Bool.or_eq_true, decide_eq_true_eq, beq_iff_eq, reduceCtorEq, false_or, if_false]
    omega
  · simp

theorem slots_le (p : Profile) : slots p ≤ BLOCK_PTR_CNT := by cases p <;> decide

def blocksOf (size : Nat) : Nat := (size + BLOCK_SIZE - 1) / BLOCK_SIZE

/-- It succeeds, and every block of the new size has a slot; or it fails, and the file is what it was. -/
def Safe (newSize : Nat) (s : Alloc × InodeImpl) : Outcome (Alloc × InodeImpl) Error Unit → Prop
  | .ok _ t => t.2.size = newSize ∧ t.2.blocksCount = blocksOf newSize ∧ t.2.blocksCount ≤ BLOCK_PTR_CNT
  | .err _ t => t.2.size = s.2.size ∧ t.2.blocksCount = s.2.blocksCount ∧ ∀ b < s.2.blocksCount, t.2.data b = s.2.data b
  | .panic => False

variable {p : Profile} {a a₁ : Alloc} {i : InodeImpl} {group new k newSize : Nat}

/-! ## The loop that frees -/

/-- A number beyond the last group. -/
def Beyond (a : Alloc) (bid : Nat) : Prop := a.blocks.perGroup ≠ 0 ∧ a.blocks.groups.length ≤ bid / a.blocks.perGroup

/-- The pointers of `k` slots from `new` on can be freed: they have slots, and are marked and different. -/
def Frees (p : Profile) (a : Alloc) (data : Nat → Nat) (new k : Nat) : Prop :=
  (∀ b, new ≤ b → b < new + k → b < slots p ∧ a.blocks.bit (data b) = some true) ∧ ((range' new k).map data).Nodup

/-- The loop frees `k` pointers and then meets one beyond the device. -/
def Fails (p : Profile) (a : Alloc) (data : Nat → Nat) (new k : Nat) : Prop :=
  Frees p a data new k ∧ new + k < slots p ∧ Beyond a (data (new + k))

theorem not_beyond {bid : Nat} {b : Bool} (h : a.blocks.bit bid = some b) : ¬ Beyond a bid := by
  rintro ⟨-, hle⟩
  rw [IdTable.bit, getElem?_eq_none hle] at h
  cases h

theorem freeBlock_cases (ha : a.Agrees) (bid : Nat) :
    (a.blocks.bit bid = some true ∧ ∃ a₁, Alloc.freeBlock p bid a = .ok () a₁ ∧ a.Gave a₁ bid) ∨
    (Beyond a bid ∧ ∃ e, Alloc.freeBlock p bid a = .err e a) ∨
    (a.blocks.bit bid ≠ some true ∧ ¬ Beyond a bid ∧ Alloc.freeBlock p bid a = .panic) := by
  cases hrun : Alloc.freeBlock p bid a with
  | ok _ a₁ =>
    have hgave := Alloc.freeBlock_ok ha hrun
    exact .inl ⟨hgave.set, a₁, rfl, hgave⟩
  | err e a₁ =>
    obtain ⟨rfl, -, hbeyond⟩ := Alloc.freeBlock_err hrun
    exact .inr (.inl ⟨hbeyond, e, rfl⟩)
  | panic =>
    refine .inr (.inr ⟨fun hbit => ?_, fun hbeyond => ?_, rfl⟩)
    · obtain ⟨t, hok, -⟩ := Alloc.freeBlock_spec (p := p) ha hbit
      cases hrun.symm.trans hok
    · cases hrun.symm.trans (Alloc.freeBlock_of_beyond hbeyond.1 hbeyond.2)

/-- Freeing the first block, and then the others. -/
theorem frees_succ {data : Nat → Nat} (hin : new < slots p) (hgave : a.Gave a₁ (data new)) :
    Frees p a data new (k + 1) ↔ Frees p a₁ data (new + 1) k := by
  unfold Frees
  rw [range'_succ, map_cons, nodup_cons]
  constructor
  · rintro ⟨hall, hfirst, hnodup⟩
    refine ⟨fun b hb hlt => ?_, hnodup⟩
    have hne : data b ≠ data new := fun heq => hfirst (heq ▸ mem_map_of_mem (mem_range'_1.mpr ⟨hb, hlt⟩))
    rw [hgave.bit, if_neg hne]
    exact hall b (by omega) (by omega)
  · rintro ⟨hall, hnodup⟩
    have hbit (b) (hb : new + 1 ≤ b) (hlt : b < new + 1 + k) : data b ≠ data new ∧ a.blocks.bit (data b) = some true := by
      have := (hall b hb hlt).2
      rw [hgave.bit] at this
      split at this
      · cases this
      · exact ⟨‹_›, this⟩
    refine ⟨fun b hb hlt => ?_, fun hmem => ?_, hnodup⟩
    · rcases Nat.eq_or_lt_of_le hb with rfl | hb
      · exact ⟨hin, hgave.set⟩
      · exact ⟨(hall b hb (by omega)).1, (hbit b hb (by omega)).2⟩
    · obtain ⟨b, hb, heq⟩ := mem_map.mp hmem
      obtain ⟨hb, hlt⟩ := mem_range'_1.mp hb
      exact (hbit b hb hlt).1 heq

theorem fails_succ {data : Nat → Nat} (hin : new < slots p) (hgave : a.Gave a₁ (data new)) :
    Fails p a data new (k + 1) ↔ Fails p a₁ data (new + 1) k := by
  unfold Fails Beyond
  rw [frees_succ hin hgave, hgave.perGroup, hgave.length, Nat.add_right_comm]
  rfl

/-- **The loop that frees** leaves the file alone, and ends as the pointers say. -/
theorem shrinkBlocks_spec (new k : Nat) (ha : a.Agrees) :
    (∃ a', forEach (range' new k) (shrinkStep p) (a, i) = .ok () (a', i) ∧ Frees p a i.data new k) ∨
    (∃ e a', forEach (range' new k) (shrinkStep p) (a, i) = .err e (a', i) ∧ ∃ j < k, Fails p a i.data new j) ∨
    (forEach (range' new k) (shrinkStep p) (a, i) = .panic ∧ ¬ Frees p a i.data new k ∧
      ∀ j < k, ¬ Fails p a i.data new j) := by
  induction k generalizing a new with
  | zero => exact .inl ⟨a, rfl, fun b _ _ => by omega, nodup_nil⟩
  | succ k ih =>
    rw [range'_succ, forEach_cons, shrinkStep]
    have hhead : ∀ j, Frees p a i.data new (j + 1) → new < slots p ∧ a.blocks.bit (i.data new) = some true :=
      fun j h => h.1 new le_rfl (by omega)
    by_cases hin : new < slots p
    · rw [if_pos (inBounds_iff.mpr hin)]
      rcases freeBlock_cases (p := p) ha (i.data new) with
        ⟨-, a₁, hok, hgave⟩ | ⟨hbeyond, e, herr⟩ | ⟨hbit, hbeyond, hpanic⟩
      · simp only [hok]
        have hfails (j : Nat) (hj : j < k + 1) (hf : Fails p a i.data new j) :
            ∃ j' < k, Fails p a₁ i.data (new + 1) j' := by
          cases j with
          | zero => exact absurd hf.2.2 (not_beyond hgave.set)
          | succ j => exact ⟨j, by omega, (fails_succ hin hgave).mp hf⟩
        rcases @ih a₁ (new + 1) hgave.agrees with ⟨a', hrun, hfrees⟩ | ⟨e, a', hrun, j, hj, hf⟩ | ⟨hrun, hnot, hnone⟩
        · exact .inl ⟨a', hrun, (frees_succ hin hgave).mpr hfrees⟩
        · exact .inr (.inl ⟨e, a', hrun, j + 1, by omega, (fails_succ hin hgave).mpr hf⟩)
        · refine .inr (.inr ⟨hrun, fun hfrees => hnot ((frees_succ hin hgave).mp hfrees), fun j hj hf => ?_⟩)
          obtain ⟨j', hj', hf'⟩ := hfails j hj hf
          exact hnone j' hj' hf'
      · simp only [herr]
        exact .inr (.inl ⟨e, a, rfl, 0, by omega, ⟨fun b _ _ => by omega, nodup_nil⟩, hin, hbeyond⟩)
      · simp only [hpanic]
        refine .inr (.inr ⟨trivial, fun hfrees => hbit (hhead k hfrees).2, fun j _ hf => ?_⟩)
        cases j with
        | zero => exact hbeyond hf.2.2
        | succ j => exact hbit (hhead j hf.1).2
    · rw [if_neg (mt inBounds_iff.mp hin)]
      refine .inr (.inr ⟨rfl, fun hfrees => hin (hhead k hfrees).1, fun j _ hf => ?_⟩)
      cases j with
      | zero => exact hin hf.2.1
      | succ j => exact hin (hhead j hf.1).1

/-! ## Which sizes are safe -/

/-- A resize that returns covers the size only if the cast kept its number of blocks. -/
theorem safe_ok {t : Alloc × InodeImpl} (hsize : t.2.size = newSize) (hcount : t.2.blocksCount = blocksOf newSize % u32Card) :
    Safe newSize (a, i) (.ok () t) ↔ blocksOf newSize % u32Card = blocksOf newSize ∧ blocksOf newSize ≤ BLOCK_PTR_CNT := by
  unfold Safe
  dsimp only
  rw [hcount]
  constructor
  · rintro ⟨-, heq, hle⟩
    exact ⟨heq, heq.ge.trans hle⟩
  · rintro ⟨heq, hle⟩
    exact ⟨hsize, heq, heq.le.trans hle⟩

/-- When a resize is safe, by whether the file shrinks, keeps its blocks or grows. -/
def SafeSize (p : Profile) (a : Alloc) (i : InodeImpl) (newSize : Nat) : Prop :=
  if blocksOf newSize % u32Card < i.blocksCount then
    Frees p a i.data (blocksOf newSize % u32Card) (i.blocksCount - blocksOf newSize % u32Card) ∧
        blocksOf newSize ≤ BLOCK_PTR_CNT ∨
      ∃ k, blocksOf newSize % u32Card + k < i.blocksCount ∧ Fails p a i.data (blocksOf newSize % u32Card) k
  else if blocksOf newSize % u32Card = i.blocksCount then blocksOf newSize ≤ BLOCK_PTR_CNT
  else blocksOf newSize ≤ slots p ∨
    i.blocksCount + a.blocks.freeCount < blocksOf newSize % u32Card ∧
      ∀ b, i.blocksCount ≤ b → b < i.blocksCount + tested p a.blocks.freeCount → b < slots p

/-- One group of sixteen free blocks. -/
def sixteenFree : Alloc where
  blocks := ⟨16, [⟨16, .ofBits (List.replicate 16 false)⟩], 16⟩
  inodes := ⟨0, [], 0⟩
  dirsCounts := [0]

theorem sixteenFree_agrees : sixteenFree.Agrees := by
  refine ⟨⟨?_, ?_, ?_, ?_, ?_⟩, ⟨?_, ?_, ?_, ?_, ?_⟩⟩
  all_goals decide

/-- A file with three blocks that are marked. -/
def threeBlocks : Alloc × InodeImpl :=
  (⟨⟨13, [⟨13, .ofBits (List.replicate 3 true ++ List.replicate 13 false)⟩], 16⟩, ⟨0, [], 0⟩, [0]⟩,
    { InodeImpl.new .file with size := 3 * BLOCK_SIZE, blocksCount := 3, data := id })

theorem threeBlocks_agrees : threeBlocks.1.Agrees := by
  refine ⟨⟨?_, ?_, ?_, ?_, ?_⟩, ⟨?_, ?_, ?_, ?_, ?_⟩⟩
  all_goals decide

end InodeImpl
end AsterKernel.Ext2
