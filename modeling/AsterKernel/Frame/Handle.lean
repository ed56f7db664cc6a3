import AsterKernel.Lib.Run
import AsterKernel.Lib.Threads

/-!
# `Frame.Handle` — the handles of a page frame or of a segment

The handles of one `VmFrame` share an `Arc` with the frame's index, those of one `VmSegment` an `Arc` with the index of
its first frame and their number. A handle's drop asks the `Arc` how many handles there are; if it is the only one, it
gives the frames back. The count goes down later, when the handle's `Arc` is dropped in turn: two drops at the same
time both find the other's count, and nobody gives the frames back.
-/

namespace AsterKernel.Frame

open Lib

def PAGE_SIZE : Nat := 4096

/-- `VmFrameFlags::NEED_DEALLOC`, the only flag. -/
def NEED_DEALLOC : Nat := 2 ^ 63

/-- What the handles share: the word with the index and the flags, and the number of frames. -/
structure Inner where
  frameIndex : Nat
  nframes : Nat
deriving DecidableEq, Repr

namespace Inner

def needDealloc (i : Inner) : Bool := i.frameIndex &&& NEED_DEALLOC != 0

/-- `frame_index`, `start_frame_index`: without the flags. -/
def startFrameIndex (i : Inner) : Nat := i.frameIndex &&& (NEED_DEALLOC - 1)

/-- The arguments of `dealloc_single` and `dealloc_contiguous`. -/
def frames (i : Inner) : Nat × Nat := (i.startFrameIndex, i.nframes)

end Inner

/-- Where a handle is: in use; in its drop, having found that it is the only one; in its drop, with nothing left to do
but to drop its `Arc`; dropped. -/
inductive Phase where
  | live
  | freeing
  | checked
  | gone
deriving DecidableEq, Repr

/-- The handles, the strong count of their `Arc`, and what the frame allocator has got back. -/
structure Sys where
  inner : Inner
  strong : Nat
  handles : List Phase
  freed : List (Nat × Nat)
deriving DecidableEq, Repr

/-- A handle that has just been made: `VmFrame::new`, `VmSegment::new`. -/
def Sys.new (paddr nframes flags : Nat) : Sys where
  inner := ⟨paddr / PAGE_SIZE ||| flags, nframes⟩
  strong := 1
  handles := [.live]
  freed := []

/-- The steps of the threads, each with the handle that it is on. `clone` is also what `VmSegment::range` does. -/
inductive Act where
  | clone (i : Nat)
  | drop (i : Nat)
  | dealloc (i : Nat)
  | release (i : Nat)
deriving DecidableEq, Repr

namespace Sys

def goto (s : Sys) (i : Nat) (phase : Phase) : Sys := { s with handles := s.handles.set i phase }

/-- The first half of `Drop::drop`: the strong count is read. -/
def check (s : Sys) (i : Nat) : Sys :=
  s.goto i (if s.inner.needDealloc && s.strong == 1 then .freeing else .checked)

def step : Act → Sys → Option Sys
  | .clone i, s =>
    if s.handles[i]? = some .live then some { s with strong := s.strong + 1, handles := s.handles ++ [.live] } else none
  | .drop i, s => if s.handles[i]? = some .live then some (s.check i) else none
  | .dealloc i, s =>
    if s.handles[i]? = some .freeing then some { s.goto i .checked with freed := s.inner.frames :: s.freed } else none
  | .release i, s =>
    if s.handles[i]? = some .checked then some { s.goto i .gone with strong := s.strong - 1 } else none

/-- The frames have been given back at most once and after every handle's drop has begun; when all handles are gone,
they have been given back, if they are to be. -/
structure FreedOnce (s : Sys) : Prop where
  freed : s.freed = [] ∨
    (s.freed = [s.inner.frames] ∧ s.inner.needDealloc = true ∧ ∀ phase ∈ s.handles, phase ≠ .live)
  gone : (∀ phase ∈ s.handles, phase = .gone) → s.inner.needDealloc = true → s.freed = [s.inner.frames]

/-- How many handles are in a phase. -/
def num (s : Sys) (phase : Phase) : Nat := total (fun q => if q = phase then 1 else 0) s.handles

/-- The drop of a handle begins while another one is in use, or when all others are gone. -/
def LastAlone (s : Sys) : Act → Prop
  | .drop _ => 2 ≤ s.num .live ∨ s.num .freeing = 0 ∧ s.num .checked = 0
  | _ => True

instance (s : Sys) (a : Act) : Decidable (LastAlone s a) := by
  cases a <;> unfold LastAlone <;> infer_instance

/-! ## Counting the handles -/

variable {s t : Sys} {i : Nat} {phase phase' : Phase}

/-- A step of one handle: what the others contribute stays. -/
theorem num_goto (h : s.handles[i]? = some phase) (x : Phase) : ∃ rest, s.num x = rest + (if phase = x then 1 else 0) ∧
    ∀ phase', (s.goto i phase').num x = rest + (if phase' = x then 1 else 0) :=
  total_frame h _

theorem nums_goto {p : Phase} (hi : s.handles[i]? = some p) : ∃ live freeing checked,
    (s.num .live = live + (if p = .live then 1 else 0) ∧ s.num .freeing = freeing + (if p = .freeing then 1 else 0) ∧
      s.num .checked = checked + (if p = .checked then 1 else 0)) ∧
    (∀ q, (s.goto i q).num .live = live + (if q = .live then 1 else 0)) ∧
    (∀ q, (s.goto i q).num .freeing = freeing + (if q = .freeing then 1 else 0)) ∧
    ∀ q, (s.goto i q).num .checked = checked + (if q = .checked then 1 else 0) := by
  obtain ⟨live, hl, hl'⟩ := num_goto hi .live
  obtain ⟨freeing, hf, hf'⟩ := num_goto hi .freeing
  obtain ⟨checked, hc, hc'⟩ := num_goto hi .checked
  exact ⟨live, freeing, checked, ⟨hl, hf, hc⟩, hl', hf', hc'⟩

theorem num_eq_zero : s.num phase = 0 ↔ ∀ q ∈ s.handles, q ≠ phase := by
  constructor
  · intro h q hq hqp
    obtain ⟨i, hi⟩ := List.mem_iff_getElem?.mp hq
    have hle := le_total (w := fun q => if q = phase then 1 else 0) hi
    rw [if_pos hqp] at hle
    exact absurd h (by unfold num; omega)
  · intro h
    exact total_eq_zero fun q hq => if_neg (h q hq)

/-- The strong count counts the handles whose `Arc` has not been dropped. While a handle is in use nobody frees; after
that one handle frees, or has freed. -/
structure Counted (s : Sys) : Prop where
  strong : s.strong = s.num .live + s.num .freeing + s.num .checked
  used : 0 < s.num .live → s.num .freeing = 0 ∧ s.freed = []
  last : s.num .live = 0 → s.inner.needDealloc = true →
    (s.num .freeing = 1 ∧ s.num .checked = 0 ∧ s.freed = []) ∨ (s.num .freeing = 0 ∧ s.freed = [s.inner.frames])
  kept : s.inner.needDealloc = false → s.num .freeing = 0 ∧ s.freed = []

theorem counted_new (paddr nframes flags : Nat) : Counted (new paddr nframes flags) :=
  ⟨rfl, fun _ => ⟨rfl, rfl⟩, fun h => (nomatch h), fun _ => ⟨rfl, rfl⟩⟩

section

variable (h : Counted s)
include h

theorem Counted.freedOnce : FreedOnce s := by
  constructor
  · rcases Nat.eq_zero_or_pos (s.num .live) with hlive | hlive
    · cases hneed : s.inner.needDealloc with
      | false => exact .inl (h.kept hneed).2
      | true =>
        rcases h.last hlive hneed with hfreeing | hdone
        · exact .inl hfreeing.2.2
        · exact .inr ⟨hdone.2, rfl, num_eq_zero.mp hlive⟩
    · exact .inl (h.used hlive).2
  · intro hgone hneed
    have hnone : ∀ phase, phase ≠ .gone → s.num phase = 0 := by
      intro phase hphase
      exact num_eq_zero.mpr fun q hq heq => hphase (heq ▸ hgone q hq)
    rcases h.last (hnone _ nofun) hneed with hfreeing | hdone
    · have := hnone .freeing nofun
      omega
    · exact hdone.2

/-! ## The steps -/

theorem Counted.clone (hlive : s.handles[i]? = some .live) :
    Counted { s with strong := s.strong + 1, handles := s.handles ++ [.live] } := by
  obtain ⟨rest, hrest, -⟩ := num_goto hlive .live
  rw [if_pos rfl] at hrest
  have hnum : ∀ x, num { s with strong := s.strong + 1, handles := s.handles ++ [.live] } x =
      s.num x + (if Phase.live = x then 1 else 0) := by
    intro x
    exact (total_append ..).trans (by simp [num])
  have hused := h.used (by omega)
  have hstrong := h.strong
  constructor
  · rw [hnum, hnum, hnum]
    show s.strong + 1 = _
    simp
    omega
  · intro _
    rw [hnum]
    exact ⟨by simpa using hused.1, hused.2⟩
  · intro hzero
    rw [hnum] at hzero
    simp at hzero
  · intro hneed
    rw [hnum]
    exact ⟨by simpa using hused.1, hused.2⟩

/-- The one step that needs the condition: the last handle in use finds its own count only. -/
theorem Counted.check (hlive : s.handles[i]? = some .live)
    (halone : 2 ≤ s.num .live ∨ s.num .freeing = 0 ∧ s.num .checked = 0) : Counted (s.check i) := by
  obtain ⟨live, freeing, checked, ⟨hl, hf, hc⟩, hl', hf', hc'⟩ := nums_goto hlive
  simp only [reduceIte, reduceCtorEq] at hl hf hc
  obtain ⟨hnone, hfreed⟩ := h.used (by omega)
  have hstrong := h.strong
  unfold Sys.check
  cases hneed : s.inner.needDealloc with
  | false =>
    simp only [Bool.false_and, Bool.false_eq_true, if_false]
    refine ⟨?_, fun _ => ⟨?_, hfreed⟩, fun _ hyes => ?_, fun _ => ⟨?_, hfreed⟩⟩
    · show s.strong = _
      simp only [hl', hf', hc', reduceIte, reduceCtorEq]
      omega
    · simp only [hf', reduceCtorEq, if_false]
      omega
    · cases hneed.symm.trans hyes
    · simp only [hf', reduceCtorEq, if_false]
      omega
  | true =>
    have hno : ∀ {P : Prop}, s.inner.needDealloc = false → P := fun h => absurd (hneed.symm.trans h) nofun
    by_cases hone : s.strong = 1
    · simp only [hone, Bool.true_and, beq_self_eq_true, if_true]
      refine ⟨?_, fun hpos => ?_, fun _ _ => .inl ⟨?_, ?_, hfreed⟩, fun h => hno h⟩
      · show s.strong = _
        simp only [hl', hf', hc', reduceIte, reduceCtorEq]
        omega
      all_goals simp only [hl', hf', hc', reduceIte, reduceCtorEq] at *
      all_goals omega
    · simp only [Bool.true_and, beq_iff_eq, hone, if_false]
      refine ⟨?_, fun _ => ⟨?_, hfreed⟩, fun hzero _ => ?_, fun h => hno h⟩
      · show s.strong = _
        simp only [hl', hf', hc', reduceIte, reduceCtorEq]
        omega
      all_goals simp only [hl', hf', hc', reduceIte, reduceCtorEq] at *
      all_goals omega

theorem Counted.dealloc (hi : s.handles[i]? = some .freeing) :
    Counted { s.goto i .checked with freed := s.inner.frames :: s.freed } := by
  obtain ⟨live, freeing, checked, ⟨hl, hf, hc⟩, hl', hf', hc'⟩ := nums_goto hi
  simp only [reduceIte, reduceCtorEq] at hl hf hc
  have hlive : s.num .live = 0 := by
    by_contra hpos
    have := (h.used (by omega)).1
    omega
  have hneed : s.inner.needDealloc = true := by
    by_contra hno
    have := (h.kept (by simpa using hno)).1
    omega
  have hstrong := h.strong
  have hnum : ∀ x, num { s.goto i .checked with freed := s.inner.frames :: s.freed } x = (s.goto i .checked).num x :=
    fun _ => rfl
  rcases h.last hlive hneed with ⟨hone, hzero, hfreed⟩ | hdone
  · refine ⟨?_, fun hpos => ?_, fun _ _ => .inr ⟨?_, ?_⟩, fun hno => absurd (hneed.symm.trans hno) nofun⟩
    · show s.strong = _
      simp only [hnum, hl', hf', hc', reduceIte, reduceCtorEq]
      omega
    · simp only [hnum, hl', reduceCtorEq, if_false] at hpos
      omega
    · simp only [hnum, hf', reduceCtorEq, if_false]
      omega
    · show s.inner.frames :: s.freed = [s.inner.frames]
      rw [hfreed]
  · omega

theorem Counted.release (hi : s.handles[i]? = some .checked) :
    Counted { s.goto i .gone with strong := s.strong - 1 } := by
  obtain ⟨live, freeing, checked, ⟨hl, hf, hc⟩, hl', hf', hc'⟩ := nums_goto hi
  simp only [reduceIte, reduceCtorEq] at hl hf hc
  have hnum : ∀ x, num { s.goto i .gone with strong := s.strong - 1 } x = (s.goto i .gone).num x := fun _ => rfl
  have hlive : num { s.goto i .gone with strong := s.strong - 1 } .live = s.num .live := by
    simp only [hnum, hl', reduceCtorEq, if_false]
    omega
  have hfreeing : num { s.goto i .gone with strong := s.strong - 1 } .freeing = s.num .freeing := by
    simp only [hnum, hf', reduceCtorEq, if_false]
    omega
  have hstrong := h.strong
  refine ⟨?_, ?_, fun hzero hneed => ?_, ?_⟩
  · rw [hlive, hfreeing]
    show s.strong - 1 = _
    simp only [hnum, hc', reduceCtorEq, if_false]
    omega
  · rw [hlive, hfreeing]
    exact h.used
  · rw [hlive] at hzero
    rw [hfreeing]
    rcases h.last hzero hneed with hfirst | hdone
    · omega
    · exact .inr hdone
  · rw [hfreeing]
    exact h.kept

theorem Counted.step {a : Act} (hcond : LastAlone s a) (hstep : step a s = some t) : Counted t := by
  cases a with
  | clone i =>
    obtain ⟨hi, ⟨⟩⟩ := Option.ite_none_right_eq_some.mp hstep
    exact h.clone hi
  | drop i =>
    obtain ⟨hi, ⟨⟩⟩ := Option.ite_none_right_eq_some.mp hstep
    exact h.check hi hcond
  | dealloc i =>
    obtain ⟨hi, ⟨⟩⟩ := Option.ite_none_right_eq_some.mp hstep
    exact h.dealloc hi
  | release i =>
    obtain ⟨hi, ⟨⟩⟩ := Option.ite_none_right_eq_some.mp hstep
    exact h.release hi

end

/-! ## Whole runs -/

/-- While the last handle's drop begins after all other drops have ended, the frames are given back once, and not
before the last handle's drop. -/
theorem freed_once (paddr nframes flags : Nat) {s : Sys} (h : Run step LastAlone (new paddr nframes flags) s) :
    FreedOnce s :=
  (Run.invariant (I := Counted) (counted_new paddr nframes flags) (fun _ _ _ hs hcond hstep => hs.step hcond hstep)
    h).freedOnce

/-- A handle is copied, and the two are dropped one after the other. -/
theorem freed_once_both : ∃ s, Run step LastAlone (new PAGE_SIZE 1 NEED_DEALLOC) s ∧ FreedOnce s ∧
    s.handles = [.gone, .gone] ∧ s.freed = [(1, 1)] := by
  refine Run.checked_and [.clone 0, .drop 0, .release 0, .drop 1, .dealloc 1, .release 1] ?_ fun s =>
    freed_once PAGE_SIZE 1 NEED_DEALLOC
  decide +kernel

/-- Two handles of a frame are dropped at the same time: both drops read a count of two, and the frame is lost. -/
theorem frame_leaks : ∃ s, Run step (fun _ _ => True) (new PAGE_SIZE 1 NEED_DEALLOC) s ∧
    s.handles = [.gone, .gone] ∧ s.inner.needDealloc = true ∧ s.freed = [] := by
  refine Run.checked [.clone 0, .drop 0, .drop 1, .release 0, .release 1] ?_
  decide +kernel

end Sys
end AsterKernel.Frame
