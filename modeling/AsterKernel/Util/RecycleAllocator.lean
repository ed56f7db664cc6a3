import AsterKernel.Lib.Run
import Mathlib.Tactic

/-!
# `Util.RecycleAllocator` — ids from a frontier, a list of freed ids and a list of reserved ones

Ids from `current` on are free unless `get_target` has put them into `skip`; an id below it is free if it is in
`recycled`. A reserved id that is freed before the frontier has passed it becomes free twice over.
-/

namespace AsterKernel

open Lib List

structure RecycleAllocator where
  current : Nat
  recycled : List Nat
  skip : List Nat
  max : Nat
deriving DecidableEq, Repr

namespace RecycleAllocator

def withStartMax (start max : Nat) : RecycleAllocator := ⟨start, [], [], max⟩

/-- The loop of `alloc`. -/
def advance (skip : List Nat) (current : Nat) : Nat := if current ∈ skip then advance skip (current + 1) else current
termination_by skip.sum + 1 - current
decreasing_by
  have := List.le_sum_of_mem ‹current ∈ skip›
  omega

/-- `RecycleAllocator::alloc`; `none` is `usize::MAX`. -/
def alloc (a : RecycleAllocator) : Option Nat × RecycleAllocator :=
  match a.recycled.getLast? with
  | some id => (some id, { a with recycled := a.recycled.dropLast })
  | none =>
    let current := advance a.skip a.current
    if current = a.max then (none, { a with current := current })
    else (some current, { a with current := current + 1 })

/-- `RecycleAllocator::dealloc`; `none` is a panic. -/
def dealloc (a : RecycleAllocator) (id : Nat) : Option RecycleAllocator :=
  if id ∈ a.skip then some { a with skip := a.skip.filter (· ≠ id), recycled := a.recycled ++ [id] }
  else if id < a.current ∧ id ∉ a.recycled then some { a with recycled := a.recycled ++ [id] }
  else none

def getTarget (a : RecycleAllocator) (target : Nat) : Bool × RecycleAllocator :=
  if target ≥ a.max then (false, a)
  else if target ≥ a.current then
    if target ∈ a.skip then (false, a) else (true, { a with skip := a.skip ++ [target] })
  else if target ∈ a.recycled then (true, { a with recycled := a.recycled.filter (· ≠ target) })
  else (false, a)

/-! ## Runs -/

inductive Act where
  | alloc
  | getTarget (target : Nat)
  | dealloc (id : Nat)
deriving DecidableEq, Repr

/-- The allocator and the ids that are handed out. -/
structure Sys where
  allocator : RecycleAllocator
  live : List Nat
deriving DecidableEq, Repr

namespace Sys

/-- Only ids that are handed out are freed. -/
def step : Act → Sys → Option Sys
  | .alloc, s => some ⟨s.allocator.alloc.2, s.allocator.alloc.1.toList ++ s.live⟩
  | .getTarget target, s =>
    some ⟨(s.allocator.getTarget target).2, if (s.allocator.getTarget target).1 then target :: s.live else s.live⟩
  | .dealloc id, s =>
    if id ∈ s.live then (s.allocator.dealloc id).map fun allocator => ⟨allocator, s.live.erase id⟩ else none

def initial (start max : Nat) : Sys := ⟨withStartMax start max, []⟩

/-- The frontier has passed the ids that are freed. -/
def Passed (s : Sys) : Act → Prop
  | .dealloc id => id < s.allocator.current
  | _ => True

structure Inv (start max : Nat) (s : Sys) : Prop where
  limit : s.allocator.max = max
  current : start ≤ s.allocator.current ∧ s.allocator.current ≤ max
  recycled : ∀ id ∈ s.allocator.recycled, start ≤ id ∧ id < s.allocator.current ∧ id ∉ s.live
  recycled_nodup : s.allocator.recycled.Nodup
  skip : ∀ id ∈ s.allocator.skip, id < max
  live : ∀ id ∈ s.live, (start ≤ id ∧ id < max) ∧ (id < s.allocator.current ∨ id ∈ s.allocator.skip)
  live_nodup : s.live.Nodup

/-- The frontier moves to the first id that is not reserved. -/
theorem advance_spec (skip : List Nat) (current : Nat) : current ≤ advance skip current ∧
    advance skip current ∉ skip ∧ ∀ m, current ≤ m → m ∉ skip → advance skip current ≤ m := by
  induction current using advance.induct skip with
  | case1 current hmem ih =>
    rw [advance, if_pos hmem]
    refine ⟨by omega, ih.2.1, fun m hm hnot => ih.2.2 m ?_ hnot⟩
    exact lt_of_le_of_ne hm fun heq => hnot (heq ▸ hmem)
  | case2 current hmem =>
    rw [advance, if_neg hmem]
    exact ⟨le_rfl, hmem, fun m hm _ => hm⟩

variable {start max : Nat} {s t : Sys}

theorem Inv.step (h : Inv start max s) {a : Act} (hpassed : Passed s a) (hstep : step a s = some t) : Inv start max t := by
  obtain ⟨hmax, hcurrent, hrecycled, hnodup, hskip, hlive, hlnodup⟩ := h
  cases a with
  | alloc =>
    cases hstep
    unfold RecycleAllocator.alloc
    split
    · -- an id that was freed
      rename_i id hlast
      obtain ⟨init, hinit⟩ := getLast?_eq_some_iff.mp hlast
      refine ⟨hmax, hcurrent, ?_, ?_, hskip, ?_, ?_⟩ <;> grind
    · -- the frontier moves past the ids that are reserved, all of which are below `max`
      have hadv := advance_spec s.allocator.skip s.allocator.current
      dsimp only
      split
      · refine ⟨hmax, ?_, ?_, ?_, hskip, ?_, ?_⟩ <;> grind
      · refine ⟨hmax, ?_, ?_, ?_, hskip, ?_, ?_⟩ <;> grind
  | getTarget target =>
    obtain rfl := Option.some.inj hstep
    unfold RecycleAllocator.getTarget
    split
    · exact ⟨hmax, hcurrent, hrecycled, hnodup, hskip, hlive, hlnodup⟩
    split
    · refine ⟨?_, ?_, ?_, ?_, ?_, ?_, ?_⟩ <;> grind
    · refine ⟨?_, ?_, ?_, ?_, ?_, ?_, ?_⟩ <;> grind
  | dealloc id =>
    rw [Sys.step] at hstep
    split at hstep
    · rename_i hmem
      obtain ⟨allocator, hdealloc, rfl⟩ := Option.map_eq_some_iff.mp hstep
      unfold RecycleAllocator.dealloc at hdealloc
      have hp : id < s.allocator.current := hpassed
      refine ⟨?_, ?_, ?_, ?_, ?_, ?_, ?_⟩ <;> grind
    · cases hstep

/-- **Ids are handed out once.** If every id that is freed is below the frontier, the ids that are handed out are
distinct and in the range, and each of them can be freed. -/
theorem recycle_exclusive (h : start ≤ max) (hrun : Run step Passed (initial start max) s) :
    s.live.Nodup ∧ (∀ id ∈ s.live, start ≤ id ∧ id < max) ∧ ∀ id ∈ s.live, (s.allocator.dealloc id).isSome := by
  have hinv : Inv start max s := by
    refine hrun.invariant ?_ fun s a t hs hpassed hstep => hs.step hpassed hstep
    exact ⟨rfl, ⟨le_rfl, h⟩, nofun, nodup_nil, nofun, nofun, nodup_nil⟩
  refine ⟨hinv.live_nodup, fun id hid => (hinv.live id hid).1, fun id hid => ?_⟩
  unfold RecycleAllocator.dealloc
  split
  · rfl
  · rename_i hskip
    have hlt := (hinv.live id hid).2.resolve_right hskip
    rw [if_pos ⟨hlt, fun hmem => (hinv.recycled id hmem).2.2 hid⟩]
    rfl

theorem recycle_exclusive_irq : [33, 40].Nodup ∧ (∀ id ∈ [33, 40], 32 ≤ id ∧ id < 256) ∧
    ∀ id ∈ [33, 40], (RecycleAllocator.dealloc ⟨32, [], [40, 33], 256⟩ id).isSome := by
  have hrun : Run step Passed (initial 32 256) ⟨⟨32, [], [40, 33], 256⟩, [33, 40]⟩ :=
    (Run.start.next (.getTarget 40) trivial rfl).next (.getTarget 33) trivial rfl
  exact recycle_exclusive (by decide) hrun

/-- An id above the frontier is reserved and freed. It is then both recycled and not reserved. -/
theorem recycle_twice : (steps step [.getTarget 40, .dealloc 40, .getTarget 40, .alloc] (initial 32 256)).map Sys.live =
    some [40, 40] := rfl

end Sys
end RecycleAllocator

end AsterKernel
