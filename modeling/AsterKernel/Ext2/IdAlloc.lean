import Mathlib.Tactic

/-!
# `Ext2.IdAlloc` — the bitmap allocator

A bitmap with a cursor to its first clear bit. `alloc` takes the id under the cursor and moves the cursor on;
`free` clears a bit and moves the cursor back if need be. The cursor is part of the type: it is where the first
clear bit is, or the length of the bitmap if there is none.
-/

namespace AsterKernel.Ext2

open List

/-- `find(|&i| !bitset[i])` from `start` on, or the length. -/
def nextFree (bits : List Bool) (start : Nat) : Nat := start + (bits.drop start).findIdx (!·)

structure IdAlloc where
  bitset : List Bool
  firstAvailableId : Nat
  /-- The cursor is the first clear bit. -/
  cursor : firstAvailableId = bitset.findIdx (!·)
deriving DecidableEq, Repr

section cursor

variable {bits : List Bool} {id : Nat}

theorem findIdx_of_prefix {p : List Bool} {b : Bool} {s : List Bool} (hp : ∀ x ∈ p, x = true) :
    (p ++ b :: s).findIdx (!·) = if b then p.length + 1 + s.findIdx (!·) else p.length := by
  rw [findIdx_append]
  have hlt : ¬ p.findIdx (!·) < p.length := by
    rw [findIdx_lt_length]
    simpa using hp
  rw [if_neg hlt, findIdx_cons]
  cases b with
  | true =>
    simp only [Bool.not_true, cond_false, if_true]
    omega
  | false => simp

/-- All bits before the cursor are set. -/
theorem take_findIdx (bits : List Bool) {x : Bool} (hx : x ∈ bits.take (bits.findIdx (!·))) : x = true := by
  obtain ⟨i, hi, rfl⟩ := mem_iff_getElem.mp hx
  rw [getElem_take]
  rw [length_take] at hi
  have := @not_of_lt_findIdx _ (!·) bits i (by omega)
  simpa using this

/-- After an allocation the cursor is searched from the next id on. -/
theorem findIdx_set_true (h : bits.findIdx (!·) < bits.length) :
    nextFree (bits.set (bits.findIdx (!·)) true) (bits.findIdx (!·) + 1) =
      (bits.set (bits.findIdx (!·)) true).findIdx (!·) := by
  have hlen : (bits.take (bits.findIdx (!·))).length = bits.findIdx (!·) := by
    rw [length_take]
    omega
  have hdrop : (bits.set (bits.findIdx (!·)) true).drop (bits.findIdx (!·) + 1) =
      bits.drop (bits.findIdx (!·) + 1) := drop_set_of_lt (by omega)
  rw [nextFree, hdrop, set_eq_take_cons_drop _ h, findIdx_of_prefix fun x hx => take_findIdx bits hx, if_pos rfl, hlen]

/-- After an id has been freed, the cursor is the smaller one. -/
theorem findIdx_set_false (h : id < bits.length) :
    (bits.set id false).findIdx (!·) = if id < bits.findIdx (!·) then id else bits.findIdx (!·) := by
  by_cases hid : id < bits.findIdx (!·)
  · have hpre : ∀ x ∈ bits.take id, x = true := by
      intro x hx
      refine take_findIdx bits (mem_of_mem_take (i := id) ?_)
      rwa [take_take, Nat.min_eq_left (by omega)]
    rw [if_pos hid, set_eq_take_cons_drop _ h, findIdx_of_prefix hpre, if_neg (by decide), length_take]
    omega
  · -- the old cursor is still the first clear bit
    rw [if_neg hid]
    have hlt : bits.findIdx (!·) < bits.length := by omega
    have hlt' : bits.findIdx (!·) < (bits.set id false).length := by simpa using hlt
    have hbit : (bits.set id false)[bits.findIdx (!·)] = false := by
      rw [getElem_set]
      split
      · rfl
      · simpa using findIdx_getElem (w := hlt)
    refine (findIdx_eq hlt').mpr ⟨by rw [hbit]; rfl, fun j hj => ?_⟩
    rw [getElem_set_ne (by omega)]
    simpa using not_of_lt_findIdx hj

end cursor

namespace IdAlloc

/-- An allocator with some bits; `with_capacity` has clear ones. -/
def ofBits (bits : List Bool) : IdAlloc := ⟨bits, bits.findIdx (!·), rfl⟩

def zeros (a : IdAlloc) : Nat := a.bitset.count false

/-- `is_allocated`; out of bounds it panics. -/
def isAllocated (a : IdAlloc) (id : Nat) : Option Bool := a.bitset[id]?

def alloc (a : IdAlloc) : Option (Nat × IdAlloc) :=
  if h : a.firstAvailableId < a.bitset.length then
    some (a.firstAvailableId,
      { bitset := a.bitset.set a.firstAvailableId true
        firstAvailableId := nextFree (a.bitset.set a.firstAvailableId true) (a.firstAvailableId + 1)
        cursor := by
          rw [a.cursor] at h ⊢
          exact findIdx_set_true h })
  else none

/-- `free`; out of bounds it panics. -/
def free (a : IdAlloc) (id : Nat) : Option IdAlloc :=
  if h : id < a.bitset.length then
    some
      { bitset := a.bitset.set id false
        firstAvailableId := if id < a.firstAvailableId then id else a.firstAvailableId
        cursor := by rw [a.cursor, findIdx_set_false h] }
  else none

variable {a b : IdAlloc} {id : Nat}

/-- What is allocated was clear, and is the only bit that changes. -/
theorem alloc_some (h : a.alloc = some (id, b)) :
    a.bitset[id]? = some false ∧ b.bitset = a.bitset.set id true ∧ b.zeros + 1 = a.zeros := by
  unfold alloc at h
  split at h
  case isTrue hlt =>
    cases h
    have hlt' : a.bitset.findIdx (!·) < a.bitset.length := by rw [← a.cursor]; exact hlt
    have hbit : a.bitset[a.firstAvailableId] = false := by
      have := findIdx_getElem (w := hlt')
      simpa [a.cursor] using this
    have hget : a.bitset[a.firstAvailableId]? = some false := by
      rw [getElem?_eq_getElem hlt, hbit]
    refine ⟨hget, rfl, ?_⟩
    have hpos : 0 < a.bitset.count false := count_pos_iff.mpr (mem_of_getElem? hget)
    simp only [zeros]
    rw [count_set hlt, hbit]
    simp
    omega
  case isFalse => cases h

theorem alloc_eq_none_iff : a.alloc = none ↔ ∀ b ∈ a.bitset, b = true := by
  unfold alloc
  split
  case isTrue hlt =>
    rw [a.cursor, findIdx_lt_length] at hlt
    obtain ⟨x, hx, hnot⟩ := hlt
    simp only [Bool.not_eq_true'] at hnot
    refine ⟨nofun, fun h => ?_⟩
    have := h x hx
    rw [hnot] at this
    cases this
  case isFalse hge =>
    rw [a.cursor, findIdx_lt_length] at hge
    simpa using hge

theorem zeros_eq_zero_iff : a.zeros = 0 ↔ ∀ b ∈ a.bitset, b = true := by
  rw [zeros, count_eq_zero]
  constructor
  · intro h b hb
    cases b with
    | true => rfl
    | false => exact absurd hb h
  · intro h hmem
    have := h false hmem
    cases this

theorem free_some (h : a.bitset[id]? = some true) :
    ∃ b, a.free id = some b ∧ b.bitset = a.bitset.set id false ∧ b.zeros = a.zeros + 1 := by
  obtain ⟨hlt, hbit⟩ := List.getElem?_eq_some_iff.mp h
  refine ⟨_, dif_pos hlt, rfl, ?_⟩
  simp only [zeros]
  rw [List.count_set hlt, hbit]
  simp

/-! ## Bytes -/

/-- The bits of a `BitVec<u8>`, the lowest bit of each byte first. -/
def bitsOf (bytes : List (BitVec 8)) : List Bool := bytes.flatMap fun b => (range 8).map b.getLsbD

def fromBytesWithCapacity (slice : List (BitVec 8)) (capacity : Nat) : IdAlloc :=
  ofBits <| if capacity > slice.length * 8 then bitsOf slice ++ replicate (capacity - slice.length * 8) false
    else (bitsOf (slice.take ((capacity + 7) / 8))).take capacity

/-- What `as_bytes` may return: the bits of the last byte that are past the capacity may be anything. -/
def AsBytes (a : IdAlloc) (bytes : List (BitVec 8)) : Prop :=
  bytes.length = (a.bitset.length + 7) / 8 ∧ (bitsOf bytes).take a.bitset.length = a.bitset

theorem length_bitsOf (bytes : List (BitVec 8)) : (bitsOf bytes).length = bytes.length * 8 := by
  simp [bitsOf, length_flatMap]

theorem bitsOf_take {bytes : List (BitVec 8)} {n : Nat} (h : n ≤ bytes.length) :
    bitsOf (bytes.take n) = (bitsOf bytes).take (n * 8) := by
  conv_rhs => rw [← take_append_drop n bytes, bitsOf, flatMap_append]
  rw [take_left' (by rw [← bitsOf, length_bitsOf, length_take, min_eq_left h])]
  rfl

theorem isAllocated_fromBytes (slice : List (BitVec 8)) (capacity i : Nat) :
    (fromBytesWithCapacity slice capacity).isAllocated i =
      if i < capacity then some ((bitsOf slice)[i]?.getD false) else none := by
  have hlen := length_bitsOf slice
  show (if capacity > slice.length * 8 then _ else _)[i]? = _
  split
  · rw [getElem?_append]
    grind
  · rw [bitsOf_take (by omega), take_take]
    grind

/-- **An allocator is the set of its allocated ids.** It starts with those of the bytes. The cursor is the least free
id or the capacity; `alloc` takes it and fails only if all ids are allocated; `free` gives its id back; and the bytes
of an allocator make the same one again. -/
theorem id_alloc_refines (a : IdAlloc) (slice : List (BitVec 8)) (capacity : Nat) :
    (∀ i, (fromBytesWithCapacity slice capacity).isAllocated i =
      if i < capacity then some ((bitsOf slice)[i]?.getD false) else none) ∧
    ((∀ i < a.firstAvailableId, a.isAllocated i = some true) ∧
      a.isAllocated a.firstAvailableId = if a.firstAvailableId = a.bitset.length then none else some false) ∧
    (a.alloc = none ↔ ∀ i < a.bitset.length, a.isAllocated i = some true) ∧
    (∀ id b, a.alloc = some (id, b) → id = a.firstAvailableId ∧ a.isAllocated id = some false ∧
      ∀ i, b.isAllocated i = if i = id then some true else a.isAllocated i) ∧
    (∀ id, a.isAllocated id = some true → ∃ b, a.free id = some b ∧
      ∀ i, b.isAllocated i = if i = id then some false else a.isAllocated i) ∧
    ∀ bytes, a.AsBytes bytes → fromBytesWithCapacity bytes a.bitset.length = a := by
  have hle : a.firstAvailableId ≤ a.bitset.length := a.cursor ▸ findIdx_le_length
  refine ⟨isAllocated_fromBytes slice capacity, ⟨fun i hi => ?_, ?_⟩, ?_, fun id b h => ?_, fun id h => ?_, ?_⟩
  · rw [isAllocated, getElem?_eq_getElem (by omega)]
    rw [a.cursor] at hi
    simpa using not_of_lt_findIdx hi
  · split
    · rename_i hfull
      rw [isAllocated, hfull, getElem?_eq_none le_rfl]
    · rename_i hfull
      have hlt : a.bitset.findIdx (!·) < a.bitset.length := by rw [← a.cursor]; omega
      rw [isAllocated, a.cursor, getElem?_eq_getElem hlt]
      simpa using findIdx_getElem (w := hlt)
  · rw [alloc_eq_none_iff, forall_mem_iff_getElem]
    exact forall₂_congr fun i hi => by rw [isAllocated, getElem?_eq_getElem hi, Option.some.injEq]
  · obtain ⟨hfree, hbits, -⟩ := alloc_some h
    refine ⟨?_, hfree, fun i => ?_⟩
    · unfold alloc at h
      grind
    · rw [isAllocated, hbits]
      grind [isAllocated]
  · obtain ⟨b, hb, hbits, -⟩ := free_some h
    refine ⟨b, hb, fun i => ?_⟩
    rw [isAllocated, hbits]
    grind [isAllocated]
  · -- the bits past the capacity are cut off again
    rintro bytes ⟨hlen, hbits⟩
    rw [fromBytesWithCapacity, if_neg (by omega), ← hlen, take_length, hbits]
    obtain ⟨bits, first, rfl⟩ := a
    rfl

end IdAlloc

end AsterKernel.Ext2
