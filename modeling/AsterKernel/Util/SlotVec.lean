import AsterKernel.Vfs.Basic
import Mathlib.Data.List.ReduceOption

/-!
# `Util.SlotVec` — vectors with empty slots

A vector whose items keep their index when others come and go. The number of occupied slots is kept beside the slots;
that it is right is part of the type, so that `put` always finds the empty slot that it looks for.
-/

namespace AsterKernel

open List Lib

variable {α : Type}

variable {slots : List (Option α)} {old : Option α}

/-- The items before and after one slot changes, each with what the other holds in the slot. -/
theorem set_perm {i : Nat} (h : slots[i]? = some old) (new : Option α) :
    (old.toList ++ (slots.set i new).reduceOption).Perm (new.toList ++ slots.reduceOption) := by
  induction slots generalizing i with
  | nil => cases h
  | cons slot slots ih =>
    cases i with
    | zero =>
      obtain rfl : slot = old := by simpa using h
      have hcons : ∀ o : Option α, (o :: slots).reduceOption = o.toList ++ slots.reduceOption := by
        intro o
        cases o with
        | none | some a => rfl
      rw [set_cons_zero, hcons, hcons, ← append_assoc, ← append_assoc]
      exact perm_append_comm.append_right _
    | succ i =>
      have hrest := ih (i := i) (by simpa using h)
      rw [set_cons_succ]
      cases slot with
      | none => exact hrest
      | some a =>
        rw [reduceOption_cons_of_some, reduceOption_cons_of_some]
        exact perm_middle.trans ((hrest.cons a).trans perm_middle.symm)

theorem set_length {i : Nat} (h : slots[i]? = some old) (new : Option α) :
    (if old.isSome then 1 else 0) + (slots.set i new).reduceOption.length =
      (if new.isSome then 1 else 0) + slots.reduceOption.length := by
  have hlen : ∀ o : Option α, o.toList.length = if o.isSome then 1 else 0 := by
    intro o
    cases o with
    | none | some a => rfl
  have := (set_perm h new).length_eq
  rwa [length_append, length_append, hlen, hlen] at this

/-- `SlotVec<T>`. -/
structure SlotVec (α : Type) where
  slots : List (Option α)
  numOccupied : Nat
  occupied : numOccupied = slots.reduceOption.length

namespace SlotVec

def iter (v : SlotVec α) : List α := v.slots.reduceOption

def idxesAndItems (v : SlotVec α) : List (Nat × α) := v.slots.zipIdx.filterMap fun x => x.1.map fun a => (x.2, a)

def new : SlotVec α := ⟨[], 0, rfl⟩

def isEmpty (v : SlotVec α) : Bool := v.numOccupied == 0

theorem find_none (v : SlotVec α) (h : v.numOccupied ≠ v.slots.length) :
    v.slots[v.slots.findIdx Option.isNone]? = some none := by
  have hmem : none ∈ v.slots := by
    by_contra hnone
    refine h (v.occupied.trans (reduceOption_length_eq_iff.mpr fun o ho => ?_))
    cases o with
    | none => exact absurd ho hnone
    | some a => rfl
  have hlt : v.slots.findIdx Option.isNone < v.slots.length := findIdx_lt_length_of_exists ⟨none, hmem, rfl⟩
  have hget : (v.slots[v.slots.findIdx Option.isNone]).isNone = true := findIdx_getElem
  rw [getElem?_eq_getElem hlt, Option.isNone_iff_eq_none.mp hget]

/-- `SlotVec::put`: into the first empty slot, or at the back. -/
def put (v : SlotVec α) (entry : α) : Nat × SlotVec α :=
  if h : v.numOccupied = v.slots.length then
    (v.slots.length, {
      slots := v.slots ++ [some entry]
      numOccupied := v.numOccupied + 1
      occupied := by rw [List.reduceOption_append, List.length_append, ← v.occupied]; rfl })
  else
    (v.slots.findIdx Option.isNone, {
      slots := v.slots.set (v.slots.findIdx Option.isNone) (some entry)
      numOccupied := v.numOccupied + 1
      occupied := by
        have := set_length (v.find_none h) (some entry)
        rw [← v.occupied, if_neg (by simp), if_pos (by simp)] at this
        omega })

/-- The slots, with enough of them that there is one at `idx`. -/
def grown (v : SlotVec α) (idx : Nat) : List (Option α) :=
  v.slots ++ List.replicate (idx + 1 - v.slots.length) none

theorem reduceOption_grown (v : SlotVec α) (idx : Nat) : (v.grown idx).reduceOption = v.slots.reduceOption := by
  rw [grown, reduceOption_append, reduceOption_replicate_none, append_nil]

theorem grown_lt (v : SlotVec α) (idx : Nat) : idx < (v.grown idx).length := by
  rw [grown, length_append, length_replicate]
  omega

theorem grown_getElem? (v : SlotVec α) (idx : Nat) : (v.grown idx)[idx]? = some ((v.grown idx)[idx]?.join) := by
  rw [getElem?_eq_getElem (v.grown_lt idx)]
  rfl

/-- `SlotVec::put_at`: the item that the slot held, if it held one. -/
def putAt (v : SlotVec α) (idx : Nat) (item : α) : Option α × SlotVec α :=
  let old := (v.grown idx)[idx]?.join
  (old, {
    slots := (v.grown idx).set idx (some item)
    numOccupied := if old.isSome then v.numOccupied else v.numOccupied + 1
    occupied := by
      have := set_length (v.grown_getElem? idx) (some item)
      rw [reduceOption_grown, ← v.occupied, if_pos (show (some item).isSome = true from rfl)] at this
      show (if (v.grown idx)[idx]?.join.isSome then v.numOccupied else v.numOccupied + 1) = _
      split at this
      case isTrue hold => rw [if_pos hold]; omega
      case isFalse hold => rw [if_neg hold]; omega })

def remove (v : SlotVec α) (idx : Nat) : Option α × SlotVec α :=
  match h : v.slots[idx]? with
  | none => (none, v)
  | some old =>
    (old, {
      slots := v.slots.set idx none
      numOccupied := if old.isSome then v.numOccupied - 1 else v.numOccupied
      occupied := by
        have := set_length h none
        rw [← v.occupied, if_neg (show ¬ (none : Option α).isSome = true by simp)] at this
        split at this
        case isTrue hold => rw [if_pos hold]; omega
        case isFalse hold => rw [if_neg hold]; omega })

/-! ## The items -/

variable {v : SlotVec α}

theorem mem_idxesAndItems {i : Nat} {a : α} : (i, a) ∈ v.idxesAndItems ↔ v.slots[i]? = some (some a) := by
  unfold idxesAndItems
  rw [mem_filterMap]
  constructor
  · rintro ⟨⟨o, j⟩, hmem, heq⟩
    obtain ⟨b, rfl, hb⟩ := Option.map_eq_some_iff.mp heq
    obtain ⟨rfl, rfl⟩ := Prod.mk.inj hb
    exact mem_zipIdx_iff_getElem?.mp hmem
  · intro h
    exact ⟨(some a, i), mem_zipIdx_iff_getElem?.mpr h, rfl⟩

theorem isEmpty_iff : v.isEmpty = true ↔ v.iter = [] := by
  rw [isEmpty, beq_iff_eq, v.occupied]
  exact length_eq_zero_iff

theorem iter_put (v : SlotVec α) (entry : α) : (v.put entry).2.iter.Perm (entry :: v.iter) := by
  unfold put
  split
  case isTrue h =>
    show (v.slots ++ [some entry]).reduceOption.Perm _
    rw [reduceOption_append]
    exact perm_append_comm
  case isFalse h => exact set_perm (v.find_none h) (some entry)

theorem iter_remove {idx : Nat} {a : α} (h : v.slots[idx]? = some (some a)) :
    v.iter.Perm (a :: (v.remove idx).2.iter) := by
  unfold remove
  split
  case h_1 heq => rw [h] at heq; cases heq
  case h_2 old heq =>
    obtain rfl : some a = old := Option.some.inj (h.symm.trans heq)
    exact (set_perm heq none).symm

theorem iter_putAt (v : SlotVec α) (idx : Nat) (item : α) :
    ((v.putAt idx item).1.toList ++ (v.putAt idx item).2.iter).Perm (item :: v.iter) := by
  have := set_perm (v.grown_getElem? idx) (some item)
  rwa [reduceOption_grown] at this

theorem putAt_fst {idx : Nat} {o : Option α} (h : v.slots[idx]? = some o) (item : α) : (v.putAt idx item).1 = o := by
  have hlt : idx < v.slots.length := (List.getElem?_eq_some_iff.mp h).1
  show (v.grown idx)[idx]?.join = o
  rw [grown, List.getElem?_append_left hlt, h]
  rfl

theorem slots_remove (v : SlotVec α) (idx : Nat) : (v.remove idx).2.slots = v.slots.set idx none := by
  unfold remove
  split
  case h_1 heq => exact (set_eq_of_length_le (getElem?_eq_none_iff.mp heq)).symm
  case h_2 => rfl

/-! ## Descriptors -/

def get (v : SlotVec α) (idx : Nat) : Option α := v.slots[idx]?.join

theorem get_of_le {idx : Nat} (h : v.slots.length ≤ idx) : v.get idx = none := by
  rw [get, getElem?_eq_none h]
  rfl

theorem get_putAt (v : SlotVec α) (idx m : Nat) (item : α) :
    (v.putAt idx item).2.get m = if m = idx then some item else v.get m := by
  show ((v.grown idx).set idx (some item))[m]?.join = _
  rw [getElem?_set, get]
  unfold grown at *
  grind

/-- `get_min_free_fd` of `FileTable::dup`. -/
def getMinFreeFd (v : SlotVec α) (newFd : Nat) : Nat :=
  if (v.get newFd).isNone then newFd
  else ((range' (newFd + 1) (v.slots.length - (newFd + 1))).find? fun idx => (v.get idx).isNone).getD v.slots.length

theorem getMinFreeFd_least (v : SlotVec α) (newFd : Nat) : newFd ≤ v.getMinFreeFd newFd ∧
    v.getMinFreeFd newFd ≤ max newFd v.slots.length ∧ v.get (v.getMinFreeFd newFd) = none ∧
    ∀ m < v.getMinFreeFd newFd, newFd ≤ m → v.get m ≠ none := by
  unfold getMinFreeFd
  by_cases hfirst : v.get newFd = none
  · rw [if_pos (by rw [hfirst]; rfl)]
    exact ⟨le_rfl, le_max_left .., hfirst, fun m hm hle => absurd hle (by omega)⟩
  have hlt : newFd < v.slots.length := Nat.lt_of_not_le fun hle => hfirst (get_of_le hle)
  rw [if_neg fun hnone => hfirst (Option.isNone_iff_eq_none.mp hnone)]
  -- the minimum is taken, and so are the descriptors that the search passes
  cases hfind : (range' (newFd + 1) (v.slots.length - (newFd + 1))).find? fun idx => (v.get idx).isNone with
  | none =>
    have htaken := find?_range'_eq_none.mp hfind
    exact ⟨hlt.le, le_max_right .., get_of_le le_rfl, by grind⟩
  | some n =>
    obtain ⟨hfree, hn, htaken⟩ := find?_range'_eq_some.mp hfind
    exact ⟨by grind, by grind, Option.isNone_iff_eq_none.mp hfree, by grind⟩

/-- `fd as usize`. -/
def asUsize (fd : Int) : Nat := (fd % 2 ^ 64).toNat

/-- `FileTable::dup`, where a slot has `width` bytes: a vector of more than `isize::MAX` bytes is a panic. -/
def dup (width : Nat) (fd newFd : Int) (v : SlotVec α) : Outcome (SlotVec α) Vfs.Error Int :=
  match v.get (asUsize fd) with
  | none => .err (.withMessage .ENOENT "No such file") v
  | some entry =>
    let idx := v.getMinFreeFd (asUsize newFd)
    if v.slots.length ≤ idx ∧ 2 ^ 63 ≤ (idx + 1) * width then .panic
    else .ok (Int.bmod idx (2 ^ 32)) (v.putAt idx entry).2

/-- The entry of a descriptor. -/
def entry (v : SlotVec α) (fd : Int) : Option α := if 0 ≤ fd then v.get fd.toNat else none

/-- What duplication is to do: an open source and a minimum that is not negative give the least free descriptor from the
minimum on; everything else is an error that changes nothing. -/
def Duplicates (fd newFd : Int) (v : SlotVec α) (o : Outcome (SlotVec α) Vfs.Error Int) : Prop :=
  match v.entry fd with
  | none => ∃ e, o = .err e v
  | some entry =>
    if 0 ≤ newFd then ∃ (n : Nat) (t : _), o = .ok n t ∧
      (newFd ≤ n ∧ v.get n = none ∧ ∀ m < n, newFd ≤ m → v.get m ≠ none) ∧
      t.get n = some entry ∧ ∀ m ≠ n, t.get m = v.get m
    else ∃ e, o = .err e v

theorem get_asUsize (hlen : v.slots.length < 2 ^ 63) {fd : Int} (hfd : -2 ^ 31 ≤ fd ∧ fd < 2 ^ 31) :
    v.get (asUsize fd) = v.entry fd := by
  unfold entry
  split
  case isTrue hpos => rw [show asUsize fd = fd.toNat by unfold asUsize; omega]
  case isFalse hneg => exact get_of_le (by unfold asUsize; omega)

/-- An open source is never answered with an error. -/
theorem dup_not_err {width : Nat} {fd newFd : Int} {a : α} {e : Vfs.Error} {t : SlotVec α}
    (h : v.get (asUsize fd) = some a) : dup width fd newFd v ≠ .err e t := by
  unfold dup
  rw [h]
  dsimp only
  split <;> nofun

/-- **The least free descriptor**: duplication does what it is to do exactly if, for an open source, the minimum is not
negative and some descriptor from it on is free. -/
theorem dup_least_iff {width : Nat} (hwidth : width < 2 ^ 31) (hlen : v.slots.length < 2 ^ 63) {fd newFd : Int}
    (hfd : -2 ^ 31 ≤ fd ∧ fd < 2 ^ 31) (hnew : -2 ^ 31 ≤ newFd ∧ newFd < 2 ^ 31) :
    Duplicates fd newFd v (dup width fd newFd v) ↔
      (v.entry fd ≠ none → 0 ≤ newFd ∧ ∃ m : Nat, newFd ≤ m ∧ m < 2 ^ 31 ∧ v.get m = none) := by
  have hget := get_asUsize hlen hfd
  unfold Duplicates
  cases hentry : v.entry fd with
  | none =>
    rw [hentry] at hget
    exact iff_of_true ⟨_, by unfold dup; rw [hget]⟩ fun hopen => absurd rfl hopen
  | some a =>
    rw [hentry] at hget
    dsimp only
    rw [imp_iff_right (Option.some_ne_none a)]
    split
    case isFalse hneg => exact iff_of_false (fun ⟨e, herr⟩ => dup_not_err hget herr) fun h => hneg h.1
    case isTrue hpos =>
      obtain ⟨min, rfl⟩ := Int.eq_ofNat_of_zero_le hpos
      obtain ⟨hle, -, hnone, hleast⟩ := v.getMinFreeFd_least min
      have hdup : dup width fd min v = if v.slots.length ≤ v.getMinFreeFd min ∧ 2 ^ 63 ≤ (v.getMinFreeFd min + 1) * width
          then .panic else .ok (Int.bmod (v.getMinFreeFd min) (2 ^ 32)) (v.putAt (v.getMinFreeFd min) a).2 := by
        unfold dup
        rw [hget, show asUsize min = min by unfold asUsize; omega]
      constructor
      · rintro ⟨n, t, hok, ⟨hmin, hfree, -⟩, -⟩
        refine ⟨hpos, n, hmin, ?_, hfree⟩
        -- what is returned is a 32-bit integer
        rw [hdup] at hok
        split at hok
        · cases hok
        · have := Int.bmod_lt (x := v.getMinFreeFd min) (m := 2 ^ 32) (by decide)
          rw [Outcome.ok.inj hok |>.1] at this
          omega
      · rintro ⟨-, m, hm, hlt, hfree⟩
        have hidx : v.getMinFreeFd min < 2 ^ 31 := by
          by_contra hge
          exact hleast m (by omega) (by omega) hfree
        have hbytes : (v.getMinFreeFd min + 1) * width ≤ 2 ^ 31 * 2 ^ 31 := Nat.mul_le_mul hidx hwidth.le
        refine ⟨v.getMinFreeFd min, _, ?_, ⟨by omega, hnone, fun m hm hle => hleast m hm (by omega)⟩,
          (get_putAt ..).trans (if_pos rfl), fun m hm => (get_putAt ..).trans (if_neg hm)⟩
        rw [hdup, if_neg (by omega), Int.bmod_eq_of_le (by omega) (by omega)]

/-- The descriptors 0, 1 and 3 are open. -/
def threeOpen : SlotVec Char := (putAt (putAt (putAt new 0 'a').2 1 'b').2 3 'd').2

/-- The free descriptor between the others gets the file. -/
theorem dup_least_between : Duplicates 1 1 threeOpen (dup 32 1 1 threeOpen) ∧ threeOpen.getMinFreeFd 1 = 2 :=
  ⟨(dup_least_iff (v := threeOpen) (by decide) (show 4 < 2 ^ 63 by decide) (by decide) (by decide)).mpr fun _ =>
    ⟨by decide, 2, by decide, by decide, rfl⟩, rfl⟩

/-- `F_DUPFD` with the minimum -1. -/
theorem dup_negative_panics : dup 32 0 (-1) (putAt new 0 'f').2 = .panic := rfl

/-! ## The partial map -/

/-- `put`, where a slot has `width` bytes: a vector of more than `isize::MAX` bytes is a panic. -/
def tryPut (width : Nat) (v : SlotVec α) (entry : α) : Option (Nat × SlotVec α) :=
  if v.numOccupied = v.slots.length ∧ 2 ^ 63 ≤ (v.slots.length + 1) * width then none else some (v.put entry)

/-- `put_at` likewise. -/
def tryPutAt (width : Nat) (v : SlotVec α) (idx : Nat) (item : α) : Option (Option α × SlotVec α) :=
  if v.slots.length ≤ idx ∧ 2 ^ 63 ≤ (idx + 1) * width then none else some (v.putAt idx item)

theorem put_least (v : SlotVec α) (entry : α) : v.get (v.put entry).1 = none ∧
    (∀ m < (v.put entry).1, v.get m ≠ none) ∧
    ∀ m, (v.put entry).2.get m = if m = (v.put entry).1 then some entry else v.get m := by
  unfold put
  split
  case isTrue hfull =>
    -- no slot is empty
    have hall := reduceOption_length_eq_iff.mp (v.occupied.symm.trans hfull)
    refine ⟨get_of_le le_rfl, fun m hm => ?_, fun m => ?_⟩
    · have := hall _ (getElem_mem hm)
      rw [get, getElem?_eq_getElem hm]
      grind
    · simp only [get]
      grind
  case isFalse hfull =>
    have hnone := v.find_none hfull
    refine ⟨by rw [get, hnone]; rfl, fun m hm => ?_, fun m => ?_⟩
    · have := not_of_lt_findIdx hm
      rw [get]
      grind
    · simp only [get]
      grind

theorem idxesAndItems_pairwise (v : SlotVec α) : v.idxesAndItems.Pairwise (fun x y => x.1 < y.1) := by
  have hidx : v.slots.zipIdx.Pairwise (fun x y => x.2 < y.2) := by
    rw [← pairwise_map (f := Prod.snd), zipIdx_map_snd]
    exact pairwise_lt_range'
  refine pairwise_filterMap.mpr (hidx.imp fun {x y} hlt a ha b hb => ?_)
  obtain ⟨-, -, rfl⟩ := Option.map_eq_some_iff.mp ha
  obtain ⟨-, -, rfl⟩ := Option.map_eq_some_iff.mp hb
  exact hlt

theorem idxesAndItems_length (v : SlotVec α) : v.numOccupied = v.idxesAndItems.length := by
  have hitems : v.idxesAndItems.map Prod.snd = v.slots.reduceOption := by
    conv_rhs => rw [← zipIdx_map_fst 0 v.slots, reduceOption, filterMap_map]
    rw [idxesAndItems, map_filterMap]
    refine filterMap_congr fun x _ => ?_
    rw [Option.map_map]
    exact congrFun Option.map_id x.1
  rw [v.occupied, ← hitems, length_map]

theorem remove_fst (v : SlotVec α) (idx : Nat) : (v.remove idx).1 = v.get idx := by
  unfold remove get
  split
  case h_1 heq | h_2 heq => exact (congrArg Option.join heq).symm

/-- **A vector is a partial map** from indices to items, as long as it has at most `isize::MAX` bytes. -/
theorem slot_vec_refines (v : SlotVec α) {width idx : Nat} (entry : α) (hput : (v.slots.length + 1) * width < 2 ^ 63)
    (hidx : (idx + 1) * width < 2 ^ 63) :
    (∃ n t, v.tryPut width entry = some (n, t) ∧ (v.get n = none ∧ ∀ m < n, v.get m ≠ none) ∧
      ∀ m, t.get m = if m = n then some entry else v.get m) ∧
    (∃ t, v.tryPutAt width idx entry = some (v.get idx, t) ∧ ∀ m, t.get m = if m = idx then some entry else v.get m) ∧
    (∀ i, (v.remove i).1 = v.get i ∧ ∀ m, (v.remove i).2.get m = if m = i then none else v.get m) ∧
    v.numOccupied = v.idxesAndItems.length ∧ v.idxesAndItems.Pairwise (fun x y => x.1 < y.1) ∧
    ∀ i a, (i, a) ∈ v.idxesAndItems ↔ v.get i = some a := by
  obtain ⟨hnone, hleast, hget⟩ := v.put_least entry
  refine ⟨⟨_, _, if_neg fun h => by omega, ⟨hnone, hleast⟩, hget⟩, ⟨_, ?_, fun m => v.get_putAt idx m entry⟩, fun i => ?_,
    v.idxesAndItems_length, v.idxesAndItems_pairwise, fun i a => ?_⟩
  · rw [tryPutAt, if_neg fun h => by omega]
    have hold : (v.putAt idx entry).1 = v.get idx := by
      show (v.grown idx)[idx]?.join = v.slots[idx]?.join
      grind [grown]
    rw [← hold]
  · refine ⟨v.remove_fst i, fun m => ?_⟩
    rw [get, slots_remove, getElem?_set]
    grind [get]
  · rw [mem_idxesAndItems, get, Option.join_eq_some_iff]

/-- The gap between the items is filled first. -/
theorem slot_vec_refines_gap : ∃ t, threeOpen.tryPut 32 'c' = some (2, t) ∧
    ∀ m, t.get m = if m = 2 then some 'c' else threeOpen.get m := by
  obtain ⟨⟨n, t, hput, -, hget⟩, -⟩ := slot_vec_refines threeOpen 'c' (by decide : (4 + 1) * 32 < 2 ^ 63)
    (by decide : (3 + 1) * 32 < 2 ^ 63)
  obtain rfl : 2 = n := congrArg Prod.fst (Option.some.inj hput)
  exact ⟨t, hput, hget⟩

/-- The slots before the last index do not fit. -/
theorem put_at_max_panics : (new : SlotVec Char).tryPutAt 4 (2 ^ 64 - 1) 'f' = none := if_pos (by decide)

end SlotVec

end AsterKernel
