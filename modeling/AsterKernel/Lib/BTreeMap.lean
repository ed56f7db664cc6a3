import Mathlib.Tactic

/-!
# `Lib.BTreeMap` — ordered maps with natural-number keys

The interface of an ordered map, as an association list in key order. Lookup through an insertion or a
removal needs no well-formedness (the insertion is a single pass that replaces on collision); what relates
lookups to membership and iteration needs the key order, `Sorted`, which every operation keeps.

The map is a plain structure over its entry list, so that it can be nested in an inductive type.
-/

namespace Lib

open List

/-- An ordered map: its entries in key order. -/
structure BTreeMap (α : Type) where
  entries : List (Nat × α)
deriving DecidableEq, Repr

/-! ## Cutting a list at a monotone predicate -/

section Cut

variable {α : Type} {p : α → Bool} {l : List α}

/-- Along a list on which `p` can only turn from true to false, the initial segment is all of `p`. -/
theorem takeWhile_eq_filter (h : l.Pairwise (fun a b => p b = true → p a = true)) : l.takeWhile p = l.filter p := by
  induction l with
  | nil => rfl
  | cons a l ih =>
    rw [pairwise_cons] at h
    by_cases ha : p a = true
    · rw [takeWhile_cons_of_pos ha, filter_cons_of_pos ha, ih h.2]
    · rw [takeWhile_cons_of_neg ha, filter_cons_of_neg ha]
      exact (filter_eq_nil_iff.mpr fun b hb hpb => ha (h.1 b hb hpb)).symm

theorem dropWhile_eq_filter (h : l.Pairwise (fun a b => p b = true → p a = true)) :
    l.dropWhile p = l.filter (fun a => !p a) := by
  induction l with
  | nil => rfl
  | cons a l ih =>
    rw [pairwise_cons] at h
    by_cases ha : p a = true
    · rw [dropWhile_cons_of_pos ha, filter_cons_of_neg (by simp [ha]), ih h.2]
    · rw [dropWhile_cons_of_neg ha, filter_cons_of_pos (by simp [ha])]
      congr 1
      exact (filter_eq_self.mpr fun b hb => by simpa using fun hpb => ha (h.1 b hb hpb)).symm

end Cut

namespace BTreeMap

variable {α β : Type}

/-- Insertion into an entry list in key order, replacing the value of an equal key. -/
def insertList (k : Nat) (v : α) : List (Nat × α) → List (Nat × α)
  | [] => [(k, v)]
  | e :: rest =>
    if k < e.1 then (k, v) :: e :: rest
    else if k = e.1 then (k, v) :: rest
    else e :: insertList k v rest

/-- The first entry with key `k`. -/
def getList (k : Nat) : List (Nat × α) → Option α
  | [] => none
  | e :: rest => if e.1 = k then some e.2 else getList k rest

def empty : BTreeMap α := ⟨[]⟩

def get? (m : BTreeMap α) (k : Nat) : Option α := getList k m.entries

def insert (m : BTreeMap α) (k : Nat) (v : α) : BTreeMap α := ⟨insertList k v m.entries⟩

def remove (m : BTreeMap α) (k : Nat) : BTreeMap α := ⟨m.entries.filter (fun e => e.1 ≠ k)⟩

def keys (m : BTreeMap α) : List Nat := m.entries.map Prod.fst

/-- Move every entry of `other` into `m`; the moved value wins on a collision. -/
def append (m other : BTreeMap α) : BTreeMap α :=
  other.entries.foldl (fun acc e => acc.insert e.1 e.2) m

/-- Keep the entries whose value satisfies `p`. -/
def retain (m : BTreeMap α) (p : α → Bool) : BTreeMap α := ⟨m.entries.filter (fun e => p e.2)⟩

def isEmpty (m : BTreeMap α) : Bool := m.entries.isEmpty

/-- The keys are strictly increasing. -/
def Sorted (m : BTreeMap α) : Prop := m.entries.Pairwise (fun a b => a.1 < b.1)

/-! ## Lookup through the operations -/

theorem getList_insertList (k j : Nat) (v : α) (l : List (Nat × α)) :
    getList j (insertList k v l) = if j = k then some v else getList j l := by
  induction l with
  | nil => by_cases h : k = j <;> simp [insertList, getList, h, eq_comm]
  | cons e rest ih =>
    simp only [insertList]
    split
    · by_cases h : k = j <;> simp [getList, h, eq_comm]
    · split
      · rename_i hk
        by_cases h : k = j
        · simp [getList, h]
        · simp [getList, h, hk ▸ h, Ne.symm h]
      · rename_i hne
        by_cases h : e.1 = j
        · have : ¬ j = k := by omega
          simp [getList, h, this]
        · simp [getList, h, ih]

theorem get?_insert (m : BTreeMap α) (k j : Nat) (v : α) :
    (m.insert k v).get? j = if j = k then some v else m.get? j := getList_insertList k j v m.entries

@[simp] theorem get?_insert_self (m : BTreeMap α) (k : Nat) (v : α) :
    (m.insert k v).get? k = some v := by simp [get?_insert]

variable {k : Nat} {m : BTreeMap α} {v : α}

theorem get?_insert_ne (m : BTreeMap α) {j : Nat} (v : α) (h : j ≠ k) :
    (m.insert k v).get? j = m.get? j := by simp [get?_insert, h]

theorem get?_remove (m : BTreeMap α) (k j : Nat) : (m.remove k).get? j = if j = k then none else m.get? j := by
  unfold remove get?
  induction m.entries with
  | nil => simp [getList]
  | cons e rest ih =>
    by_cases hk : e.1 = k
    · rw [filter_cons_of_neg (by simp [hk]), ih]
      by_cases hj : j = k
      · simp [hj]
      · have : ¬ e.1 = j := by omega
        simp [hj, getList, this]
    · rw [filter_cons_of_pos (by simp [hk])]
      by_cases hj : e.1 = j
      · have : ¬ j = k := by omega
        simp [getList, hj, this]
      · simp only [getList, if_neg hj]
        exact ih

theorem isEmpty_iff : m.isEmpty = true ↔ ∀ k, m.get? k = none := by
  unfold isEmpty get?
  cases m.entries with
  | nil => simp [getList]
  | cons e rest =>
    simp only [isEmpty_cons, Bool.false_eq_true, false_iff, not_forall]
    exact ⟨e.1, by simp [getList]⟩

theorem eq_empty (h : m.isEmpty = true) : m = empty := by
  cases m with
  | mk entries =>
    have he : entries = [] := List.isEmpty_iff.mp h
    rw [he]
    rfl

theorem isEmpty_eq_false : m.isEmpty = false ↔ ∃ k v, m.get? k = some v := by
  rw [← Bool.not_eq_true, isEmpty_iff, not_forall]
  simp only [← ne_eq, Option.ne_none_iff_exists']

/-! ## Order -/

theorem mem_of_get? (h : m.get? k = some v) : (k, v) ∈ m.entries := by
  revert h
  unfold get?
  induction m.entries with
  | nil => simp [getList]
  | cons e rest ih =>
    intro h
    by_cases hk : e.1 = k
    · rw [getList, if_pos hk, Option.some.injEq] at h
      exact mem_cons.mpr (Or.inl (Prod.ext hk.symm h.symm))
    · rw [getList, if_neg hk] at h
      exact mem_cons_of_mem _ (ih h)

/-- In key order, an entry is what its key looks up. -/
theorem Sorted.get?_of_mem (hs : m.Sorted) (h : (k, v) ∈ m.entries) : m.get? k = some v := by
  revert hs h
  unfold Sorted get?
  induction m.entries with
  | nil => simp
  | cons e rest ih =>
    intro hs h
    rw [pairwise_cons] at hs
    rcases mem_cons.mp h with rfl | h
    · simp [getList]
    · have : ¬ e.1 = k := by have := hs.1 _ h; simp only at this; omega
      rw [getList, if_neg this]
      exact ih hs.2 h

theorem Sorted.mem_iff (hs : m.Sorted) : (k, v) ∈ m.entries ↔ m.get? k = some v := ⟨hs.get?_of_mem, mem_of_get?⟩

theorem mem_insertList {l : List (Nat × α)} {a : Nat × α} (h : a ∈ insertList k v l) : a = (k, v) ∨ a ∈ l := by
  induction l with
  | nil => simpa [insertList] using h
  | cons e rest ih =>
    simp only [insertList] at h
    split at h
    · simpa using h
    · split at h
      · rcases mem_cons.mp h with h | h
        · exact Or.inl h
        · exact Or.inr (mem_cons_of_mem _ h)
      · rcases mem_cons.mp h with h | h
        · exact Or.inr (h ▸ mem_cons_self)
        · exact (ih h).imp id (mem_cons_of_mem _)

theorem sorted_empty : (empty : BTreeMap α).Sorted := List.Pairwise.nil

section

variable (hs : m.Sorted)
include hs

theorem Sorted.insert (k : Nat) (v : α) : (m.insert k v).Sorted := by
  revert hs
  unfold Sorted BTreeMap.insert
  induction m.entries with
  | nil => intro _; simp [insertList]
  | cons e rest ih =>
    intro hs
    have hrest := (pairwise_cons.mp hs).2
    have hhead := (pairwise_cons.mp hs).1
    simp only [insertList]
    split
    · rename_i hlt
      refine pairwise_cons.mpr ⟨fun a ha => ?_, hs⟩
      rcases mem_cons.mp ha with rfl | ha
      · exact hlt
      · exact lt_trans hlt (hhead a ha)
    · split
      · rename_i heq
        exact pairwise_cons.mpr ⟨fun a ha => heq ▸ hhead a ha, hrest⟩
      · rename_i hlt hne
        refine pairwise_cons.mpr ⟨fun a ha => ?_, ih hrest⟩
        rcases mem_insertList ha with rfl | ha
        · show e.1 < k
          omega
        · exact hhead a ha

theorem Sorted.remove (k : Nat) : (m.remove k).Sorted :=
  List.Pairwise.filter _ hs

theorem Sorted.retain (p : α → Bool) : (m.retain p).Sorted :=
  List.Pairwise.filter _ hs

theorem Sorted.append (other : BTreeMap α) : (m.append other).Sorted := by
  unfold BTreeMap.append
  induction other.entries generalizing m with
  | nil => exact hs
  | cons e rest ih => exact ih (hs.insert e.1 e.2)

theorem Sorted.key_inj {w : α} (hv : (k, v) ∈ m.entries) (hw : (k, w) ∈ m.entries) : v = w :=
  Option.some.inj ((hs.get?_of_mem hv).symm.trans (hs.get?_of_mem hw))

theorem Sorted.get?_retain (p : α → Bool) (k : Nat) : (m.retain p).get? k = (m.get? k).filter p := by
  cases h : m.get? k with
  | none =>
    rw [Option.filter_none, Option.eq_none_iff_forall_ne_some]
    intro v hv
    have hmem := (mem_filter.mp (mem_of_get? hv)).1
    rw [hs.get?_of_mem hmem] at h
    cases h
  | some v =>
    by_cases hp : p v
    · rw [Option.filter_some_pos hp]
      exact (hs.retain p).get?_of_mem (mem_filter.mpr ⟨mem_of_get? h, hp⟩)
    · rw [Option.filter_some_neg (by simpa using hp), Option.eq_none_iff_forall_ne_some]
      intro w hw
      have hmem := mem_filter.mp (mem_of_get? hw)
      have : v = w := hs.key_inj (mem_of_get? h) hmem.1
      exact hp (this ▸ hmem.2)

end

theorem getList_foldl_insert (l : List (Nat × α)) (hl : l.Pairwise (fun a b => a.1 < b.1)) (m : BTreeMap α) (k : Nat) :
    (l.foldl (fun acc e => acc.insert e.1 e.2) m).get? k = (getList k l).or (m.get? k) := by
  induction l generalizing m with
  | nil => simp [getList]
  | cons e rest ih =>
    rw [pairwise_cons] at hl
    rw [foldl_cons, ih hl.2, get?_insert]
    by_cases hk : e.1 = k
    · subst hk
      -- the later keys are larger, so the fold leaves this one alone
      have hnone : getList e.1 rest = none := by
        rw [Option.eq_none_iff_forall_ne_some]
        intro v hv
        exact absurd (hl.1 _ (mem_of_get? (m := ⟨rest⟩) hv)) (by simp)
      simp [getList, hnone]
    · simp [getList, hk, Ne.symm hk]

theorem get?_append {other : BTreeMap α} (ho : other.Sorted) (k : Nat) :
    (m.append other).get? k = (other.get? k).or (m.get? k) :=
  getList_foldl_insert other.entries ho m k

end BTreeMap

/-! ## Sets -/

/-- An ordered set: the keys of a map. -/
structure BTreeSet where
  toMap : BTreeMap Unit
deriving DecidableEq, Repr

namespace BTreeSet

def empty : BTreeSet := ⟨BTreeMap.empty⟩

def insert (s : BTreeSet) (k : Nat) : BTreeSet := ⟨s.toMap.insert k ()⟩

def remove (s : BTreeSet) (k : Nat) : BTreeSet := ⟨s.toMap.remove k⟩

def contains (s : BTreeSet) (k : Nat) : Bool := (s.toMap.get? k).isSome

/-- The elements in order. -/
def toList (s : BTreeSet) : List Nat := s.toMap.keys

def Sorted (s : BTreeSet) : Prop := s.toMap.Sorted

@[simp] theorem contains_empty (k : Nat) : empty.contains k = false := rfl

@[simp] theorem contains_insert (s : BTreeSet) (k j : Nat) :
    (s.insert k).contains j = (decide (j = k) || s.contains j) := by
  unfold contains insert
  rw [BTreeMap.get?_insert]
  by_cases h : j = k <;> simp [h]

@[simp] theorem contains_remove (s : BTreeSet) (k j : Nat) :
    (s.remove k).contains j = (!decide (j = k) && s.contains j) := by
  unfold contains remove
  rw [BTreeMap.get?_remove]
  by_cases h : j = k <;> simp [h]

theorem contains_foldl_insert (ks : List Nat) (s : BTreeSet) (j : Nat) :
    (ks.foldl insert s).contains j = true ↔ j ∈ ks ∨ s.contains j = true := by
  induction ks generalizing s with
  | nil => simp
  | cons k ks ih =>
    rw [foldl_cons, ih, contains_insert, mem_cons]
    simp only [Bool.or_eq_true, decide_eq_true_eq]
    tauto

theorem contains_foldl_remove (ks : List Nat) (s : BTreeSet) (j : Nat) :
    (ks.foldl remove s).contains j = true ↔ j ∉ ks ∧ s.contains j = true := by
  induction ks generalizing s with
  | nil => simp
  | cons k ks ih =>
    rw [foldl_cons, ih, contains_remove, mem_cons]
    simp only [Bool.and_eq_true, Bool.not_eq_true', decide_eq_false_iff_not]
    tauto

variable {s : BTreeSet}

theorem Sorted.insert (hs : s.Sorted) (k : Nat) : (s.insert k).Sorted :=
  BTreeMap.Sorted.insert hs k ()

theorem mem_toList_iff {k : Nat} : k ∈ s.toList ↔ s.contains k = true := by
  unfold toList contains BTreeMap.keys BTreeMap.get?
  induction s.toMap.entries with
  | nil => simp [BTreeMap.getList]
  | cons e rest ih =>
    rw [map_cons, mem_cons, ih, BTreeMap.getList]
    by_cases hk : e.1 = k
    · simp [hk]
    · rw [if_neg hk]
      simp [Ne.symm hk]

end BTreeSet
end Lib
