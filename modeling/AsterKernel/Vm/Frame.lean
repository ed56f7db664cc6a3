import AsterKernel.Vm.VmarOps

/-!
# `Vm.Frame` — what unmapping and overwriting leave alone

An address that a mapping covers is backed by a byte of a VMO, with the permissions of the mapping. This
module says which addresses keep their backing through `destroy` and through an overwriting `map`.

A trim that ends where a mapping ends, but starts inside it, appends an empty mapping at that end. If another
mapping starts there, the empty one replaces it, and the addresses of that mapping lose their backing.
-/

namespace AsterKernel.Vm

open Lib Lib.Comp Lib.BTreeMap

/-- What an address is backed by: a byte of a VMO, and the permissions to access it. -/
structure Backing where
  vmo : Vmo
  offset : Nat
  perm : VmPerm
deriving DecidableEq, Repr

namespace VmMapping

/-- The backing of an address of the mapping. -/
def backing (m : VmMapping) (a : Nat) : Backing :=
  ⟨m.vmo, wadd m.vmoOffset (a - m.mapToAddr), m.perm⟩

variable {m' : VmMapping} {m : VmMapping}

theorem backing_of_geom (h : m.geom = m'.geom) (a : Nat) : m.backing a = m'.backing a := by
  have hb := congrArg (fun g : VmMapping => g.backing a) h
  exact hb

theorem range_of_geom (h : m.geom = m'.geom) : range m = range m' := by
  have hr := congrArg (fun g : VmMapping => range g) h
  exact hr

theorem isDestroyed_of_geom (h : m.geom = m'.geom) : m.isDestroyed = m'.isDestroyed := by
  have hd := congrArg (fun g : VmMapping => g.isDestroyed) h
  exact hd

theorem backing_leftPiece (m : VmMapping) (x a : Nat) : (m.leftPiece x).backing a = m.backing a := rfl

theorem backing_rightPiece {x a : Nat} (hx : m.mapToAddr ≤ x) (ha : x ≤ a) :
    (m.rightPiece x).backing a = m.backing a := by
  have hsum : wadd (wadd m.vmoOffset (x - m.mapToAddr)) (a - x) = wadd m.vmoOffset (a - m.mapToAddr) := by
    unfold wadd
    rw [Nat.mod_add_mod]
    congr 1
    omega
  simp only [backing, rightPiece, hsum]

variable {m : VmMapping} {t : Range}

/-- The part left of a trim that meets the mapping. -/
theorem mem_leftPiece_iff (hm : m.Typed) (hi : isIntersected (range m) t = true)
    (hlt : m.mapToAddr < t.start) (a : Nat) : a ∈ range (m.leftPiece t.start) ↔ a ∈ range m ∧ a < t.start := by
  have hb := isIntersected_bounds.mp hi
  have hend := range_stop_of_lt hm hb.1
  rw [range_def] at hb hend
  simp only at hb hend
  have hstop : wadd m.mapToAddr (t.start - m.mapToAddr) = t.start := by
    rw [wadd_of_lt (by omega)]
    omega
  simp only [range_def, leftPiece, Range.mem_def, hstop]
  omega

theorem mem_rightPiece_iff (hm : m.Typed) (hi : isIntersected (range m) t = true)
    (hle : t.stop ≤ (range m).stop) (a : Nat) : a ∈ range (m.rightPiece t.stop) ↔ a ∈ range m ∧ t.stop ≤ a := by
  have hb := isIntersected_bounds.mp hi
  have hend := range_stop_of_lt hm hb.1
  rw [range_def] at hb hend hle
  simp only at hb hend hle
  have hstop : wadd t.stop (m.mapSize - (t.stop - m.mapToAddr)) = m.mapToAddr + m.mapSize := by
    rw [wadd_of_lt (by omega)]
    omega
  simp only [range_def, rightPiece, Range.mem_def, hstop, hend.1]
  omega

end VmMapping

namespace Vmar

open VmMapping

/-- The address `a` is backed by `b`. -/
def BackedBy (M : BTreeMap VmMapping) (a : Nat) (b : Backing) : Prop :=
  ∃ k m, M.get? k = some m ∧ a ∈ range m ∧ m.backing a = b

/-- Every address outside `r` is backed as before. -/
def FrameOutside (r : Range) (M M' : BTreeMap VmMapping) : Prop :=
  ∀ a, a ∉ r → ∀ b, BackedBy M' a b ↔ BackedBy M a b

/-- Mappings that are keyed by their start and pairwise disjoint; empty ones are allowed. Their fields are
`usize` values, and none is marked as destroyed (no code sets that mark). -/
structure Layout (M : BTreeMap VmMapping) : Prop where
  sorted : M.Sorted
  keyed : Keyed M
  disjoint : ∀ k m k' m', M.get? k = some m → M.get? k' = some m' → k ≠ k' → Range.Disjoint (range m) (range m')
  typed : ∀ e ∈ M.entries, e.2.Typed
  live : ∀ k m, M.get? k = some m → m.isDestroyed = false

section Trimmed

variable {tr : VmMapping → Range} {l : List (Nat × VmMapping)} {M M' : BTreeMap VmMapping}

variable {k a : Nat} {m : VmMapping}

theorem Layout.owner_unique (hM : Layout M) {k' : Nat} {m' : VmMapping} (h : M.get? k = some m)
    (h' : M.get? k' = some m') (ha : a ∈ range m) (ha' : a ∈ range m') : k = k' ∧ m = m' := by
  have hk : k = k' := by
    by_contra hne
    exact hM.disjoint k m k' m' h h' hne a ha ha'
  subst hk
  rw [h, Option.some.injEq] at h'
  exact ⟨rfl, h'⟩

/-- The trim of `m` starts inside it and ends at its end, so that an empty mapping is appended there. -/
def TailTrim (tr : VmMapping → Range) (m : VmMapping) : Prop :=
  isIntersected (range m) (tr m) = true ∧ m.mapToAddr < (tr m).start ∧ (tr m).stop = (range m).stop

/-- No empty mapping that is appended takes the key of a non-empty mapping that stays. -/
def NoneReplaced (tr : VmMapping → Range) (l : List (Nat × VmMapping)) (M : BTreeMap VmMapping) : Prop :=
  ∀ e ∈ l, TailTrim tr e.2 → ∀ n, M.get? (range e.2).stop = some n → (range n).start < (range n).stop →
    ((range e.2).stop, n) ∈ l ∧ removesKey (tr n) n = true

variable {w : VmMapping}

/-- Where the pieces are appended: inside the mapping they are cut from, or at its end. -/
theorem appendedPiece_cases (h : appendedPiece (tr m) m = some (k, w)) :
    isIntersected (range m) (tr m) = true ∧ k = (tr m).stop ∧ w = m.rightPiece k ∧ k ≤ (range m).stop ∧
      (k < (range m).stop ∨ TailTrim tr m) := by
  unfold appendedPiece at h
  split at h
  · rename_i hc
    cases h
    refine ⟨hc.1, rfl, rfl, by omega, ?_⟩
    rcases hc.2 with h | h
    · exact Or.inl h
    · exact Or.inr ⟨hc.1, h.2, h.1⟩
  · cases h

theorem mem_of_appended (h : appendedPiece (tr m) m = some (k, w)) (hlt : k < (range m).stop) : k ∈ range m := by
  obtain ⟨hi, rfl, -⟩ := appendedPiece_cases h
  have hb := isIntersected_bounds.mp hi
  rw [Range.mem_def]
  omega

section

variable (hM : Layout M) (hl : l.Sublist M.entries)
include hM hl

/-- **After a trim every address is backed as before**, and lies outside what was trimmed. -/
theorem backed_of_trimmed (htr : Trimmed tr l M M') {b : Backing}
    (h : BackedBy M' a b) : ∃ k m, M.get? k = some m ∧ a ∈ range m ∧ m.backing a = b ∧ ((k, m) ∈ l → a ∉ tr m) := by
  obtain ⟨k, v, hv, ha, rfl⟩ := h
  have hget : ∀ e ∈ l, M.get? e.1 = some e.2 := fun e he => hM.sorted.get?_of_mem (hl.subset he)
  have htyped : ∀ e ∈ l, e.2.Typed := fun e he => hM.typed e (hl.subset he)
  rcases htr.cases k v hv with ⟨w, ⟨e, he, hw⟩, hg⟩ | ⟨-, ⟨hk, hget'⟩ | ⟨m, hm, hr, hg⟩⟩
  · -- an appended piece
    obtain ⟨hi, rfl, rfl, hle, -⟩ := appendedPiece_cases hw
    rw [range_of_geom hg, mem_rightPiece_iff (htyped e he) hi hle] at ha
    have hb := isIntersected_bounds.mp hi
    rw [range_def] at hb
    refine ⟨e.1, e.2, hget e he, ha.1, ?_, fun _ hin => ?_⟩
    · rw [backing_of_geom hg, backing_rightPiece (le_of_lt hb.2.2.1) ha.2]
    · rw [Range.mem_def] at hin
      omega
  · -- a mapping that was not trimmed
    exact ⟨k, v, hget', ha, rfl, fun hin => absurd (List.mem_map.mpr ⟨(k, v), hin, rfl⟩) hk⟩
  · -- what was kept of a trimmed mapping
    rw [range_of_geom hg] at ha
    refine ⟨k, m, hget _ hm, ?_⟩
    unfold keptPiece at hg ha
    split at ha
    · rename_i hi
      rw [if_pos hi] at hg
      have hlt : m.mapToAddr < (tr m).start := by
        simpa [removesKey, hi] using hr
      rw [mem_leftPiece_iff (htyped _ hm) hi hlt] at ha
      refine ⟨ha.1, by rw [backing_of_geom hg, backing_leftPiece], fun _ hin => ?_⟩
      rw [Range.mem_def] at hin
      omega
    · rename_i hi
      rw [if_neg hi] at hg
      exact ⟨ha, by rw [backing_of_geom hg], fun _ hin => hi (isIntersected_iff.mpr ⟨a, ha, hin⟩)⟩

theorem not_appendsAt (hno : NoneReplaced tr l M) (hget : M.get? k = some m)
    (hne : (range m).start < (range m).stop) (hkept : (k, m) ∈ l → removesKey (tr m) m = false)
    (w : VmMapping) : ¬ AppendsAt tr l k w := by
  rintro ⟨e, he, hw⟩
  have hgete : M.get? e.1 = some e.2 := hM.sorted.get?_of_mem (hl.subset he)
  have hkey := hM.keyed k m hget
  have hkm : k ∈ range m := by rw [Range.mem_def]; omega
  obtain ⟨hi, hstop, -, -, hlt | htail⟩ := appendedPiece_cases hw
  · -- the piece starts inside `e`, so `e` is the mapping at `k`, and its trim ends at its start
    obtain ⟨rfl, rfl⟩ := hM.owner_unique hget hgete hkm (mem_of_appended hw hlt)
    have hb := isIntersected_bounds.mp hi
    omega
  · have hk : k = (range e.2).stop := hstop.trans htail.2.2
    obtain ⟨hmem, hr⟩ := hno e he htail m (hk ▸ hget) hne
    rw [hkept (hk ▸ hmem)] at hr
    cases hr

section

variable (htr : Trimmed tr l M M')
include htr

/-- **An address outside what is trimmed keeps its backing**, if no mapping is replaced. -/
theorem trimmed_of_backed (hno : NoneReplaced tr l M) (hget : M.get? k = some m) (ha : a ∈ range m)
    (hout : (k, m) ∈ l → a ∉ tr m) : BackedBy M' a (m.backing a) := by
  have hne : (range m).start < (range m).stop := lt_of_le_of_lt ha.1 ha.2
  by_cases hmem : (k, m) ∈ l
  · have hm : m.Typed := hM.typed _ (hl.subset hmem)
    have haout := hout hmem
    by_cases hi : isIntersected (range m) (tr m) = true
    · have hb := isIntersected_bounds.mp hi
      rw [Range.mem_def, not_and_or, not_le, not_lt] at haout
      rcases haout with hlt | hge
      · -- left of the trim
        have hstart : m.mapToAddr < (tr m).start := lt_of_le_of_lt ha.1 hlt
        have hr : removesKey (tr m) m = false := by simp [removesKey, hstart]
        obtain ⟨v, hv, hg⟩ := htr.kept k m (not_appendsAt hM hl hno hget hne fun _ => hr) hmem hr
        rw [keptPiece, if_pos hi] at hg
        refine ⟨k, v, hv, ?_, by rw [backing_of_geom hg, backing_leftPiece]⟩
        rw [range_of_geom hg, mem_leftPiece_iff hm hi hstart]
        exact ⟨ha, hlt⟩
      · -- right of the trim
        have hlt : (tr m).stop < (range m).stop := lt_of_le_of_lt hge ha.2
        have happ : appendedPiece (tr m) m = some ((tr m).stop, m.rightPiece (tr m).stop) := by
          rw [appendedPiece, if_pos ⟨hi, Or.inl hlt⟩]
        obtain ⟨v, w, hv, ⟨e, he, hw⟩, hg⟩ := htr.appended _ _ ⟨(k, m), hmem, happ⟩
        obtain ⟨hie, hstop, hwe, hle, -⟩ := appendedPiece_cases hw
        -- the address before the end of the trim lies in both mappings
        have hbe := isIntersected_bounds.mp hie
        have hsame := hM.owner_unique (a := (tr m).stop - 1) hget (hM.sorted.get?_of_mem (hl.subset he))
          (by rw [Range.mem_def]; omega) (by rw [Range.mem_def]; omega)
        rw [← hsame.2] at hwe
        rw [hwe] at hg
        refine ⟨_, v, hv, ?_, ?_⟩
        · rw [range_of_geom hg, mem_rightPiece_iff hm hi (le_of_lt hlt)]
          exact ⟨ha, hge⟩
        · rw [backing_of_geom hg, backing_rightPiece (le_of_lt hb.2.2.1) hge]
    · -- not met by its trim
      have hr : removesKey (tr m) m = false := by simp [removesKey, hi]
      obtain ⟨v, hv, hg⟩ := htr.kept k m (not_appendsAt hM hl hno hget hne fun _ => hr) hmem hr
      rw [keptPiece, if_neg hi] at hg
      exact ⟨k, v, hv, by rwa [range_of_geom hg], backing_of_geom hg a⟩
  · have hkeys : k ∉ l.map Prod.fst := by
      intro hin
      obtain ⟨⟨k', m'⟩, hm', rfl⟩ := List.mem_map.mp hin
      have := hM.sorted.get?_of_mem (hl.subset hm')
      rw [hget, Option.some.injEq] at this
      exact hmem (this ▸ hm')
    have hv := htr.other k m (not_appendsAt hM hl hno hget hne fun hin => absurd hin hmem) hkeys hget
    exact ⟨k, m, hv, ha, rfl⟩

/-- **What is backed after a trim**, when no mapping is replaced. -/
theorem backedBy_trimmed_iff (hno : NoneReplaced tr l M) {b : Backing} : BackedBy M' a b ↔
      ∃ k m, M.get? k = some m ∧ a ∈ range m ∧ m.backing a = b ∧ ((k, m) ∈ l → a ∉ tr m) := by
  refine ⟨backed_of_trimmed hM hl htr, ?_⟩
  rintro ⟨k, m, hget, ha, rfl, hout⟩
  exact trimmed_of_backed hM hl htr hno hget ha hout

theorem not_backed_of_replaced {e : Nat × VmMapping} (he : e ∈ l) (htail : TailTrim tr e.2) {n : VmMapping}
    (hn : M.get? (range e.2).stop = some n) (hne : (range n).start < (range n).stop)
    (hmiss : ((range e.2).stop, n) ∈ l → isIntersected (range n) (tr n) = false) (b : Backing) :
    ¬ BackedBy M' (range e.2).stop b := by
  rintro ⟨k, v, hv, ha, -⟩
  have hkey := hM.keyed _ n hn
  have hmem : (range e.2).stop ∈ range n := by rw [Range.mem_def]; omega
  have hget : ∀ e ∈ l, M.get? e.1 = some e.2 := fun e he => hM.sorted.get?_of_mem (hl.subset he)
  have happ : AppendsAt tr l (range e.2).stop (e.2.rightPiece (tr e.2).stop) :=
    ⟨e, he, by rw [appendedPiece, if_pos ⟨htail.1, Or.inr ⟨htail.2.2, htail.2.1⟩⟩, htail.2.2]⟩
  rcases htr.cases k v hv with ⟨w, ⟨e', he', hw⟩, hg⟩ | ⟨hno, ⟨hk, hget'⟩ | ⟨m, hm, hr, hg⟩⟩
  · -- a piece of the replaced mapping, which is not trimmed
    obtain ⟨hi, rfl, rfl, hle, -⟩ := appendedPiece_cases hw
    rw [range_of_geom hg, mem_rightPiece_iff (hM.typed e' (hl.subset he')) hi hle] at ha
    obtain ⟨hk, hm⟩ := hM.owner_unique (hget e' he') hn ha.1 hmem
    rw [hm, hmiss (by rw [← hm, ← hk]; exact he')] at hi
    cases hi
  · obtain ⟨rfl, rfl⟩ := hM.owner_unique hget' hn ha hmem
    exact hno _ happ
  · have ham : (range e.2).stop ∈ range m := by
      rw [range_of_geom hg] at ha
      unfold keptPiece at ha
      split at ha
      · rename_i hi
        have hlt : m.mapToAddr < (tr m).start := by simpa [removesKey, hi] using hr
        exact ((mem_leftPiece_iff (hM.typed _ (hl.subset hm)) hi hlt _).mp ha).1
      · exact ha
    obtain ⟨rfl, rfl⟩ := hM.owner_unique (hget _ hm) hn ham hmem
    exact hno _ happ

theorem Trimmed.live {v : VmMapping} (hv : M'.get? k = some v) : v.isDestroyed = false := by
  have hlive : ∀ e ∈ l, e.2.isDestroyed = false :=
    fun e he => hM.live e.1 e.2 (hM.sorted.get?_of_mem (hl.subset he))
  rcases htr.cases k v hv with ⟨w, ⟨e, he, hw⟩, hg⟩ | ⟨-, ⟨-, hget⟩ | ⟨m, hm, -, hg⟩⟩
  · obtain ⟨-, -, rfl, -⟩ := appendedPiece_cases hw
    rw [isDestroyed_of_geom hg]
    exact hlive e he
  · exact hM.live k v hget
  · rw [isDestroyed_of_geom hg]
    unfold keptPiece
    split
    · exact hlive _ hm
    · exact hlive _ hm

end

end

end Trimmed

/-! ## `destroy` -/

variable {p : Profile} {s t : NodeState}

/-- The range to destroy starts inside a mapping (the one the lookup finds) and ends at its end, where
another mapping starts. -/
def DestroyReplaces (M : BTreeMap VmMapping) (r : Range) : Prop :=
  ∃ k m n, M.get? k = some m ∧ IsLastKey M r.start k ∧ k < r.start ∧ r.start < (range m).stop ∧
    (range m).stop = r.stop ∧ M.get? r.stop = some n ∧ (range n).start < (range n).stop

variable {M' M : BTreeMap VmMapping} {a : Nat} {r : Range} {b : Backing}

theorem backedBy_retain_live (hs : M'.Sorted) (hlive : ∀ k v, M'.get? k = some v → v.isDestroyed = false) : BackedBy (M'.retain fun m => !m.isDestroyed) a b ↔ BackedBy M' a b := by
  have hget : ∀ k, (M'.retain fun m => !m.isDestroyed).get? k = M'.get? k := by
    intro k
    rw [hs.get?_retain]
    cases hk : M'.get? k with
    | none => rfl
    | some v => simp [Option.filter, hlive k v hk]
  simp only [BackedBy, hget]

/-- The mappings that `destroy` finds and cuts at their end are cut at the start of the range. -/
theorem noneReplaced_destroy (hM : Layout M) (hno : ¬ DestroyReplaces M r) :
    NoneReplaced (fun m => intersection (range m) r) (find M r) M := by
  rintro ⟨k, m⟩ he ⟨hi, hstart, hstop⟩ n hn hne
  dsimp only at hi hstart hstop hn ⊢
  obtain ⟨hget, hkr, hpos⟩ := (mem_find_iff hM.sorted hM.keyed).mp he
  have hkey : m.mapToAddr = k := hM.keyed k m hget
  have hrng : (range m).start = m.mapToAddr := rfl
  simp only [intersection] at hstart hstop
  have hcut : r.start < (range m).stop := by omega
  have hlast : IsLastKey M r.start k := by
    rcases hpos with h | h
    · omega
    · exact h.1
  rcases lt_or_ge (range m).stop r.stop with hlt' | hge
  · -- the next mapping starts inside the range: it is found too, and its key is removed
    have hnkey := hM.keyed _ n hn
    have hnrng : (range n).start = n.mapToAddr := rfl
    refine ⟨(mem_find_iff hM.sorted hM.keyed).mpr ⟨hn, hlt', Or.inl hcut⟩, ?_⟩
    have hin : isIntersected (range n) (intersection (range n) r) = true := by
      rw [isIntersected_bounds]
      simp only [intersection]
      omega
    rw [removesKey, hin, Bool.true_and, decide_eq_true_eq]
    simp only [intersection]
    omega
  · have heq : (range m).stop = r.stop := by omega
    exact absurd ⟨k, m, n, hget, hlast, by omega, hcut, heq, heq ▸ hn, hne⟩ hno

/-- **When `destroy` keeps the rest.** -/
theorem destroy_frame_iff {u : Unit} (hM : Layout s.inner.vmMappings) (h : destroy p r s = .ok u t) :
    FrameOutside r s.inner.vmMappings t.inner.vmMappings ↔
      s.inner.isDestroyed = true ∨ ¬ DestroyReplaces s.inner.vmMappings r := by
  cases hd : s.inner.isDestroyed with
  | true =>
    rcases destroy_ok h with ⟨-, rfl⟩ | ⟨hd', -⟩
    · exact ⟨fun _ => Or.inl rfl, fun _ a _ b => Iff.rfl⟩
    · rw [hd] at hd'
      cases hd'
  | false =>
    obtain ⟨M', htr, heq⟩ := destroy_trimmed hM.sorted hM.keyed hM.typed hd h
    have hl := find_sublist s.inner.vmMappings r
    have hback : ∀ a b, BackedBy t.inner.vmMappings a b ↔ BackedBy M' a b := fun a b => by
      rw [heq]
      exact backedBy_retain_live htr.sorted fun k v hv => htr.live hM hl hv
    simp only [Bool.false_eq_true, false_or]
    constructor
    · rintro hframe ⟨k, m, n, hget, hlast, hlt, hcut, hstop, hn, hne⟩
      have hkey : m.mapToAddr = k := hM.keyed k m hget
      have hrng : (range m).start = m.mapToAddr := rfl
      have hfound : (k, m) ∈ find s.inner.vmMappings r :=
        (mem_find_iff hM.sorted hM.keyed).mpr ⟨hget, by omega, Or.inr ⟨hlast, hcut⟩⟩
      have htail : TailTrim (fun m => intersection (range m) r) m := by
        refine ⟨?_, ?_, ?_⟩
        · rw [isIntersected_bounds]
          simp only [intersection]
          omega
        · simp only [intersection]
          omega
        · simp only [intersection]
          omega
      have hnl : ((range m).stop, n) ∉ find s.inner.vmMappings r := by
        intro hin
        have := ((mem_find_iff hM.sorted hM.keyed).mp hin).2.1
        omega
      have hnb := not_backed_of_replaced hM hl htr hfound htail (hstop ▸ hn) hne fun hin => absurd hin hnl
      have hnkey := hM.keyed _ n hn
      have hout : r.stop ∉ r := by rw [Range.mem_def]; omega
      have hbefore : BackedBy s.inner.vmMappings r.stop (n.backing r.stop) :=
        ⟨r.stop, n, hn, by rw [Range.mem_def]; omega, rfl⟩
      have hafter := (hback _ _).mp ((hframe _ hout _).mpr hbefore)
      rw [← hstop] at hafter
      exact hnb _ hafter
    · intro hno a ha b
      rw [hback, backedBy_trimmed_iff hM hl htr (noneReplaced_destroy hM hno)]
      constructor
      · rintro ⟨k, m, hget, hin, hb, -⟩
        exact ⟨k, m, hget, hin, hb⟩
      · rintro ⟨k, m, hget, hin, hb⟩
        exact ⟨k, m, hget, hin, hb, fun _ hcut => ha (mem_intersection.mp hcut).2⟩

/-! ## An overwriting `map` -/

/-- What an overwriting map at `r` that trims `cut` must find for the addresses outside `r` to keep their
backing. `cut` is larger than `r` when the VMO is, and empty when nothing is requested or its end wraps. -/
structure MapKeeps (M : BTreeMap VmMapping) (r cut : Range) : Prop where
  /-- Nothing is mapped where the trim reaches beyond the request. -/
  inside : ∀ a, a ∈ cut → a ∉ r → ¬ Covered range M a
  /-- No mapping starts where the trim ends, if the trim ends with a mapping it starts inside of. -/
  tail : ∀ k m n, M.get? k = some m → (range m).start < cut.start → cut.start < (range m).stop →
    (range m).stop = cut.stop → M.get? cut.stop = some n → (range n).stop ≤ (range n).start
  /-- If nothing is trimmed, the mapping whose key the new one takes lies in the request. -/
  start : cut.stop ≤ cut.start → ∀ n, M.get? r.start = some n → (range n).start < (range n).stop →
    (range n).stop ≤ r.stop

variable {m₀ : VmMapping} {cut : Range}

theorem backedBy_insert_outside {k₀ : Nat} (ha : a ∉ range m₀) :
    BackedBy (M.insert k₀ m₀) a b ↔ ∃ k m, k ≠ k₀ ∧ M.get? k = some m ∧ a ∈ range m ∧ m.backing a = b := by
  constructor
  · rintro ⟨k, m, hget, hin, hb⟩
    by_cases hk : k = k₀
    · rw [hk, get?_insert_self, Option.some.injEq] at hget
      exact absurd (hget ▸ hin) ha
    · rw [get?_insert_ne _ _ hk] at hget
      exact ⟨k, m, hk, hget, hin, hb⟩
  · rintro ⟨k, m, hk, hget, hin, hb⟩
    exact ⟨k, m, by rwa [get?_insert_ne _ _ hk], hin, hb⟩

section

variable (hM : Layout M) (htr : Trimmed (fun _ => cut) M.entries M M') (hstart : cut.start = r.start)
include hM htr hstart

/-- The mappings before the new one is added, when all were trimmed by `cut`. A key at the start of the cut
holds no address outside the request. -/
theorem not_mem_of_start
    (hk : MapKeeps M r cut) {v : VmMapping} (hv : M'.get? r.start = some v) (ha : a ∈ range v) : a ∈ r := by
  rcases htr.cases _ v hv with ⟨w, ⟨e, he, hw⟩, hg⟩ | ⟨-, ⟨hnk, hget⟩ | ⟨m, hm, hr, hg⟩⟩
  · obtain ⟨hi, hstop, -⟩ := @appendedPiece_cases (fun _ => cut) _ _ _ hw
    have hb := isIntersected_bounds.mp hi
    omega
  · exact absurd (List.mem_map.mpr ⟨_, mem_of_get? hget, rfl⟩) hnk
  · have hget := hM.sorted.get?_of_mem hm
    have hkey : m.mapToAddr = r.start := hM.keyed _ m hget
    have hrng : (range m).start = m.mapToAddr := rfl
    have hi : isIntersected (range m) cut = false := by
      rw [removesKey, hkey, hstart] at hr
      simpa using hr
    rw [keptPiece, if_neg (by simp [hi])] at hg
    rw [range_of_geom hg, Range.mem_def] at ha
    have hempty : cut.stop ≤ cut.start := by
      by_contra hc
      have : isIntersected (range m) cut = true := isIntersected_bounds.mpr (by omega)
      rw [this] at hi
      cases hi
    have := hk.start hempty m hget (by omega)
    rw [Range.mem_def]
    omega

/-- When the trim before the new mapping keeps the rest. -/
theorem insert_frame_iff (hcut : cut.start < cut.stop → r.stop ≤ cut.stop) (hm₀ : range m₀ = r)
    (hr : r.start ≤ r.stop) : FrameOutside r M (M'.insert r.start m₀) ↔ MapKeeps M r cut := by
  have hl : M.entries.Sublist M.entries := List.Sublist.refl _
  constructor
  · intro hframe
    have hkeep : ∀ a, a ∉ r → Covered range M a → ∃ k v, k ≠ r.start ∧ M'.get? k = some v ∧ a ∈ range v := by
      rintro a ha ⟨k, m, hget, hin⟩
      have hb := (hframe a ha (m.backing a)).mpr ⟨k, m, hget, hin, rfl⟩
      obtain ⟨k', v, hne, hv, hav, -⟩ := (backedBy_insert_outside (hm₀ ▸ ha)).mp hb
      exact ⟨k', v, hne, hv, hav⟩
    refine ⟨fun a hin ha hcov => ?_, fun k m n hget hlt hcut' hstop hn => ?_, fun hempty n hn hne => ?_⟩
    · obtain ⟨k, v, -, hv, hav⟩ := hkeep a ha hcov
      obtain ⟨k', m, hget, -, -, hout⟩ := backed_of_trimmed hM hl htr ⟨k, v, hv, hav, rfl⟩
      exact hout (mem_of_get? hget) hin
    · by_contra hne
      have hnkey := hM.keyed _ n hn
      have hin : cut.stop ∈ range n := by rw [Range.mem_def]; omega
      have hout : cut.stop ∉ r := by
        rw [Range.mem_def]
        omega
      obtain ⟨k', v, -, hv, hav⟩ := hkeep _ hout ⟨_, n, hn, hin⟩
      have htail : TailTrim (fun _ => cut) m :=
        ⟨isIntersected_bounds.mpr (by dsimp only; omega), by dsimp only; omega, hstop.symm⟩
      have hmiss : isIntersected (range n) cut = false := by
        rw [← Bool.not_eq_true, isIntersected_bounds]
        omega
      have hnb := not_backed_of_replaced hM hl htr (mem_of_get? hget) htail (hstop ▸ hn) (by omega)
        (fun _ => hmiss) (v.backing cut.stop)
      rw [hstop] at hnb
      exact hnb ⟨k', v, hv, hav, rfl⟩
    · by_contra hc
      have hnkey := hM.keyed _ n hn
      have hin : r.stop ∈ range n := by rw [Range.mem_def]; omega
      obtain ⟨k, v, hne', hv, hav⟩ := hkeep r.stop (by rw [Range.mem_def]; omega) ⟨_, n, hn, hin⟩
      -- nothing is trimmed, so the key of an address does not change
      have hmiss : ∀ m : VmMapping, isIntersected (range m) cut = false := by
        intro m
        rw [← Bool.not_eq_true, isIntersected_bounds]
        omega
      rcases htr.cases k v hv with ⟨w, ⟨e, he, hw⟩, -⟩ | ⟨-, ⟨hnk, hget⟩ | ⟨m, hm, -, hg⟩⟩
      · obtain ⟨hi, -⟩ := @appendedPiece_cases (fun _ => cut) _ _ _ hw
        rw [hmiss] at hi
        cases hi
      · exact hnk (List.mem_map.mpr ⟨_, mem_of_get? hget, rfl⟩)
      · rw [keptPiece, if_neg (by simp [hmiss])] at hg
        rw [range_of_geom hg] at hav
        exact hne' (hM.owner_unique (hM.sorted.get?_of_mem hm) hn hav hin).1
  · intro hk a ha b
    have hno : NoneReplaced (fun _ => cut) M.entries M := by
      rintro ⟨k, m⟩ he ⟨hi, hlt, hstop⟩ n hn hne
      have hb := isIntersected_bounds.mp hi
      dsimp only at hlt hstop hn hb
      have := hk.tail k m n (hM.sorted.get?_of_mem he) hlt (by omega) hstop.symm (hstop ▸ hn)
      omega
    rw [backedBy_insert_outside (hm₀ ▸ ha)]
    constructor
    · rintro ⟨k, v, -, hv, hav, rfl⟩
      obtain ⟨k', m, hget, hin, hb, -⟩ := backed_of_trimmed hM hl htr ⟨k, v, hv, hav, rfl⟩
      exact ⟨k', m, hget, hin, hb⟩
    · rintro ⟨k, m, hget, hin, rfl⟩
      have hout : a ∉ cut := fun hc => hk.inside a hc ha ⟨k, m, hget, hin⟩
      obtain ⟨k', v, hv, hav, hb⟩ := trimmed_of_backed hM hl htr hno hget hin fun _ => hout
      refine ⟨k', v, ?_, hv, hav, hb⟩
      rintro rfl
      exact ha (not_mem_of_start hM htr hstart hk hv hav)

end

/-- **When an overwriting `map` keeps the rest.** -/
theorem map_frame_iff {o : MapOptions} (hM : Layout s.inner.vmMappings) (hover : o.canOverwrite = true)
    (hoff : o.offset = some r.start) (hsize : o.size = r.stop - r.start) (hr : r.start ≤ r.stop)
    (hstop : r.stop < usizeCard) (hvmo : o.vmoSize < usizeCard) (h : build p o s = .ok a t) :
    FrameOutside r s.inner.vmMappings t.inner.vmMappings ↔ MapKeeps s.inner.vmMappings r (o.reserved r.start) := by
  obtain ⟨u, s', -, halloc, rfl⟩ := build_ok h
  rw [hover] at halloc
  obtain ⟨-, ha, -, u', htrim⟩ := allocateFreeRegionForVmo_overwrite halloc
  rw [hoff, Option.some.injEq] at ha
  subst ha
  have htr := (trimExistingMappings_ok (by exact hM.sorted) (by exact hM.keyed) (by exact hM.typed) htrim).2
  rw [withMappings_vmMappings]
  refine insert_frame_iff hM htr rfl (fun hne => ?_) ?_ hr
  · -- a trim that is not empty does not wrap around
    simp only [MapOptions.reserved, wadd] at hne ⊢
    by_cases hlt : r.start + max o.size o.vmoSize < usizeCard
    · rw [Nat.mod_eq_of_lt hlt]
      omega
    · rw [Nat.mod_eq_sub_mod (by omega), Nat.mod_eq_of_lt (by omega)] at hne
      omega
  · rw [range_def]
    simp only [MapOptions.mappingAt, hsize]
    rw [wadd_of_lt (by omega), Nat.add_sub_cancel' hr]

/-- **Unmapping and overwriting leave the rest alone exactly when they replace no mapping.** For `destroy`,
that is a mapping which starts at the end of the range, when the range also ends a mapping it starts inside
of. An overwriting map must moreover find nothing mapped where its trim reaches beyond the request. -/
theorem destroy_and_map_frame_iff {r : Range} (hM : Layout s.inner.vmMappings) : (∀ u t, destroy p r s = .ok u t →
      (FrameOutside r s.inner.vmMappings t.inner.vmMappings ↔
        s.inner.isDestroyed = true ∨ ¬ DestroyReplaces s.inner.vmMappings r)) ∧
    (∀ o a t, o.canOverwrite = true → o.offset = some r.start → o.size = r.stop - r.start →
      r.start ≤ r.stop → r.stop < usizeCard → o.vmoSize < usizeCard → build p o s = .ok a t →
      (FrameOutside r s.inner.vmMappings t.inner.vmMappings ↔ MapKeeps s.inner.vmMappings r (o.reserved r.start))) :=
  ⟨fun _ _ h => destroy_frame_iff hM h,
    fun _ _ _ hover hoff hsize hr hstop hvmo h => map_frame_iff hM hover hoff hsize hr hstop hvmo h⟩

/-- Request a mapping of `size` bytes at a fixed address. -/
def MapOptions.fixed (offset size : Nat) : MapOptions :=
  ⟨⟨0, Rights.all⟩, size, ⟨true, true, false⟩, 0, size, some offset, PAGE_SIZE, true⟩

theorem Layout.of_entries (hs : M.Sorted)
    (hm : ∀ e ∈ M.entries, e.2.mapToAddr = e.1 ∧ e.2.isDestroyed = false ∧ e.2.mapToAddr < usizeCard ∧
      e.2.mapSize < usizeCard ∧ e.2.vmoOffset < usizeCard)
    (hd : M.entries.Pairwise fun e e' => Range.Disjoint (range e.2) (range e'.2)) : Layout M := by
  refine ⟨hs, fun k m h => (hm _ (mem_of_get? h)).1, fun k m k' m' h h' hne => ?_,
    fun e he => ⟨(hm e he).2.2.1, (hm e he).2.2.2.1, (hm e he).2.2.2.2⟩, fun k m h => (hm _ (mem_of_get? h)).2.1⟩
  have : Std.Symm fun e e' : Nat × VmMapping => Range.Disjoint (range e.2) (range e'.2) :=
    ⟨fun _ _ h => h.symm⟩
  exact hd.forall (mem_of_get? h) (mem_of_get? h') fun heq => hne (congrArg Prod.fst heq)

/-- A new root VMAR with two mappings, of two pages and of one page, next to each other. -/
def adjacent : NodeState :=
  ⟨⟨false, BTreeMap.empty,
    (BTreeMap.empty.insert 0x10000 ((MapOptions.fixed 0x10000 0x2000).mappingAt 0x10000)).insert 0x12000
      ((MapOptions.fixed 0x12000 0x1000).mappingAt 0x12000),
    BTreeMap.empty.insert 0x13000 ⟨⟨0x13000, ROOT_VMAR_CAP_ADDR⟩⟩⟩, VmSpace.new⟩

theorem layout_adjacent : Layout adjacent.inner.vmMappings :=
  Layout.of_entries (by unfold Sorted; decide +kernel) (by decide +kernel) (by decide +kernel)

/-- Unmapping the second page of the first mapping unmaps the second mapping as well. -/
theorem destroy_drops_neighbour : (do let _ ← build .dev (.fixed 0x10000 0x2000); build .dev (.fixed 0x12000 0x1000) :
      Comp NodeState Error Nat) ⟨newRoot.inner, VmSpace.new⟩ = .ok 0x12000 adjacent ∧
    ∃ t, destroy .dev ⟨0x11000, 0x12000⟩ adjacent = .ok () t ∧
      ¬ FrameOutside ⟨0x11000, 0x12000⟩ adjacent.inner.vmMappings t.inner.vmMappings := by
  have hrun : ∃ t, destroy .dev ⟨0x11000, 0x12000⟩ adjacent = .ok () t := ⟨_, rfl⟩
  obtain ⟨t, ht⟩ := hrun
  refine ⟨rfl, t, ht, ?_⟩
  have hlast : ∀ e ∈ adjacent.inner.vmMappings.entries, e.1 ≤ 0x11000 → e.1 ≤ 0x10000 := by decide
  rw [destroy_frame_iff layout_adjacent ht]
  rintro (h | h)
  · cases h
  · exact h ⟨0x10000, _, _, rfl, ⟨by decide, fun j w hj => hlast (j, w) (mem_of_get? hj)⟩, by decide,
      by decide, by decide, rfl, by decide⟩

/-- Unmapping or overwriting the first page of the first mapping leaves the other pages alone. -/
theorem destroy_and_map_frame_adjacent : Layout adjacent.inner.vmMappings ∧
    (∃ t, destroy .dev ⟨0x10000, 0x11000⟩ adjacent = .ok () t ∧
      FrameOutside ⟨0x10000, 0x11000⟩ adjacent.inner.vmMappings t.inner.vmMappings) ∧
    ∃ t, build .dev (.fixed 0x10000 0x1000) adjacent = .ok 0x10000 t ∧
      FrameOutside ⟨0x10000, 0x11000⟩ adjacent.inner.vmMappings t.inner.vmMappings := by
  have hnone : adjacent.inner.vmMappings.get? 0x11000 = none := rfl
  have hdestroy : ∃ t, destroy .dev ⟨0x10000, 0x11000⟩ adjacent = .ok () t := ⟨_, rfl⟩
  have hbuild : ∃ t, build .dev (.fixed 0x10000 0x1000) adjacent = .ok 0x10000 t := ⟨_, rfl⟩
  obtain ⟨t, ht⟩ := hdestroy
  obtain ⟨t', ht'⟩ := hbuild
  refine ⟨layout_adjacent, ⟨t, ht, ?_⟩, t', ht', ?_⟩
  · refine ((destroy_and_map_frame_iff layout_adjacent).1 () t ht).mpr (Or.inr ?_)
    rintro ⟨k, m, n, -, -, -, -, -, hn, -⟩
    rw [hnone] at hn
    cases hn
  · refine ((destroy_and_map_frame_iff layout_adjacent).2 _ _ t' rfl rfl rfl (by decide) (by decide)
      (by decide) ht').mpr ⟨fun a h1 h2 => absurd h1 h2, fun k m n _ _ _ _ hn => ?_, fun h => ?_⟩
    · have hn' : adjacent.inner.vmMappings.get? 0x11000 = some n := hn
      rw [hnone] at hn'
      cases hn'
    · exact absurd h (by decide)

end Vmar
end AsterKernel.Vm
