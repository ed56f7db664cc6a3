import AsterKernel.Lib.Assoc
import AsterKernel.Ext2.DirEntry

/-!
# `Ext2.Records` — a directory as a list of records

The bytes of a directory's page cache stand for a list of records that follow each other from the start to the end
(`Layout`). On lists of records the three operations of the writer are easy to say: `insertGap` splits the first
record with a large enough gap, `removeRec` merges a record into the one before it, `renameRec` replaces a record or
removes and appends. Every operation of the writer on the bytes is the operation on the list.
-/

namespace AsterKernel.Ext2

open Lib Lib.Comp DirEntry DirEntryWriter

/-! ## Well-formed records -/

/-- What a stored record satisfies. -/
structure DirEntry.Wf (e : DirEntry) : Prop where
  ino_pos : 0 < e.ino
  ino_lt : e.ino < u32Card
  len_lt : e.recordLen < u16Card
  fits : e.actualLen ≤ e.recordLen
  nameLen : e.nameLen = e.name.length
  short : e.name.length ≤ MAX_FNAME_LEN
  plain : ∀ b ∈ e.name, b ≠ 0
  typed : ∃ t : FileType, e.fileType = t.code

variable {e : DirEntry} {p : Profile}

namespace DirEntry

variable {n : Nat}

theorem le_alignUp4 (n : Nat) : n ≤ alignUp4 n ∧ alignUp4 n < n + 4 := by
  unfold alignUp4
  omega

theorem le_actualLen : headerLen + e.name.length ≤ e.actualLen := (le_alignUp4 _).1

theorem Wf.actualLen_le (h : e.Wf) : e.actualLen ≤ 264 := by
  have := h.short
  unfold actualLen alignUp4 headerLen MAX_FNAME_LEN at *
  omega

theorem Wf.pos (h : e.Wf) : 8 ≤ e.recordLen := by
  have := le_actualLen (e := e)
  have := h.fits
  unfold headerLen at *
  omega

theorem Wf.type (h : e.Wf) : ∃ t : FileType, e.type = some t ∧ e.fileType = t.code := by
  obtain ⟨t, ht⟩ := h.typed
  exact ⟨t, by rw [DirEntry.type, ht, FileType.ofCode_code], ht⟩

def withLen (e : DirEntry) (n : Nat) : DirEntry := { e with recordLen := n }

@[simp] theorem withLen_name : (e.withLen n).name = e.name := rfl
@[simp] theorem withLen_recordLen : (e.withLen n).recordLen = n := rfl
@[simp] theorem withLen_actualLen : (e.withLen n).actualLen = e.actualLen := rfl

theorem Wf.withLen (h : e.Wf) (hfits : e.actualLen ≤ n) (hlt : n < u16Card) : (e.withLen n).Wf :=
  ⟨h.ino_pos, h.ino_lt, hlt, hfits, h.nameLen, h.short, h.plain, h.typed⟩

theorem setRecordLen_eq (hfits : e.actualLen ≤ n) (hlt : n < u16Card) : e.setRecordLen p n = some (e.withLen n) := by
  unfold setRecordLen withLen
  rw [if_neg (by omega), Nat.mod_eq_of_lt hlt]

def gap (e : DirEntry) : Nat := e.recordLen - e.actualLen

theorem Wf.gapLen (h : e.Wf) : e.gapLen p = some e.gap := Profile.sub_of_le h.fits

end DirEntry

/-- A name that can be stored. -/
structure Storable (name : Name) : Prop where
  short : name.length ≤ MAX_FNAME_LEN
  plain : ∀ b ∈ name, b ≠ 0

variable {name : Name} {pc pc' : PageCache}

theorem cstr_eq (h : ∀ b ∈ name, b ≠ 0) (hshort : name.length ≤ MAX_FNAME_LEN) : cstr name = name := by
  have htake : name.takeWhile (· ≠ 0) = name := by
    rw [List.takeWhile_eq_self_iff]
    simpa using h
  rw [cstr, htake]
  exact List.take_of_length_le hshort

/-- The record that `DirEntry::new` makes. -/
def newRec (ino : Nat) (name : Name) (type : FileType) : DirEntry :=
  ⟨ino, DirEntry.alignUp4 (DirEntry.headerLen + name.length), name.length, type.code, name⟩

theorem new_eq {ino : Nat} {type : FileType} (h : Storable name) :
    new p ino name type = some (newRec ino name type) := by
  have hshort := h.short
  unfold MAX_FNAME_LEN at hshort
  unfold new newRec
  rw [if_neg (by unfold MAX_FNAME_LEN; omega), cstr_eq h.plain h.short, Nat.mod_eq_of_lt (b := 256) (by omega),
    Nat.mod_eq_of_lt]
  unfold alignUp4 headerLen u16Card
  omega

theorem newRec_wf {ino : Nat} (type : FileType) (hpos : 0 < ino) (hlt : ino < u32Card)
    (h : Storable name) : (newRec ino name type).Wf where
  ino_pos := hpos
  ino_lt := hlt
  len_lt := by
    have := h.short
    unfold MAX_FNAME_LEN at this
    show alignUp4 (headerLen + name.length) < u16Card
    unfold alignUp4 headerLen u16Card
    omega
  fits := le_refl _
  nameLen := rfl
  short := h.short
  plain := h.plain
  typed := ⟨type, rfl⟩

/-! ## Lists of records in the page cache -/

/-- The records from one offset to another. -/
def Seg (pc : PageCache) : Nat → List DirEntry → Nat → Prop
  | off, [], fin => off = fin
  | off, e :: rest, fin => pc.readEntry off = some e ∧ e.Wf ∧ Seg pc (off + e.recordLen) rest fin

/-- The page cache consists of the records. -/
structure Layout (pc : PageCache) (recs : List DirEntry) : Prop where
  aligned : pc.size % BLOCK_SIZE = 0
  seg : Seg pc 0 recs pc.size

/-- The records with their offsets. -/
def place : Nat → List DirEntry → List (Nat × DirEntry)
  | _, [] => []
  | off, e :: rest => (off, e) :: place (off + e.recordLen) rest

/-- The bytes that records take. -/
def span (recs : List DirEntry) : Nat := total DirEntry.recordLen recs

@[simp] theorem span_nil : span [] = 0 := rfl

@[simp] theorem span_cons (e : DirEntry) (recs : List DirEntry) : span (e :: recs) = e.recordLen + span recs :=
  total_cons _ _ _

@[simp] theorem span_append (xs ys : List DirEntry) : span (xs ++ ys) = span xs + span ys := by simp [span, total]

section segments

variable {off fin : Nat} {recs xs ys : List DirEntry}

theorem Seg.fin_eq (h : Seg pc off recs fin) : fin = off + span recs := by
  induction recs generalizing off with
  | nil => exact h.symm
  | cons e recs ih =>
    rw [ih h.2.2, span_cons]
    omega

theorem seg_append : Seg pc off (xs ++ ys) fin ↔ Seg pc off xs (off + span xs) ∧ Seg pc (off + span xs) ys fin := by
  induction xs generalizing off with
  | nil => simp [Seg]
  | cons e xs ih =>
    rw [List.cons_append, Seg, Seg, ih, span_cons, ← add_assoc]
    tauto

theorem Seg.wf (h : Seg pc off recs fin) : ∀ e ∈ recs, e.Wf := by
  induction recs generalizing off with
  | nil => nofun
  | cons e recs ih =>
    intro x hx
    rcases List.mem_cons.mp hx with rfl | hx
    · exact h.2.1
    · exact ih h.2.2 x hx

theorem readEntry_size (h : pc.readEntry off = some e) : off + headerLen ≤ pc.size := by
  unfold PageCache.readEntry at h
  split at h
  · cases h
  · omega

/-- A record depends on its own bytes only. -/
theorem readEntry_congr (h : pc.readEntry off = some e) (hsize : pc.size ≤ pc'.size)
    (hbytes : ∀ i, off ≤ i → i < off + headerLen + e.nameLen → pc'.bytes i = pc.bytes i) :
    pc'.readEntry off = some e := by
  unfold PageCache.readEntry at h
  split at h
  · cases h
  case isFalse hhead =>
    split at h
    · cases h
    case isFalse hino =>
      split at h
      · cases h
      case isFalse hname =>
        cases h
        unfold headerLen at *
        have h4 : peek pc'.bytes off 4 = peek pc.bytes off 4 :=
          peek_congr fun i hi hlt => hbytes i hi (by omega)
        have h2 : peek pc'.bytes (off + 4) 2 = peek pc.bytes (off + 4) 2 :=
          peek_congr fun i hi hlt => hbytes i (by omega) (by omega)
        have h1 : peek pc'.bytes (off + 6) 1 = peek pc.bytes (off + 6) 1 :=
          peek_congr fun i hi hlt => hbytes i (by omega) (by omega)
        have h1' : peek pc'.bytes (off + 7) 1 = peek pc.bytes (off + 7) 1 :=
          peek_congr fun i hi hlt => hbytes i (by omega) (by omega)
        have hn : peek pc'.bytes (off + 8) (leVal (peek pc.bytes (off + 6) 1)) =
            peek pc.bytes (off + 8) (leVal (peek pc.bytes (off + 6) 1)) :=
          peek_congr fun i hi hlt => hbytes i (by omega) (by omega)
        unfold PageCache.readEntry headerLen
        rw [h4, h1, h2, h1', hn, if_neg (by omega), if_neg hino, if_neg (by omega)]

theorem Seg.frame (h : Seg pc off recs fin) (hsize : pc.size ≤ pc'.size)
    (hbytes : ∀ i, off ≤ i → i < fin → pc'.bytes i = pc.bytes i) : Seg pc' off recs fin := by
  induction recs generalizing off with
  | nil => exact h
  | cons e recs ih =>
    have hfin := h.2.2.fin_eq
    have hlen := le_actualLen (e := e)
    have hfits := h.2.1.fits
    have hname := h.2.1.nameLen
    refine ⟨readEntry_congr h.1 hsize fun i hi hlt => hbytes i hi (by omega), h.2.1, ih h.2.2 fun i hi hlt => ?_⟩
    exact hbytes i (by omega) hlt

theorem place_length : (place off recs).length = recs.length := by
  induction recs generalizing off with
  | nil => rfl
  | cons e recs ih => rw [place, List.length_cons, ih, List.length_cons]

theorem place_append : place off (xs ++ ys) = place off xs ++ place (off + span xs) ys := by
  induction xs generalizing off with
  | nil => simp [place]
  | cons e xs ih => rw [List.cons_append, place, ih, place, span_cons, List.cons_append, add_assoc]

/-- The reader yields the records. -/
theorem Seg.readEntries (h : Seg pc off recs pc.size) {n : Nat} (hn : recs.length < n) :
    pc.readEntries n off = place off recs := by
  induction recs generalizing off n with
  | nil =>
    obtain ⟨n, rfl⟩ := Nat.exists_eq_add_of_lt hn
    have hoff : off = pc.size := h
    have hnone : pc.readEntry off = none := by
      cases hread : pc.readEntry off with
      | none => rfl
      | some e =>
        have := readEntry_size hread
        unfold headerLen at this
        omega
    rw [PageCache.readEntries, hnone]
    rfl
  | cons e recs ih =>
    obtain ⟨n, rfl⟩ := Nat.exists_eq_add_of_lt hn
    rw [PageCache.readEntries, h.1]
    dsimp only
    rw [ih h.2.2 (by simp only [List.length_cons]; omega)]
    rfl

theorem Seg.length_le (h : Seg pc off recs fin) : recs.length * 8 ≤ span recs := by
  induction recs generalizing off with
  | nil => simp
  | cons e recs ih =>
    have := ih h.2.2
    have := h.2.1.pos
    rw [List.length_cons, span_cons]
    omega

theorem Seg.entries (h : Seg pc off recs pc.size) : pc.entries off = place off recs := by
  have hlen := h.length_le
  have hfin := h.fin_eq
  exact h.readEntries (by omega)

theorem Seg.not_endless (h : Seg pc off recs pc.size) : pc.endless off = false := by
  have hlen := h.length_le
  have hfin := h.fin_eq
  unfold PageCache.endless
  rw [h.entries, place_length]
  simp only [decide_eq_false_iff_not]
  omega

end segments

variable {pc : PageCache} {recs : List DirEntry} {off : Nat} {new : DirEntry}

/-- The reader yields the records. -/
theorem Layout.entries (h : Layout pc recs) : pc.entries 0 = place 0 recs :=
  h.seg.entries

theorem Layout.size_eq (h : Layout pc recs) : pc.size = span recs := by
  have := h.seg.fin_eq
  omega

/-! ## Writing a record -/

section write

variable {m : Mem}

theorem header_length : e.header.length = headerLen := by simp [header, headerLen]

theorem peek_header (h : peek m off 8 = e.header) :
    peek m off 4 = leBytes 4 e.ino ∧ peek m (off + 4) 2 = leBytes 2 e.recordLen ∧
    peek m (off + 6) 1 = leBytes 1 e.nameLen ∧ peek m (off + 7) 1 = leBytes 1 e.fileType := by
  have hsplit : peek m off 8 = peek m off 4 ++ peek m (off + 4) 2 ++ peek m (off + 6) 1 ++ peek m (off + 7) 1 := by
    rw [show (8 : Nat) = 4 + 2 + 1 + 1 from rfl, peek_add, peek_add, peek_add]
  rw [hsplit, header] at h
  obtain ⟨h, h7⟩ := List.append_inj' h (by simp)
  obtain ⟨h, h6⟩ := List.append_inj' h (by simp)
  obtain ⟨h0, h4⟩ := List.append_inj' h (by simp)
  exact ⟨h0, h4, h6, h7⟩

theorem readEntry_of_peek (hwf : e.Wf) (hfit : off + headerLen + e.name.length ≤ pc.size)
    (hhead : peek pc.bytes off 8 = e.header) (hname : peek pc.bytes (off + 8) e.name.length = e.name) :
    pc.readEntry off = some e := by
  obtain ⟨h0, h4, h6, h7⟩ := peek_header hhead
  obtain ⟨t, ht⟩ := hwf.typed
  have hshort := hwf.short
  have hlen := hwf.nameLen
  unfold MAX_FNAME_LEN at hshort
  have hino := leVal_peek h0 (by have := hwf.ino_lt; unfold u32Card at this; omega)
  have hrec := leVal_peek h4 (by have := hwf.len_lt; unfold u16Card at this; omega)
  have hnl := leVal_peek h6 (by omega)
  have hft := leVal_peek h7 (by rw [ht]; exact t.code_lt)
  have hpos := hwf.ino_pos
  unfold PageCache.readEntry
  rw [hino, hrec, hnl, hft, if_neg (by omega), if_neg (by omega), if_neg (by omega), hlen]
  unfold headerLen
  rw [hname, cstr_eq hwf.plain hwf.short, ← hlen]

/-- **Writing a record.** It is read back, and the other bytes stay. -/
theorem writeEntry_ok (pc : PageCache) (off : Nat) (hwf : e.Wf) (hfit : off + headerLen + e.name.length ≤ pc.size) :
    ∃ pc', writeEntry off e pc = .ok () pc' ∧ pc'.size = pc.size ∧ pc'.readEntry off = some e ∧
      ∀ i, i < off ∨ off + headerLen + e.name.length ≤ i → pc'.bytes i = pc.bytes i := by
  refine ⟨⟨pc.size, poke (poke pc.bytes off e.header) (off + headerLen) e.name⟩, ?_, rfl, ?_, fun i hi => ?_⟩
  · have hhead : PageCache.writeBytes off e.header pc = .ok () ⟨pc.size, poke pc.bytes off e.header⟩ :=
      if_neg (by rw [header_length]; omega)
    rw [writeEntry, bind_eq, hhead]
    exact if_neg (by dsimp only; omega)
  · refine readEntry_of_peek hwf hfit ?_ peek_poke_self
    rw [peek_poke_disjoint (.inl (by unfold headerLen; omega))]
    have := @peek_poke_self pc.bytes off e.header
    rwa [header_length] at this
  · dsimp only
    rcases hi with hi | hi
    · rw [poke_of_lt (by omega), poke_of_lt hi]
    · rw [poke_of_ge hi, poke_of_ge (by rw [header_length]; omega)]

end write

/-! ## The operations on lists of records -/

/-- Split the first record with a large enough gap. -/
def insertGap (new : DirEntry) : List DirEntry → Option (List DirEntry)
  | [] => none
  | e :: rest =>
    if new.recordLen ≤ e.gap then some (e.withLen e.actualLen :: new.withLen e.gap :: rest)
    else (insertGap new rest).map (e :: ·)

/-- Insert into a gap, or into a new block. -/
def appendRec (new : DirEntry) (recs : List DirEntry) : List DirEntry :=
  (insertGap new recs).getD (recs ++ [new.withLen BLOCK_SIZE])

/-- Merge the first record of that name, the first record of all apart, into the one before it. -/
def removeRec (name : Name) : List DirEntry → Option (DirEntry × List DirEntry)
  | pre :: e :: rest =>
    if e.name = name then some (e, pre.withLen (pre.recordLen + e.recordLen) :: rest)
    else (removeRec name (e :: rest)).map fun x => (x.1, pre :: x.2)
  | _ => none

/-- Replace the first record of that name, keeping its length. -/
def replaceRec (name : Name) (new : DirEntry) : List DirEntry → List DirEntry
  | [] => []
  | e :: rest => if e.name = name then new.withLen e.recordLen :: rest else e :: replaceRec name new rest

/-- Rename the first record of that name in place, or remove it and append it again. -/
def renameRec (oldName newName : Name) (recs : List DirEntry) : Option (List DirEntry) :=
  match recs.find? fun e => e.name == oldName with
  | none => none
  | some e =>
    match e.type with
    | none => none
    | some t =>
      let new := newRec e.ino newName t
      if new.recordLen ≤ e.recordLen then some (replaceRec oldName new recs)
      else (removeRec oldName recs).map fun x => appendRec new x.2

section find

/-- Searching for a gap, on the bytes and on the records. -/
theorem findGap_place (off : Nat) (new : DirEntry) (hwf : ∀ e ∈ recs, e.Wf) :
    (insertGap new recs = none ∧ findGap p new.recordLen (place off recs) = some none) ∨
    ∃ xs e ys, recs = xs ++ e :: ys ∧ new.recordLen ≤ e.gap ∧
      findGap p new.recordLen (place off recs) = some (some (off + span xs, e)) ∧
      insertGap new recs = some (xs ++ e.withLen e.actualLen :: new.withLen e.gap :: ys) := by
  induction recs generalizing off with
  | nil => exact .inl ⟨rfl, rfl⟩
  | cons e recs ih =>
    have hgap := (hwf e (by simp)).gapLen (p := p)
    by_cases hle : new.recordLen ≤ e.gap
    · refine .inr ⟨[], e, recs, rfl, hle, ?_, if_pos hle⟩
      simp [place, findGap, hgap, hle]
    · rcases ih (off + e.recordLen) fun x hx => hwf x (by simp [hx]) with
        ⟨hnone, hfind⟩ | ⟨xs, x, ys, rfl, hx, hfind, hsome⟩
      · refine .inl ⟨by simp [insertGap, hle, hnone], ?_⟩
        simp only [place, findGap, hgap, if_neg hle, hfind]
      · refine .inr ⟨e :: xs, x, ys, rfl, hx, ?_, by simp [insertGap, hle, hsome]⟩
        simp only [place, findGap, hgap, if_neg hle, hfind, span_cons, add_assoc]

theorem find_place (off : Nat) (recs : List DirEntry) (name : Name) :
    ((∀ e ∈ recs, e.name ≠ name) ∧ (place off recs).find? (fun x => x.2.name == name) = none) ∨
    ∃ xs e ys, recs = xs ++ e :: ys ∧ e.name = name ∧ (∀ x ∈ xs, x.name ≠ name) ∧
      (place off recs).find? (fun x => x.2.name == name) = some (off + span xs, e) := by
  induction recs generalizing off with
  | nil => exact .inl ⟨nofun, rfl⟩
  | cons e recs ih =>
    by_cases hname : e.name = name
    · refine .inr ⟨[], e, recs, rfl, hname, nofun, ?_⟩
      rw [place, List.find?_cons_of_pos (by simpa using hname)]
      rfl
    · rcases ih (off + e.recordLen) with ⟨hnone, hfind⟩ | ⟨xs, x, ys, rfl, hx, hxs, hfind⟩
      · refine .inl ⟨fun x hx => ?_, ?_⟩
        · rcases List.mem_cons.mp hx with rfl | hx
          · exact hname
          · exact hnone x hx
        · rw [place, List.find?_cons_of_neg (by simpa using hname), hfind]
      · refine .inr ⟨e :: xs, x, ys, rfl, hx, fun y hy => ?_, ?_⟩
        · rcases List.mem_cons.mp hy with rfl | hy
          · exact hname
          · exact hxs y hy
        · rw [place, List.find?_cons_of_neg (by simpa using hname), hfind, span_cons, add_assoc]

theorem findPair_place (off : Nat) (name : Name) (pre : DirEntry) (recs : List DirEntry) :
    (removeRec name (pre :: recs) = none ∧ (∀ e ∈ recs, e.name ≠ name) ∧
      ((place off (pre :: recs)).zip (place (off + pre.recordLen) recs)).find? (fun x => x.2.2.name == name) = none) ∨
    ∃ xs a b ys, pre :: recs = xs ++ a :: b :: ys ∧ b.name = name ∧ (∀ x ∈ (xs ++ [a]).tail, x.name ≠ name) ∧
      ((place off (pre :: recs)).zip (place (off + pre.recordLen) recs)).find? (fun x => x.2.2.name == name) =
        some ((off + span xs, a), (off + span xs + a.recordLen, b)) ∧
      removeRec name (pre :: recs) = some (b, xs ++ a.withLen (a.recordLen + b.recordLen) :: ys) := by
  induction recs generalizing off pre with
  | nil => exact .inl ⟨rfl, nofun, rfl⟩
  | cons e recs ih =>
    have hzip : (place off (pre :: e :: recs)).zip (place (off + pre.recordLen) (e :: recs)) =
        ((off, pre), (off + pre.recordLen, e)) ::
          (place (off + pre.recordLen) (e :: recs)).zip (place (off + pre.recordLen + e.recordLen) recs) := rfl
    rw [hzip]
    by_cases hname : e.name = name
    · refine .inr ⟨[], pre, e, recs, rfl, hname, nofun, ?_, if_pos hname⟩
      rw [List.find?_cons_of_pos (by simpa using hname)]
      rfl
    · have hrem : removeRec name (pre :: e :: recs) = (removeRec name (e :: recs)).map fun x => (x.1, pre :: x.2) :=
        if_neg hname
      rw [List.find?_cons_of_neg (by simpa using hname), hrem]
      rcases ih (off + pre.recordLen) e with
        ⟨hnone, hne, hfind⟩ | ⟨xs, a, b, ys, heq, hb, hxs, hfind, hsome⟩
      · refine .inl ⟨by rw [hnone]; rfl, fun x hx => ?_, hfind⟩
        rcases List.mem_cons.mp hx with rfl | hx
        · exact hname
        · exact hne x hx
      · refine .inr ⟨pre :: xs, a, b, ys, by rw [heq]; rfl, hb, fun x hx => ?_, ?_, by rw [hsome]; rfl⟩
        · -- the head of the shorter list is `e`, which has another name
          rw [List.cons_append, List.tail_cons] at hx
          have hhead : (xs ++ [a]).head? = some e := by
            have := congrArg List.head? heq
            cases xs with
            | nil | cons y xs => simpa using this.symm
          cases hlist : xs ++ [a] with
          | nil => rw [hlist] at hx; cases hx
          | cons y l =>
            rw [hlist] at hx hhead hxs
            cases hhead
            rcases List.mem_cons.mp hx with rfl | hx
            · exact hname
            · exact hxs x hx
        · rw [hfind, span_cons, ← add_assoc]

end find

/-! ## The operations on the bytes -/

section layout

variable {xs ys : List DirEntry}

variable {old : List DirEntry}

theorem Layout.replace (h : Layout pc (xs ++ old ++ ys)) (pc' : PageCache) (mid : List DirEntry)
    (hsize : pc'.size = pc.size) (hspan : span mid = span old) (hmid : Seg pc' (span xs) mid (span xs + span old))
    (hbytes : ∀ i, i < span xs ∨ span xs + span old ≤ i → pc'.bytes i = pc.bytes i) :
    Layout pc' (xs ++ mid ++ ys) := by
  have hseg := h.seg
  rw [List.append_assoc, seg_append, seg_append, zero_add] at hseg
  obtain ⟨hxs, -, hys⟩ := hseg
  refine ⟨by rw [hsize]; exact h.aligned, ?_⟩
  rw [List.append_assoc, seg_append, seg_append, zero_add, hspan, hsize]
  refine ⟨hxs.frame (by omega) fun i _ hi => hbytes i (.inl hi), hmid, ?_⟩
  exact hys.frame (by omega) fun i hi _ => hbytes i (.inr hi)

theorem Layout.at (h : Layout pc (xs ++ e :: ys)) :
    pc.readEntry (span xs) = some e ∧ e.Wf ∧ span xs + e.recordLen + span ys = pc.size := by
  have hsize := h.size_eq
  have hseg := h.seg
  rw [seg_append, zero_add] at hseg
  rw [span_append, span_cons] at hsize
  exact ⟨hseg.2.1, hseg.2.2.1, by omega⟩

theorem Layout.overwrite (h : Layout pc (xs ++ old ++ ys)) (hwf : e.Wf) (hlen : e.recordLen = span old) :
    ∃ pc', writeEntry (span xs) e pc = .ok () pc' ∧ pc'.size = pc.size ∧ Layout pc' (xs ++ [e] ++ ys) := by
  have hsize := h.size_eq
  rw [span_append, span_append] at hsize
  have hact := le_actualLen (e := e)
  have hfits := hwf.fits
  obtain ⟨pc', hok, hsame, hread, hbytes⟩ := writeEntry_ok pc (span xs) hwf (by omega)
  refine ⟨pc', hok, hsame, h.replace pc' [e] hsame (by simpa using hlen) ?_ fun i hi => hbytes i (by omega)⟩
  exact ⟨hread, hwf, by rw [hlen]; rfl⟩

/-- **Appending.** -/
theorem appendEntry_layout (h : Layout pc recs) (hwf : new.Wf) (hnew : new.recordLen = new.actualLen) :
    ∃ pc', appendEntry p 0 new pc = .ok () pc' ∧ Layout pc' (appendRec new recs) ∧
      pc'.size = if (insertGap new recs).isSome then pc.size else pc.size + BLOCK_SIZE := by
  unfold appendEntry
  rw [h.entries, h.seg.not_endless]
  rcases findGap_place (p := p) 0 new h.seg.wf with
    ⟨hnone, hfind⟩ | ⟨xs, e, ys, rfl, hgap, hfind, hsome⟩
  · -- a new block at the end
    rw [hfind]
    have hact := hwf.actualLen_le
    have hset : new.setRecordLen p BLOCK_SIZE = some (new.withLen BLOCK_SIZE) :=
      setRecordLen_eq (by unfold BLOCK_SIZE; omega) (by decide)
    have hwf' : (new.withLen BLOCK_SIZE).Wf := hwf.withLen (by unfold BLOCK_SIZE; omega) (by decide)
    have halign := h.aligned
    have hresize : (pc.size + BLOCK_SIZE + BLOCK_SIZE - 1) / BLOCK_SIZE * BLOCK_SIZE = pc.size + BLOCK_SIZE := by
      unfold BLOCK_SIZE at *
      omega
    have hlen := le_actualLen (e := new)
    obtain ⟨pc', hok, hsame, hread, hbytes⟩ := writeEntry_ok
      ⟨pc.size + BLOCK_SIZE, fun i => if i < pc.size then pc.bytes i else 0⟩ pc.size hwf'
      (by simp only [withLen_name]; unfold BLOCK_SIZE; omega)
    refine ⟨pc', ?_, ⟨?_, ?_⟩, ?_⟩
    · simp only [Option.bind_some, searched, Bool.false_eq_true, if_false, appendBlock, Comp.get,
        bind_eq, PageCache.resize, hresize, hset, expect_some, hok]
    · rw [hsame]
      unfold BLOCK_SIZE at *
      dsimp only
      omega
    · rw [appendRec, hnone, Option.getD_none, hsame, seg_append, zero_add, ← h.size_eq]
      refine ⟨h.seg.frame (by rw [hsame]; dsimp only; omega) fun i _ hi => ?_, hread, hwf', rfl⟩
      rw [hbytes i (.inl hi)]
      exact if_pos hi
    · rw [hnone, hsame]
      rfl
  · -- into the gap of `e`
    rw [hfind, hsome]
    obtain ⟨hread, hewf, hsize⟩ := h.at
    have hfits := hewf.fits
    have hlt := hewf.len_lt
    have hgap' : e.actualLen + e.gap = e.recordLen := by
      unfold gap
      omega
    have hset : new.setRecordLen p e.gap = some (new.withLen e.gap) := setRecordLen_eq (by omega) (by omega)
    have hset' : e.setRecordLen p e.actualLen = some (e.withLen e.actualLen) :=
      setRecordLen_eq (le_refl _) (by omega)
    have hwf₁ : (e.withLen e.actualLen).Wf := hewf.withLen (le_refl _) (by omega)
    have hwf₂ : (new.withLen e.gap).Wf := hwf.withLen (by omega) (by omega)
    have hlen₁ := le_actualLen (e := e)
    have hlen₂ := le_actualLen (e := new)
    obtain ⟨pc₁, hok₁, hsame₁, hread₁, hbytes₁⟩ := writeEntry_ok pc (span xs) hwf₁
      (by simp only [withLen_name]; omega)
    obtain ⟨pc₂, hok₂, hsame₂, hread₂, hbytes₂⟩ := writeEntry_ok pc₁ (span xs + e.actualLen) hwf₂
      (by simp only [withLen_name]; omega)
    simp only [withLen_name] at hbytes₁ hbytes₂
    refine ⟨pc₂, ?_, ?_, by rw [hsame₂, hsame₁]; rfl⟩
    · simp only [Option.bind_some, searched, zero_add, appendGap, bind_eq, hewf.gapLen, expect_some,
        hset, hset', hok₁, withLen_recordLen, hok₂]
    · have hlayout : Layout pc (xs ++ [e] ++ ys) := by simpa using h
      have := hlayout.replace pc₂ [e.withLen e.actualLen, new.withLen e.gap]
        (by rw [hsame₂, hsame₁]) (by simp [hgap']) ?_ fun i hi => ?_
      · rw [appendRec, hsome, Option.getD_some]
        simpa using this
      · refine ⟨?_, hwf₁, hread₂, hwf₂, ?_⟩
        · have hname := hwf₁.nameLen
          simp only [withLen_name] at hname
          refine readEntry_congr hread₁ (by omega) fun i _ hi => hbytes₂ i (.inl ?_)
          omega
        · show span xs + e.actualLen + e.gap = span xs + span [e]
          rw [span_cons, span_nil]
          omega
      · simp only [span_cons, span_nil] at hi
        rw [hbytes₂ i (by omega), hbytes₁ i (by omega)]

/-- Two neighbours are short enough to be merged. -/
def SmallPairs (recs : List DirEntry) : Prop :=
  ∀ xs a b ys, recs = xs ++ a :: b :: ys → a.recordLen + b.recordLen < u16Card

/-- The first record is as long as that of ".", so that the second reader starts at the second record. -/
def Headed (recs : List DirEntry) : Prop := ∃ first rest, recs = first :: rest ∧ first.recordLen = 12

/-- **Removing.** The branch that shrinks the directory is not taken: the entry to be removed is there. -/
theorem removeEntry_layout (name : Name) (h : Layout pc recs) (hhead : Headed recs) (hsmall : SmallPairs recs) :
    (removeRec name recs = none ∧ removeEntry p name pc = .err (.new .ENOENT) pc) ∨
    ∃ e recs' pc', removeRec name recs = some (e, recs') ∧ removeEntry p name pc = .ok e pc' ∧
      Layout pc' recs' ∧ pc'.size = pc.size := by
  obtain ⟨first, rest, rfl, hfirst⟩ := hhead
  have hrest : Seg pc 12 rest pc.size := by
    have := h.seg.2.2
    rwa [hfirst, zero_add] at this
  have hsecond : alignUp4 (headerLen + dot.length) = 12 := rfl
  unfold removeEntry
  rw [hsecond]
  dsimp only
  rw [h.entries, hrest.entries, h.seg.not_endless]
  have hpair := findPair_place 0 name first rest
  rw [hfirst, zero_add] at hpair
  rcases hpair with ⟨hnone, -, hfind⟩ | ⟨xs, a, b, ys, heq, -, -, hfind, hsome⟩
  · refine .inl ⟨hnone, ?_⟩
    rw [hfind]
    rfl
  · right
    have hb : Layout pc ((xs ++ [a]) ++ b :: ys) := by
      rw [heq] at h
      simpa using h
    have ha : Layout pc (xs ++ [a, b] ++ ys) := by
      rw [heq] at h
      simpa using h
    have hreadb := hb.at
    rw [span_append, span_cons, span_nil, add_zero] at hreadb
    have hawf : a.Wf := h.seg.wf a (by rw [heq]; simp)
    have hsum := hsmall xs a b ys heq
    have hfits := hawf.fits
    have hset : a.setRecordLen p (a.recordLen + b.recordLen) = some (a.withLen (a.recordLen + b.recordLen)) :=
      setRecordLen_eq (by omega) hsum
    obtain ⟨pc', hok, hsame, hlayout⟩ := ha.overwrite (e := a.withLen (a.recordLen + b.recordLen))
      (hawf.withLen (by omega) hsum) (by simp)
    refine ⟨b, _, pc', hsome, ?_, by simpa using hlayout, hsame⟩
    rw [hfind]
    simp only [searched, zero_add, hreadb.1, Option.isNone_some, Bool.false_eq_true, false_and, if_false,
      removeMerge, bind_eq, hset, expect_some, hok, pure_apply]

/-- Where the first record of a name is. -/
structure FirstAt (name : Name) (recs xs : List DirEntry) (e : DirEntry) (ys : List DirEntry) : Prop where
  eq : recs = xs ++ e :: ys
  name_eq : e.name = name
  before : ∀ x ∈ xs, x.name ≠ name

section

variable (h : FirstAt name recs xs e ys)
include h

theorem FirstAt.find? : recs.find? (fun e => e.name == name) = some e := by
  rw [h.eq, List.find?_append, List.find?_eq_none.mpr (by simpa using h.before), Option.none_or,
    List.find?_cons_of_pos (by simpa using h.name_eq)]

theorem FirstAt.find_place (off : Nat) :
    (place off recs).find? (fun x => x.2.name == name) = some (off + span xs, e) := by
  have hnone : (place off xs).find? (fun x => x.2.name == name) = none := by
    rcases Ext2.find_place off xs name with ⟨-, hnone⟩ | ⟨_, x, _, rfl, hx, _⟩
    · exact hnone
    · exact absurd hx (h.before x (by simp))
  rw [h.eq, place_append, List.find?_append, hnone, Option.none_or, place,
    List.find?_cons_of_pos (by simpa using h.name_eq)]

theorem FirstAt.replaceRec (new : DirEntry) : replaceRec name new recs = xs ++ new.withLen e.recordLen :: ys := by
  obtain ⟨rfl, hname, hbefore⟩ := h
  induction xs with
  | nil => exact if_pos hname
  | cons x xs ih =>
    rw [List.cons_append, Ext2.replaceRec, if_neg (hbefore x (by simp)), ih fun y hy => hbefore y (by simp [hy])]
    rfl

end

theorem firstAt_or_absent (name : Name) (recs : List DirEntry) :
    (∀ e ∈ recs, e.name ≠ name) ∨ ∃ xs e ys, FirstAt name recs xs e ys := by
  rcases find_place 0 recs name with ⟨hnone, -⟩ | ⟨xs, e, ys, heq, hname, hxs, -⟩
  · exact .inl hnone
  · exact .inr ⟨xs, e, ys, heq, hname, hxs⟩

/-- An offset from which a search finds the first record of a name: the start, or the record itself. -/
def Reaches (name : Name) (recs : List DirEntry) (off : Nat) : Prop :=
  off = 0 ∨ ∃ xs e ys, FirstAt name recs xs e ys ∧ off = span xs

theorem Layout.find (h : Layout pc recs) (hoff : Reaches name recs off) : pc.endless off = false ∧
    (pc.entries off).find? (fun x => x.2.name == name) = (place 0 recs).find? fun x => x.2.name == name := by
  rcases hoff with rfl | ⟨xs, e, ys, hfirst, rfl⟩
  · exact ⟨h.seg.not_endless, by rw [h.entries]⟩
  · have hseg : Seg pc (span xs) (e :: ys) pc.size := by
      have := h.seg
      rw [hfirst.eq, seg_append, zero_add] at this
      exact this.2
    refine ⟨hseg.not_endless, ?_⟩
    rw [hseg.entries, hfirst.find_place, place, List.find?_cons_of_pos (by simpa using hfirst.name_eq), zero_add]

/-- **Renaming.** -/
theorem renameEntry_layout {newName : Name} (h : Layout pc recs) (hhead : Headed recs) (hsmall : SmallPairs recs)
    (hnew : Storable newName) (hoff : Reaches name recs off) :
    (renameRec name newName recs = none ∧ renameEntry p off name newName pc = .err (.new .ENOENT) pc) ∨
    ∃ recs' pc', renameRec name newName recs = some recs' ∧
      renameEntry p off name newName pc = .ok () pc' ∧ Layout pc' recs' := by
  obtain ⟨hend, hfind⟩ := h.find hoff
  unfold renameEntry
  rw [hend, hfind]
  rcases firstAt_or_absent name recs with hnone | ⟨xs, e, ys, hfirst⟩
  · refine .inl ⟨?_, ?_⟩
    · unfold renameRec
      rw [List.find?_eq_none.mpr (by simpa using hnone)]
    · rcases find_place 0 recs name with ⟨-, hplace⟩ | ⟨_, x, _, heq, hx, _⟩
      · rw [hplace]
        rfl
      · exact absurd hx (hnone x (by rw [heq]; simp))
  · have hlayout : Layout pc (xs ++ [e] ++ ys) := by
      have := h
      rw [hfirst.eq] at this
      simpa using this
    have hewf : e.Wf := h.seg.wf e (by rw [hfirst.eq]; simp)
    obtain ⟨t, ht, -⟩ := hewf.type
    have hnewwf : (newRec e.ino newName t).Wf := newRec_wf t hewf.ino_pos hewf.ino_lt hnew
    unfold renameRec
    rw [hfirst.find?, hfirst.find_place]
    simp only [searched, ht, Option.bind_some, new_eq hnew, zero_add]
    by_cases hle : (newRec e.ino newName t).recordLen ≤ e.recordLen
    · -- in place
      have hset : (newRec e.ino newName t).setRecordLen p e.recordLen =
          some ((newRec e.ino newName t).withLen e.recordLen) := setRecordLen_eq hle hewf.len_lt
      obtain ⟨pc', hok, -, hl⟩ := hlayout.overwrite (hnewwf.withLen hle hewf.len_lt) (by simp)
      rw [if_pos hle, if_pos hle, hfirst.replaceRec]
      refine .inr ⟨_, pc', rfl, ?_, by simpa using hl⟩
      rw [bind_eq, hset, expect_some]
      exact hok
    · -- to another place
      rw [if_neg hle, if_neg hle]
      rcases removeEntry_layout (p := p) name h hhead hsmall with
        ⟨hnone, herr⟩ | ⟨e', recs₁, pc₁, hsome, hok, hl, -⟩
      · refine .inl ⟨by rw [hnone]; rfl, ?_⟩
        rw [bind_eq, herr]
      · obtain ⟨pc₂, hok₂, hl₂, -⟩ := appendEntry_layout (p := p) hl hnewwf rfl
        refine .inr ⟨_, pc₂, by rw [hsome]; rfl, ?_, hl₂⟩
        rw [bind_eq, hok]
        exact hok₂

/-- **Looking up.** -/
theorem getEntry_layout (name : Name) (h : Layout pc recs) (hoff : Reaches name recs off) :
    ((∀ e ∈ recs, e.name ≠ name) ∧ pc.getEntry name off = some none) ∨
    ∃ xs e ys, FirstAt name recs xs e ys ∧ pc.getEntry name off = some (some (span xs, e)) := by
  obtain ⟨hend, hfind⟩ := h.find hoff
  unfold PageCache.getEntry
  rw [hend, hfind]
  rcases firstAt_or_absent name recs with hnone | ⟨xs, e, ys, hfirst⟩
  · refine .inl ⟨hnone, ?_⟩
    rcases find_place 0 recs name with ⟨-, hplace⟩ | ⟨_, x, _, heq, hx, _⟩
    · rw [hplace]
      rfl
    · exact absurd hx (hnone x (by rw [heq]; simp))
  · refine .inr ⟨xs, e, ys, hfirst, ?_⟩
    rw [hfirst.find_place, zero_add]
    rfl

end layout

/-! ## What the records bind

A directory binds names to inode numbers and types. Every operation changes one place of the list of bindings. -/

/-- What a record says. -/
def DirEntry.binding (e : DirEntry) : Name × (Nat × Nat) := (e.name, e.ino, e.fileType)

/-- What the records of a directory say. -/
def bindings (recs : List DirEntry) : List (Name × (Nat × Nat)) := recs.map DirEntry.binding

section bindings

variable {recs recs' : List DirEntry} {new e : DirEntry}

@[simp] theorem bindings_append (xs ys : List DirEntry) : bindings (xs ++ ys) = bindings xs ++ bindings ys :=
  List.map_append

@[simp] theorem bindings_cons (e : DirEntry) (recs : List DirEntry) : bindings (e :: recs) = e.binding ::
    bindings recs :=
  rfl

@[simp] theorem withLen_binding (n : Nat) : (e.withLen n).binding = e.binding := rfl

theorem mem_keys_bindings : name ∈ keys (bindings recs) ↔ ∃ e ∈ recs, e.name = name := by
  simp [keys, bindings, binding]

theorem insertGap_split (h : insertGap new recs = some recs') :
    ∃ xs e ys, recs = xs ++ e :: ys ∧ new.recordLen ≤ e.gap ∧
      recs' = xs ++ e.withLen e.actualLen :: new.withLen e.gap :: ys := by
  induction recs generalizing recs' with
  | nil => cases h
  | cons e recs ih =>
    unfold insertGap at h
    split at h
    case isTrue hle =>
      cases h
      exact ⟨[], e, recs, rfl, hle, rfl⟩
    case isFalse =>
      obtain ⟨l, hl, rfl⟩ := Option.map_eq_some_iff.mp h
      obtain ⟨xs, x, ys, rfl, hle, rfl⟩ := ih hl
      exact ⟨e :: xs, x, ys, rfl, hle, rfl⟩

/-- Appending puts one binding somewhere. -/
theorem appendRec_bindings (new : DirEntry) (recs : List DirEntry) :
    ∃ xs ys, bindings recs = xs ++ ys ∧ bindings (appendRec new recs) = xs ++ new.binding :: ys := by
  unfold appendRec
  cases h : insertGap new recs with
  | none => exact ⟨bindings recs, [], by simp, by simp [bindings]⟩
  | some recs' =>
    obtain ⟨xs, e, ys, rfl, -, rfl⟩ := insertGap_split h
    exact ⟨bindings xs ++ [e.binding], bindings ys, by simp, by simp⟩

theorem removeRec_split (h : removeRec name recs = some (e, recs')) :
    ∃ xs a ys, recs = xs ++ a :: e :: ys ∧ recs' = xs ++ a.withLen (a.recordLen + e.recordLen) :: ys ∧
      e.name = name := by
  fun_induction removeRec name recs generalizing recs' with
  | case1 pre e' rest hname =>
    cases h
    exact ⟨[], pre, rest, rfl, rfl, hname⟩
  | case2 pre e' rest hname ih =>
    obtain ⟨x, hx, heq⟩ := Option.map_eq_some_iff.mp h
    cases heq
    obtain ⟨xs, a, ys, hrest, hx₂, hname'⟩ := ih hx
    exact ⟨pre :: xs, a, ys, by rw [hrest]; rfl, by rw [hx₂]; rfl, hname'⟩
  | case3 => cases h

theorem removeRec_bindings (h : removeRec name recs = some (e, recs')) :
    ∃ xs ys, bindings recs = xs ++ e.binding :: ys ∧ bindings recs' = xs ++ ys ∧ e.name = name ∧ e ∈ recs := by
  obtain ⟨xs, a, ys, rfl, rfl, hname⟩ := removeRec_split h
  exact ⟨bindings xs ++ [a.binding], bindings ys, by simp, by simp, hname, by simp⟩

theorem getEntry_bindings (h : Layout pc recs) (name : Name) : ∃ found, pc.getEntry name 0 = some found ∧
      found.map (fun x => (x.2.ino, x.2.fileType)) = (bindings recs).lookup name := by
  rcases getEntry_layout name h (.inl rfl) with ⟨hnone, hget⟩ | ⟨xs, e, ys, hfirst, hget⟩
  · refine ⟨none, hget, ?_⟩
    rw [eq_comm, Option.map_none, lookup_eq_none_iff, mem_keys_bindings]
    rintro ⟨e, he, hname⟩
    exact hnone e he hname
  · refine ⟨_, hget, ?_⟩
    have hxs : (bindings xs).lookup name = none := by
      rw [lookup_eq_none_iff, mem_keys_bindings]
      rintro ⟨x, hx, hname⟩
      exact hfirst.before x hx hname
    rw [hfirst.eq, bindings_append, List.lookup_append, hxs, Option.none_or, bindings_cons, binding,
      hfirst.name_eq, List.lookup_cons_self]
    rfl

end bindings

end AsterKernel.Ext2
