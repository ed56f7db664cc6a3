import AsterKernel.Ext2.Inode

/-!
# `Ext2.RawInode` — the descriptor of an inode on the device

`InodeDesc` is decoded from a `RawInode` and encoded into one. Ids are split into two halves and joined again. The size
is not: decoding a regular file reads its upper half, encoding writes the lower one only. Times lose what is below a
second.
-/

namespace AsterKernel.Ext2

open BitVec

/-! ## Machine words -/

/-- `(hi << w) | lo`. -/
def joinHalves {w : Nat} (n : Nat) (hi lo : BitVec w) : BitVec n := hi.setWidth n <<< w ||| lo.setWidth n

theorem joinHalves_low {w n : Nat} (hi lo : BitVec w) (h : w ≤ n) : (joinHalves n hi lo).setWidth w = lo := by
  ext i hlt
  simp only [joinHalves, getElem_setWidth, getLsbD_or, getLsbD_shiftLeft, getLsbD_setWidth]
  simp [hlt, show i < n by omega]

theorem joinHalves_high {w n : Nat} (hi lo : BitVec w) (h : w + w ≤ n) :
    (joinHalves n hi lo >>> w).setWidth w = hi := by
  ext i hlt
  simp only [joinHalves, getElem_setWidth, getLsbD_ushiftRight, getLsbD_or,
    getLsbD_shiftLeft, getLsbD_setWidth]
  simp [hlt, show w + i < n by omega, show i < n by omega]

theorem joinHalves_split (x : BitVec 32) : joinHalves 32 ((x >>> 16).setWidth 16) (x.setWidth 16) = x := by
  ext i hlt
  by_cases h : i < 16
  · simp [joinHalves, h, hlt]
  · have hhigh : i - 16 < 16 := by omega
    simp [joinHalves, h, hlt, hhigh, show 16 + (i - 16) = i by omega]

theorem joinHalves_zero (lo : BitVec 32) : joinHalves 64 0#32 lo = lo.setWidth 64 := by
  simp [joinHalves]

/-- What a cast to 32 bits keeps. -/
theorem setWidth_setWidth_eq (x : BitVec 64) : (x.setWidth 32).setWidth 64 = x ↔ x.toNat < 2 ^ 32 := by
  rw [← toNat_inj]
  simp only [toNat_setWidth]
  omega

theorem setWidth_cast (x : BitVec 32) : (x.setWidth 64).setWidth 32 = x := by
  rw [← toNat_inj, toNat_setWidth, toNat_setWidth]
  omega

/-! ## The two forms -/

/-- `FileType as u16`. -/
def FileType.mode : FileType → BitVec 16
  | .fifo => 0o010000
  | .char => 0o020000
  | .dir => 0o040000
  | .block => 0o060000
  | .file => 0o100000
  | .symlink => 0o120000
  | .socket => 0o140000

def FileType.fromRawMode (mode : BitVec 16) : Except Error FileType :=
  match [FileType.fifo, .char, .dir, .block, .file, .symlink, .socket].find? fun t => t.mode == mode &&& 0o170000 with
  | some t => .ok t
  | none => .error (.withMessage .EINVAL "invalid file type")

/-- `FilePerm`: twelve bits, each of which has a meaning. -/
structure FilePerm where
  bits : BitVec 16
  valid : bits &&& 0o7777 = bits

/-- `FilePerm::from_raw_mode`, which cannot fail. -/
def FilePerm.fromRawMode (mode : BitVec 16) : FilePerm :=
  ⟨mode &&& 0o7777, by rw [BitVec.and_assoc, BitVec.and_self]⟩

/-- The flags that have a meaning: bits 0 to 17, and bit 31. -/
def FileFlags.all : BitVec 32 := 0x8003ffff

structure FileFlags where
  bits : BitVec 32
  valid : bits &&& FileFlags.all = bits

def FileFlags.fromBits (bits : BitVec 32) : Except Error FileFlags :=
  if h : bits &&& FileFlags.all = bits then .ok ⟨bits, h⟩ else .error (.withMessage .EINVAL "invalid file flags")

structure Duration where
  secs : BitVec 64
  nanos : Fin 1000000000
deriving DecidableEq

/-- `UnixTime::from`: the seconds, cast to 32 bits. -/
def Duration.toUnixTime (d : Duration) : BitVec 32 := d.secs.setWidth 32

/-- `Duration::from(UnixTime)`. -/
def Duration.ofUnixTime (sec : BitVec 32) : Duration := ⟨sec.setWidth 64, 0⟩

/-- Files and directories have a block for access control, which is never set to another one than was decoded. -/
def AclOk (type : FileType) (acl : Option (BitVec 64)) : Prop :=
  if type = .file ∨ type = .dir then ∃ bid : BitVec 32, acl = some (bid.setWidth 64) else acl = none

structure InodeDesc where
  type : FileType
  perm : FilePerm
  uid : BitVec 32
  gid : BitVec 32
  size : BitVec 64
  atime : Duration
  ctime : Duration
  mtime : Duration
  dtime : Duration
  hardLinks : BitVec 16
  blocksCount : BitVec 32
  flags : FileFlags
  data : Fin BLOCK_PTR_CNT → BitVec 32
  acl : Option (BitVec 64)
  aclOk : AclOk type acl

/-- `RawInode`, without the fields that neither conversion uses. -/
structure RawInode where
  mode : BitVec 16
  uid : BitVec 16
  sizeLow : BitVec 32
  atime : BitVec 32
  ctime : BitVec 32
  mtime : BitVec 32
  dtime : BitVec 32
  gid : BitVec 16
  hardLinks : BitVec 16
  blocksCount : BitVec 32
  flags : BitVec 32
  data : Fin BLOCK_PTR_CNT → BitVec 32
  fileAcl : BitVec 32
  sizeHigh : BitVec 32
  uidHigh : BitVec 16
  gidHigh : BitVec 16

/-- The access-control block that is decoded. -/
def RawInode.acl (raw : RawInode) : FileType → Option (BitVec 64)
  | .file => some (raw.fileAcl.setWidth 64)
  | .dir => some (raw.sizeHigh.setWidth 64)
  | _ => none

theorem RawInode.aclOk (raw : RawInode) (type : FileType) : AclOk type (raw.acl type) := by
  cases type
  case file => exact ⟨_, rfl⟩
  case dir => exact ⟨_, rfl⟩
  all_goals exact rfl

namespace InodeDesc

def tryFrom (raw : RawInode) : Except Error InodeDesc := do
  let type ← FileType.fromRawMode raw.mode
  let flags ← FileFlags.fromBits raw.flags
  return {
    type := type
    perm := .fromRawMode raw.mode
    uid := joinHalves 32 raw.uidHigh raw.uid
    gid := joinHalves 32 raw.gidHigh raw.gid
    size := if type = .file then joinHalves 64 raw.sizeHigh raw.sizeLow else raw.sizeLow.setWidth 64
    atime := .ofUnixTime raw.atime
    ctime := .ofUnixTime raw.ctime
    mtime := .ofUnixTime raw.mtime
    dtime := .ofUnixTime raw.dtime
    hardLinks := raw.hardLinks
    blocksCount := raw.blocksCount
    flags := flags
    data := raw.data
    acl := raw.acl type
    aclOk := raw.aclOk type }

/-- The field that holds the access-control block of a type. -/
def rawAcl (d : InodeDesc) (type : FileType) : BitVec 32 :=
  match d.acl with
  | some acl => if d.type = type then acl.setWidth 32 else 0
  | none => 0

/-- `RawInode::from`. -/
def toRaw (d : InodeDesc) : RawInode where
  mode := d.type.mode ||| d.perm.bits
  uid := d.uid.setWidth 16
  sizeLow := d.size.setWidth 32
  atime := d.atime.toUnixTime
  ctime := d.ctime.toUnixTime
  mtime := d.mtime.toUnixTime
  dtime := d.dtime.toUnixTime
  gid := d.gid.setWidth 16
  hardLinks := d.hardLinks
  blocksCount := d.blocksCount
  flags := d.flags.bits
  data := d.data
  fileAcl := d.rawAcl .file
  sizeHigh := d.rawAcl .dir
  uidHigh := (d.uid >>> 16).setWidth 16
  gidHigh := (d.gid >>> 16).setWidth 16

end InodeDesc

/-! ## The parts -/

theorem Duration.ofUnixTime_toUnixTime (d : Duration) :
    ofUnixTime d.toUnixTime = d ↔ d.secs.toNat < 2 ^ 32 ∧ d.nanos = 0 := by
  obtain ⟨secs, nanos⟩ := d
  simp only [ofUnixTime, toUnixTime, Duration.mk.injEq, setWidth_setWidth_eq]
  rw [@eq_comm _ 0]

/-- The permissions do not reach into the type. -/
theorem FileType.mode_and (t : FileType) (perm : FilePerm) : (t.mode ||| perm.bits) &&& 0o170000 = t.mode := by
  rw [BitVec.and_comm, BitVec.and_or_distrib_left, ← perm.valid, BitVec.and_comm perm.bits, ← BitVec.and_assoc]
  cases t <;> simp [mode]

theorem FileType.fromRawMode_mode (t : FileType) (perm : FilePerm) : fromRawMode (t.mode ||| perm.bits) = .ok t := by
  unfold fromRawMode
  rw [t.mode_and]
  cases t <;> rfl

theorem FileType.mode_of_fromRawMode {t : FileType} {mode : BitVec 16} (h : fromRawMode mode = .ok t) :
    t.mode = mode &&& 0o170000 := by
  unfold fromRawMode at h
  split at h
  · rename_i t' hfind
    cases h
    have hmode := List.find?_some hfind
    exact beq_iff_eq.mp hmode
  · cases h

theorem FilePerm.fromRawMode_mode (t : FileType) (perm : FilePerm) : fromRawMode (t.mode ||| perm.bits) = perm := by
  obtain ⟨bits, hvalid⟩ := perm
  simp only [fromRawMode, FilePerm.mk.injEq]
  rw [BitVec.and_comm, BitVec.and_or_distrib_left, BitVec.and_comm _ bits, hvalid]
  cases t <;> simp [FileType.mode]

theorem mode_split (mode : BitVec 16) : mode &&& 0o170000 ||| mode &&& 0o7777 = mode := by
  rw [← and_or_distrib_left]
  exact and_allOnes

theorem FileFlags.fromBits_ok {bits : BitVec 32} {flags : FileFlags} :
    fromBits bits = .ok flags ↔ flags.bits = bits := by
  unfold fromBits
  constructor
  · intro h
    split at h
    · cases h
      rfl
    · cases h
  · rintro rfl
    exact dif_pos flags.valid

namespace InodeDesc

/-! ## The round trips -/

/-- A time that the raw inode can hold. -/
def Whole (t : Duration) : Prop := t.secs.toNat < 2 ^ 32 ∧ t.nanos = 0

theorem acl_toRaw (d : InodeDesc) : d.toRaw.acl d.type = d.acl := by
  have hacl := d.aclOk
  cases htype : d.type
  case file =>
    rw [AclOk, if_pos (.inl htype)] at hacl
    obtain ⟨bid, hbid⟩ := hacl
    simp only [RawInode.acl, toRaw, rawAcl, hbid, htype, if_true, setWidth_cast]
  case dir =>
    rw [AclOk, if_pos (.inr htype)] at hacl
    obtain ⟨bid, hbid⟩ := hacl
    simp only [RawInode.acl, toRaw, rawAcl, hbid, htype, if_true, setWidth_cast]
  all_goals
    rw [AclOk, if_neg (by simp [htype])] at hacl
    exact hacl.symm

/-- What decoding makes of an encoded descriptor. -/
theorem tryFrom_toRaw (d : InodeDesc) : tryFrom d.toRaw = .ok { d with
    size := (d.size.setWidth 32).setWidth 64
    atime := .ofUnixTime d.atime.toUnixTime
    ctime := .ofUnixTime d.ctime.toUnixTime
    mtime := .ofUnixTime d.mtime.toUnixTime
    dtime := .ofUnixTime d.dtime.toUnixTime } := by
  have hsize : (if d.type = .file then joinHalves 64 d.toRaw.sizeHigh d.toRaw.sizeLow
      else d.toRaw.sizeLow.setWidth 64) = (d.size.setWidth 32).setWidth 64 := by
    split
    · rename_i htype
      have hhigh : d.toRaw.sizeHigh = 0 := by
        simp only [toRaw, rawAcl, htype, reduceCtorEq, if_false]
        split <;> rfl
      rw [hhigh]
      exact joinHalves_zero _
    · rfl
  have htype : FileType.fromRawMode d.toRaw.mode = .ok d.type := FileType.fromRawMode_mode ..
  have hflags : FileFlags.fromBits d.toRaw.flags = .ok d.flags := FileFlags.fromBits_ok.mpr rfl
  unfold tryFrom
  rw [htype, hflags]
  simp only [pure, Except.pure, bind, Except.bind, hsize, acl_toRaw]
  congr 2
  · exact FilePerm.fromRawMode_mode ..
  · exact joinHalves_split _
  · exact joinHalves_split _

/-- What a descriptor of a type represents of a raw inode: the other fields that depend on the type are zero. -/
def represented (type : FileType) (raw : RawInode) : RawInode :=
  { raw with
    fileAcl := if type = .file then raw.fileAcl else 0
    sizeHigh := if type = .file ∨ type = .dir then raw.sizeHigh else 0 }

/-- What encoding makes of a decoded raw inode: the upper half of a file's size is in the descriptor, but lost. -/
theorem toRaw_tryFrom {raw : RawInode} {d : InodeDesc} (h : tryFrom raw = .ok d) :
    d.toRaw = { represented d.type raw with sizeHigh := if d.type = .dir then raw.sizeHigh else 0 } := by
  unfold tryFrom at h
  cases htype : FileType.fromRawMode raw.mode with
  | error => rw [htype] at h; cases h
  | ok type =>
    cases hflags : FileFlags.fromBits raw.flags with
    | error => rw [htype, hflags] at h; cases h
    | ok flags =>
      rw [htype, hflags] at h
      obtain rfl := Except.ok.inj h
      have hmode : type.mode ||| raw.mode &&& 0o7777 = raw.mode := by
        rw [FileType.mode_of_fromRawMode htype, mode_split]
      have hsize : (if type = .file then joinHalves 64 raw.sizeHigh raw.sizeLow else raw.sizeLow.setWidth 64).setWidth 32 =
          raw.sizeLow := by
        split
        · exact joinHalves_low _ _ (by decide)
        · exact setWidth_cast _
      have hids (hi lo : BitVec 16) : (joinHalves 32 hi lo).setWidth 16 = lo ∧
          (joinHalves 32 hi lo >>> 16).setWidth 16 = hi :=
        ⟨joinHalves_low hi lo (by decide), joinHalves_high hi lo (by decide)⟩
      simp only [toRaw, represented, RawInode.mk.injEq, FilePerm.fromRawMode, Duration.toUnixTime, Duration.ofUnixTime,
        hmode, hsize, hids, setWidth_cast, FileFlags.fromBits_ok.mp hflags, true_and]
      cases type <;> simp [rawAcl, RawInode.acl]

/-- **Decoding an encoded descriptor, and encoding a decoded one.** -/
theorem round_trips (d : InodeDesc) (raw : RawInode) : (tryFrom d.toRaw = .ok d ↔
      d.size.toNat < 2 ^ 32 ∧ Whole d.atime ∧ Whole d.ctime ∧ Whole d.mtime ∧ Whole d.dtime) ∧
    ∀ d, tryFrom raw = .ok d → (d.toRaw = represented d.type raw ↔ (d.type = .file → raw.sizeHigh = 0)) := by
  refine ⟨?_, fun d h => ?_⟩
  · rw [tryFrom_toRaw]
    obtain ⟨⟩ := d
    simp only [Except.ok.injEq, InodeDesc.mk.injEq, true_and, and_true, setWidth_setWidth_eq,
      Duration.ofUnixTime_toUnixTime, Whole]
  · rw [toRaw_tryFrom h]
    cases d.type
    case file =>
      simp only [represented, RawInode.mk.injEq, true_and, and_true, if_true, true_or, reduceCtorEq, if_false, forall_const]
      exact eq_comm
    all_goals simp [represented]

/-- The inode of an empty file. -/
theorem round_trips_empty : ∃ raw d, tryFrom raw = .ok d ∧ tryFrom d.toRaw = .ok d ∧ d.toRaw = represented d.type raw :=
  ⟨⟨0o100000, 0, 0, 0, 0, 0, 0, 0, 1, 0, 0, fun _ => 0, 0, 0, 0, 0⟩, _, rfl,
    (round_trips _ _).imp (·.mpr (by unfold Whole; decide)) fun h => (h _ (by rfl)).mpr fun _ => rfl⟩

/-- The inode of a regular file of four gigabytes, as it is read, written and read again. -/
theorem large_file_shrinks : ∃ raw d, tryFrom raw = .ok d ∧ d.type = .file ∧ d.size = 2 ^ 32 ∧ raw.sizeHigh = 1 ∧
    d.toRaw.sizeHigh = 0 ∧ (tryFrom d.toRaw).toOption.map (fun d' => d'.size) = some 0 := by
  refine ⟨⟨0o100000, 0, 0, 0, 0, 0, 0, 0, 1, 0, 0, fun _ => 0, 0, 1, 0, 0⟩, _, rfl, rfl, rfl, rfl, rfl, ?_⟩
  rw [tryFrom_toRaw]
  rfl

end InodeDesc

end AsterKernel.Ext2
