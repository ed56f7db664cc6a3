import AsterKernel.Lib.BTreeMap
import AsterKernel.Lib.Usize
import AsterKernel.Lib.Run

/-!
# `Net.Ports` — the ports of an interface

`used_ports` counts the sockets of each port. A bind to an ephemeral port enters an unused port with the count zero, and
then claims it like any other port, in a critical section of its own. In between a bind to a fixed port takes an entry
with the count zero for a free one. If that socket is dropped before the first bind goes on, the entry is removed, and
another ephemeral bind gets the same port.

Every critical section is one step, of a call of `bind_socket` or of the drop of a socket that it has made. The counts
do not reach `2 ^ 64`. What the raw sockets do is left out.
-/

namespace AsterKernel.Net

open Lib List

/-- The errors of `bind_socket`. -/
inductive Errno where
  | EAGAIN
  | EADDRINUSE
deriving DecidableEq, Repr

inductive BindPortConfig where
  | canReuse (port : Nat)
  | specified (port : Nat)
  | ephemeral
deriving DecidableEq, Repr

namespace BindPortConfig

/-- `BindPortConfig::can_reuse`. -/
def reuses : BindPortConfig → Bool
  | .canReuse _ => true
  | _ => false

def port : BindPortConfig → Option Nat
  | .canReuse port | .specified port => some port
  | .ephemeral => none

end BindPortConfig

def IP_LOCAL_PORT_START : Nat := 49152

def IP_LOCAL_PORT_END : Nat := 65535

/-! ## The counts -/

abbrev UsedPorts := BTreeMap Nat

variable {port : Nat}

namespace UsedPorts

/-- The ports that `alloc_ephemeral_port` tries. -/
def localPorts : List Nat := List.range' IP_LOCAL_PORT_START (IP_LOCAL_PORT_END + 1 - IP_LOCAL_PORT_START)

/-- `IfaceCommon::alloc_ephemeral_port`. -/
def allocEphemeralPort (used : UsedPorts) : Except Errno (Nat × UsedPorts) :=
  match localPorts.find? fun port => (used.get? port).isNone with
  | some port => .ok (port, used.insert port 0)
  | none => .error .EAGAIN

/-- `IfaceCommon::bind_port`. -/
def bindPort (port : Nat) (canReuse : Bool) (used : UsedPorts) : Except Errno UsedPorts :=
  match used.get? port with
  | some usedTimes => if usedTimes == 0 || canReuse then .ok (used.insert port (usedTimes + 1)) else .error .EADDRINUSE
  | none => .ok (used.insert port 1)

/-- `IfaceCommon::release_port`. -/
def releasePort (p : Profile) (port : Nat) (used : UsedPorts) : Option UsedPorts :=
  match used.get? port with
  | some usedTimes =>
    if usedTimes ≠ 1 then (p.sub (2 ^ 64) usedTimes 1).map ((used.remove port).insert port) else some (used.remove port)
  | none => some used

/-- The count of a port, zero without an entry. -/
def count (used : UsedPorts) (port : Nat) : Nat := (used.get? port).getD 0

variable {used used' : UsedPorts}

theorem allocEphemeralPort_ok (h : used.allocEphemeralPort = .ok (port, used')) :
    used.get? port = none ∧ used' = used.insert port 0 := by
  unfold allocEphemeralPort at h
  cases hfind : localPorts.find? fun port => (used.get? port).isNone with
  | none => rw [hfind] at h; cases h
  | some q =>
    rw [hfind] at h
    cases h
    have hnone := find?_some hfind
    exact ⟨Option.isNone_iff_eq_none.mp hnone, rfl⟩

theorem bindPort_ok {canReuse : Bool} (h : bindPort port canReuse used = .ok used') :
    used' = used.insert port (used.count port + 1) ∧ (canReuse = false → used.count port = 0) := by
  unfold bindPort at h
  unfold count
  cases hget : used.get? port with
  | none =>
    rw [hget] at h
    cases h
    exact ⟨rfl, fun _ => rfl⟩
  | some n =>
    rw [hget] at h
    dsimp only at h
    split at h
    · rename_i hfree
      cases h
      refine ⟨rfl, fun hreuse => ?_⟩
      simpa [hreuse] using hfree
    · cases h

/-- A port that is reserved or free is bound. -/
theorem bindPort_of_zero (canReuse : Bool) (h : used.get? port = some 0) :
    bindPort port canReuse used = .ok (used.insert port 1) := by
  unfold bindPort
  rw [h]
  rfl

theorem releasePort_some {p : Profile} {n : Nat} (h : used.get? port = some (n + 1)) :
    ∃ used', releasePort p port used = some used' ∧ (∀ q, q ≠ port → used'.get? q = used.get? q) ∧
      used'.get? port = if n = 0 then none else some n := by
  unfold releasePort
  rw [h]
  by_cases hn : n = 0
  · subst hn
    refine ⟨used.remove port, rfl, fun q hq => ?_, ?_⟩
    · rw [BTreeMap.get?_remove, if_neg hq]
    · rw [BTreeMap.get?_remove, if_pos rfl, if_pos rfl]
  · have hne : n + 1 ≠ 1 := by omega
    have hsub : p.sub (2 ^ 64) (n + 1) 1 = some n := by
      unfold Profile.sub
      rw [if_pos (by omega)]
      rfl
    refine ⟨(used.remove port).insert port n, ?_, fun q hq => ?_, ?_⟩
    · dsimp only
      rw [if_pos hne, hsub]
      rfl
    · rw [BTreeMap.get?_insert_ne _ _ hq, BTreeMap.get?_remove, if_neg hq]
    · rw [BTreeMap.get?_insert, if_pos rfl, if_neg hn]

end UsedPorts

/-! ## Sockets -/

/-- A call of `bind_socket`, or the socket it has made: before `alloc_ephemeral_port`, before `bind_port`, before
`insert_bound_socket`, bound; in `drop` before `release_port` and before `remove_bound_socket`; or it is no more. -/
inductive Socket where
  | allocating
  | binding (config : BindPortConfig) (port : Nat)
  | adding (config : BindPortConfig) (port : Nat)
  | bound (port : Nat)
  | dropping (port : Nat)
  | released (port : Nat)
  | gone
deriving DecidableEq, Repr

namespace Socket

/-- A socket that has been bound, or is being created after that, holds its port until it has been released. -/
def holds (port : Nat) : Socket → Bool
  | .adding _ q | .bound q | .dropping q => q == port
  | _ => false

/-- The port that an ephemeral bind in progress has got. -/
def got : Socket → Option Nat
  | .binding .ephemeral port | .adding .ephemeral port => some port
  | _ => none

end Socket

/-- The parts of `IfaceCommon` that deal with ports, and the sockets. -/
structure Iface where
  usedPorts : UsedPorts
  boundSockets : BTreeSet
  sockets : List Socket

namespace Iface

def new : Iface := ⟨.empty, .empty, []⟩

def setSocket (s : Iface) (i : Nat) (socket : Socket) : Iface := { s with sockets := s.sockets.set i socket }

/-- The number of sockets that hold a port. -/
def holders (s : Iface) (port : Nat) : Nat := s.sockets.countP (Socket.holds port)

/-- The start of `bind_socket`. -/
def bindSocket (config : BindPortConfig) (s : Iface) : Iface :=
  { s with sockets := s.sockets ++ [match config.port with
    | some port => .binding config port
    | none => .allocating] }

/-- The next critical section of a call. An error ends the call. -/
def next (p : Profile) (i : Nat) (s : Iface) : Option Iface :=
  match s.sockets[i]? with
  | some .allocating =>
    match s.usedPorts.allocEphemeralPort with
    | .ok (port, used) => some { s.setSocket i (.binding .ephemeral port) with usedPorts := used }
    | .error _ => some (s.setSocket i .gone)
  | some (.binding config port) =>
    match UsedPorts.bindPort port config.reuses s.usedPorts with
    | .ok used => some { s.setSocket i (.adding config port) with usedPorts := used }
    | .error _ => some (s.setSocket i .gone)
  | some (.adding _ port) =>
    -- `insert_bound_socket(..).unwrap()`
    if s.boundSockets.contains i then none
    else some { s.setSocket i (.bound port) with boundSockets := s.boundSockets.insert i }
  | some (.dropping port) =>
    (UsedPorts.releasePort p port s.usedPorts).map fun used => { s.setSocket i (.released port) with usedPorts := used }
  | some (.released _) => some { s.setSocket i .gone with boundSockets := s.boundSockets.remove i }
  | _ => none

/-- The last reference to a socket goes away. -/
def drop (i : Nat) (s : Iface) : Option Iface :=
  match s.sockets[i]? with
  | some (.bound port) => some (s.setSocket i (.dropping port))
  | _ => none

end Iface

inductive Op where
  | bindSocket (config : BindPortConfig)
  | next (i : Nat)
  | drop (i : Nat)
deriving DecidableEq, Repr

def Op.run (p : Profile) : Op → Iface → Option Iface
  | .bindSocket config, s => some (s.bindSocket config)
  | .next i, s => s.next p i
  | .drop i, s => s.drop i

/-- The interfaces that steps which meet a condition lead to. -/
abbrev Reached (p : Profile) (cond : Iface → Op → Prop) : Iface → Prop := Run (Op.run p) cond .new

/-! ## What a step does -/

/-- What a step of the `i`-th socket does. -/
inductive Moved (p : Profile) (i : Nat) (s : Iface) : Iface → Prop
  | alloc (port : Nat) (h : s.sockets[i]? = some .allocating) (hfree : s.usedPorts.get? port = none) :
      Moved p i s { s.setSocket i (.binding .ephemeral port) with usedPorts := s.usedPorts.insert port 0 }
  | bind (config : BindPortConfig) (port : Nat) (h : s.sockets[i]? = some (.binding config port))
      (hfree : config.reuses = false → s.usedPorts.count port = 0) :
      Moved p i s { s.setSocket i (.adding config port) with
        usedPorts := s.usedPorts.insert port (s.usedPorts.count port + 1) }
  | noPort (h : s.sockets[i]? = some .allocating) : Moved p i s (s.setSocket i .gone)
  | inUse (config : BindPortConfig) (port : Nat) (h : s.sockets[i]? = some (.binding config port))
      (hused : s.usedPorts.get? port ≠ some 0) : Moved p i s (s.setSocket i .gone)
  | add (config : BindPortConfig) (port : Nat) (h : s.sockets[i]? = some (.adding config port)) :
      Moved p i s { s.setSocket i (.bound port) with boundSockets := s.boundSockets.insert i }
  | drop (port : Nat) (h : s.sockets[i]? = some (.bound port)) : Moved p i s (s.setSocket i (.dropping port))
  | release (port : Nat) (used : UsedPorts) (h : s.sockets[i]? = some (.dropping port))
      (hrelease : UsedPorts.releasePort p port s.usedPorts = some used) :
      Moved p i s { s.setSocket i (.released port) with usedPorts := used }
  | remove (port : Nat) (h : s.sockets[i]? = some (.released port)) :
      Moved p i s { s.setSocket i .gone with boundSockets := s.boundSockets.remove i }

variable {p : Profile} {s t : Iface} {i : Nat}

namespace Iface

theorem next_moved (h : s.next p i = some t) : Moved p i s t := by
  unfold next at h
  cases hsocket : s.sockets[i]? with
  | none => rw [hsocket] at h; cases h
  | some socket =>
    rw [hsocket] at h
    cases socket with
    | allocating =>
      cases halloc : s.usedPorts.allocEphemeralPort with
      | error e =>
        rw [halloc] at h
        cases h
        exact .noPort hsocket
      | ok got =>
        obtain ⟨port, used⟩ := got
        obtain ⟨hfree, rfl⟩ := UsedPorts.allocEphemeralPort_ok halloc
        rw [halloc] at h
        cases h
        exact .alloc port hsocket hfree
    | binding config port =>
      dsimp only at h
      cases hbind : UsedPorts.bindPort port config.reuses s.usedPorts with
      | error e =>
        rw [hbind] at h
        cases h
        refine .inUse config port hsocket fun hzero => ?_
        rw [UsedPorts.bindPort_of_zero _ hzero] at hbind
        cases hbind
      | ok used =>
        obtain ⟨rfl, hfree⟩ := UsedPorts.bindPort_ok hbind
        rw [hbind] at h
        cases h
        exact .bind config port hsocket hfree
    | adding config port =>
      dsimp only at h
      split at h
      · cases h
      · cases h
        exact .add config port hsocket
    | bound port | gone => cases h
    | dropping port =>
      obtain ⟨used, hrelease, rfl⟩ := Option.map_eq_some_iff.mp h
      exact .release port used hsocket hrelease
    | released port =>
      cases h
      exact .remove port hsocket

theorem drop_moved (h : s.drop i = some t) : Moved p i s t := by
  unfold drop at h
  split at h
  · rename_i port hsocket
    cases h
    exact .drop port hsocket
  · cases h

variable {a : Socket}

section

variable (h : s.sockets[i]? = some a)
include h

/-- What setting a socket does to the number of holders. -/
theorem holders_setSocket {b : Socket} (port : Nat) :
    (s.setSocket i b).holders port + (if a.holds port then 1 else 0) =
      s.holders port + (if b.holds port then 1 else 0) := by
  obtain ⟨hlt, rfl⟩ := List.getElem?_eq_some_iff.mp h
  have hle := List.boole_getElem_le_countP (p := Socket.holds port) hlt
  unfold holders setSocket
  rw [countP_set hlt]
  omega

theorem setSocket_self {b : Socket} : (s.setSocket i b).sockets[i]? = some b :=
  List.getElem?_set_self (List.getElem?_eq_some_iff.mp h).1

theorem holders_pos (ha : a.holds port = true) : 0 < s.holders port :=
  countP_pos_iff.mpr ⟨a, mem_of_getElem? h, ha⟩

end

end Iface

/-! ## The invariants -/

/-- The counts are those of the holders, and a count of zero is that of an ephemeral bind in progress. -/
structure Accounted (s : Iface) : Prop where
  count : ∀ port, s.usedPorts.count port = s.holders port
  zero : ∀ port, s.usedPorts.get? port = some 0 → ∃ i : Nat, s.sockets[i]? = some (.binding .ephemeral port)

/-- The ports of ephemeral binds are reserved until they are claimed, and different. -/
structure Reserved (s : Iface) : Prop where
  zero : ∀ (i port : Nat), s.sockets[i]? = some (.binding .ephemeral port) → s.usedPorts.get? port = some 0
  apart : ∀ (i j : Nat) (a b : Socket) (port : Nat), s.sockets[i]? = some a → s.sockets[j]? = some b →
    a.got = some port → b.got = some port → i = j

namespace UsedPorts

variable {used : UsedPorts}

theorem count_insert (used : UsedPorts) (port n q : Nat) :
    count (used.insert port n) q = if q = port then n else used.count q := by
  unfold count
  rw [BTreeMap.get?_insert]
  split <;> rfl

theorem count_of_get? {n : Nat} (h : used.get? port = some n) : used.count port = n := by
  unfold count
  rw [h]
  rfl

theorem get?_of_count {n : Nat} (h : used.count port = n + 1) : used.get? port = some (n + 1) := by
  unfold count at h
  cases hget : used.get? port with
  | none => rw [hget] at h; cases h
  | some m =>
    rw [hget] at h
    exact congrArg some h

theorem count_of_none (h : used.get? port = none) : used.count port = 0 := by
  unfold count
  rw [h]
  rfl

/-- What `release_port` does to the counts of a port that is held. -/
theorem releasePort_count {used' : UsedPorts} (h : releasePort p port used = some used')
    (hheld : 0 < used.count port) :
    (∀ q, q ≠ port → used'.get? q = used.get? q) ∧ used'.count port + 1 = used.count port ∧
      used'.get? port ≠ some 0 := by
  obtain ⟨n, hn⟩ := Nat.exists_eq_add_one_of_ne_zero (Nat.pos_iff_ne_zero.mp hheld)
  obtain ⟨used₁, hrelease, hother, hself⟩ := releasePort_some (p := p) (get?_of_count hn)
  obtain rfl := Option.some.inj (h.symm.trans hrelease)
  refine ⟨hother, ?_, ?_⟩
  · unfold count at hn ⊢
    rw [hself, hn]
    by_cases hz : n = 0
    · rw [if_pos hz, hz]; rfl
    · rw [if_neg hz]; rfl
  · rw [hself]
    split
    · exact nofun
    · intro hz
      cases hz
      contradiction

end UsedPorts

namespace Accounted

theorem new : Accounted .new where
  count _ := rfl
  zero _ h := by cases h

section

variable (h : Accounted s)
include h

theorem held {a : Socket} (ha : s.sockets[i]? = some a) (hholds : a.holds port = true) :
    0 < s.usedPorts.count port := by
  rw [h.count]
  exact Iface.holders_pos ha hholds

theorem put {a b : Socket} (ha : s.sockets[i]? = some a) (hsockets : t.sockets = s.sockets.set i b)
    (hcount : ∀ q, t.usedPorts.count q + (if a.holds q then 1 else 0) =
      s.usedPorts.count q + (if b.holds q then 1 else 0)) (hzero : ∀ q, t.usedPorts.get? q = some 0 →
      b = .binding .ephemeral q ∨ s.usedPorts.get? q = some 0 ∧ a ≠ .binding .ephemeral q) : Accounted t where
  count q := by
    have hset := Iface.holders_setSocket (b := b) ha q
    have hold := h.count q
    have hnew := hcount q
    have hholders : t.holders q = (s.setSocket i b).holders q := by
      unfold Iface.holders
      rw [hsockets]
      rfl
    omega
  zero q hz := by
    rcases hzero q hz with rfl | ⟨hold, hne⟩
    · refine ⟨i, ?_⟩
      rw [hsockets]
      exact Iface.setSocket_self ha
    · obtain ⟨j, hj⟩ := h.zero q hold
      refine ⟨j, ?_⟩
      rw [hsockets, getElem?_set_ne, hj]
      rintro rfl
      exact hne (Option.some.inj (ha.symm.trans hj))

/-- The counts are those of the sockets that hold a port, after any steps. -/
theorem moved (hmoved : Moved p i s t) : Accounted t := by
  cases hmoved with
  | alloc port ha hfree =>
    refine h.put ha rfl (fun q => ?_) fun q hz => ?_
    · show UsedPorts.count (s.usedPorts.insert port 0) q + 0 = s.usedPorts.count q + 0
      rw [UsedPorts.count_insert]
      split
      · rename_i hq
        rw [hq, UsedPorts.count_of_none hfree]
      · rfl
    · by_cases hq : q = port
      · exact .inl (hq ▸ rfl)
      · exact .inr ⟨(BTreeMap.get?_insert_ne _ _ hq).symm.trans hz, nofun⟩
  | bind config port ha _ =>
    refine h.put ha rfl (fun q => ?_) fun q hz => ?_
    · show UsedPorts.count (s.usedPorts.insert port _) q + 0 =
        s.usedPorts.count q + if (port == q) = true then 1 else 0
      rw [UsedPorts.count_insert]
      by_cases hq : q = port
      · subst hq
        simp
      · simp [hq, Ne.symm hq]
    · have hq : q ≠ port := by
        rintro rfl
        have hself := UsedPorts.count_of_get? hz
        rw [UsedPorts.count_insert, if_pos rfl] at hself
        cases hself
      refine .inr ⟨(BTreeMap.get?_insert_ne _ _ hq).symm.trans hz, ?_⟩
      rintro heq
      cases heq
      exact hq rfl
  | noPort ha | add config port ha | drop port ha
  | remove port ha => exact h.put ha rfl (fun _ => rfl) fun q hz => .inr ⟨hz, nofun⟩
  | inUse config port ha hused =>
    refine h.put ha rfl (fun _ => rfl) fun q hz => .inr ⟨hz, ?_⟩
    rintro heq
    cases heq
    exact hused hz
  | release port used ha hrelease =>
    obtain ⟨hother, hself, hne⟩ := UsedPorts.releasePort_count hrelease (h.held ha (beq_self_eq_true port))
    refine h.put ha rfl (fun q => ?_) fun q hz => ?_
    · show used.count q + (if (port == q) = true then 1 else 0) = s.usedPorts.count q + 0
      by_cases hq : q = port
      · subst hq
        simp [hself]
      · have hsame : used.count q = s.usedPorts.count q := congrArg (·.getD 0) (hother q hq)
        simp [Ne.symm hq, hsame]
    · have hq : q ≠ port := by
        rintro rfl
        exact hne hz
      exact .inr ⟨(hother q hq).symm.trans hz, nofun⟩

theorem bindSocket (config : BindPortConfig) : Accounted (s.bindSocket config) where
  count port := by
    have hcount := h.count port
    unfold Iface.holders at hcount ⊢
    unfold Iface.bindSocket
    rw [countP_append]
    cases config <;> exact hcount
  zero port hz := by
    obtain ⟨i, hi⟩ := h.zero port hz
    refine ⟨i, ?_⟩
    unfold Iface.bindSocket
    rw [List.getElem?_append_left (List.getElem?_eq_some_iff.mp hi).1]
    exact hi

theorem run {op : Op} (hrun : op.run p s = some t) : Accounted t := by
  cases op with
  | bindSocket config =>
    cases hrun
    exact h.bindSocket config
  | next i => exact h.moved (Iface.next_moved hrun)
  | drop i => exact h.moved (p := p) (Iface.drop_moved hrun)

end

end Accounted

/-- A bind to a fixed port does not meet a port that an ephemeral bind has reserved. -/
def Op.Unreserved (s : Iface) : Op → Prop
  | .next i => ∀ config port, s.sockets[i]? = some (.binding config port) → config ≠ .ephemeral →
    s.usedPorts.get? port ≠ some 0
  | _ => True

namespace Reserved

theorem new : Reserved .new where
  zero _ _ h := by cases h
  apart _ _ _ _ _ h := by cases h

section

variable (h : Reserved s)
include h

/-- A step sets one socket, and the entries of ephemeral binds stay. -/
theorem put {a b : Socket} (ha : s.sockets[i]? = some a) (hsockets : t.sockets = s.sockets.set i b)
    (hzero : ∀ (j port : Nat), j ≠ i → s.sockets[j]? = some (.binding .ephemeral port) →
      s.usedPorts.get? port = some 0 → t.usedPorts.get? port = some 0)
    (hself : ∀ port, b = .binding .ephemeral port → t.usedPorts.get? port = some 0)
    (hgot : ∀ port, b.got = some port → a.got = some port ∨
      ∀ (j : Nat) c, s.sockets[j]? = some c → c.got ≠ some port) : Reserved t where
  zero j port hj := by
    rw [hsockets] at hj
    by_cases hji : j = i
    · subst hji
      rw [List.getElem?_set_self (List.getElem?_eq_some_iff.mp ha).1] at hj
      exact hself port (Option.some.inj hj)
    · rw [getElem?_set_ne (Ne.symm hji)] at hj
      exact hzero j port hji hj (h.zero j port hj)
  apart j k c d port hj hk hc hd := by
    rw [hsockets] at hj hk
    have hlt := (List.getElem?_eq_some_iff.mp ha).1
    -- the socket that is set has the port it had, or one that nobody else has
    have hnone : ∀ {k : Nat} {d : Socket}, k ≠ i → (s.sockets.set i b)[k]? = some d → d.got = some port →
        b.got = some port → k = i := by
      intro k d hki hk hd hb
      rw [getElem?_set_ne (Ne.symm hki)] at hk
      rcases hgot port hb with hold | hfresh
      · exact h.apart k i d a port hk ha hd hold
      · exact absurd hd (hfresh k d hk)
    by_cases hji : j = i
    · subst hji
      rw [getElem?_set_self hlt] at hj
      cases hj
      by_cases hkj : k = j
      · exact hkj.symm
      · exact (hnone hkj hk hd hc).symm
    · by_cases hki : k = i
      · subst hki
        rw [getElem?_set_self hlt] at hk
        cases hk
        exact hnone hji hj hc hd
      · rw [getElem?_set_ne (Ne.symm hji)] at hj
        rw [getElem?_set_ne (Ne.symm hki)] at hk
        exact h.apart j k c d port hj hk hc hd

theorem entry (hcounts : Accounted s) {c : Socket} (hc : s.sockets[i]? = some c)
    (hgot : c.got = some port) : s.usedPorts.get? port ≠ none := by
  intro hnone
  cases c with
  | binding config q =>
    cases config with
    | ephemeral =>
      cases hgot
      rw [h.zero i _ hc] at hnone
      cases hnone
    | canReuse _ | specified _ => cases hgot
  | adding config q =>
    cases config with
    | ephemeral =>
      cases hgot
      have hheld := hcounts.held hc (beq_self_eq_true _)
      rw [UsedPorts.count_of_none hnone] at hheld
      exact lt_irrefl _ hheld
    | canReuse _ | specified _ => cases hgot
  | _ => cases hgot

/-- **The reservations after a critical section** that does not bind a reserved fixed port. -/
theorem moved (hcounts : Accounted s) (hcond : (Op.next i).Unreserved s) (hmoved : Moved p i s t) : Reserved t := by
  cases hmoved with
  | alloc port ha hfree =>
    refine h.put ha rfl (fun j q _ _ hz => ?_) (fun q heq => ?_) fun q hgot => .inr fun j c hc hcgot => ?_
    · have hq : q ≠ port := by
        rintro rfl
        rw [hfree] at hz
        cases hz
      exact (BTreeMap.get?_insert_ne _ _ hq).trans hz
    · cases heq
      exact BTreeMap.get?_insert_self ..
    · cases hgot
      exact h.entry hcounts hc hcgot hfree
  | bind config port ha _ =>
    refine h.put ha rfl (fun j q hji hj hz => ?_) nofun fun q hgot => .inl ?_
    · have hq : q ≠ port := by
        rintro rfl
        by_cases hconfig : config = .ephemeral
        · subst hconfig
          exact hji (h.apart j i _ _ q hj ha rfl rfl)
        · exact hcond config q ha hconfig hz
      exact (BTreeMap.get?_insert_ne _ _ hq).trans hz
    · cases config with
      | ephemeral => exact hgot
      | canReuse _ | specified _ => cases hgot
  | noPort ha | inUse config port ha _ | add config port ha | drop port ha
  | remove port ha => exact h.put ha rfl (fun _ _ _ _ hz => hz) nofun nofun
  | release port used ha hrelease =>
    have hheld := hcounts.held ha (beq_self_eq_true port)
    obtain ⟨hother, -, -⟩ := UsedPorts.releasePort_count hrelease hheld
    refine h.put ha rfl (fun j q _ _ hz => ?_) nofun nofun
    have hq : q ≠ port := by
      rintro rfl
      rw [UsedPorts.count_of_get? hz] at hheld
      exact lt_irrefl _ hheld
    exact (hother q hq).trans hz

theorem bindSocket (config : BindPortConfig) : Reserved (s.bindSocket config) := by
  -- the new call has not got a port
  have hold : ∀ {j : Nat} {c : Socket}, (s.bindSocket config).sockets[j]? = some c →
      (c.got ≠ none ∨ ∃ port, c = .binding .ephemeral port) → s.sockets[j]? = some c := by
    intro j c hj hc
    unfold Iface.bindSocket at hj
    rw [getElem?_append] at hj
    split at hj
    · exact hj
    · have hmem := mem_of_getElem? hj
      rw [mem_singleton] at hmem
      subst hmem
      cases config <;> simp [BindPortConfig.port, Socket.got] at hc
  exact {
    zero j port hj := h.zero j port (hold hj (.inr ⟨port, rfl⟩))
    apart j k c d port hj hk hc hd :=
      h.apart j k c d port (hold hj (.inl (hc ▸ nofun))) (hold hk (.inl (hd ▸ nofun))) hc hd }

theorem run (hcounts : Accounted s) {op : Op} (hcond : op.Unreserved s) (hrun : op.run p s = some t) : Reserved t := by
  cases op with
  | bindSocket config =>
    cases hrun
    exact h.bindSocket config
  | next i => exact h.moved hcounts hcond (Iface.next_moved hrun)
  | drop i =>
    refine h.moved (p := p) hcounts (fun config port hbinding _ => ?_) (Iface.drop_moved hrun)
    have hbound : s.drop i = some t := hrun
    unfold Iface.drop at hbound
    rw [hbinding] at hbound
    cases hbound

end

end Reserved

theorem Reached.reserved (h : Reached p (fun s op => op.Unreserved s) s) : Accounted s ∧ Reserved s := by
  refine Run.invariant (I := fun s => Accounted s ∧ Reserved s) ⟨.new, .new⟩ ?_ h
  intro s op t hs hcond hrun
  exact ⟨hs.1.run hrun, hs.2.run hs.1 hcond hrun⟩

/-- **Port accounting**: as long as no fixed port that is bound is reserved, the count of a port is the number of sockets
that hold it, an entry with the count zero is that of an ephemeral bind in progress, a bind without reuse succeeds only
for a port that nobody holds, ephemeral binds in progress have got different ports, and a port that is released has a
count. -/
theorem ports_accounted {p : Profile} {s : Iface} (h : Reached p (fun s op => op.Unreserved s) s) :
    (∀ port n, s.usedPorts.get? port = some n → n = s.holders port) ∧
    (∀ port, s.usedPorts.get? port = none → s.holders port = 0) ∧
    (∀ port, s.usedPorts.get? port = some 0 → ∃ i : Nat, s.sockets[i]? = some (.binding .ephemeral port)) ∧
    (∀ (i : Nat) config port t, s.sockets[i]? = some (.binding config port) → config.reuses = false →
      s.next p i = some t → t.sockets[i]? = some (.adding config port) → s.holders port = 0) ∧
    (∀ (i j : Nat) (a b : Socket) (port : Nat), s.sockets[i]? = some a → s.sockets[j]? = some b →
      a.got = some port → b.got = some port → i = j) ∧
    (∀ (i : Nat) port, s.sockets[i]? = some (.dropping port) →
      ∃ n, s.usedPorts.get? port = some (n + 1) ∧ (s.next p i).isSome = true) := by
  obtain ⟨hcounts, hreserved⟩ := Reached.reserved h
  refine ⟨fun port n hn => ?_, fun port hnone => ?_, hcounts.zero, fun i config port t hi hreuse hnext ht => ?_,
    hreserved.apart, fun i port hi => ?_⟩
  · rw [← hcounts.count, UsedPorts.count_of_get? hn]
  · rw [← hcounts.count, UsedPorts.count_of_none hnone]
  · rw [← hcounts.count]
    unfold Iface.next at hnext
    rw [hi] at hnext
    dsimp only at hnext
    cases hbind : UsedPorts.bindPort port config.reuses s.usedPorts with
    | ok used => exact (UsedPorts.bindPort_ok hbind).2 hreuse
    | error e =>
      rw [hbind] at hnext
      cases hnext
      rw [Iface.setSocket_self hi] at ht
      cases ht
  · obtain ⟨n, hn⟩ := Nat.exists_eq_add_one_of_ne_zero
      (Nat.pos_iff_ne_zero.mp (hcounts.held hi (beq_self_eq_true port)))
    have hget := UsedPorts.get?_of_count hn
    obtain ⟨used, hrelease, -⟩ := UsedPorts.releasePort_some (p := p) hget
    refine ⟨n, hget, ?_⟩
    unfold Iface.next
    rw [hi]
    dsimp only
    rw [hrelease]
    rfl

/-- An ephemeral bind has got the port 49152 and claims it. -/
def claimed : Iface := ⟨BTreeMap.empty.insert 49152 1, .empty, [.adding .ephemeral 49152]⟩

theorem ports_accounted_claimed : Reached .dev (fun s op => op.Unreserved s) claimed ∧ claimed.holders 49152 = 1 := by
  have hstart : Reached .dev (fun s op => op.Unreserved s) ⟨.empty, .empty, [.allocating]⟩ :=
    Run.start.next (.bindSocket .ephemeral) trivial rfl
  have hgot : Reached .dev (fun s op => op.Unreserved s) ⟨BTreeMap.empty.insert 49152 0, .empty,
      [.binding .ephemeral 49152]⟩ :=
    hstart.next (.next 0) (fun config port hb => by cases hb) rfl
  have hclaimed : Reached .dev (fun s op => op.Unreserved s) claimed :=
    hgot.next (.next 0) (fun config port hb hne => by cases hb; exact absurd rfl hne) rfl
  exact ⟨hclaimed, ((ports_accounted hclaimed).1 49152 1 rfl).symm⟩

/-- A socket that is bound to the port of an ephemeral bind in progress and dropped, and another ephemeral bind. -/
def bindBetween : List Op :=
  [.bindSocket .ephemeral, .next 0, .bindSocket (.specified 49152), .next 1, .next 1, .drop 1, .next 1,
    .bindSocket .ephemeral, .next 2]

def boundBetween : Iface := (steps (Op.run .dev) bindBetween .new).getD .new

/-- **Two ephemeral binds in progress get one port.** -/
theorem ephemeral_shared : Reached .dev (fun _ _ => True) boundBetween ∧
    boundBetween.sockets = [.binding .ephemeral 49152, .released 49152, .binding .ephemeral 49152] := by
  have hsteps : steps (Op.run .dev) bindBetween .new = some boundBetween := rfl
  exact ⟨Run.start.stepsAny hsteps, rfl⟩

end AsterKernel.Net
