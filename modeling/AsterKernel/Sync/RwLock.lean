import AsterKernel.Lib.Bits
import AsterKernel.Lib.Reach
import AsterKernel.Lib.Threads
import AsterKernel.Lib.Usize

/-!
# `Sync.RwLock` — the lock word of `RwLock` and `RwMutex`

Both locks keep one atomic word: bit 63 for a writer, bit 62 for an upgradeable reader, bit 61 for an upgrade in
progress, the rest counts readers. Any number of threads act on it, each holding any number of guards and being
in at most one operation. An action is one atomic access of the word together with what the thread concludes
from it; an attempt that has failed but still has to take its bits back is a state of its own (`Pc`).

The methods that disable interrupts access the word in the same way; `read`, `write` and `upread` repeat the
attempts.
-/

namespace AsterKernel.Sync

open Lib Option

def READER : Nat := 1
def WRITER : Nat := 2 ^ 63
def UPGRADEABLE_READER : Nat := 2 ^ 62
def BEING_UPGRADED : Nat := 2 ^ 61
def MAX_READER : Nat := 2 ^ 60

/-- The guards: `RwLockReadGuard`, `RwLockWriteGuard`, `RwLockUpgradeableGuard`. -/
inductive Guard where
  | read
  | write
  | upgradeable
deriving DecidableEq, Repr

/-- What a thread has to do next with the word. -/
inductive Pc where
  | idle
  /-- `try_read` has failed and takes its reader back. -/
  | undoRead
  /-- `try_upread` has met a writer and takes its bit back. -/
  | undoUpread
  /-- `upgrade` spins in `try_upgrade`. -/
  | upgrading
  /-- `try_upgrade` has succeeded and drops the upgradeable guard. -/
  | upgraded
deriving DecidableEq, Repr

/-- The guards that a thread holds, and the operation it is in. -/
structure Thread where
  guards : List Guard
  pc : Pc
deriving DecidableEq, Repr

namespace Thread

def push (t : Thread) (g : Guard) : Thread := { t with guards := g :: t.guards }

/-- `try_read`: the `fetch_add`. -/
def tryRead (lock : Nat) (t : Thread) : Nat × Thread :=
  if lock &&& (WRITER ||| (MAX_READER ||| BEING_UPGRADED)) == 0 then (wadd lock READER, t.push .read)
  else (wadd lock READER, { t with pc := .undoRead })

/-- `try_write`: the `compare_exchange`. -/
def tryWrite (lock : Nat) (t : Thread) : Nat × Thread :=
  if lock == 0 then (WRITER, t.push .write) else (lock, t)

/-- `try_upread`: the `fetch_or`. -/
def tryUpread (lock : Nat) (t : Thread) : Nat × Thread :=
  if lock &&& (WRITER ||| UPGRADEABLE_READER) == 0 then (lock ||| UPGRADEABLE_READER, t.push .upgradeable)
  else if lock &&& (WRITER ||| UPGRADEABLE_READER) == WRITER then
    (lock ||| UPGRADEABLE_READER, { t with pc := .undoUpread })
  else (lock ||| UPGRADEABLE_READER, t)

/-- The new word when a guard is dropped. -/
def dropWord (lock : Nat) : Guard → Nat
  | .read => wsub lock READER
  | .write => lock &&& (usizeCard - 1 - WRITER)
  | .upgradeable => wsub lock UPGRADEABLE_READER

/-- The `compare_exchange` of `try_upgrade` succeeds. -/
def canUpgrade (lock : Nat) : Bool := lock == UPGRADEABLE_READER ||| BEING_UPGRADED

/-- The rest of an operation. -/
def resume (lock : Nat) (t : Thread) : Option (Nat × Thread) :=
  match t.pc with
  | .idle => none
  | .undoRead => some (wsub lock READER, { t with pc := .idle })
  | .undoUpread => some (wsub lock UPGRADEABLE_READER, { t with pc := .idle })
  | .upgrading =>
    if canUpgrade lock then some (WRITER ||| UPGRADEABLE_READER, { t with pc := .upgraded }) else some (lock, t)
  | .upgraded => some (wsub lock UPGRADEABLE_READER, { guards := .write :: t.guards, pc := .idle })

end Thread

/-- The next atomic action of a thread. A guard is named by its place in the list of the thread's guards. -/
inductive Action where
  | tryRead
  | tryWrite
  | tryUpread
  | drop (j : Nat)
  | upgrade (j : Nat)
  | tryUpgrade (j : Nat)
  | resume
deriving DecidableEq, Repr

namespace Thread

/-- One atomic action: the new word and the new state of the thread, if the action is possible. -/
def act (a : Action) (lock : Nat) (t : Thread) : Option (Nat × Thread) :=
  match a with
  | .resume => t.resume lock
  | .tryRead => if t.pc = .idle then some (t.tryRead lock) else none
  | .tryWrite => if t.pc = .idle then some (t.tryWrite lock) else none
  | .tryUpread => if t.pc = .idle then some (t.tryUpread lock) else none
  | .drop j =>
    if t.pc = .idle then
      (t.guards[j]?).map fun g => (dropWord lock g, { t with guards := t.guards.eraseIdx j })
    else none
  | .upgrade j =>
    if t.pc = .idle ∧ t.guards[j]? = some .upgradeable then
      some (lock ||| BEING_UPGRADED, { guards := t.guards.eraseIdx j, pc := .upgrading })
    else none
  | .tryUpgrade j =>
    if t.pc = .idle ∧ t.guards[j]? = some .upgradeable then
      if canUpgrade lock then
        some (WRITER ||| UPGRADEABLE_READER, { guards := t.guards.eraseIdx j, pc := .upgraded })
      else some (lock, t)
    else none

end Thread

/-- The lock word and the threads. -/
structure RwState where
  lock : Nat
  threads : List Thread
deriving DecidableEq, Repr

/-- One thread makes an atomic action. -/
def RwState.Step (s t : RwState) : Prop :=
  ∃ (i : Nat) (a : Action) (th th' : Thread) (lock' : Nat), s.threads[i]? = some th ∧
    th.act a s.lock = some (lock', th') ∧ t = ⟨lock', s.threads.set i th'⟩

/-- A new lock: nobody holds a guard. -/
def RwState.Initial (s : RwState) : Prop := s.lock = 0 ∧ ∀ th ∈ s.threads, th = ⟨[], .idle⟩

/-! ## The bits of the word -/

/-- The word of `n` readers, an upgrade in progress if `b`, an upgradeable reader if `u`, a writer if `k`. -/
structure Word (lock n b u k : Nat) : Prop where
  eq : lock = n + 2 ^ 61 * b + 2 ^ 62 * u + 2 ^ 63 * k
  readers : n < 2 ^ 61
  being : b ≤ 1
  upper : u ≤ 1
  writer : k ≤ 1

namespace Word

variable {lock n b u k : Nat}

section

variable (h : Word lock n b u k)
include h

theorem bit_writer : lock / 2 ^ 63 % 2 = k := by
  obtain ⟨heq, h1, h2, h3, h4⟩ := h
  omega

theorem bit_upper : lock / 2 ^ 62 % 2 = u := by
  obtain ⟨heq, h1, h2, h3, h4⟩ := h
  omega

theorem bit_being : lock / 2 ^ 61 % 2 = b := by
  obtain ⟨heq, h1, h2, h3, h4⟩ := h
  omega

theorem lt : lock < usizeCard := by
  obtain ⟨heq, h1, h2, h3, h4⟩ := h
  unfold usizeCard
  omega

/-- What a successful `try_read` has seen. -/
theorem of_read (ht : lock &&& (WRITER ||| (MAX_READER ||| BEING_UPGRADED)) = 0) : k = 0 ∧ b = 0 ∧ n < 2 ^ 60 := by
  rw [and_or_eq_zero, and_or_eq_zero] at ht
  have h1 := and_two_pow_eq_zero.mp ht.1
  have h2 := and_two_pow_eq_zero.mp ht.2.2
  have h3 := and_two_pow_eq_zero.mp ht.2.1
  rw [h.bit_writer] at h1
  rw [h.bit_being] at h2
  obtain ⟨heq, hr, hb, hu, hk⟩ := h
  exact ⟨h1, h2, by omega⟩

theorem of_upread (ht : lock &&& (WRITER ||| UPGRADEABLE_READER) = 0) : k = 0 ∧ u = 0 := by
  rw [and_or_eq_zero] at ht
  have h1 := and_two_pow_eq_zero.mp ht.1
  have h2 := and_two_pow_eq_zero.mp ht.2
  rw [h.bit_writer] at h1
  rw [h.bit_upper] at h2
  exact ⟨h1, h2⟩

theorem of_upread_writer (ht : lock &&& (WRITER ||| UPGRADEABLE_READER) = WRITER) : u = 0 := by
  by_contra hu
  refine and_or_ne_of_set (i := 63) (j := 62) (by decide) ?_ ht
  rw [h.bit_upper]
  have := h.upper
  omega

theorem of_upread_upper (h0 : lock &&& (WRITER ||| UPGRADEABLE_READER) ≠ 0)
    (h1 : lock &&& (WRITER ||| UPGRADEABLE_READER) ≠ WRITER) : u = 1 := by
  by_contra hu
  have hclear : lock / 2 ^ 62 % 2 = 0 := by
    rw [h.bit_upper]
    have := h.upper
    omega
  rw [UPGRADEABLE_READER, and_or_of_clear hclear] at h0 h1
  have hbit := h.bit_writer
  by_cases hk0 : k = 0
  · exact h0 (and_two_pow_eq_zero.mpr (by omega))
  · exact h1 (and_two_pow_of_set (by omega))

theorem or_upper : lock ||| UPGRADEABLE_READER = if u = 0 then lock + 2 ^ 62 else lock := by
  have hbit := h.bit_upper
  split
  · exact or_two_pow_of_clear (by omega)
  · exact or_two_pow_of_set (by omega)

theorem or_being (hb : b = 0) : lock ||| BEING_UPGRADED = lock + 2 ^ 61 :=
  or_two_pow_of_clear (h.bit_being.trans hb)

theorem and_not_writer (hk : k = 1) : lock &&& (usizeCard - 1 - WRITER) = lock - 2 ^ 63 := by
  have hmask : usizeCard - 1 - WRITER = 2 ^ 63 - 1 := by decide
  obtain ⟨heq, h1, h2, h3, h4⟩ := h
  rw [hmask, Nat.and_two_pow_sub_one_eq_mod]
  omega

theorem of_upgrade (hc : Thread.canUpgrade lock = true) : n = 0 ∧ b = 1 ∧ u = 1 ∧ k = 0 := by
  have hlock : lock = 2 ^ 62 + 2 ^ 61 := by
    rw [Thread.canUpgrade, beq_iff_eq] at hc
    exact hc.trans (by decide)
  obtain ⟨heq, h1, h2, h3, h4⟩ := h
  omega

end

end Word

/-! ## What an action does -/

variable {t t' : Thread}

namespace Thread

/-- The possible actions, with what the thread has seen in the word. -/
inductive Acts (lock : Nat) (t : Thread) : Nat → Thread → Prop where
  | nothing : Acts lock t lock t
  | read (idle : t.pc = .idle) (seen : lock &&& (WRITER ||| (MAX_READER ||| BEING_UPGRADED)) = 0) :
      Acts lock t (wadd lock READER) (t.push .read)
  | readFails (idle : t.pc = .idle) : Acts lock t (wadd lock READER) { t with pc := .undoRead }
  | undoRead (pc : t.pc = .undoRead) : Acts lock t (wsub lock READER) { t with pc := .idle }
  | write (idle : t.pc = .idle) (seen : lock = 0) : Acts lock t WRITER (t.push .write)
  | upread (idle : t.pc = .idle) (seen : lock &&& (WRITER ||| UPGRADEABLE_READER) = 0) :
      Acts lock t (lock ||| UPGRADEABLE_READER) (t.push .upgradeable)
  | upreadMeetsWriter (idle : t.pc = .idle) (seen : lock &&& (WRITER ||| UPGRADEABLE_READER) = WRITER) :
      Acts lock t (lock ||| UPGRADEABLE_READER) { t with pc := .undoUpread }
  | upreadMeetsUpper (seen : lock &&& (WRITER ||| UPGRADEABLE_READER) ≠ 0)
      (seen' : lock &&& (WRITER ||| UPGRADEABLE_READER) ≠ WRITER) : Acts lock t (lock ||| UPGRADEABLE_READER) t
  | undoUpread (pc : t.pc = .undoUpread) : Acts lock t (wsub lock UPGRADEABLE_READER) { t with pc := .idle }
  | drop (idle : t.pc = .idle) (j : Nat) (g : Guard) (held : t.guards[j]? = some g) :
      Acts lock t (dropWord lock g) { t with guards := t.guards.eraseIdx j }
  | upgrade (idle : t.pc = .idle) (j : Nat) (held : t.guards[j]? = some .upgradeable) :
      Acts lock t (lock ||| BEING_UPGRADED) ⟨t.guards.eraseIdx j, .upgrading⟩
  | tryUpgrade (idle : t.pc = .idle) (j : Nat) (held : t.guards[j]? = some .upgradeable)
      (seen : canUpgrade lock = true) : Acts lock t (WRITER ||| UPGRADEABLE_READER) ⟨t.guards.eraseIdx j, .upgraded⟩
  | upgradeSucceeds (pc : t.pc = .upgrading) (seen : canUpgrade lock = true) :
      Acts lock t (WRITER ||| UPGRADEABLE_READER) { t with pc := .upgraded }
  | upgradeEnds (pc : t.pc = .upgraded) : Acts lock t (wsub lock UPGRADEABLE_READER) ⟨.write :: t.guards, .idle⟩

variable {lock lock' : Nat} {a : Action}

theorem resume_acts (h : t.resume lock = some (lock', t')) : t.Acts lock lock' t' := by
  unfold resume at h
  split at h
  case h_1 => cases h
  case h_2 hpc =>
    obtain ⟨rfl, rfl⟩ := Prod.mk.inj (some.inj h)
    exact .undoRead hpc
  case h_3 hpc =>
    obtain ⟨rfl, rfl⟩ := Prod.mk.inj (some.inj h)
    exact .undoUpread hpc
  case h_4 hpc =>
    split at h
    case isTrue hc => cases h; exact .upgradeSucceeds hpc hc
    case isFalse => cases h; exact .nothing
  case h_5 hpc =>
    obtain ⟨rfl, rfl⟩ := Prod.mk.inj (some.inj h)
    exact .upgradeEnds hpc

/-- **What one atomic action does.** -/
theorem act_cases (h : t.act a lock = some (lock', t')) : t.Acts lock lock' t' := by
  cases a with
  | resume => exact resume_acts h
  | tryRead =>
    obtain ⟨hidle, heq⟩ := ite_none_right_eq_some.mp h
    unfold Thread.tryRead at heq
    split at heq
    case isTrue hs => cases heq; exact .read hidle (beq_iff_eq.mp hs)
    case isFalse => cases heq; exact .readFails hidle
  | tryWrite =>
    obtain ⟨hidle, heq⟩ := ite_none_right_eq_some.mp h
    unfold Thread.tryWrite at heq
    split at heq
    case isTrue hs => cases heq; exact .write hidle (beq_iff_eq.mp hs)
    case isFalse => cases heq; exact .nothing
  | tryUpread =>
    obtain ⟨hidle, heq⟩ := ite_none_right_eq_some.mp h
    unfold Thread.tryUpread at heq
    split at heq
    case isTrue hs => cases heq; exact .upread hidle (beq_iff_eq.mp hs)
    case isFalse h0 =>
      split at heq
      case isTrue hs => cases heq; exact .upreadMeetsWriter hidle (beq_iff_eq.mp hs)
      case isFalse h1 =>
        cases heq
        exact .upreadMeetsUpper (fun e => h0 (beq_iff_eq.mpr e)) (fun e => h1 (beq_iff_eq.mpr e))
  | drop j =>
    obtain ⟨hidle, heq⟩ := ite_none_right_eq_some.mp h
    obtain ⟨g, hg, heq⟩ := map_eq_some_iff.mp heq
    cases heq
    exact .drop hidle j g hg
  | upgrade j =>
    obtain ⟨⟨hidle, hg⟩, heq⟩ := ite_none_right_eq_some.mp h
    cases heq
    exact .upgrade hidle j hg
  | tryUpgrade j =>
    obtain ⟨⟨hidle, hg⟩, heq⟩ := ite_none_right_eq_some.mp h
    split at heq
    case isTrue hc => cases heq; exact .tryUpgrade hidle j hg hc
    case isFalse => cases heq; exact .nothing

theorem dropWord_lt (h : lock < usizeCard) (g : Guard) : dropWord lock g < usizeCard := by
  cases g with
  | read | upgradeable => exact wsub_lt _ _
  | write => exact lt_of_le_of_lt Nat.and_le_left h

theorem Acts.lt (ha : t.Acts lock lock' t') (h : lock < usizeCard) : lock' < usizeCard := by
  have hup : lock ||| UPGRADEABLE_READER < usizeCard := Nat.or_lt_two_pow h (by decide)
  have hbeing : lock ||| BEING_UPGRADED < usizeCard := Nat.or_lt_two_pow h (by decide)
  cases ha with
  | nothing => exact h
  | read | readFails => exact wadd_lt _ _
  | undoRead | undoUpread | upgradeEnds => exact wsub_lt _ _
  | write => decide
  | upread | upreadMeetsWriter | upreadMeetsUpper => exact hup
  | drop idle j g held => exact dropWord_lt h g
  | upgrade => exact hbeing
  | tryUpgrade | upgradeSucceeds => decide

end Thread

/-- The guard that an operation in progress has: an upgrade keeps the upgradeable guard until it has the writer
bit. -/
def Pc.live : Pc → List Guard
  | .upgrading => [.upgradeable]
  | .upgraded => [.write]
  | _ => []

def Thread.live (t : Thread) : List Guard := t.guards ++ t.pc.live

/-- The bits of a guard in the word. -/
def Guard.bits : Guard → Nat
  | .read => READER
  | .write => WRITER
  | .upgradeable => UPGRADEABLE_READER

/-- The bits of an attempt in progress: what it has put into the word beyond the bits of live guards. -/
def Pc.bits : Pc → Nat
  | .idle => 0
  | .undoRead => READER
  | .undoUpread => UPGRADEABLE_READER
  | .upgrading => BEING_UPGRADED
  | .upgraded => UPGRADEABLE_READER

namespace Thread

/-- The bits of the live guards of a thread and of its attempt in progress. -/
def bits (t : Thread) : Nat := (t.live.map Guard.bits).sum + t.pc.bits

def reads (t : Thread) : Nat := t.live.count .read
def writes (t : Thread) : Nat := t.live.count .write
def uppers (t : Thread) : Nat := t.live.count .upgradeable

def readTries (t : Thread) : Nat := if t.pc = .undoRead then 1 else 0
def upperTries (t : Thread) : Nat := if t.pc = .undoUpread ∨ t.pc = .upgraded then 1 else 0
def beings (t : Thread) : Nat := if t.pc = .upgrading then 1 else 0

theorem sum_bits (l : List Guard) : (l.map Guard.bits).sum =
    l.count .read + 2 ^ 62 * l.count .upgradeable + 2 ^ 63 * l.count .write := by
  induction l with
  | nil => rfl
  | cons g l ih =>
    simp only [List.map_cons, List.sum_cons, List.count_cons, ih]
    cases g <;> simp [Guard.bits, READER, WRITER, UPGRADEABLE_READER] <;> omega

theorem bits_eq (t : Thread) : t.bits =
    (t.reads + t.readTries) + 2 ^ 61 * t.beings + 2 ^ 62 * (t.uppers + t.upperTries) + 2 ^ 63 * t.writes := by
  unfold bits reads writes uppers readTries upperTries beings
  rw [sum_bits]
  cases t.pc <;> simp [Pc.bits, READER, UPGRADEABLE_READER, BEING_UPGRADED] <;> omega

theorem beings_le (t : Thread) : t.beings ≤ t.uppers := by
  unfold beings uppers live
  split
  case isTrue h => simp [h, Pc.live]
  case isFalse => omega

theorem readTries_le (t : Thread) : t.readTries ≤ 1 := by
  unfold readTries
  split <;> omega

theorem count_live (t : Thread) (g : Guard) : t.live.count g = t.guards.count g + t.pc.live.count g :=
  List.count_append

end Thread

/-- The lock word is made of the bits held, and a writer excludes all other guards: `r` live read guards and `rt`
attempts to read, `b` upgrades in progress, `u` upgradeable guards and `ut` attempts, `k` write guards. -/
structure Held (lock r rt b u ut k : Nat) : Prop where
  word : Word lock (r + rt) b (u + ut) k
  alone : 0 < k → r = 0 ∧ u = 0
  being : b ≤ u
  /-- `try_read` lets no more readers in. -/
  few : r ≤ 2 ^ 60

namespace Held

variable {lock r rt b u ut k : Nat}

theorem read (h : Held lock r rt b u ut k) (seen : lock &&& (WRITER ||| (MAX_READER ||| BEING_UPGRADED)) = 0) :
    Held (wadd lock READER) (r + 1) rt b u ut k := by
  obtain ⟨hk0, hb0, hlt⟩ := h.word.of_read seen
  obtain ⟨⟨heq, hr, hb, hu, hk⟩, halone, hbe, hfew⟩ := h
  have hword : wadd lock READER = lock + 1 := wadd_of_lt (by unfold usizeCard READER; omega)
  exact ⟨⟨by omega, by omega, hb, hu, hk⟩, by omega, hbe, by omega⟩

theorem readTry (h : Held lock r rt b u ut k) (hcount : rt + 1 < 2 ^ 60) :
    Held (wadd lock READER) r (rt + 1) b u ut k := by
  obtain ⟨⟨heq, hr, hb, hu, hk⟩, halone, hbe, hfew⟩ := h
  have hword : wadd lock READER = lock + 1 := wadd_of_lt (by unfold usizeCard READER; omega)
  exact ⟨⟨by omega, by omega, hb, hu, hk⟩, halone, hbe, hfew⟩

/-- A read guard goes, or an attempt to read. -/
theorem dropRead {r' rt' : Nat} (h : Held lock r' rt' b u ut k) (hone : r' + rt' = r + rt + 1) (hle : r ≤ r') :
    Held (wsub lock READER) r rt b u ut k := by
  have hlt := h.word.lt
  obtain ⟨⟨heq, hr, hb, hu, hk⟩, halone, hbe, hfew⟩ := h
  have hword : wsub lock READER = lock - 1 := wsub_of_le (by unfold READER; omega) hlt
  exact ⟨⟨by omega, by omega, hb, hu, hk⟩, by omega, hbe, by omega⟩

theorem write (h : Held 0 r rt b u ut k) : Held WRITER r rt b u ut (k + 1) := by
  obtain ⟨⟨heq, hr, hb, hu, hk⟩, halone, hbe, hfew⟩ := h
  exact ⟨⟨by unfold WRITER; omega, hr, hb, hu, by omega⟩, by omega, hbe, hfew⟩

theorem dropWrite (h : Held lock r rt b u ut (k + 1)) : Held (lock &&& (usizeCard - 1 - WRITER)) r rt b u ut k := by
  have hk0 := h.word.writer
  have hword := h.word.and_not_writer (by omega)
  obtain ⟨⟨heq, hr, hb, hu, hk⟩, halone, hbe, hfew⟩ := h
  exact ⟨⟨by omega, hr, hb, hu, by omega⟩, by omega, hbe, hfew⟩

section

variable (h : Held lock r rt b u ut k)
include h

theorem upread (seen : lock &&& (WRITER ||| UPGRADEABLE_READER) = 0) :
    Held (lock ||| UPGRADEABLE_READER) r rt b (u + 1) ut k := by
  obtain ⟨hk0, hu0⟩ := h.word.of_upread seen
  have hword := h.word.or_upper
  rw [if_pos hu0] at hword
  obtain ⟨⟨heq, hr, hb, hu, hk⟩, halone, hbe, hfew⟩ := h
  exact ⟨⟨by omega, hr, hb, by omega, hk⟩, by omega, by omega, hfew⟩

theorem upreadTry (seen : lock &&& (WRITER ||| UPGRADEABLE_READER) = WRITER) :
    Held (lock ||| UPGRADEABLE_READER) r rt b u (ut + 1) k := by
  have hu0 := h.word.of_upread_writer seen
  have hword := h.word.or_upper
  rw [if_pos hu0] at hword
  obtain ⟨⟨heq, hr, hb, hu, hk⟩, halone, hbe, hfew⟩ := h
  exact ⟨⟨by omega, hr, hb, by omega, hk⟩, halone, hbe, hfew⟩

theorem upreadMeetsUpper (seen : lock &&& (WRITER ||| UPGRADEABLE_READER) ≠ 0)
    (seen' : lock &&& (WRITER ||| UPGRADEABLE_READER) ≠ WRITER) : Held (lock ||| UPGRADEABLE_READER) r
      rt b u ut k := by
  have hu1 := h.word.of_upread_upper seen seen'
  have hword := h.word.or_upper
  rw [if_neg (by omega)] at hword
  rwa [hword]

end

theorem dropUpper {u' ut' : Nat} (h : Held lock r rt b u' ut' k) (hone : u' + ut' = u + ut + 1)
    (hbe' : b ≤ u) : Held (wsub lock UPGRADEABLE_READER) r rt b u ut k := by
  have hlt := h.word.lt
  obtain ⟨⟨heq, hr, hb, hu, hk⟩, halone, hbe, hfew⟩ := h
  have hword : wsub lock UPGRADEABLE_READER = lock - 2 ^ 62 := wsub_of_le (by unfold UPGRADEABLE_READER; omega) hlt
  exact ⟨⟨by omega, hr, hb, by omega, hk⟩, by omega, hbe', hfew⟩

theorem upgrade (h : Held lock r rt b (u + 1) ut k) (hbe' : b ≤ u) :
    Held (lock ||| BEING_UPGRADED) r rt (b + 1) (u + 1) ut k := by
  have hu1 := h.word.upper
  have hword := h.word.or_being (by omega)
  obtain ⟨⟨heq, hr, hb, hu, hk⟩, halone, hbe, hfew⟩ := h
  exact ⟨⟨by omega, hr, by omega, hu, hk⟩, halone, by omega, hfew⟩

/-- The upgrade finds no reader, and the bit of the upgradeable guard becomes that of an attempt. -/
theorem upgraded (h : Held lock r rt (b + 1) (u + 1) ut k) (seen : Thread.canUpgrade lock = true) :
    Held (WRITER ||| UPGRADEABLE_READER) r rt b u (ut + 1) (k + 1) := by
  obtain ⟨hr0, hb1, hu1, hk0⟩ := h.word.of_upgrade seen
  rw [show WRITER ||| UPGRADEABLE_READER = 2 ^ 63 + 2 ^ 62 by decide]
  exact ⟨⟨by omega, by omega, by omega, by omega, by omega⟩, by omega, by omega, by omega⟩

theorem not_canUpgrade (h : Held lock r rt b (u + 1) ut k) (hbe' : b ≤ u) : ¬ Thread.canUpgrade lock = true := by
  intro seen
  obtain ⟨hr0, hb1, hu1, hk0⟩ := h.word.of_upgrade seen
  omega

end Held

namespace Thread

variable {lock lock' r rt b u ut k : Nat}

/-- What a thread holds, besides what the other threads hold. -/
def Holds (t : Thread) (lock r rt b u ut k : Nat) : Prop :=
  Held lock (r + t.reads) (rt + t.readTries) (b + t.beings) (u + t.uppers) (ut + t.upperTries) (k + t.writes)

theorem holds_iff : t.Holds lock r rt b u ut k ↔
    Held lock (r + (t.guards.count .read + t.pc.live.count .read)) (rt + if t.pc = .undoRead then 1 else 0)
      (b + if t.pc = .upgrading then 1 else 0) (u + (t.guards.count .upgradeable + t.pc.live.count .upgradeable))
      (ut + if t.pc = .undoUpread ∨ t.pc = .upgraded then 1 else 0)
      (k + (t.guards.count .write + t.pc.live.count .write)) := by
  simp only [Holds, reads, writes, uppers, count_live, readTries, upperTries, beings]

theorem holds_idle (h : t.pc = .idle) : t.Holds lock r rt b u ut k ↔
    Held lock (r + t.guards.count .read) rt b (u + t.guards.count .upgradeable) ut (k + t.guards.count .write) := by
  simp [holds_iff, h, Pc.live]

theorem holds_undoRead (h : t.pc = .undoRead) : t.Holds lock r rt b u ut k ↔
    Held lock (r + t.guards.count .read) (rt + 1) b (u + t.guards.count .upgradeable) ut
      (k + t.guards.count .write) := by
  simp [holds_iff, h, Pc.live]

theorem holds_undoUpread (h : t.pc = .undoUpread) : t.Holds lock r rt b u ut k ↔
    Held lock (r + t.guards.count .read) rt b (u + t.guards.count .upgradeable) (ut + 1)
      (k + t.guards.count .write) := by
  simp [holds_iff, h, Pc.live]

theorem holds_upgrading (h : t.pc = .upgrading) : t.Holds lock r rt b u ut k ↔
    Held lock (r + t.guards.count .read) rt (b + 1) (u + t.guards.count .upgradeable + 1) ut
      (k + t.guards.count .write) := by
  simp [holds_iff, h, Pc.live, add_assoc]

theorem holds_upgraded (h : t.pc = .upgraded) : t.Holds lock r rt b u ut k ↔
    Held lock (r + t.guards.count .read) rt b (u + t.guards.count .upgradeable) (ut + 1)
      (k + t.guards.count .write + 1) := by
  simp [holds_iff, h, Pc.live, add_assoc]

/-- A guard that is given up. -/
theorem holds_guard {j : Nat} {g : Guard} (h : t.pc = .idle) (hg : t.guards[j]? = some g) :
    t.Holds lock r rt b u ut k ↔
    Held lock (r + (t.guards.eraseIdx j).count .read + if g = .read then 1 else 0) rt b
      (u + (t.guards.eraseIdx j).count .upgradeable + if g = .upgradeable then 1 else 0) ut
      (k + (t.guards.eraseIdx j).count .write + if g = .write then 1 else 0) := by
  rw [holds_idle h]
  simp only [← count_eraseIdx_add hg, add_assoc]

theorem Acts.holds (ha : t.Acts lock lock' t') (h : t.Holds lock r rt b u ut k) (hbe : b ≤ u)
    (hcount : rt + t'.readTries < MAX_READER) : t'.Holds lock' r rt b u ut k := by
  cases ha with
  | nothing => exact h
  | read idle seen =>
    rw [holds_idle idle] at h
    simpa [holds_iff, idle, push, Pc.live, add_assoc] using h.read seen
  | readFails idle =>
    rw [holds_idle idle] at h
    exact (holds_undoRead rfl).mpr (h.readTry hcount)
  | undoRead pc =>
    rw [holds_undoRead pc] at h
    exact (holds_idle rfl).mpr (h.dropRead rfl le_rfl)
  | write idle seen =>
    subst seen
    rw [holds_idle idle] at h
    simpa [holds_iff, idle, push, Pc.live, add_assoc] using h.write
  | upread idle seen =>
    rw [holds_idle idle] at h
    simpa [holds_iff, idle, push, Pc.live, add_assoc] using h.upread seen
  | upreadMeetsWriter idle seen =>
    rw [holds_idle idle] at h
    exact (holds_undoUpread rfl).mpr (h.upreadTry seen)
  | upreadMeetsUpper seen seen' => exact Held.upreadMeetsUpper h seen seen'
  | undoUpread pc =>
    rw [holds_undoUpread pc] at h
    exact (holds_idle rfl).mpr (h.dropUpper rfl h.being)
  | drop idle j g held =>
    rw [holds_guard idle held] at h
    refine (holds_idle (t := { t with guards := t.guards.eraseIdx j }) idle).mpr ?_
    cases g with
    | read => exact h.dropRead (Nat.add_right_comm ..) (Nat.le_add_right ..)
    | write => exact h.dropWrite
    | upgradeable => exact h.dropUpper (Nat.add_right_comm ..) (by omega)
  | upgrade idle j held =>
    rw [holds_guard idle held] at h
    exact (holds_upgrading rfl).mpr (h.upgrade (by omega))
  | tryUpgrade idle j held seen =>
    rw [holds_guard idle held] at h
    exact absurd seen (h.not_canUpgrade (by omega))
  | upgradeSucceeds pc seen =>
    rw [holds_upgrading pc] at h
    exact (holds_upgraded rfl).mpr (h.upgraded seen)
  | upgradeEnds pc =>
    rw [holds_upgraded pc] at h
    simpa [holds_iff, Pc.live, add_assoc] using h.dropUpper rfl h.being

end Thread

/-! ## Runs -/

namespace RwState

open Thread

/-- The invariant of the lock word. -/
def Inv (s : RwState) : Prop :=
  Held s.lock (total reads s.threads) (total readTries s.threads) (total beings s.threads)
    (total uppers s.threads) (total upperTries s.threads) (total writes s.threads)

variable {s : RwState}

theorem Inv.initial (h : s.Initial) : s.Inv := by
  have hzero : ∀ w : Thread → Nat, w ⟨[], .idle⟩ = 0 → total w s.threads = 0 := fun w hw =>
    total_eq_zero fun t ht => by rw [h.2 t ht, hw]
  unfold Inv
  rw [h.1, hzero reads rfl, hzero readTries rfl, hzero beings rfl, hzero uppers rfl, hzero upperTries rfl,
    hzero writes rfl]
  exact ⟨⟨rfl, by decide, by decide, by decide, by decide⟩, by decide, by decide, by decide⟩

/-- **A step keeps the invariant.** With fewer threads than the limit of readers, the failing readers cannot run
over their bits of the word. -/
theorem Inv.step {t : RwState} (hs : s.Inv) (hstep : s.Step t) (hcount : s.threads.length < MAX_READER) : t.Inv := by
  obtain ⟨i, a, th, th', lock', hth, hact, rfl⟩ := hstep
  obtain ⟨r, hr, hr'⟩ := total_frame hth reads
  obtain ⟨rt, hrt, hrt'⟩ := total_frame hth readTries
  obtain ⟨b, hb, hb'⟩ := total_frame hth beings
  obtain ⟨u, hu, hu'⟩ := total_frame hth uppers
  obtain ⟨ut, hut, hut'⟩ := total_frame hth upperTries
  obtain ⟨k, hk, hk'⟩ := total_frame hth writes
  have hholds : th.Holds s.lock r rt b u ut k := by
    unfold Inv at hs
    rwa [hr, hrt, hb, hu, hut, hk] at hs
  -- the other threads' upgrades: as if this thread did nothing
  have hbe : b ≤ u := by
    have := total_le_total Thread.beings_le (s.threads.set i ⟨[], .idle⟩)
    rwa [hb', hu'] at this
  have htries : rt + th'.readTries < MAX_READER := by
    have := total_le_length Thread.readTries_le (s.threads.set i th')
    rw [hrt', List.length_set] at this
    omega
  have hnew := (act_cases hact).holds hholds hbe htries
  unfold Inv
  dsimp only
  rwa [hr', hrt', hb', hu', hut', hk']

def live (s : RwState) : List Guard := s.threads.flatMap Thread.live

/-- Exclusion: a write guard is the only guard, and there is one upgradeable guard at most. -/
def Exclusive (guards : List Guard) : Prop :=
  (.write ∈ guards → guards = [.write]) ∧ guards.count .upgradeable ≤ 1

theorem length_eq_counts (l : List Guard) : l.length = l.count .read + l.count .upgradeable + l.count .write := by
  induction l with
  | nil => rfl
  | cons g l ih =>
    simp only [List.length_cons, List.count_cons, ih]
    cases g <;> simp <;> omega

theorem Held.exclusive {l : List Guard} {lock rt b ut : Nat}
    (h : Held lock (l.count .read) rt b (l.count .upgradeable) ut (l.count .write)) : Exclusive l := by
  have hu := h.word.upper
  have hk := h.word.writer
  refine ⟨fun hmem => ?_, by omega⟩
  have hpos := List.count_pos_iff.mpr hmem
  obtain ⟨hr0, hu0⟩ := h.alone hpos
  have hlen := length_eq_counts l
  obtain ⟨g, rfl⟩ := List.length_eq_one_iff.mp (show l.length = 1 by omega)
  rw [List.mem_singleton.mp hmem]

theorem Inv.exclusive (h : s.Inv) : Exclusive s.live := by
  have hheld : Held s.lock (s.live.count .read) (total readTries s.threads) (total beings s.threads)
      (s.live.count .upgradeable) (total upperTries s.threads) (s.live.count .write) := by
    rw [live, count_flatMap, count_flatMap, count_flatMap]
    exact h
  exact Held.exclusive hheld

theorem Inv.lock_eq (h : s.Inv) : s.lock = total bits s.threads := by
  rw [h.word.eq]
  have hbits : total bits s.threads = total (fun t => (t.reads + t.readTries) + 2 ^ 61 * t.beings +
      2 ^ 62 * (t.uppers + t.upperTries) + 2 ^ 63 * t.writes) s.threads := by
    congr 1
    funext t
    exact bits_eq t
  rw [hbits]
  simp only [total_add, total_mul]

/-- The word fits into a `usize`, whatever the number of threads. -/
theorem lock_lt (h : Reach Initial Step s) : s.lock < usizeCard := by
  refine h.invariant (I := fun s => s.lock < usizeCard) (fun s hs => ?_) fun s t hs hstep => ?_
  · rw [hs.1]
    decide
  · obtain ⟨i, a, th, th', lock', hth, hact, rfl⟩ := hstep
    exact (act_cases hact).lt hs

theorem Step.length_eq {t : RwState} (h : s.Step t) : t.threads.length = s.threads.length := by
  obtain ⟨i, a, th, th', lock', hth, hact, rfl⟩ := h
  exact List.length_set

theorem Inv.of_reach (h : Reach Initial Step s) (hcount : s.threads.length < MAX_READER) : s.Inv := by
  induction h with
  | init h => exact Inv.initial h
  | step run h ih =>
    rw [h.length_eq] at hcount
    exact (ih hcount).step h hcount

end RwState

end AsterKernel.Sync
