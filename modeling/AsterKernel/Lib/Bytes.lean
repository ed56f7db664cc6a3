import Mathlib.Tactic

/-!
# `Lib.Bytes` — byte memories and little-endian numbers

A memory is a function from addresses to bytes. `peek` reads a range of it, `poke` overwrites one; what is read
depends on the bytes of its range only. Numbers are stored in little-endian order with a fixed width.
-/

namespace Lib

open List

/-- A memory of bytes. -/
abbrev Mem := Nat → UInt8

/-- The `n` bytes from `off` on. -/
def peek (m : Mem) (off : Nat) : Nat → List UInt8
  | 0 => []
  | n + 1 => m off :: peek m (off + 1) n

/-- The memory with the given bytes at `off`. -/
def poke (m : Mem) (off : Nat) (bs : List UInt8) : Mem := fun i =>
  if off ≤ i then (bs[i - off]?).getD (m i) else m i

variable {m m' : Mem} {off off' n k : Nat} {bs : List UInt8} {i : Nat} {cs : List UInt8}

@[simp] theorem peek_length : (peek m off n).length = n := by
  induction n generalizing off with
  | zero => rfl
  | succ n ih => rw [peek, length_cons, ih]

theorem peek_add : peek m off (n + k) = peek m off n ++ peek m (off + n) k := by
  induction n generalizing off with
  | zero => simp [peek]
  | succ n ih =>
    have hsplit : n + 1 + k = (n + k) + 1 := by omega
    rw [hsplit, peek, ih, peek, cons_append, show off + 1 + n = off + (n + 1) by omega]

/-- What is read depends on its range only. -/
theorem peek_congr (h : ∀ i, off ≤ i → i < off + n → m' i = m i) : peek m' off n = peek m off n := by
  induction n generalizing off with
  | zero => rfl
  | succ n ih =>
    rw [peek, peek, h off (by omega) (by omega), ih fun i hi hlt => h i (by omega) (by omega)]

theorem poke_of_lt (h : i < off) : poke m off bs i = m i := if_neg (by omega)

theorem poke_of_ge (h : off + bs.length ≤ i) : poke m off bs i = m i := by
  rw [poke, if_pos (by omega), getElem?_eq_none (by omega)]
  rfl

theorem poke_of_mem (h : off ≤ i) (hlt : i - off < bs.length) : poke m off bs i = bs[i - off] := by
  rw [poke, if_pos h, getElem?_eq_getElem hlt]
  rfl

theorem peek_poke_disjoint (h : off' + n ≤ off ∨ off + bs.length ≤ off') :
    peek (poke m off bs) off' n = peek m off' n := by
  refine peek_congr fun i hi hlt => ?_
  rcases h with h | h
  · exact poke_of_lt (by omega)
  · exact poke_of_ge (by omega)

theorem peek_poke_self : peek (poke m off bs) off bs.length = bs := by
  induction bs generalizing m off with
  | nil => rfl
  | cons b bs ih =>
    have hhead : poke m off (b :: bs) off = b := by simp [poke]
    have htail : peek (poke m off (b :: bs)) (off + 1) bs.length = peek (poke m (off + 1) bs) (off + 1)
      bs.length := by
      refine peek_congr fun i hi hlt => ?_
      rw [poke_of_mem (by omega) (by simp; omega), poke_of_mem hi (by omega)]
      have : i - off = i - (off + 1) + 1 := by omega
      simp [this]
    rw [length_cons, peek, hhead, htail, ih]

theorem poke_append : poke m off (bs ++ cs) = poke (poke m off bs) (off + bs.length) cs := by
  funext i
  by_cases hlt : i < off
  · rw [poke_of_lt hlt, poke_of_lt (by omega), poke_of_lt hlt]
  · by_cases hbs : i - off < bs.length
    · rw [poke_of_mem (by omega) (by simp; omega), poke_of_lt (by omega), poke_of_mem (by omega) hbs,
        getElem_append_left hbs]
    · rw [poke, if_pos (by omega), poke, if_pos (by omega), poke_of_ge (by omega),
        getElem?_append_right (by omega), Nat.sub_sub]

theorem poke_comm (h : off + bs.length ≤ off' ∨ off' + cs.length ≤ off) :
    poke (poke m off bs) off' cs = poke (poke m off' cs) off bs := by
  funext i
  by_cases hi : off ≤ i ∧ i - off < bs.length
  · have hout : i < off' ∨ off' + cs.length ≤ i := by omega
    rw [poke_of_mem hi.1 hi.2]
    rcases hout with hlt | hge
    · rw [poke_of_lt hlt, poke_of_mem hi.1 hi.2]
    · rw [poke_of_ge hge, poke_of_mem hi.1 hi.2]
  · have hself : ∀ m : Mem, poke m off bs i = m i := fun m => by
      rcases lt_or_ge i off with hlt | hge
      · exact poke_of_lt hlt
      · exact poke_of_ge (by omega)
    rw [hself]
    show (if off' ≤ i then (cs[i - off']?).getD (poke m off bs i) else poke m off bs i) = _
    rw [hself]
    rfl

/-! ## Little-endian numbers -/

/-- The lowest `w` bytes of a number. -/
def leBytes : Nat → Nat → List UInt8
  | 0, _ => []
  | w + 1, n => UInt8.ofNat n :: leBytes w (n / 256)

/-- The number that the bytes stand for. -/
def leVal : List UInt8 → Nat
  | [] => 0
  | b :: bs => b.toNat + 256 * leVal bs

@[simp] theorem leBytes_length (w n : Nat) : (leBytes w n).length = w := by
  induction w generalizing n with
  | zero => rfl
  | succ w ih => rw [leBytes, length_cons, ih]

/-- A number reads back modulo its width. -/
theorem leVal_leBytes (w n : Nat) : leVal (leBytes w n) = n % 256 ^ w := by
  induction w generalizing n with
  | zero => rw [leBytes, leVal, Nat.pow_zero, Nat.mod_one]
  | succ w ih =>
    have hbyte : (UInt8.ofNat n).toNat = n % 256 := by simp
    rw [leBytes, leVal, ih, hbyte, Nat.pow_succ', Nat.mod_mul]

/-- A number that fits is read back from where it was written. -/
theorem leVal_peek {w : Nat} (h : peek m off w = leBytes w n) (hn : n < 256 ^ w) : leVal (peek m off w) = n := by
  rw [h, leVal_leBytes, Nat.mod_eq_of_lt hn]

end Lib
