import AsterKernel.Lib.Bytes

/-!
# `Lib.Words` — 64-bit words in a byte memory
-/

namespace Lib

/-- The bytes of the words, in little-endian order. -/
def wordBytes (ws : List (BitVec 64)) : List UInt8 := ws.flatMap fun w => leBytes 8 w.toNat

/-- The `n` words from an address on. -/
def peekWords (m : Mem) (addr : Nat) : Nat → List (BitVec 64)
  | 0 => []
  | n + 1 => BitVec.ofNat 64 (leVal (peek m addr 8)) :: peekWords m (addr + 8) n

variable {m m' : Mem} {addr n : Nat} {ws : List (BitVec 64)}

@[simp] theorem length_wordBytes (ws : List (BitVec 64)) : (wordBytes ws).length = 8 * ws.length := by
  induction ws with
  | nil => rfl
  | cons w ws ih =>
    show (leBytes 8 w.toNat ++ wordBytes ws).length = _
    rw [List.length_append, leBytes_length, ih, List.length_cons]
    omega

/-- What is read depends on its range only. -/
theorem peekWords_congr (h : ∀ i, addr ≤ i → i < addr + 8 * n → m' i = m i) : peekWords m' addr n =
    peekWords m addr n := by
  induction n generalizing addr with
  | zero => rfl
  | succ n ih =>
    rw [peekWords, peekWords, peek_congr fun i hi hlt => h i hi (by omega), ih fun i hi hlt => h i
      (by omega) (by omega)]

theorem peekWords_pokeWords : peekWords (poke m addr (wordBytes ws)) addr ws.length = ws := by
  induction ws generalizing m addr with
  | nil => rfl
  | cons w ws ih =>
    have hsplit : poke m addr (wordBytes (w :: ws)) = poke (poke m addr (leBytes 8 w.toNat)) (addr + 8)
      (wordBytes ws) := by
      show poke m addr (leBytes 8 w.toNat ++ wordBytes ws) = _
      rw [poke_append, leBytes_length]
    have hhead : peek (poke m addr (wordBytes (w :: ws))) addr 8 = leBytes 8 w.toNat := by
      rw [hsplit, peek_poke_disjoint (.inl le_rfl)]
      have hself : peek (poke m addr (leBytes 8 w.toNat)) addr (leBytes 8 w.toNat).length = leBytes 8 w.toNat :=
        peek_poke_self
      rwa [leBytes_length] at hself
    rw [List.length_cons, peekWords, leVal_peek hhead (by exact w.isLt), BitVec.ofNat_toNat,
      BitVec.setWidth_eq, hsplit, ih]

/-! ## Writes inside a range -/

/-- Two memories agree outside a range. -/
def SameOutside (lo hi : Nat) (m m' : Mem) : Prop := ∀ i, i < lo ∨ hi ≤ i → m' i = m i

namespace SameOutside

variable {lo hi : Nat} {m'' : Mem} {bs : List UInt8}

theorem trans (h : SameOutside lo hi m m') (h' : SameOutside lo hi m' m'') : SameOutside lo hi m m'' :=
  fun i hi => (h' i hi).trans (h i hi)

/-- A write inside a range leaves the rest of the memory alone. -/
theorem poke (hlo : lo ≤ addr) (hhi : addr + bs.length ≤ hi) : SameOutside lo hi m (poke m addr bs) := by
  intro i hi
  rcases hi with hi | hi
  · exact poke_of_lt (by omega)
  · exact poke_of_ge (by omega)

theorem mono {lo' hi' : Nat} (h : SameOutside lo hi m m') (hlo : lo' ≤ lo) (hhi : hi ≤ hi') : SameOutside
    lo' hi' m m' :=
  fun i hi => h i (by omega)

end SameOutside

end Lib
