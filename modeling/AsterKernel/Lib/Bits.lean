import Mathlib.Data.Nat.Bitwise

/-!
# `Lib.Bits` — single bits of a machine word

Testing, setting and clearing one bit of a natural number, as arithmetic.
-/

namespace Lib

variable {w i : Nat}

theorem testBit_iff : w.testBit i = true ↔ w / 2 ^ i % 2 = 1 := by
  rw [Nat.testBit_eq_decide_div_mod_eq, decide_eq_true_iff]

theorem and_two_pow_eq_zero : w &&& 2 ^ i = 0 ↔ w / 2 ^ i % 2 = 0 := by
  rw [Nat.and_two_pow, Nat.mul_eq_zero, Nat.testBit_eq_decide_div_mod_eq]
  by_cases h : w / 2 ^ i % 2 = 1
  · simp [h]
  · have h0 : w / 2 ^ i % 2 = 0 := by omega
    simp [h0]

/-- A mask of several bits is clear if each of them is. -/
theorem and_or_eq_zero {a b : Nat} : w &&& (a ||| b) = 0 ↔ w &&& a = 0 ∧ w &&& b = 0 := by
  rw [Nat.and_or_distrib_left, Nat.or_eq_zero_iff]

theorem eq_shiftLeft_or (w i : Nat) : w = (w / 2 ^ i) <<< i ||| w % 2 ^ i := by
  rw [← Nat.shiftLeft_add_eq_or_of_lt (Nat.mod_lt _ (Nat.two_pow_pos i)), Nat.shiftLeft_eq, mul_comm]
  exact (Nat.div_add_mod _ _).symm

theorem or_one_of_even {n : Nat} (h : n % 2 = 0) : n ||| 1 = n + 1 := by
  have hn : n = (n / 2) <<< 1 := by
    rw [Nat.shiftLeft_eq]
    omega
  rw [hn]
  exact (Nat.shiftLeft_add_eq_or_of_lt (by decide) _).symm

/-- Setting a clear bit adds its value. -/
theorem or_two_pow_of_clear (h : w / 2 ^ i % 2 = 0) : w ||| 2 ^ i = w + 2 ^ i := by
  have hlt := Nat.mod_lt w (Nat.two_pow_pos i)
  have hone : 2 ^ i = 1 <<< i := by rw [Nat.shiftLeft_eq, one_mul]
  calc w ||| 2 ^ i = ((w / 2 ^ i) <<< i ||| w % 2 ^ i) ||| 1 <<< i := by rw [← eq_shiftLeft_or, ← hone]
    _ = ((w / 2 ^ i) <<< i ||| 1 <<< i) ||| w % 2 ^ i := by rw [Nat.or_assoc, Nat.or_comm (w % 2 ^ i), ← Nat.or_assoc]
    _ = (w / 2 ^ i + 1) <<< i ||| w % 2 ^ i := by rw [← Nat.shiftLeft_or_distrib, or_one_of_even h]
    _ = (w / 2 ^ i + 1) <<< i + w % 2 ^ i := (Nat.shiftLeft_add_eq_or_of_lt hlt _).symm
    _ = w + 2 ^ i := by
        rw [Nat.shiftLeft_eq, add_mul, one_mul]
        have := Nat.div_add_mod w (2 ^ i)
        rw [mul_comm] at this
        omega

/-- Setting a set bit changes nothing. -/
theorem or_two_pow_of_set (h : w / 2 ^ i % 2 = 1) : w ||| 2 ^ i = w := by
  refine Nat.eq_of_testBit_eq fun j => ?_
  rw [Nat.testBit_or, Nat.testBit_two_pow]
  by_cases hj : i = j
  · subst hj
    rw [testBit_iff.mpr h, Bool.true_or]
  · simp [hj]

theorem and_or_of_clear {a : Nat} (h : w / 2 ^ i % 2 = 0) : w &&& (a ||| 2 ^ i) = w &&& a := by
  rw [Nat.and_or_distrib_left, and_two_pow_eq_zero.mpr h, Nat.or_zero]

theorem and_two_pow_of_set (h : w / 2 ^ i % 2 = 1) : w &&& 2 ^ i = 2 ^ i := by
  rw [Nat.and_two_pow, testBit_iff.mpr h]
  exact one_mul _

theorem and_or_ne_of_set {j : Nat} (hij : i ≠ j) (h : w / 2 ^ j % 2 = 1) : w &&& (2 ^ i ||| 2 ^ j) ≠ 2 ^ i := by
  intro heq
  have hbit := congrArg (fun x => x.testBit j) heq
  simp [Nat.testBit_and, Nat.testBit_or, testBit_iff.mpr h, hij] at hbit

end Lib
