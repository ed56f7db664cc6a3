import AsterKernel.Lib.Outcome

/-!
# `Lib.Usize` — 64-bit unsigned arithmetic under the two build profiles

A `usize` is a natural number below `2 ^ 64`. The `dev` profile checks arithmetic and debug assertions and
panics when one fails; the `release` profile wraps around and skips the assertions. Each operation is a
computation that leaves the state alone, and its `_ok` lemma gives the value it returns in either profile.
-/

namespace Lib

/-- The build profile of the program. -/
inductive Profile where
  | dev
  | release
deriving DecidableEq, Repr

/-- The number of `usize` values. -/
def usizeCard : Nat := 2 ^ 64

/-- Addition modulo `2 ^ 64`. -/
def wadd (a b : Nat) : Nat := (a + b) % usizeCard

/-- Subtraction modulo `2 ^ 64`. -/
def wsub (a b : Nat) : Nat := (a + usizeCard - b) % usizeCard

variable {a b card : Nat}

theorem wadd_of_lt (h : a + b < usizeCard) : wadd a b = a + b := Nat.mod_eq_of_lt h

theorem wsub_of_le (h : b ≤ a) (ha : a < usizeCard) : wsub a b = a - b := by
  have heq : a + usizeCard - b = (a - b) + usizeCard := by omega
  rw [wsub, heq, Nat.add_mod_right, Nat.mod_eq_of_lt (by omega)]

theorem wadd_lt (a b : Nat) : wadd a b < usizeCard := Nat.mod_lt _ (by simp [usizeCard])

theorem wsub_lt (a b : Nat) : wsub a b < usizeCard := Nat.mod_lt _ (by simp [usizeCard])

/-! ## Other widths

The same for a type of `card` values, without a state: `none` is the panic of the `dev` profile. -/

/-- What an out-of-range result becomes. -/
def Profile.wrap (p : Profile) (wrapped : Nat) : Option Nat :=
  match p with
  | .dev => none
  | .release => some wrapped

def Profile.add (p : Profile) (card a b : Nat) : Option Nat :=
  if a + b < card then some (a + b) else p.wrap ((a + b) % card)

def Profile.sub (p : Profile) (card a b : Nat) : Option Nat :=
  if b ≤ a then some (a - b) else p.wrap ((a + card - b) % card)

def Profile.mul (p : Profile) (card a b : Nat) : Option Nat :=
  if a * b < card then some (a * b) else p.wrap (a * b % card)

variable {p : Profile}

theorem Profile.add_of_lt (h : a + b < card) : p.add card a b = some (a + b) :=
  if_pos h

theorem Profile.sub_of_le (h : b ≤ a) : p.sub card a b = some (a - b) := if_pos h

theorem Profile.mul_of_lt (h : a * b < card) : p.mul card a b = some (a * b) :=
  if_pos h

namespace Comp

variable {σ ε : Type}

/-- What an out-of-range result does: a panic in `dev`, the wrapped value in `release`. -/
def overflow (p : Profile) (wrapped : Nat) : Comp σ ε Nat :=
  match p with
  | .dev => abort
  | .release => pure wrapped

def uadd (p : Profile) (a b : Nat) : Comp σ ε Nat :=
  if a + b < usizeCard then pure (a + b) else overflow p (wadd a b)

def usub (p : Profile) (a b : Nat) : Comp σ ε Nat :=
  if b ≤ a then pure (a - b) else overflow p (wsub a b)

def umul (p : Profile) (a b : Nat) : Comp σ ε Nat :=
  if a * b < usizeCard then pure (a * b) else overflow p (a * b % usizeCard)

/-- `debug_assert!`: checked in `dev` only. -/
def debugAssert (p : Profile) (b : Bool) : Comp σ ε Unit :=
  match p with
  | .dev => assert b
  | .release => pure ()

variable {p : Profile} {c : Nat} {s t : σ}

theorem overflow_ok {w : Nat} : (overflow p w : Comp σ ε Nat) s = .ok c t ↔ p = .release ∧ c = w ∧ t = s := by
  cases p with
  | dev => exact ⟨fun h => by simp [overflow, abort] at h, fun h => absurd h.1 (by simp)⟩
  | release => exact pure_ok.trans (by simp [eq_comm])

/-- A checked operation: its value, and that `dev` saw the check pass. -/
theorem checked_ok {q : Prop} [Decidable q] {v w : Nat} :
    (if q then pure v else overflow p w : Comp σ ε Nat) s = .ok c t ↔
      c = (if q then v else w) ∧ t = s ∧ (p = .dev → q) := by
  by_cases hq : q
  · rw [if_pos hq, if_pos hq, pure_ok]
    exact ⟨fun h => ⟨h.1.symm, h.2.symm, fun _ => hq⟩, fun h => ⟨h.1.symm, h.2.1.symm⟩⟩
  · rw [if_neg hq, if_neg hq, overflow_ok]
    constructor
    · rintro ⟨rfl, rfl, rfl⟩
      exact ⟨rfl, rfl, by simp⟩
    · rintro ⟨rfl, rfl, hdev⟩
      exact ⟨by cases p <;> simp_all, rfl, rfl⟩

theorem checked_not_err {q : Prop} [Decidable q] {v w : Nat} {e : ε} :
    ¬ (if q then pure v else overflow p w : Comp σ ε Nat) s = .err e t := by
  unfold overflow abort
  intro h
  split at h
  · cases h
  · cases p <;> cases h

theorem uadd_ok : (uadd p a b : Comp σ ε Nat) s = .ok c t ↔ c = wadd a b ∧ t = s ∧ (p = .dev → a + b < usizeCard) := by
  have hval : (if a + b < usizeCard then a + b else wadd a b) = wadd a b :=
    ite_eq_right_iff.mpr fun h => (wadd_of_lt h).symm
  exact hval ▸ checked_ok

theorem usub_ok : (usub p a b : Comp σ ε Nat) s = .ok c t ↔
      c = (if b ≤ a then a - b else wsub a b) ∧ t = s ∧ (p = .dev → b ≤ a) := checked_ok

theorem umul_ok : (umul p a b : Comp σ ε Nat) s = .ok c t ↔
      c = a * b % usizeCard ∧ t = s ∧ (p = .dev → a * b < usizeCard) := by
  have hval : (if a * b < usizeCard then a * b else a * b % usizeCard) = a * b % usizeCard :=
    ite_eq_right_iff.mpr fun h => (Nat.mod_eq_of_lt h).symm
  exact hval ▸ checked_ok

theorem debugAssert_ok {b : Bool} {u : Unit} :
    (debugAssert p b : Comp σ ε Unit) s = .ok u t ↔ t = s ∧ (p = .dev → b = true) := by
  cases p with
  | dev => exact assert_ok.trans ⟨fun h => ⟨h.2.symm, fun _ => h.1⟩, fun h => ⟨h.2 rfl, h.1.symm⟩⟩
  | release => exact pure_ok.trans (by simp [eq_comm])

/-! ## Sequencing

An arithmetic step in front of a computation only contributes its value and its overflow check. -/

section Bind

variable {β : Type} {p : Profile} {a b : Nat} {s t : σ} {c : β} {e : ε}

section

variable {α : Type} {m : Comp σ ε α} {v : α} {q : Prop} {f : α → Comp σ ε β}
variable (hm : ∀ {x u}, m s = .ok x u ↔ x = v ∧ u = s ∧ q)
include hm

theorem value_ok {P : α → σ → Prop} : (∃ x u, m s = .ok x u ∧ P x u) ↔ q ∧ P v s := by
  constructor
  · rintro ⟨_, _, h, hP⟩
    obtain ⟨rfl, rfl, hq⟩ := hm.mp h
    exact ⟨hq, hP⟩
  · rintro ⟨hq, hP⟩
    exact ⟨_, s, hm.mpr ⟨rfl, rfl, hq⟩, hP⟩

theorem value_bind_ok : (m >>= f) s = .ok c t ↔ q ∧ f v s = .ok c t := bind_ok.trans (value_ok hm)

theorem value_bind_err (hne : ¬ m s = .err e t) : (m >>= f) s = .err e t ↔ q ∧ f v s = .err e t := by
  rw [bind_err, or_iff_right hne]
  exact value_ok hm

end

variable {f : Nat → Comp σ ε β}

theorem uadd_bind_ok : (uadd p a b >>= f) s = .ok c t ↔ (p = .dev → a + b < usizeCard) ∧ f (wadd a b) s = .ok c t :=
  value_bind_ok uadd_ok

theorem uadd_bind_err : (uadd p a b >>= f) s = .err e t ↔ (p = .dev → a + b < usizeCard) ∧ f (wadd a b) s = .err e t :=
  value_bind_err uadd_ok checked_not_err

theorem usub_bind_ok : (usub p a b >>= f) s = .ok c t ↔
      (p = .dev → b ≤ a) ∧ f (if b ≤ a then a - b else wsub a b) s = .ok c t :=
  value_bind_ok usub_ok

theorem umul_bind_ok :
    (umul p a b >>= f) s = .ok c t ↔ (p = .dev → a * b < usizeCard) ∧ f (a * b % usizeCard) s = .ok c t :=
  value_bind_ok umul_ok

theorem umul_bind_err :
    (umul p a b >>= f) s = .err e t ↔ (p = .dev → a * b < usizeCard) ∧ f (a * b % usizeCard) s = .err e t :=
  value_bind_err umul_ok checked_not_err

theorem debugAssert_bind_ok {q : Bool} {f : Unit → Comp σ ε β} :
    (debugAssert p q >>= f) s = .ok c t ↔ (p = .dev → q = true) ∧ f () s = .ok c t := by
  cases p with
  | dev => simpa [debugAssert] using assert_bind_ok
  | release => simp [debugAssert, pure_bind_apply]

theorem debugAssert_bind_err {q : Bool} {f : Unit → Comp σ ε β} :
    (debugAssert p q >>= f) s = .err e t ↔ (p = .dev → q = true) ∧ f () s = .err e t := by
  cases p with
  | dev =>
    rw [debugAssert, bind_err, or_iff_right assert_not_err]
    simp only [assert_ok, exists_and_left, true_imp_iff, Unique.exists_iff, and_assoc, exists_eq_left']
  | release => simp [debugAssert, pure_bind_apply]

end Bind

/-! ## Arithmetic only reads -/

theorem Reads.overflow (p : Profile) (w : Nat) : Reads (overflow p w : Comp σ ε Nat) := by
  cases p with
  | dev => exact Reads.abort
  | release => exact Reads.pure w

theorem Reads.uadd (p : Profile) (a b : Nat) : Reads (uadd p a b : Comp σ ε Nat) :=
  Reads.ite (Reads.pure _) (Reads.overflow p _)

theorem Reads.usub (p : Profile) (a b : Nat) : Reads (usub p a b : Comp σ ε Nat) :=
  Reads.ite (Reads.pure _) (Reads.overflow p _)

theorem Reads.debugAssert (p : Profile) (b : Bool) : Reads (debugAssert p b : Comp σ ε Unit) := by
  cases p with
  | dev => exact Reads.assert b
  | release => exact Reads.pure ()

end Comp
end Lib
