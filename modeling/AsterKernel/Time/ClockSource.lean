import AsterKernel.Lib.Threads
import AsterKernel.Lib.Usize
import AsterKernel.Time.Vdso

/-!
# `Time.ClockSource` — instants from a counter of cycles

A clock source keeps an instant and the cycles that its counter showed then, each under a lock of its own. To read an
instant, a thread samples the counter, subtracts the kept cycles, and adds the time of the difference to the kept
instant; `update` does the same and then stores the cycles and the instant, one after the other. A reader between the
two stores, or one whose sample is older than the kept cycles, gets the wrong difference.

The counter never goes back, and it is sampled at most `max_multiplier` cycles after the last update. The seconds do
not reach `2 ^ 64`.
-/

namespace AsterKernel.Time

open Lib List

def NANOS_PER_SECOND : Nat := 1000000000

/-! ## Multiplying by a fraction -/

structure Coeff where
  mult : Nat
  shift : Nat
  maxMultiplier : Nat
deriving DecidableEq, Repr

namespace Coeff

/-- The first loop of `Coeff::new`: `shift_acc` goes down once for each bit. -/
def shiftAcc (tmp acc : Nat) : Nat := if tmp = 0 then acc else shiftAcc (tmp >>> 1) (acc - 1)
termination_by tmp
decreasing_by simp only [Nat.shiftRight_succ, Nat.shiftRight_zero]; omega

/-- The second loop of `Coeff::new`, from a shift downwards. -/
def search (numerator denominator acc : Nat) : Nat → Nat → Nat × Nat
  | 0, mult => (mult, 0)
  | shift + 1, _ =>
    let mult := ((numerator <<< (shift + 1)) + denominator / 2) / denominator
    if mult >>> acc = 0 then (mult, shift + 1) else search numerator denominator acc shift mult

def new (numerator denominator maxMultiplier : Nat) : Coeff :=
  let found := search numerator denominator (shiftAcc (maxMultiplier >>> 32) 32) 32 0
  ⟨found.1 % 2 ^ 32, found.2, maxMultiplier⟩

/-- `Coeff * u64`. -/
def mul (p : Profile) (c : Coeff) (rhs : Nat) : Option Nat :=
  if p = .dev ∧ c.maxMultiplier < rhs then none else (p.mul usizeCard rhs c.mult).map (· >>> c.shift)

/-- The product without overflow. -/
def conv (c : Coeff) (rhs : Nat) : Nat := (rhs * c.mult) >>> c.shift

theorem shiftAcc_spec (tmp acc : Nat) (h : tmp < 2 ^ acc) :
    shiftAcc tmp acc ≤ acc ∧ tmp < 2 ^ (acc - shiftAcc tmp acc) ∧ ∀ k, tmp < 2 ^ k → acc - k ≤ shiftAcc tmp acc := by
  induction tmp using Nat.strong_induction_on generalizing acc with
  | _ tmp ih =>
    unfold shiftAcc
    split
    · rename_i hzero
      simp only [le_refl, Nat.sub_self, hzero, true_and]
      exact ⟨Nat.one_pos, fun k _ => Nat.sub_le ..⟩
    · rename_i hpos
      have hhalf : tmp >>> 1 = tmp / 2 := by simp [Nat.shiftRight_succ]
      cases acc with
      | zero => simp at h; omega
      | succ acc =>
        rw [hhalf, Nat.add_sub_cancel]
        obtain ⟨hle, hlt, hlow⟩ := ih (tmp / 2) (by omega) acc (by rw [pow_succ] at h; omega)
        refine ⟨by omega, ?_, ?_⟩
        · rw [show acc + 1 - shiftAcc (tmp / 2) acc = acc - shiftAcc (tmp / 2) acc + 1 by omega, pow_succ]
          omega
        · intro k hk
          cases k with
          | zero => simp at hk; omega
          | succ k =>
            have := hlow k (by rw [pow_succ] at hk; omega)
            omega

/-- If a shift by one fits, the loop stops at a shift whose multiplier fits. -/
theorem search_eq {numerator denominator acc : Nat}
    (h : ((numerator <<< 1) + denominator / 2) / denominator < 2 ^ acc) (n mult : Nat) :
    ∃ shift, search numerator denominator acc (n + 1) mult =
        (((numerator <<< shift) + denominator / 2) / denominator, shift) ∧
      ((numerator <<< shift) + denominator / 2) / denominator < 2 ^ acc := by
  induction n generalizing mult with
  | zero => exact ⟨1, by rw [search, if_pos (Nat.shiftRight_eq_zero _ _ h)], h⟩
  | succ n ih =>
    rw [search]
    split
    · rename_i hfits
      rw [Nat.shiftRight_eq_div_pow] at hfits
      exact ⟨n + 2, rfl, (Nat.div_eq_zero_iff.mp hfits).resolve_left (by positivity)⟩
    · exact ih _

end Coeff

/-- The arguments of `ClockSource::new` that its assertions accept. -/
structure ClockConfig where
  freq : Nat
  maxDelaySecs : Nat
  freq_pos : 0 < freq
  delay_lt : maxDelaySecs < 600
  cycles_lt : maxDelaySecs * freq < 2 ^ 40

def ClockConfig.coeff (c : ClockConfig) : Coeff := .new NANOS_PER_SECOND c.freq (c.maxDelaySecs * c.freq)

theorem ClockConfig.coeff_search (c : ClockConfig) : ∃ acc shift, acc ≤ 32 ∧
    (c.maxDelaySecs * c.freq) >>> 32 < 2 ^ (32 - acc) ∧
    ((NANOS_PER_SECOND <<< shift) + c.freq / 2) / c.freq < 2 ^ acc ∧
    c.coeff = ⟨((NANOS_PER_SECOND <<< shift) + c.freq / 2) / c.freq, shift, c.maxDelaySecs * c.freq⟩ := by
  have hcycles := c.cycles_lt
  have hfreq := c.freq_pos
  have htop : (c.maxDelaySecs * c.freq) >>> 32 = c.maxDelaySecs * c.freq / 2 ^ 32 := Nat.shiftRight_eq_div_pow ..
  obtain ⟨hle, hlt, hlow⟩ := Coeff.shiftAcc_spec ((c.maxDelaySecs * c.freq) >>> 32) 32 (by rw [htop]; omega)
  generalize hacc : Coeff.shiftAcc ((c.maxDelaySecs * c.freq) >>> 32) 32 = acc at hle hlt hlow
  -- the multiplier for a shift by one
  have hone : ((NANOS_PER_SECOND <<< 1) + c.freq / 2) / c.freq < 2 ^ acc := by
    rw [Nat.div_lt_iff_lt_mul hfreq]
    by_cases hsmall : c.maxDelaySecs * c.freq < 2 ^ 32
    · have hacc32 : acc = 32 := by
        have := hlow 0 (by rw [htop]; omega)
        omega
      rw [hacc32]
      show 2000000000 + _ < 4294967296 * _
      omega
    · have hacc24 := hlow 8 (by rw [htop]; omega)
      have hdelay : c.maxDelaySecs * c.freq ≤ 599 * c.freq := Nat.mul_le_mul_right _ (by have := c.delay_lt; omega)
      refine lt_of_lt_of_le ?_ (Nat.mul_le_mul_right _ (Nat.pow_le_pow_right Nat.two_pos hacc24))
      show 2000000000 + _ < 16777216 * _
      omega
  obtain ⟨shift, hsearch, hfits⟩ := Coeff.search_eq hone 31 0
  refine ⟨acc, shift, hle, hlt, hfits, ?_⟩
  simp only [coeff, Coeff.new, hacc, hsearch]
  rw [Nat.mod_eq_of_lt (lt_of_lt_of_le hfits (Nat.pow_le_pow_right Nat.two_pos hle))]

/-- The product does not overflow. -/
theorem ClockConfig.coeff_fits (c : ClockConfig) {cycles : Nat} (h : cycles ≤ c.coeff.maxMultiplier) :
    cycles * c.coeff.mult < usizeCard := by
  obtain ⟨acc, shift, hle, hlt, hfits, heq⟩ := c.coeff_search
  rw [heq] at h ⊢
  have hcyc : cycles < 2 ^ (32 - acc) * 2 ^ 32 := by
    rw [Nat.shiftRight_eq_div_pow] at hlt
    exact lt_of_le_of_lt h ((Nat.div_lt_iff_lt_mul (by decide)).mp hlt)
  calc cycles * _ < (2 ^ (32 - acc) * 2 ^ 32) * 2 ^ acc :=
        Nat.mul_lt_mul_of_lt_of_le hcyc hfits.le (by positivity)
    _ = usizeCard := by
        rw [mul_right_comm, ← pow_add, Nat.sub_add_cancel hle]
        rfl

theorem Coeff.mul_eq {p : Profile} {c : Coeff} {rhs : Nat} (hmax : rhs ≤ c.maxMultiplier)
    (hfits : rhs * c.mult < usizeCard) : c.mul p rhs = some (c.conv rhs) := by
  rw [mul, if_neg (by omega), Profile.mul_of_lt hfits]
  rfl

/-- A rounded quotient is within one half of the quotient. -/
theorem abs_round_sub (n d : Nat) (hd : 0 < d) : |(((n + d / 2) / d : ℕ) : ℚ) - n / d| ≤ 1 / 2 := by
  have hlow : (n + d / 2) / d * d ≤ n + d / 2 := Nat.div_mul_le_self ..
  have hhigh : n + d / 2 < ((n + d / 2) / d + 1) * d := Nat.lt_mul_of_div_lt (Nat.lt_succ_self _) hd
  have hd' : (0 : ℚ) < d := by exact_mod_cast hd
  generalize (n + d / 2) / d = m at *
  rw [add_mul, one_mul] at hhigh
  have h1 : 2 * ((m : ℚ) * d) ≤ 2 * n + d := by exact_mod_cast (by omega : 2 * (m * d) ≤ 2 * n + d)
  have h2 : 2 * (n : ℚ) ≤ 2 * (m * d) + d := by exact_mod_cast (by omega : 2 * n ≤ 2 * (m * d) + d)
  rw [abs_le, neg_le_sub_iff_le_add, sub_le_iff_le_add', div_le_iff₀ hd', ← sub_le_iff_le_add, le_div_iff₀ hd']
  constructor <;> linarith

/-- **The conversion of cycles to nanoseconds.** While the coefficient is built and multiplied with at most the
maximum, nothing overflows; the rounded multiplier is stored in 32 bits as it is; and the result is as close to the
exact one as the shift allows. -/
theorem coeff_error (p : Profile) (c : ClockConfig) (hdelay : 1 ≤ c.maxDelaySecs) {cycles : Nat}
    (hcycles : cycles ≤ c.maxDelaySecs * c.freq) :
    (∀ shift ≤ 32, (NANOS_PER_SECOND <<< shift) + c.freq / 2 < usizeCard) ∧ c.coeff.mult < 2 ^ 32 ∧
      c.coeff.mult = ((NANOS_PER_SECOND <<< c.coeff.shift) + c.freq / 2) / c.freq ∧
      ∃ nanos, c.coeff.mul p cycles = some nanos ∧
        |(nanos : ℚ) - 1000000000 * cycles / c.freq| ≤ 1 + cycles / 2 ^ (c.coeff.shift + 1) := by
  have hmul := Coeff.mul_eq (p := p) (c := c.coeff) hcycles (c.coeff_fits hcycles)
  obtain ⟨acc, shift, hle, -, hfits, heq⟩ := c.coeff_search
  have hround := abs_round_sub (NANOS_PER_SECOND <<< shift) c.freq c.freq_pos
  rw [heq] at hmul ⊢
  dsimp only at hmul ⊢
  generalize ((NANOS_PER_SECOND <<< shift) + c.freq / 2) / c.freq = mult at *
  refine ⟨fun shift' hshift => ?_, lt_of_lt_of_le hfits (Nat.pow_le_pow_right Nat.two_pos hle), rfl, _, hmul, ?_⟩
  · have hfreq : c.freq ≤ c.maxDelaySecs * c.freq := Nat.le_mul_of_pos_left _ hdelay
    have hlt := c.cycles_lt
    have htop : NANOS_PER_SECOND <<< shift' ≤ NANOS_PER_SECOND * 2 ^ 32 := by
      rw [Nat.shiftLeft_eq]
      exact Nat.mul_le_mul_left _ (Nat.pow_le_pow_right Nat.two_pos hshift)
    simp only [NANOS_PER_SECOND, usizeCard] at htop ⊢
    omega
  · -- the product is off by the rounding of the multiplier, and the shift rounds down once more
    have hpow : (0 : ℚ) < 2 ^ shift := by positivity
    have hexact : 1000000000 * (cycles : ℚ) / c.freq =
        cycles * (((NANOS_PER_SECOND <<< shift : ℕ) : ℚ) / c.freq) / 2 ^ shift := by
      rw [Nat.shiftLeft_eq, Nat.cast_mul, Nat.cast_pow, NANOS_PER_SECOND]
      push_cast
      field_simp
    have hfloor : |(((cycles * mult) >>> shift : ℕ) : ℚ) - cycles * mult / 2 ^ shift| ≤ 1 := by
      rw [Nat.shiftRight_eq_div_pow, ← Nat.floor_div_eq_div (K := ℚ)]
      push_cast
      have hlow := Nat.lt_floor_add_one ((cycles : ℚ) * mult / 2 ^ shift)
      have hhigh := Nat.floor_le (a := (cycles : ℚ) * mult / 2 ^ shift) (by positivity)
      rw [abs_le]
      constructor <;> linarith
    have hscaled : |(cycles : ℚ) * mult / 2 ^ shift - 1000000000 * cycles / c.freq| ≤ cycles / 2 ^ (shift + 1) := by
      rw [hexact, ← sub_div, ← mul_sub, abs_div, abs_mul, abs_of_pos hpow, Nat.abs_cast, pow_succ', ← div_div,
        div_le_div_iff_of_pos_right hpow, div_eq_mul_one_div (cycles : ℚ)]
      exact mul_le_mul_of_nonneg_left hround (Nat.cast_nonneg _)
    exact (abs_sub_le _ _ _).trans (add_le_add hfloor hscaled)

theorem coeff_error_ghz : ∃ nanos shift,
    (ClockConfig.mk 3000000000 10 (by decide) (by decide) (by decide)).coeff.mul .dev 1000 = some nanos ∧
      |(nanos : ℚ) - 1000000000 * (1000 : ℕ) / (3000000000 : ℕ)| ≤ 1 + (1000 : ℕ) / 2 ^ (shift + 1) := by
  obtain ⟨-, -, -, nanos, hmul, herr⟩ := coeff_error .dev ⟨3000000000, 10, by decide, by decide, by decide⟩ (by decide)
    (by decide : 1000 ≤ _)
  exact ⟨nanos, _, hmul, herr⟩

theorem Coeff.conv_mono (c : Coeff) {a b : Nat} (h : a ≤ b) : c.conv a ≤ c.conv b := by
  unfold conv
  rw [Nat.shiftRight_eq_div_pow, Nat.shiftRight_eq_div_pow]
  exact Nat.div_le_div_right (Nat.mul_le_mul_right _ h)

theorem Coeff.conv_zero (c : Coeff) : c.conv 0 = 0 := by simp [conv]

/-! ## Instants -/

/-- `Instant + Duration::from_nanos`. -/
def Instant.add (i : Instant) (nanos : Nat) : Instant :=
  let secs := i.secs + nanos / NANOS_PER_SECOND
  let nanos := i.nanos + nanos % NANOS_PER_SECOND
  if nanos ≥ NANOS_PER_SECOND then ⟨secs + 1, nanos - NANOS_PER_SECOND⟩ else ⟨secs, nanos⟩

def Instant.toNanos (i : Instant) : Nat := i.secs * NANOS_PER_SECOND + i.nanos

theorem Instant.toNanos_add (i : Instant) (nanos : Nat) : (i.add nanos).toNanos = i.toNanos + nanos := by
  by_cases hcarry : i.nanos + nanos % NANOS_PER_SECOND ≥ NANOS_PER_SECOND
  · simp only [add, toNanos, if_pos hcarry]
    simp only [NANOS_PER_SECOND] at hcarry ⊢
    omega
  · simp only [add, toNanos, if_neg hcarry]
    simp only [NANOS_PER_SECOND]
    omega

/-! ## The clock source and its threads -/

/-- Where a thread is: outside; with a sample of the counter; with the kept cycles too; in `update`, with the new
instant; in `update`, with the new cycles stored. A call also knows the largest instant that was returned before it
began. -/
inductive Pc where
  | idle
  | sampled (update : Bool) (cycles bound : Nat)
  | delta (update : Bool) (cycles last bound : Nat)
  | computed (cycles : Nat) (instant : Instant)
  | half (instant : Instant)
deriving DecidableEq, Repr

def Pc.updating : Pc → Bool
  | sampled update .. | delta update .. => update
  | computed .. | half .. => true
  | idle => false

/-- The clock source, the counter when it was last sampled, the threads, the largest instant returned so far, and for
every call of `read_instant` the largest instant returned before it with its own. -/
structure Clock where
  lastInstant : Instant
  lastCycles : Nat
  counter : Nat
  threads : List Pc
  returned : Nat
  reads : List (Nat × Nat)
deriving DecidableEq, Repr

inductive ClockAct where
  | readCycles (thread : Nat) (update : Bool) (cycles : Nat)
  | lastCycles (thread : Nat)
  | lastInstant (thread : Nat)
  | updateLastCycles (thread : Nat)
  | updateLastInstant (thread : Nat)
deriving DecidableEq, Repr

namespace Clock

def goto (s : Clock) (i : Nat) (pc : Pc) : Clock := { s with threads := s.threads.set i pc }

/-- The end of `calculate_instant`. -/
def calculateInstant (p : Profile) (c : Coeff) (s : Clock) (cycles last : Nat) : Option Instant := do
  let delta ← p.sub usizeCard cycles last
  let nanos ← c.mul p delta
  return s.lastInstant.add nanos

def step (p : Profile) (c : Coeff) : ClockAct → Clock → Option Clock
  | .readCycles i update cycles, s =>
    if s.threads[i]? = some .idle ∧ s.counter ≤ cycles ∧ cycles ≤ s.lastCycles + c.maxMultiplier then
      some { s.goto i (.sampled update cycles s.returned) with counter := cycles }
    else none
  | .lastCycles i, s =>
    match s.threads[i]? with
    | some (.sampled update cycles bound) => some (s.goto i (.delta update cycles s.lastCycles bound))
    | _ => none
  | .lastInstant i, s =>
    match s.threads[i]? with
    | some (.delta true cycles last _) =>
      (s.calculateInstant p c cycles last).map fun instant => s.goto i (.computed cycles instant)
    | some (.delta false cycles last bound) =>
      (s.calculateInstant p c cycles last).map fun instant =>
        { s.goto i .idle with returned := max s.returned instant.toNanos, reads := (bound, instant.toNanos) :: s.reads }
    | _ => none
  | .updateLastCycles i, s =>
    match s.threads[i]? with
    | some (.computed cycles instant) => some { s.goto i (.half instant) with lastCycles := cycles }
    | _ => none
  | .updateLastInstant i, s =>
    match s.threads[i]? with
    | some (.half instant) => some { s.goto i .idle with lastInstant := instant }
    | _ => none

/-- After `calibrate`. -/
def calibrated (threads cycles : Nat) : Clock where
  lastInstant := ⟨0, 0⟩
  lastCycles := cycles
  counter := cycles
  threads := List.replicate threads .idle
  returned := 0
  reads := []

/-- No read has returned less than one that had ended before it began, and no thread is about to subtract more cycles
than it has. -/
structure Monotone (s : Clock) : Prop where
  reads : ∀ x ∈ s.reads, x.1 ≤ x.2
  delta : ∀ update cycles last bound, .delta update cycles last bound ∈ s.threads → last ≤ cycles

/-- A read begins while no update is on its way, an update while no call is. -/
def Apart (s : Clock) : ClockAct → Prop
  | .readCycles _ false _ => ∀ pc ∈ s.threads, pc.updating = false
  | .readCycles _ true _ => ∀ pc ∈ s.threads, pc = .idle
  | _ => True

instance (s : Clock) (a : ClockAct) : Decidable (Apart s a) := by
  cases a with
  | readCycles _ update _ => cases update <;> unfold Apart <;> infer_instance
  | _ => unfold Apart; infer_instance

/-! ## The invariant -/

/-- The instant for a sample of the counter. -/
def at_ (s : Clock) (c : Coeff) (cycles : Nat) : Nat := s.lastInstant.toNanos + c.conv (cycles - s.lastCycles)

/-- What a call knows about its sample. -/
structure Sample (c : Coeff) (s : Clock) (update : Bool) (cycles bound : Nat) : Prop where
  last : s.lastCycles ≤ cycles
  max : cycles ≤ s.lastCycles + c.maxMultiplier
  counter : cycles ≤ s.counter
  bound : bound ≤ s.at_ c cycles
  current : update = true → cycles = s.counter

def Pc.Ok (c : Coeff) (s : Clock) : Pc → Prop
  | .idle => True
  | .sampled update cycles bound => Sample c s update cycles bound
  | .delta update cycles last bound => last = s.lastCycles ∧ Sample c s update cycles bound
  | .computed cycles instant => cycles = s.counter ∧ s.returned ≤ instant.toNanos
  | .half instant => s.lastCycles = s.counter ∧ s.returned ≤ instant.toNanos

/-- An update and any other call. -/
def clash (t u : Pc) : Prop := t.updating = true ∧ u ≠ .idle

structure Inv (c : Coeff) (s : Clock) : Prop where
  ok : ∀ pc ∈ s.threads, Pc.Ok c s pc
  lone : Lone clash s.threads
  last : s.lastCycles ≤ s.counter
  returned : (∀ instant, .half instant ∉ s.threads) → s.returned ≤ s.at_ c s.counter
  reads : ∀ x ∈ s.reads, x.1 ≤ x.2

variable {c : Coeff} {s t : Clock} {i : Nat} {pc pc' : Pc}

theorem Inv.monotone (h : Inv c s) : Monotone s := by
  refine ⟨h.reads, fun update cycles last bound hmem => ?_⟩
  obtain ⟨rfl, hsample⟩ := h.ok _ hmem
  exact hsample.last

theorem inv_calibrated (c : Coeff) (threads cycles : Nat) : Inv c (calibrated threads cycles) := by
  have hidle : ∀ pc ∈ (calibrated threads cycles).threads, pc = .idle := fun _ => eq_of_mem_replicate
  refine ⟨fun pc hpc => ?_, fun i j t u hi hj hclash => ?_, le_refl _, fun _ => Nat.zero_le _, nofun⟩
  · rw [hidle pc hpc]
    trivial
  · exact absurd (hidle u (mem_of_getElem? hj)) hclash.2

/-- While a thread is in `update`, all others are outside. -/
theorem Inv.others (h : Inv c s) (hi : s.threads[i]? = some pc) (hup : pc.updating = true) (pc' : Pc) :
    ∀ u ∈ s.threads.set i pc', u = pc' ∨ u = .idle := by
  intro u hu
  rcases mem_set_or hu with rfl | ⟨j, hj, hu⟩
  · exact .inl rfl
  · refine .inr (by_contra fun hidle => hj ?_)
    exact (h.lone i j pc u hi hu ⟨hup, hidle⟩).symm

theorem Inv.readers (h : Inv c s) (hi : s.threads[i]? = some pc) (hin : pc ≠ .idle) (hread : pc.updating = false) :
    ∀ u ∈ s.threads, u.updating = false := by
  intro u hu
  obtain ⟨j, hj⟩ := mem_iff_getElem?.mp hu
  by_contra hup
  have hup : u.updating = true := by simpa using hup
  obtain rfl := h.lone j i u pc hj hi ⟨hup, hin⟩
  rw [hj] at hi
  cases hi
  cases hup.symm.trans hread

theorem not_half (h : ∀ u ∈ s.threads, u.updating = false) (instant : Instant) : .half instant ∉ s.threads :=
  fun hmem => absurd (h _ hmem) nofun

theorem Inv.lone_update (h : Inv c s) (hi : s.threads[i]? = some pc) (hup : pc.updating = true) (pc' : Pc) :
    Lone clash (s.threads.set i pc') :=
  h.lone.set_of_imp hi fun u =>
    ⟨fun hc => ⟨hup, hc.2⟩, fun hc => ⟨hc.1, fun hidle => by subst hidle; cases hup⟩⟩

variable {p : Profile} {update : Bool} {cycles last bound : Nat} {instant : Instant}

theorem Inv.calculate (h : Inv c s) (hfits : ∀ cycles ≤ c.maxMultiplier, cycles * c.mult < usizeCard)
    (hmem : .delta update cycles last bound ∈ s.threads) (hcalc : s.calculateInstant p c cycles last = some instant) :
    Sample c s update cycles bound ∧ instant.toNanos = s.at_ c cycles := by
  obtain ⟨rfl, hsample⟩ := h.ok _ hmem
  have hmax : cycles - s.lastCycles ≤ c.maxMultiplier := by
    have := hsample.max
    omega
  refine ⟨hsample, ?_⟩
  rw [calculateInstant, Profile.sub_of_le hsample.last, Option.bind_eq_bind, Option.bind_some,
    Coeff.mul_eq hmax (hfits _ hmax)] at hcalc
  cases hcalc
  exact Instant.toNanos_add ..

theorem ok_goto (h : Pc.Ok c s pc) : Pc.Ok c (s.goto i pc') pc := by
  cases pc with
  | sampled => exact ⟨h.last, h.max, h.counter, h.bound, h.current⟩
  | delta => exact ⟨h.1, h.2.last, h.2.max, h.2.counter, h.2.bound, h.2.current⟩
  | _ => exact h

/-! ## The steps -/

section

variable (h : Inv c s)
include h

theorem Inv.readCycles (hcounter : s.counter ≤ cycles) (hmax : cycles ≤ s.lastCycles + c.maxMultiplier)
    (hcond : Apart s (.readCycles i update cycles)) :
    Inv c { s.goto i (.sampled update cycles s.returned) with counter := cycles } := by
  have hquiet : ∀ u ∈ s.threads, u.updating = false := by
    cases update with
    | false => exact hcond
    | true =>
      intro u hu
      rw [hcond u hu]
      rfl
  have hreturned := h.returned (not_half hquiet)
  have hlater : s.returned ≤ s.at_ c cycles :=
    hreturned.trans (Nat.add_le_add_left (c.conv_mono (Nat.sub_le_sub_right hcounter _)) _)
  have hlast := h.last
  refine ⟨?_, ?_, h.last.trans hcounter, fun _ => hlater, h.reads⟩
  · intro u hu
    rcases mem_or_eq_of_mem_set hu with hu | rfl
    · have hok := h.ok u hu
      have hup := hquiet u hu
      cases u with
      | idle => trivial
      | sampled update' cycles' bound =>
        exact ⟨hok.last, hok.max, hok.counter.trans hcounter, hok.bound, fun hyes => absurd (hup.symm.trans hyes) nofun⟩
      | delta update' cycles' last bound =>
        exact ⟨hok.1, hok.2.last, hok.2.max, hok.2.counter.trans hcounter, hok.2.bound,
          fun hyes => absurd (hup.symm.trans hyes) nofun⟩
      | computed | half => cases hup
    · exact ⟨hlast.trans hcounter, hmax, le_refl _, hlater, fun _ => rfl⟩
  · refine h.lone.set fun j u hj hu => ⟨fun hc => ?_, fun hc => ?_⟩
    · cases update with
      | false => cases hc.1
      | true => exact hc.2 (hcond u (mem_of_getElem? hu))
    · cases hc.1.symm.trans (hquiet u (mem_of_getElem? hu))

theorem Inv.lastCycles (hi : s.threads[i]? = some (.sampled update cycles bound)) :
    Inv c (s.goto i (.delta update cycles s.lastCycles bound)) := by
  have hsample := h.ok _ (mem_of_getElem? hi)
  refine ⟨?_, ?_, h.last, fun hhalf => h.returned fun instant hmem => ?_, h.reads⟩
  · intro u hu
    rcases mem_or_eq_of_mem_set hu with hu | rfl
    · exact ok_goto (h.ok u hu)
    · exact ⟨rfl, ok_goto hsample⟩
  · exact h.lone.set_of_imp hi fun u => ⟨fun hc => ⟨hc.1, hc.2⟩, fun hc => ⟨hc.1, nofun⟩⟩
  · rcases mem_set_cases (.delta update cycles s.lastCycles bound) hi hmem with hmem | ⟨heq, -⟩
    · exact hhalf instant hmem
    · cases heq

section

variable (hfits : ∀ cycles ≤ c.maxMultiplier, cycles * c.mult < usizeCard)
include hfits

theorem Inv.returnInstant (hi : s.threads[i]? = some (.delta false cycles last bound))
    (hcalc : s.calculateInstant p c cycles last = some instant) : Inv c { s.goto i .idle with
      returned := max s.returned instant.toNanos, reads := (bound, instant.toNanos) :: s.reads } := by
  obtain ⟨hsample, hvalue⟩ := h.calculate hfits (mem_of_getElem? hi) hcalc
  have hquiet := h.readers hi nofun rfl
  refine ⟨?_, ?_, h.last, fun _ => ?_, ?_⟩
  · intro u hu
    rcases mem_or_eq_of_mem_set hu with hu | rfl
    · have hok := h.ok u hu
      have hup := hquiet u hu
      cases u with
      | idle => trivial
      | sampled => exact ⟨hok.last, hok.max, hok.counter, hok.bound, hok.current⟩
      | delta => exact ⟨hok.1, hok.2.last, hok.2.max, hok.2.counter, hok.2.bound, hok.2.current⟩
      | computed | half => cases hup
    · trivial
  · exact h.lone.set fun j u hj hu => ⟨nofun, fun hc => hc.2 rfl⟩
  · refine max_le (h.returned (not_half hquiet)) ?_
    rw [hvalue]
    exact Nat.add_le_add_left (c.conv_mono (Nat.sub_le_sub_right hsample.counter _)) _
  · intro x hx
    rcases mem_cons.mp hx with rfl | hx
    · exact hvalue ▸ hsample.bound
    · exact h.reads x hx

theorem Inv.compute (hi : s.threads[i]? = some (.delta true cycles last bound))
    (hcalc : s.calculateInstant p c cycles last = some instant) : Inv c (s.goto i (.computed cycles instant)) := by
  obtain ⟨hsample, hvalue⟩ := h.calculate hfits (mem_of_getElem? hi) hcalc
  have hothers := h.others hi rfl (.computed cycles instant)
  have hnohalf : ∀ j, .half j ∉ s.threads := by
    intro j hmem
    rcases mem_set_cases (.computed cycles instant) hi hmem with hmem | ⟨heq, -⟩
    · rcases hothers _ hmem with heq | heq <;> cases heq
    · cases heq
  have hreturned := h.returned hnohalf
  refine ⟨?_, h.lone_update hi rfl _, h.last, fun _ => hreturned, h.reads⟩
  intro u hu
  rcases hothers u hu with rfl | rfl
  · refine ⟨hsample.current rfl, ?_⟩
    rw [hvalue, hsample.current rfl]
    exact hreturned
  · trivial

end

theorem Inv.updateLastCycles (hi : s.threads[i]? = some (.computed cycles instant)) :
    Inv c { s.goto i (.half instant) with lastCycles := cycles } := by
  obtain ⟨hcycles, hreturned⟩ := h.ok _ (List.mem_of_getElem? hi)
  have hothers := h.others hi rfl (.half instant)
  have hmem : .half instant ∈ s.threads.set i (.half instant) := by
    obtain ⟨hlt, -⟩ := List.getElem?_eq_some_iff.mp hi
    exact List.mem_set hlt _
  refine ⟨?_, h.lone_update hi rfl _, hcycles.le, fun hno => absurd hmem (hno instant), h.reads⟩
  intro u hu
  rcases hothers u hu with rfl | rfl
  · exact ⟨hcycles, hreturned⟩
  · trivial

theorem Inv.updateLastInstant (hi : s.threads[i]? = some (.half instant)) :
    Inv c { s.goto i .idle with lastInstant := instant } := by
  obtain ⟨hcycles, hreturned⟩ := h.ok _ (mem_of_getElem? hi)
  have hothers := h.others hi rfl .idle
  refine ⟨?_, h.lone_update hi rfl _, h.last, fun _ => ?_, h.reads⟩
  · intro u hu
    rcases hothers u hu with rfl | rfl <;> trivial
  · show s.returned ≤ instant.toNanos + c.conv (s.counter - s.lastCycles)
    rw [hcycles, Nat.sub_self, c.conv_zero, add_zero]
    exact hreturned

theorem Inv.step (hfits : ∀ cycles ≤ c.maxMultiplier, cycles * c.mult < usizeCard) {a : ClockAct}
    (hcond : Apart s a) (hstep : step p c a s = some t) : Inv c t := by
  cases a with
  | readCycles i update cycles =>
    obtain ⟨⟨-, hcounter, hmax⟩, ⟨⟩⟩ := Option.ite_none_right_eq_some.mp hstep
    exact h.readCycles hcounter hmax hcond
  | lastCycles i =>
    simp only [Clock.step] at hstep
    split at hstep
    · rename_i hi
      cases hstep
      exact h.lastCycles hi
    · cases hstep
  | lastInstant i =>
    simp only [Clock.step] at hstep
    split at hstep
    · rename_i hi
      obtain ⟨instant, hcalc, rfl⟩ := Option.map_eq_some_iff.mp hstep
      exact h.compute hfits hi hcalc
    · rename_i hi
      obtain ⟨instant, hcalc, rfl⟩ := Option.map_eq_some_iff.mp hstep
      exact h.returnInstant hfits hi hcalc
    · cases hstep
  | updateLastCycles i =>
    simp only [Clock.step] at hstep
    split at hstep
    · rename_i hi
      cases hstep
      exact h.updateLastCycles hi
    · cases hstep
  | updateLastInstant i =>
    simp only [Clock.step] at hstep
    split at hstep
    · rename_i hi
      cases hstep
      exact h.updateLastInstant hi
    · cases hstep

end

/-! ## Whole runs -/

/-- While no update overlaps another call, a call of `read_instant` does not return less than what any call has
returned before it started, and no difference of cycles underflows. -/
theorem clock_monotone (p : Profile) (config : ClockConfig) (threads cycles : Nat) {s : Clock}
    (h : Run (step p config.coeff) Apart (calibrated threads cycles) s) : Monotone s :=
  (Run.invariant (I := Inv config.coeff) (inv_calibrated config.coeff threads cycles)
    (fun _ _ _ hs hcond hstep => hs.step (fun _ => config.coeff_fits) hcond hstep) h).monotone

/-- A counter of 1 GHz that is read at least every 10 seconds. -/
def exampleClock : ClockConfig := ⟨1000000000, 10, by decide, by decide, by decide⟩

/-- A read, an update and a read, one after the other. -/
theorem clock_monotone_three : ∃ s, Run (step .dev exampleClock.coeff) Apart (calibrated 1 100) s ∧ Monotone s ∧
    s.reads = [(5, 9), (0, 5)] := by
  refine Run.checked_and [.readCycles 0 false 105, .lastCycles 0, .lastInstant 0,
    .readCycles 0 true 107, .lastCycles 0, .lastInstant 0, .updateLastCycles 0, .updateLastInstant 0,
    .readCycles 0 false 109, .lastCycles 0, .lastInstant 0] ?_ fun s => clock_monotone .dev exampleClock 1 100
  decide +kernel

/-- A read between the two stores of an update takes the new cycles with the old instant: it returns less than a read
before it. -/
theorem clock_goes_back : ∃ s, Run (step .dev exampleClock.coeff) (fun _ _ => True) (calibrated 2 100) s ∧
    s.reads = [(5, 2), (0, 5)] := by
  refine Run.checked [.readCycles 0 false 105, .lastCycles 0, .lastInstant 0,
    .readCycles 0 true 107, .lastCycles 0, .lastInstant 0, .updateLastCycles 0,
    .readCycles 1 false 109, .lastCycles 1, .lastInstant 1] ?_
  decide +kernel

end Clock
end AsterKernel.Time
