import Mathlib.Tactic

/-!
# `Lib.Outcome` — fallible, panicking, stateful computations

A call of an imperative program ends in one of three ways: it returns a value, it returns an error, or
it panics. In the first two cases the mutations it made are visible to the caller, so both carry the
state; a panic stops the whole system and carries nothing.

## Contents
- **`Outcome` / `Comp`.** The result of a call, and the state-passing monad over it.
- **Inversion.** `bind_ok` / `bind_err` peel a sequence apart into its calls.
- **Triples.** `Triple P m Q E` — from a state in `P`, a return of `m` satisfies `Q` and an error of `m`
  leaves a state in `E` (a panic satisfies everything); with the sequencing and loop rules.
-/

namespace Lib

/-- How a call ends. Mutations survive an error return, so `err` carries the state as well. -/
inductive Outcome (σ ε α : Type) where
  | ok (a : α) (s : σ)
  | err (e : ε) (s : σ)
  | panic
deriving DecidableEq, Repr

/-- The state that a call leaves behind, whether it returns a value or an error. -/
def Outcome.final {σ ε α : Type} : Outcome σ ε α → Option σ
  | .ok _ s => some s
  | .err _ s => some s
  | .panic => none

/-- A computation over the state `σ`. -/
def Comp (σ ε α : Type) : Type := σ → Outcome σ ε α

namespace Comp

variable {σ τ ε α β : Type}

instance : Monad (Comp σ ε) where
  pure a := fun s => .ok a s
  bind m f := fun s =>
    match m s with
    | .ok a s' => f a s'
    | .err e s' => .err e s'
    | .panic => .panic

/-- Return an error, keeping the state. -/
def fail (e : ε) : Comp σ ε α := fun s => .err e s

/-- Stop the system. -/
def abort : Comp σ ε α := fun _ => .panic

/-- `assert!`: panic unless `b`. -/
def assert (b : Bool) : Comp σ ε Unit := if b then pure () else abort

def get : Comp σ ε σ := fun s => .ok s s

def set (s : σ) : Comp σ ε Unit := fun _ => .ok () s

def modify (f : σ → σ) : Comp σ ε Unit := fun s => .ok () (f s)

/-- A conditional statement. -/
def when (b : Bool) (c : Comp σ ε Unit) : Comp σ ε Unit := if b then c else pure ()

/-- `let _ = m`: an error of `m` is dropped, the mutations it made stay. -/
def ignoreErr (m : Comp σ ε α) : Comp σ ε Unit := fun s =>
  match m s with
  | .ok _ s' => .ok () s'
  | .err _ s' => .ok () s'
  | .panic => .panic

/-- `m.unwrap()`: an error panics. -/
def unwrap (m : Comp σ ε α) : Comp σ ε α := fun s =>
  match m s with
  | .ok a s' => .ok a s'
  | .err _ _ => .panic
  | .panic => .panic

/-- A value that is there, or a panic. -/
def expect (v : Option α) : Comp σ ε α :=
  match v with
  | some a => pure a
  | none => abort

/-- A `for` loop that stops at the first error. -/
def forEach : List β → (β → Comp σ ε Unit) → Comp σ ε Unit
  | [], _ => pure ()
  | b :: bs, f => fun s =>
    match f b s with
    | .ok _ s' => forEach bs f s'
    | .err e s' => .err e s'
    | .panic => .panic

/-- Run a computation on one component `τ` of the state (`view` reads it, `put` writes it back). -/
def zoom (view : σ → τ) (put : τ → σ → σ) (m : Comp τ ε α) : Comp σ ε α := fun s =>
  match m (view s) with
  | .ok a t => .ok a (put t s)
  | .err e t => .err e (put t s)
  | .panic => .panic

/-! ## Inversion -/

variable {a : α} {s t : σ} {v : Option α} {e : ε} {m : Comp σ ε α} {f : α → Comp σ ε β} {u : Unit} {b : Bool}
variable {c : Comp σ ε Unit} {put : τ → σ → σ} {bs : List β} {Q : α → σ → Prop} {I : List β → σ → Prop} {view : σ → τ}
  {s' : σ}

theorem pure_ok {b : α} : (pure a : Comp σ ε α) s = .ok b s' ↔ a = b ∧ s = s' := by
  show Outcome.ok a s = .ok b s' ↔ _
  simp

theorem pure_apply (a : α) (s : σ) : (pure a : Comp σ ε α) s = .ok a s := rfl

theorem expect_some (a : α) (s : σ) : (expect (some a) : Comp σ ε α) s = .ok a s := rfl

theorem expect_ok : (expect v : Comp σ ε α) s = .ok a t ↔ v = some a ∧ s = t := by
  cases v with
  | none => exact ⟨nofun, fun h => by cases h.1⟩
  | some b => exact pure_ok.trans (by simp)

theorem expect_not_err : ¬ (expect v : Comp σ ε α) s = .err e t := by
  cases v with
  | none | some b => nofun

theorem bind_eq (m : Comp σ ε α) (f : α → Comp σ ε β) (s : σ) : (m >>= f) s = match m s with
      | .ok a s' => f a s'
      | .err e s' => .err e s'
      | .panic => .panic := rfl

/-- A sequence returns exactly when both of its parts do. -/
theorem bind_of_ok (h : m s = .ok a t) : (m >>= f) s = f a t := by rw [bind_eq, h]

theorem bind_ok {b : β} : (m >>= f) s = .ok b t ↔ ∃ a s', m s = .ok a s' ∧ f a s' = .ok b t := by
  rw [bind_eq]
  cases h : m s with
  | ok a s' | err e s' | panic => simp

/-- A sequence fails in its first part, or in its second part after the first returned. -/
theorem bind_err : (m >>= f) s = .err e t ↔ m s = .err e t ∨ ∃ a s', m s = .ok a s' ∧ f a s' = .err e t := by
  rw [bind_eq]
  cases h : m s with
  | ok a s' | err e' s' | panic => simp

theorem bind_congr_ok {g : α → Comp σ ε β} (h : ∀ a t, m s = .ok a t → f a t = g a t) : (m >>= f) s = (m >>= g) s := by
  rw [bind_eq, bind_eq]
  cases hm : m s with
  | ok a t => exact h a t hm
  | err e t | panic => rfl

theorem bind_ok_of {R : α → Prop} (hm : ∀ {a t}, m s = .ok a t ↔ R a ∧ s = t) {c : β} :
    (m >>= f) s = .ok c t ↔ ∃ a, R a ∧ f a s = .ok c t := by
  rw [bind_ok]
  constructor
  · rintro ⟨a, s', h, hf⟩
    obtain ⟨ha, rfl⟩ := hm.mp h
    exact ⟨a, ha, hf⟩
  · rintro ⟨a, ha, hf⟩
    exact ⟨a, s, hm.mpr ⟨ha, rfl⟩, hf⟩

-- The next lemmas hold by computation. They are stated through `id` so that `simp` rewrites with them
-- instead of leaving the kernel to compare the two sides by unfolding.
theorem get_bind (f : σ → Comp σ ε β) (s : σ) : ((get : Comp σ ε σ) >>= f) s = f s s := id rfl

theorem pure_bind_apply (a : α) (f : α → Comp σ ε β) (s : σ) : ((pure a : Comp σ ε α) >>= f) s = f a s := id rfl

theorem modify_bind (g : σ → σ) (f : Unit → Comp σ ε β) (s : σ) :
    ((modify g : Comp σ ε Unit) >>= f) s = f () (g s) := id rfl

theorem set_bind (s' : σ) (f : Unit → Comp σ ε β) (s : σ) : ((set s' : Comp σ ε Unit) >>= f) s = f () s' := id rfl

theorem modify_ok {g : σ → σ} : (modify g : Comp σ ε Unit) s = .ok u t ↔ g s = t := by
  show Outcome.ok () (g s) = .ok u t ↔ _
  simp

theorem fail_ok : ¬ (fail e : Comp σ ε α) s = .ok a t := nofun

theorem assert_ok : (assert b : Comp σ ε Unit) s = .ok u t ↔ b = true ∧ s = t := by
  cases b with
  | true => exact ⟨fun h => ⟨rfl, (pure_ok.mp h).2⟩, fun h => pure_ok.mpr ⟨rfl, h.2⟩⟩
  | false => exact ⟨fun h => by simp [assert, abort] at h, fun h => absurd h.1 (by simp)⟩

theorem assert_not_err : ¬ (assert b : Comp σ ε Unit) s = .err e t := by
  cases b with
  | true | false => intro h; cases h

theorem assert_bind_ok {f : Unit → Comp σ ε β} {c : β} :
    ((assert b : Comp σ ε Unit) >>= f) s = .ok c t ↔ b = true ∧ f () s = .ok c t := by
  rw [bind_ok_of assert_ok]
  exact ⟨fun ⟨_, h⟩ => h, fun h => ⟨(), h⟩⟩

theorem when_ok : when b c s = .ok u t ↔ (b = true ∧ c s = .ok u t) ∨ (b = false ∧ t = s) := by
  cases b with
  | true => simp [when]
  | false => simp [when, pure_ok, eq_comm]

theorem when_err : when b c s = .err e t ↔ b = true ∧ c s = .err e t := by
  cases b with
  | true => simp [when]
  | false => exact ⟨nofun, fun h => absurd h.1 (by simp)⟩

theorem guard_bind_ok {f : Unit → Comp σ ε β} {c : β} :
    ((when b (fail e) : Comp σ ε Unit) >>= f) s = .ok c t ↔ b = false ∧ f () s = .ok c t := by
  cases b with
  | true => exact ⟨nofun, fun h => absurd h.1 (by simp)⟩
  | false => exact ⟨fun h => ⟨rfl, h⟩, fun h => h.2⟩

theorem guard_bind_err {e' : ε} {f : Unit → Comp σ ε β} : ((when b (fail e) : Comp σ ε Unit) >>= f) s = .err e' t ↔
      (b = true ∧ e' = e ∧ t = s) ∨ (b = false ∧ f () s = .err e' t) := by
  cases b with
  | true =>
    refine ⟨fun h => ?_, fun h => ?_⟩
    · cases h
      exact .inl ⟨rfl, rfl, rfl⟩
    · obtain ⟨-, rfl, rfl⟩ := h.resolve_right fun h => absurd h.1 (by simp)
      rfl
  | false => exact ⟨fun h => .inr ⟨rfl, h⟩, fun h => (h.resolve_left fun h => absurd h.1 (by simp)).2⟩

theorem guard_ok : (when b (fail e) : Comp σ ε Unit) s = .ok u t ↔ b = false ∧ t = s := by
  rw [when_ok]
  constructor
  · rintro (⟨-, h⟩ | h)
    · exact absurd h fail_ok
    · exact h
  · exact Or.inr

theorem ignoreErr_ok (h : ignoreErr m s = .ok u t) : (∃ a, m s = .ok a t) ∨ ∃ e, m s = .err e t := by
  unfold ignoreErr at h
  cases hm : m s with
  | ok a s' => rw [hm] at h; cases h; exact Or.inl ⟨a, rfl⟩
  | err e s' => rw [hm] at h; cases h; exact Or.inr ⟨e, rfl⟩
  | panic => rw [hm] at h; cases h

theorem zoom_ok {m : Comp τ ε α} : zoom view put m s = .ok a s' ↔ ∃ t, m (view s) = .ok a t ∧ s' = put t s := by
  unfold zoom
  cases h : m (view s) with
  | ok b t => simp [eq_comm]
  | err e t | panic => simp

theorem zoom_err {m : Comp τ ε α} : zoom view put m s = .err e s' ↔ ∃ t, m (view s) = .err e t ∧ s' = put t s := by
  unfold zoom
  cases h : m (view s) with
  | ok b t | panic => simp
  | err e t => simp [eq_comm]

theorem forEach_cons (b : β) (bs : List β) (f : β → Comp σ ε Unit) (s : σ) : forEach (b :: bs) f s = match f b s with
      | .ok _ s' => forEach bs f s'
      | .err e s' => .err e s'
      | .panic => .panic := rfl

theorem forEach_bind (b : β) (bs : List β) (f : β → Comp σ ε Unit) :
    forEach (b :: bs) f = f b >>= fun _ => forEach bs f := by
  funext s
  rw [forEach_cons, bind_eq]
  cases f b s <;> rfl

theorem forEach_cons_ok {b : β} {f : β → Comp σ ε Unit} :
    forEach (b :: bs) f s = .ok u t ↔ ∃ s', f b s = .ok () s' ∧ forEach bs f s' = .ok u t := by
  rw [forEach_bind, bind_ok]
  exact ⟨fun ⟨_, h⟩ => h, fun h => ⟨(), h⟩⟩

theorem bind_final : ((m >>= f) s).final = some t ↔
      (∃ e, m s = .err e t) ∨ ∃ a s', m s = .ok a s' ∧ (f a s').final = some t := by
  rw [bind_eq]
  cases h : m s with
  | ok a s' => simp
  | err e s' => simp [Outcome.final, eq_comm]
  | panic => simp [Outcome.final]

theorem pure_final : ((pure a : Comp σ ε α) s).final = some t ↔ t = s := by
  show some s = some t ↔ _
  simp [eq_comm]

theorem expect_bind_final : ((expect v >>= f) s).final = some t ↔ ∃ a, v = some a ∧ (f a s).final = some t := by
  cases v with
  | none => exact ⟨nofun, fun ⟨_, ha, _⟩ => nomatch ha⟩
  | some a => exact ⟨fun h => ⟨a, rfl, h⟩, fun ⟨_, ha, h⟩ => by cases ha; exact h⟩

theorem guard_bind_final {f : Unit → Comp σ ε β}
    (h : ((when b (fail e) >>= f) s).final = some t) : t = s ∨ (b = false ∧ (f () s).final = some t) := by
  cases b with
  | true =>
    have hs : some s = some t := h
    exact .inl (Option.some.inj hs).symm
  | false => exact .inr ⟨rfl, h⟩

theorem modify_final {f : σ → σ} : ((modify f : Comp σ ε Unit) s).final = some t ↔ t = f s := by
  show some (f s) = some t ↔ _
  rw [Option.some.injEq, eq_comm]

theorem final_cases {o : Outcome σ ε α} (h : o.final = some t) : (∃ a, o = .ok a t) ∨ ∃ e, o = .err e t := by
  cases o with
  | ok a s => cases h; exact Or.inl ⟨a, rfl⟩
  | err e s => cases h; exact Or.inr ⟨e, rfl⟩
  | panic => cases h

theorem zoom_final {m : Comp τ ε α} (h : (zoom view put m s).final = some s') :
    ∃ t, (m (view s)).final = some t ∧ s' = put t s := by
  rcases final_cases h with ⟨a, h⟩ | ⟨e, h⟩
  · obtain ⟨t, ht, rfl⟩ := zoom_ok.mp h
    exact ⟨t, by rw [ht]; rfl, rfl⟩
  · obtain ⟨t, ht, rfl⟩ := zoom_err.mp h
    exact ⟨t, by rw [ht]; rfl, rfl⟩

/-! ## Triples -/

/-- From a state in `P`, a return of `m` satisfies `Q` and an error of `m` leaves a state in `E`. -/
structure Triple (P : σ → Prop) (m : Comp σ ε α) (Q : α → σ → Prop) (E : σ → Prop) : Prop where
  run : ∀ s, P s → match m s with
    | .ok a s' => Q a s'
    | .err _ s' => E s'
    | .panic => True

variable {P P' : σ → Prop} {E E' : σ → Prop}

theorem Triple.of_ok (h : Triple P m Q E) (hs : P s) (hm : m s = .ok a t) : Q a t := by
  have := h.run s hs
  rwa [hm] at this

theorem Triple.of_err (h : Triple P m Q E) (hs : P s) (hm : m s = .err e t) : E t := by
  have := h.run s hs
  rwa [hm] at this

/-- A triple from its two halves: what a return gives and what an error leaves. -/
theorem Triple.intro (hok : ∀ s a t, P s → m s = .ok a t → Q a t) (herr : ∀ s e t, P s → m s = .err e t → E t) :
    Triple P m Q E := by
  refine ⟨fun s hs => ?_⟩
  cases hm : m s with
  | ok a t => exact hok s a t hs hm
  | err e t => exact herr s e t hs hm
  | panic => trivial

theorem Triple.of_final (h : ∀ s t, P s → (m s).final = some t → P t) : Triple P m (fun _ => P) P :=
  Triple.intro (fun s _ t hs hm => h s t hs (by rw [hm]; rfl)) fun s _ t hs hm => h s t hs (by rw [hm]; rfl)

theorem Triple.final (h : Triple P m (fun _ => E) E) (hs : P s) (hm : (m s).final = some t) : E t := by
  rcases final_cases hm with ⟨a, hm⟩ | ⟨e, hm⟩
  · exact h.of_ok hs hm
  · exact h.of_err hs hm

theorem Triple.pure (h : ∀ s, P s → Q a s) : Triple P (Pure.pure a : Comp σ ε α) Q E := ⟨fun s hs => h s hs⟩

theorem Triple.bind {R : α → σ → Prop} {Q : β → σ → Prop} (hm : Triple P m R E)
    (hf : ∀ a, Triple (R a) (f a) Q E) : Triple P (m >>= f) Q E := by
  refine ⟨fun s hs => ?_⟩
  have h1 := hm.run s hs
  rw [bind_eq]
  cases h : m s with
  | ok a s' => rw [h] at h1; exact (hf a).run s' h1
  | err e s' => rw [h] at h1; exact h1
  | panic => trivial

theorem Triple.consequence {Q' : α → σ → Prop} (h : Triple P m Q E) (hP : ∀ s, P' s → P s) (hQ : ∀ a s, Q a s → Q' a s)
    (hE : ∀ s, E s → E' s) : Triple P' m Q' E' := by
  refine ⟨fun s hs => ?_⟩
  have h1 := h.run s (hP s hs)
  cases hm : m s with
  | ok a s' => rw [hm] at h1; exact hQ a s' h1
  | err e s' => rw [hm] at h1; exact hE s' h1
  | panic => trivial

theorem Triple.errs (h : Triple P m Q E) (hE : ∀ s, E s → E' s) : Triple P m Q E' :=
  h.consequence (fun _ => id) (fun _ _ => id) hE

theorem Triple.pre (h : Triple P m Q E) (hP : ∀ s, P' s → P s) : Triple P' m Q E :=
  h.consequence hP (fun _ _ => id) fun _ => id

/-- The loop rule: an invariant kept by every iteration survives the loop. -/
theorem Triple.forEach {f : β → Comp σ ε Unit}
    (hf : ∀ b ∈ bs, Triple P (f b) (fun _ => P) P) : Triple P (Comp.forEach bs f) (fun _ => P) P := by
  induction bs with
  | nil => exact ⟨fun s hs => hs⟩
  | cons b bs ih =>
    rw [forEach_bind]
    exact (hf b (by simp)).bind fun _ => ih fun b' hb' => hf b' (by simp [hb'])

/-- A computation that relates the state before it to the one after it, wherever it ends. -/
def Moves (R : σ → σ → Prop) (c : Comp σ ε α) : Prop := ∀ s t, (c s).final = some t → R s t

section

variable {R : σ → σ → Prop} {c d : Comp σ ε α}

theorem Moves.bind (htrans : ∀ s t u, R s t → R t u → R s u) (hc : Moves R c)
    (hf : ∀ a, Moves R (f a)) : Moves R (c >>= f) := by
  intro s t h
  rcases bind_final.mp h with ⟨e, h⟩ | ⟨a, s', h1, h2⟩
  · exact hc s t (by rw [h]; rfl)
  · exact htrans s s' t (hc s s' (by rw [h1]; rfl)) (hf a s' t h2)

theorem Moves.ite {b : Prop} [Decidable b] (hc : Moves R c) (hd : Moves R d) : Moves R (if b then c else d) := by
  split
  · exact hc
  · exact hd

end

/-- A computation that only reads: wherever it ends, the state is the one it started in. -/
def Reads (c : Comp σ ε α) : Prop := ∀ s t, (c s).final = some t → t = s

theorem Reads.triple {c : Comp σ ε α} (h : Reads c) : Triple P c (fun _ => P) P :=
  Triple.intro (fun s _ t hs hc => h s t (by rw [hc]; rfl) ▸ hs) fun s _ t hs hc => h s t (by rw [hc]; rfl) ▸ hs

theorem Reads.pure (a : α) : Reads (Pure.pure a : Comp σ ε α) := fun _ _ h => pure_final.mp h

theorem Reads.fail (e : ε) : Reads (Comp.fail e : Comp σ ε α) := fun s t h => by
  have : some s = some t := h
  exact (Option.some.inj this).symm

theorem Reads.abort : Reads (Comp.abort : Comp σ ε α) := fun _ _ h => by cases h

theorem Reads.get : Reads (Comp.get : Comp σ ε σ) := fun s t h => by
  have : some s = some t := h
  exact (Option.some.inj this).symm

theorem Reads.bind {c : Comp σ ε α} (hc : Reads c) (hf : ∀ a, Reads (f a)) : Reads (c >>= f) :=
  Moves.bind (R := fun s t => t = s) (fun _ _ _ h₁ h₂ => h₂.trans h₁) hc hf

theorem Reads.bind_final {c : Comp σ ε α} (hc : Reads c) (h : ((c >>= f) s).final = some t) :
    t = s ∨ ∃ a, c s = .ok a s ∧ (f a s).final = some t := by
  rcases Comp.bind_final.mp h with ⟨e, herr⟩ | ⟨a, u, hok, hrest⟩
  · exact .inl (hc s t (by rw [herr]; rfl))
  · obtain rfl := hc s u (by rw [hok]; rfl)
    exact .inr ⟨a, hok, hrest⟩

/-- What only reads does not change where a computation ends. -/
theorem Reads.final_of_bind {c : Comp σ ε α} (hf : ∀ a, Reads (f a)) (h : ((c >>= f) s).final = some t) :
    (c s).final = some t := by
  rcases Comp.bind_final.mp h with ⟨e, herr⟩ | ⟨a, u, hok, h⟩
  · rw [herr]
    rfl
  · rw [hf a u t h, hok]
    rfl

theorem Reads.ite {b : Prop} [Decidable b] {c d : Comp σ ε α} (hc : Reads c) (hd : Reads d) :
    Reads (if b then c else d) := Moves.ite hc hd

theorem Reads.assert (b : Bool) : Reads (Comp.assert b : Comp σ ε Unit) :=
  Reads.ite (Reads.pure ()) Reads.abort

theorem Reads.when (hc : Reads c) : Reads (when b c) := Reads.ite hc (Reads.pure ())

theorem Reads.expect (v : Option α) : Reads (Comp.expect v : Comp σ ε α) := by
  cases v with
  | none => exact Reads.abort
  | some a => exact Reads.pure a

/-- A computation that keeps a part of the state, wherever it ends. -/
def Keeps {τ : Type} (part : σ → τ) (c : Comp σ ε α) : Prop := ∀ s t, (c s).final = some t → part t = part s

section Keeps

variable {τ : Type} {part : σ → τ}

variable {c : Comp σ ε α}

theorem Reads.keeps (h : Reads c) : Keeps part c := fun s t hc => congrArg part (h s t hc)

theorem Keeps.bind (hc : Keeps part c) (hf : ∀ a, Keeps part (f a)) : Keeps part (c >>= f) :=
  Moves.bind (R := fun s t => part t = part s) (fun _ _ _ h₁ h₂ => h₂.trans h₁) hc hf

theorem Keeps.ite {b : Prop} [Decidable b] {d : Comp σ ε α} (hc : Keeps part c) (hd : Keeps part d) :
    Keeps part (if b then c else d) := Moves.ite hc hd

theorem Keeps.when {c : Comp σ ε Unit} (hc : Keeps part c) : Keeps part (when b c) :=
  Keeps.ite hc (Reads.pure ()).keeps

theorem Keeps.modify {g : σ → σ} (hg : ∀ s, part (g s) = part s) : Keeps part (Comp.modify g : Comp σ ε Unit) :=
  fun s t h => by rw [modify_final.mp h, hg]

theorem Keeps.forEach {f : β → Comp σ ε Unit} (hf : ∀ b, Keeps part (f b)) : Keeps part (Comp.forEach bs f) := by
  induction bs with
  | nil => exact (Reads.pure ()).keeps
  | cons b bs ih =>
    rw [forEach_bind]
    exact (hf b).bind fun _ => ih

end Keeps

section Moves

variable {R : σ → σ → Prop} {c : Comp σ ε α}

theorem Reads.moves (hrefl : ∀ s, R s s) (h : Reads c) : Moves R c := fun s t hc => by
  rw [h s t hc]
  exact hrefl s

theorem Moves.when {c : Comp σ ε Unit} (hrefl : ∀ s, R s s) (hc : Moves R c) : Moves R (when b c) :=
  Moves.ite hc ((Reads.pure ()).moves hrefl)

theorem Moves.modify {g : σ → σ} (hg : ∀ s, R s (g s)) : Moves R (Comp.modify g : Comp σ ε Unit) :=
  fun s t h => by
    rw [modify_final.mp h]
    exact hg s

/-- A computation on a part of the state. -/
theorem Moves.zoom {S : τ → τ → Prop} {view : σ → τ} {c : Comp τ ε α} (hc : Moves S c)
    (hput : ∀ s t, S (view s) t → R s (put t s)) : Moves R (Comp.zoom view put c) := by
  intro s t h
  obtain ⟨u, hu, rfl⟩ := zoom_final h
  exact hput s u (hc _ u hu)

end Moves

/-- A loop returns when every iteration does, with an invariant that speaks about the elements that remain. -/
theorem forEach_succeeds {f : β → Comp σ ε Unit} (hf : ∀ b rest s, I (b :: rest) s → ∃ t, f b s = .ok () t ∧ I rest t)
    (h : I bs s) : ∃ t, Comp.forEach bs f s = .ok () t ∧ I [] t := by
  induction bs generalizing s with
  | nil => exact ⟨s, rfl, h⟩
  | cons b bs ih =>
    obtain ⟨t, hb, ht⟩ := hf b bs s h
    obtain ⟨u, hrest, hu⟩ := ih ht
    exact ⟨u, forEach_cons_ok.mpr ⟨t, hb, hrest⟩, hu⟩

theorem forEach_not_err {f : β → Comp σ ε Unit} (hf : ∀ b s t e, ¬ f b s = .err e t) :
    ¬ Comp.forEach bs f s = .err e t := by
  induction bs generalizing s with
  | nil => exact nofun
  | cons b bs ih =>
    intro h
    rw [forEach_bind] at h
    rcases bind_err.mp h with h | ⟨_, s', -, h⟩
    · exact hf b s t e h
    · exact ih h

theorem Triple.get {f : σ → Comp σ ε β} {Q : β → σ → Prop} (hf : ∀ s, P s → Triple (fun t => t = s) (f s) Q E) :
    Triple P (Comp.get >>= f) Q E := by
  refine ⟨fun s hs => ?_⟩
  rw [get_bind]
  exact (hf s hs).run s rfl

/-- The loop rule with an invariant that speaks about the elements that remain. -/
theorem Triple.forEachRest {f : β → Comp σ ε Unit} (hf : ∀ b rest, Triple (I (b :: rest)) (f b) (fun _ => I rest) E)
    (bs : List β) : Triple (I bs) (Comp.forEach bs f) (fun _ => I []) E := by
  induction bs with
  | nil => exact ⟨fun s hs => hs⟩
  | cons b bs ih =>
    rw [forEach_bind]
    exact (hf b bs).bind fun _ => ih

end Comp
end Lib
