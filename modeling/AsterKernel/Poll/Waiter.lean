import AsterKernel.Poll.Pollee

/-!
# `Poll.Waiter` — threads that wait for a pollee

What a step of a call does is said once (`Acted`); where a call of `poll`, of the drop of a poller or of `add_events` is
follows from it. A thread whose last `poll` has found no events is owed a notification of every event of its mask that is
set later: a call of `add_events` is on its way to it, or it has been counted.
-/

namespace AsterKernel

open Function BitVec

/-! ## Steps of the pollee -/

variable {s s' : Pollee}

namespace Poll.Pollee

variable {t u : Nat}

theorem acquire_eq {call : Call} (h : s.acquire t call = some s') : s' = { s.put t call with lock := some t } := by
  unfold acquire at h
  split at h
  · exact (Option.some.inj h).symm
  · cases h

theorem wait_eq (h : s.wait t = some s') :
    s' = { s with counter := update s.counter t 0, taken := update s.taken t true } :=
  (Option.some.inj (Option.ite_none_right_eq_some.mp h).2).symm

/-- Where a step of a call leads. -/
inductive Next (t : Nat) : Call → Call → Prop
  | pollEarly (mask : IoEvents) : Next t (.pollFirst mask) .idle
  | pollRegister (mask : IoEvents) : Next t (.pollFirst mask) (.registerLock (.poller t) mask)
  | pollLast (mask : IoEvents) : Next t (.pollLast mask) .idle
  | registerLock (o : Observer) (mask : IoEvents) : Next t (.registerLock o mask) (.registerInsert o mask)
  | registerOld (o : Observer) (mask : IoEvents) : Next t (.registerInsert o mask) (.registerUnlock o mask)
  | registerNew (o : Observer) (mask : IoEvents) : Next t (.registerInsert o mask) (.registerCount o mask)
  | registerCount (o : Observer) (mask : IoEvents) : Next t (.registerCount o mask) (.registerUnlock o mask)
  | registerPoller (v : Nat) (mask : IoEvents) : Next t (.registerUnlock (.poller v) mask) (.pollLast mask)
  | registerOther (n : Nat) (mask : IoEvents) : Next t (.registerUnlock (.other n) mask) .idle
  | unregisterLock (o : Observer) : Next t (.unregisterLock o) (.unregisterRemove o)
  | unregisterFound (o : Observer) : Next t (.unregisterRemove o) (.unregisterCount o)
  | unregisterMissing (o : Observer) : Next t (.unregisterRemove o) (.unregisterUnlock o)
  | unregisterCount (o : Observer) : Next t (.unregisterCount o) (.unregisterUnlock o)
  | unregisterUnlock (o : Observer) : Next t (.unregisterUnlock o) .idle
  | addSet (events : IoEvents) (c : Notified) : Next t (.addSet events) (.addCount events c)
  | addNobody (events : IoEvents) (c : Notified) : Next t (.addCount events c) (.added events c)
  | addSome (events : IoEvents) (c : Notified) : Next t (.addCount events c) (.addLock events c)
  | addLock (events : IoEvents) (c : Notified) (rest : Table) : Next t (.addLock events c)
      (.addVisit events c [] rest)
  | addVisit (events : IoEvents) (c c' : Notified) (kept kept' : Table) (entry : Observer × IoEvents) (rest : Table) :
      Next t (.addVisit events c kept (entry :: rest)) (.addVisit events c' kept' rest)
  | addUnlock (events : IoEvents) (c : Notified) (kept : Table) : Next t (.addVisit events c kept [])
      (.added events c)
  | delClear (events : IoEvents) : Next t (.delClear events) .idle

/-- What a step of a thread does: it goes on with its call, only `poll` changes its result and only `add_events` and
`del_events` change the events. Of other threads only the counters change, and these grow. -/
structure Acted (t : Nat) (s s' : Pollee) : Prop where
  next : Next t (s.calls t) (s'.calls t)
  events : (∀ events, s.calls t ≠ .addSet events) → (∀ events, s.calls t ≠ .delClear events) → s'.events = s.events
  polled : (∀ mask, s.calls t ≠ .pollFirst mask) → (∀ mask, s.calls t ≠ .pollLast mask) → s'.polled t = s.polled t
  counter : (∀ o, s.calls t ≠ .unregisterUnlock o) → s.counter t ≤ s'.counter t
  others : ∀ u, u ≠ t → s'.calls u = s.calls u ∧ s'.polled u = s.polled u ∧ s.counter u ≤ s'.counter u

/-- A step that leaves events, results and counters alone. -/
theorem Acted.plain {call call' : Call} (hc : s.calls t = call) (hnext : Next t call call')
    (hcalls : s'.calls = update s.calls t call') (hevents : s'.events = s.events)
    (hpolled : s'.polled = s.polled) (hcounter : s'.counter = s.counter) : Acted t s s' where
  next := by
    rw [hcalls, update_self, hc]
    exact hnext
  events := fun _ _ => hevents
  polled := fun _ _ => by rw [hpolled]
  counter := fun _ => Nat.le_of_eq (by rw [hcounter])
  others := fun u hu => ⟨by rw [hcalls, update_of_ne hu], by rw [hpolled], Nat.le_of_eq (by rw [hcounter])⟩

/-- What a step of a call does. -/
theorem act_acted (h : s.act t = some s') : Acted t s s' := by
  have hself : ∀ call, (s.put t call).calls t = call := fun call => update_self ..
  have hput : ∀ {u} call, u ≠ t → (s.put t call).calls u = s.calls u := fun call hne => update_of_ne hne ..
  unfold act at h
  generalize hc : s.calls t = call at h ⊢
  cases call with
  | idle | added => cases h
  | pollFirst mask =>
    dsimp only at h
    split at h
    · cases h
      exact ⟨by rw [hc]; exact (hself .idle).symm ▸ .pollEarly mask, fun _ _ => rfl, fun hnot => absurd hc (hnot mask), fun _ => Nat.le_refl _,
        fun u hu => ⟨hput _ hu, update_of_ne hu .., Nat.le_refl _⟩⟩
    · cases h
      exact .plain hc (.pollRegister mask) rfl rfl rfl rfl
  | pollLast mask =>
    cases h
    exact ⟨by rw [hc]; exact (hself .idle).symm ▸ .pollLast mask, fun _ _ => rfl, fun _ hnot => absurd hc (hnot mask), fun _ => Nat.le_refl _,
      fun u hu => ⟨hput _ hu, update_of_ne hu .., Nat.le_refl _⟩⟩
  | registerLock o mask =>
    obtain rfl := acquire_eq h
    exact .plain hc (.registerLock o mask) rfl rfl rfl rfl
  | registerInsert o mask =>
    cases h
    refine .plain hc ?_ rfl rfl rfl rfl
    split
    · exact .registerOld o mask
    · exact .registerNew o mask
  | registerCount o mask =>
    cases h
    exact .plain hc (.registerCount o mask) rfl rfl rfl rfl
  | registerUnlock o mask =>
    cases h
    refine .plain hc ?_ rfl rfl rfl rfl
    cases o with
    | poller v => exact .registerPoller v mask
    | other n => exact .registerOther n mask
  | unregisterLock o =>
    obtain rfl := acquire_eq h
    exact .plain hc (.unregisterLock o) rfl rfl rfl rfl
  | unregisterRemove o =>
    dsimp only at h
    split at h
    · cases h
      exact .plain hc (.unregisterFound o) rfl rfl rfl rfl
    · cases h
      exact .plain hc (.unregisterMissing o) rfl rfl rfl rfl
  | unregisterCount o =>
    cases h
    exact .plain hc (.unregisterCount o) rfl rfl rfl rfl
  | unregisterUnlock o =>
    cases h
    refine ⟨by rw [hc]; exact (hself .idle).symm ▸ .unregisterUnlock o, fun _ _ => rfl, fun _ _ => rfl, fun hnot => absurd hc (hnot o),
      fun u hu => ⟨hput _ hu, rfl, ?_⟩⟩
    cases o with
    | poller v => exact Nat.le_of_eq (update_of_ne hu ..).symm
    | other n => exact Nat.le_refl _
  | addSet events =>
    cases h
    exact ⟨by rw [hc]; exact (hself _).symm ▸ .addSet events _, fun hnot => absurd hc (hnot events), fun _ _ => rfl, fun _ => Nat.le_refl _,
      fun u hu => ⟨hput _ hu, rfl, Nat.le_refl _⟩⟩
  | addCount events c =>
    cases h
    refine .plain hc ?_ rfl rfl rfl rfl
    split
    · exact .addNobody events c
    · exact .addSome events c
  | addLock events c =>
    obtain rfl := acquire_eq h
    exact .plain hc (.addLock events c _) rfl rfl rfl rfl
  | delClear events =>
    cases h
    exact ⟨by rw [hc]; exact (hself .idle).symm ▸ .delClear events, fun _ hnot => absurd hc (hnot events), fun _ _ => rfl, fun _ => Nat.le_refl _,
      fun u hu => ⟨hput _ hu, rfl, Nat.le_refl _⟩⟩
  | addVisit events c kept rest =>
    cases rest with
    | nil =>
      cases h
      exact .plain hc (.addUnlock events c kept) rfl rfl rfl rfl
    | cons entry rest =>
      obtain ⟨o, mask⟩ := entry
      dsimp only at h
      split at h
      case isFalse =>
        cases h
        exact .plain hc (.addVisit ..) rfl rfl rfl rfl
      case isTrue =>
        split at h
        case isFalse =>
          cases h
          exact .plain hc (.addVisit ..) rfl rfl rfl rfl
        case isTrue =>
          cases h
          cases o with
          | other n => exact .plain hc (.addVisit ..) rfl rfl rfl rfl
          | poller v =>
            have hup := le_update_succ s.counter v
            exact ⟨by rw [hc]; exact (hself _).symm ▸ .addVisit .., fun _ _ => rfl, fun _ _ => rfl, fun _ => hup t,
              fun u hu => ⟨hput _ hu, rfl, hup u⟩⟩

end Poll.Pollee

namespace Poll

/-! ## Where a call is -/

/-- The result of a `poll`. -/
def Result (mask : IoEvents) (polled : Polled) : Prop :=
  ∃ revents, polled = .late mask revents ∨ polled = .early mask revents

/-- The calls of `poll`. -/
inductive Polling (t : Nat) (mask : IoEvents) (polled : Polled) : Call → Prop
  | first : Polling t mask polled (.pollFirst mask)
  | lock : Polling t mask polled (.registerLock (.poller t) mask)
  | insert : Polling t mask polled (.registerInsert (.poller t) mask)
  | count : Polling t mask polled (.registerCount (.poller t) mask)
  | unlock : Polling t mask polled (.registerUnlock (.poller t) mask)
  | last : Polling t mask polled (.pollLast mask)
  | done (h : Result mask polled) : Polling t mask polled .idle

/-- The calls of the drop of a poller. -/
inductive Dropping (t : Nat) : Call → Prop
  | lock : Dropping t (.unregisterLock (.poller t))
  | remove : Dropping t (.unregisterRemove (.poller t))
  | count : Dropping t (.unregisterCount (.poller t))
  | unlock : Dropping t (.unregisterUnlock (.poller t))
  | done : Dropping t .idle

/-- The calls of `add_events`. -/
inductive Adding (events : IoEvents) : Call → Prop
  | set : Adding events (.addSet events)
  | count (c : Notified) : Adding events (.addCount events c)
  | lock (c : Notified) : Adding events (.addLock events c)
  | visit (c : Notified) (kept rest : Table) : Adding events (.addVisit events c kept rest)
  | done (c : Notified) : Adding events (.added events c)

theorem Adding.start (s : Pollee) (t : Nat) (events : IoEvents) :
    Adding events ((s.start t (.addEvents events)).calls t) := by
  rw [show (s.start t (.addEvents events)).calls t = .addSet events from update_self ..]
  exact .set

variable {mask : IoEvents} {t : Nat}

section

theorem act_of_returned (hreturned : (s.calls t).returned = true) : s.act t = none := by
  unfold Pollee.act
  cases hc : s.calls t with
  | idle | added => rfl
  | _ =>
    rw [hc] at hreturned
    cases hreturned

theorem Dropping.act (hcall : Dropping t (s.calls t)) (h : s.act t = some s') :
    Dropping t (s'.calls t) ∧ s'.polled t = s.polled t ∧ s'.events = s.events := by
  have hacted := Pollee.act_acted h
  refine ⟨?_, hacted.polled ?_ ?_, hacted.events ?_ ?_⟩
  · have hnext := hacted.next
    generalize s.calls t = call at hnext hcall
    generalize s'.calls t = call' at hnext
    cases hcall <;> cases hnext <;> constructor
  all_goals
    intro x hx
    rw [hx] at hcall
    cases hcall

theorem act_pollFirst (hcall : s.calls t = .pollFirst mask) (h : s.act t = some s') :
    s'.calls t = .idle ∧ s'.polled t = .early mask (s.events &&& mask) ∨
      s'.calls t = .registerLock (.poller t) mask ∧ s'.polled = s.polled := by
  unfold Pollee.act at h
  rw [hcall] at h
  dsimp only at h
  split at h
  · cases h
    exact .inl ⟨update_self .., update_self ..⟩
  · cases h
    exact .inr ⟨update_self .., rfl⟩

theorem act_pollLast (hcall : s.calls t = .pollLast mask) (h : s.act t = some s') : s'.calls t = .idle ∧
    s'.polled = update s.polled t (.late mask (s.events &&& mask)) ∧ s'.taken = update s.taken t false ∧
      s'.counter = s.counter := by
  unfold Pollee.act at h
  rw [hcall] at h
  cases h
  exact ⟨update_self .., rfl, rfl, rfl⟩

theorem Polling.act (hcall : Polling t mask (s.polled t) (s.calls t)) (h : s.act t = some s') :
    Polling t mask (s'.polled t) (s'.calls t) ∧ s'.events = s.events ∧
      (s'.calls t = .idle → s'.polled t = .late mask 0 → s.events &&& mask = 0) := by
  have hacted := Pollee.act_acted h
  have hevents : s'.events = s.events := by
    refine hacted.events ?_ ?_
    all_goals
      intro x hx
      rw [hx] at hcall
      cases hcall
  have hnext := hacted.next
  generalize hc : s.calls t = call at hcall hnext
  cases hcall with
  | first =>
    rcases act_pollFirst hc h with ⟨hidle, hearly⟩ | ⟨hlock, -⟩
    · rw [hidle]
      exact ⟨.done ⟨_, .inr hearly⟩, hevents, fun _ hlate => (nomatch hearly.symm.trans hlate)⟩
    · rw [hlock]
      exact ⟨.lock, hevents, nofun⟩
  | last =>
    obtain ⟨hidle, hpolled, -⟩ := act_pollLast hc h
    rw [hidle, hpolled, update_self]
    exact ⟨.done ⟨_, .inl rfl⟩, hevents, fun _ hlate => (Polled.late.inj hlate).2⟩
  | done =>
    unfold Pollee.act at h
    rw [hc] at h
    cases h
  | lock =>
    generalize s'.calls t = call' at hnext ⊢
    cases hnext
    exact ⟨.insert, hevents, nofun⟩
  | insert =>
    generalize s'.calls t = call' at hnext ⊢
    cases hnext with
    | registerOld => exact ⟨.unlock, hevents, nofun⟩
    | registerNew => exact ⟨.count, hevents, nofun⟩
  | count =>
    generalize s'.calls t = call' at hnext ⊢
    cases hnext
    exact ⟨.unlock, hevents, nofun⟩
  | unlock =>
    generalize s'.calls t = call' at hnext ⊢
    cases hnext
    exact ⟨.last, hevents, nofun⟩

variable {events : IoEvents}

section

variable (hcall : Adding events (s.calls t)) (h : s.act t = some s')
include hcall h

theorem Adding.act : Adding events (s'.calls t) := by
  have hnext := (Pollee.act_acted h).next
  generalize s.calls t = call at hnext hcall
  generalize s'.calls t = call' at hnext
  cases hcall <;> cases hnext <;> constructor

/-- Only the first step of `add_events` changes the events. -/
theorem Adding.act_events (hset : s.calls t ≠ .addSet events) : s'.events = s.events := by
  refine (Pollee.act_acted h).events (fun e hx => ?_) fun e hx => ?_
  · rw [hx] at hcall
    cases hcall
    exact hset hx
  · rw [hx] at hcall
    cases hcall

end

theorem act_addSet (hcall : s.calls t = .addSet events) (h : s.act t = some s') :
    s'.events = s.events ||| events ∧ ∃ c, s'.calls t = .addCount events c := by
  unfold Pollee.act at h
  rw [hcall] at h
  cases h
  exact ⟨rfl, _, update_self ..⟩

theorem act_delClear (hcall : s.calls t = .delClear events) (h : s.act t = some s') :
    s'.events = s.events &&& ~~~events ∧ s'.calls t = .idle := by
  unfold Pollee.act at h
  rw [hcall] at h
  cases h
  exact ⟨rfl, update_self ..⟩

theorem act_taken (h : s.act t = some s') (hlast : ∀ mask, s.calls t ≠ .pollLast mask) : s'.taken = s.taken := by
  unfold Pollee.act at h
  cases hc : s.calls t <;> rw [hc] at h <;> dsimp only at h
  case pollLast mask => exact absurd hc (hlast mask)
  case idle => cases h
  case added => cases h
  case registerLock => rw [Pollee.acquire_eq h]; rfl
  case unregisterLock => rw [Pollee.acquire_eq h]; rfl
  case addLock => rw [Pollee.acquire_eq h]; rfl
  case pollFirst => split at h <;> cases h <;> rfl
  case unregisterRemove => split at h <;> cases h <;> rfl
  case addVisit events c kept rest =>
    cases rest with
    | nil => cases h; rfl
    | cons entry rest =>
      obtain ⟨o, m⟩ := entry
      dsimp only at h
      split at h
      · split at h <;> cases h
        · cases o <;> rfl
        · rfl
      · cases h; rfl
  all_goals
    cases h
    rfl

theorem Polling.act_taken (h : s.act t = some s')
    (htaken : ∀ revents, s.polled t = .late mask revents → s.taken t = false) :
    ∀ revents, s'.polled t = .late mask revents → s'.taken t = false := by
  intro revents hlate
  by_cases hlast : ∃ m, s.calls t = .pollLast m
  · obtain ⟨m, hlast⟩ := hlast
    rw [(act_pollLast hlast h).2.2.1, update_self]
  · have hlast' : ∀ m, s.calls t ≠ .pollLast m := fun m hm => hlast ⟨m, hm⟩
    rw [Poll.act_taken h hlast']
    by_cases hfirst : ∃ m, s.calls t = .pollFirst m
    · obtain ⟨m, hfirst⟩ := hfirst
      rcases act_pollFirst hfirst h with ⟨-, hearly⟩ | ⟨-, hpolled⟩
      · cases hearly.symm.trans hlate
      · rw [hpolled] at hlate
        exact htaken revents hlate
    · rw [(Pollee.act_acted h).polled (fun m hm => hfirst ⟨m, hm⟩) hlast'] at hlate
      exact htaken revents hlate

theorem act_taken_of_ne {u : Nat} (h : s.act t = some s') (hu : u ≠ t) : s'.taken u = s.taken u := by
  by_cases hlast : ∃ mask, s.calls t = .pollLast mask
  · obtain ⟨mask, hlast⟩ := hlast
    rw [(act_pollLast hlast h).2.2.1, update_of_ne hu]
  · rw [act_taken h fun mask hmask => hlast ⟨mask, hmask⟩]

theorem act_bits {e : IoEvents} (h : s.act t = some s') (he : s.events &&& e ≠ 0)
    (hdel : ∀ events, s.calls t = .delClear events → ~~~events &&& e = e) : s'.events &&& e ≠ 0 := by
  by_cases hset : ∃ events, s.calls t = .addSet events
  · obtain ⟨events, hset⟩ := hset
    rw [(act_addSet hset h).1, BitVec.and_comm, BitVec.and_or_distrib_left, BitVec.and_comm]
    intro hzero
    exact he (or_eq_zero_iff.mp hzero).1
  · by_cases hclear : ∃ events, s.calls t = .delClear events
    · obtain ⟨events, hclear⟩ := hclear
      rw [(act_delClear hclear h).1, BitVec.and_assoc, hdel events hclear]
      exact he
    · rw [(Pollee.act_acted h).events (fun e he => hset ⟨e, he⟩) fun e he => hclear ⟨e, he⟩]
      exact he

end

/-- The call is about to set events. -/
def Call.isAddSet : Call → Bool
  | .addSet _ => true
  | _ => false

theorem Call.eq_addSet {call : Call} (h : call.isAddSet = true) : ∃ events, call = .addSet events := by
  cases call with
  | addSet events => exact ⟨events, rfl⟩
  | _ => cases h

/-- Events are set by `add_events`. -/
theorem Adding.act_set {events : IoEvents} (hcall : Adding events (s.calls t))
    (hset : (s.calls t).isAddSet = true) (h : s.act t = some s') : s'.events &&& events = events := by
  obtain ⟨events', heq⟩ := Call.eq_addSet hset
  rw [heq] at hcall
  cases hcall
  rw [(act_addSet heq h).1]
  ext i
  simp only [getElem_and, getElem_or, Bool.and_eq_right_iff_imp, Bool.or_eq_true]
  exact .inr

/-! ## Notifications that are due -/

/-- A call of `add_events` that has set events of the mask and has not come to the poller of a thread yet. -/
inductive Due (v : Nat) (mask : IoEvents) : Call → Prop
  | count {events : IoEvents} {c : Notified} (h : mask.intersects events = true) : Due v mask (.addCount events c)
  | lock {events : IoEvents} {c : Notified} (h : mask.intersects events = true) : Due v mask (.addLock events c)
  | visit {events : IoEvents} {c : Notified} {kept rest : Table} (h : mask.intersects events = true)
      (hmem : (.poller v, mask) ∈ rest) : Due v mask (.addVisit events c kept rest)

/-- Events of the mask that were set since the last `poll` have been notified, or will be. -/
def Pollee.Heard (s : Pollee) : Prop :=
  ∀ v mask, s.polled v = .late mask 0 → s.taken v = false → s.events &&& mask ≠ 0 →
    0 < s.counter v ∨ ∃ u, Due v mask (s.calls u)

section

/-- **A notification that is due** comes. -/
theorem Due.act (hinv : s.Inv) {v : Nat} {revents : IoEvents} (hlate : s.polled v = .late mask revents)
    (hdue : Due v mask (s.calls t)) (h : s.act t = some s') : 0 < s'.counter v ∨ Due v mask (s'.calls t) := by
  have hput : ∀ call, (s.put t call).calls t = call := fun call => update_self ..
  unfold Pollee.act at h
  generalize hc : s.calls t = call at hdue
  rw [hc] at h
  cases hdue with
  | count hint =>
    cases h
    have hpos := hinv.numObservers_pos hlate
    right
    rw [hput, if_neg (by omega)]
    exact .lock hint
  | lock hint =>
    obtain rfl := Pollee.acquire_eq h
    right
    show Due v mask ((s.put t _).calls t)
    rw [hput]
    exact .visit hint (hinv.late v mask revents hlate)
  | @visit events c kept rest hint hmem =>
    cases rest with
    | nil => cases hmem
    | cons entry rest =>
      obtain ⟨o, m⟩ := entry
      -- Unless it is this poller's turn, the poller is among the rest.
      have hrest : o ≠ .poller v ∨ m.intersects events = false → (.poller v, mask) ∈ rest := by
        intro hnot
        rcases List.mem_cons.mp hmem with heq | hin
        · obtain ⟨rfl, rfl⟩ := Prod.mk.inj heq
          rcases hnot with hne | hout
          · exact absurd rfl hne
          · rw [hint] at hout
            cases hout
        · exact hin
      dsimp only at h
      split at h
      case isFalse hdead =>
        cases h
        right
        show Due v mask ((s.put t _).calls t)
        rw [hput]
        exact .visit hint (hrest (.inl (by rintro rfl; exact hdead rfl)))
      case isTrue =>
        split at h
        case isFalse hout =>
          cases h
          right
          rw [hput]
          exact .visit hint (hrest (.inr (Bool.eq_false_iff.mpr hout)))
        case isTrue =>
          cases h
          by_cases ho : o = .poller v
          · subst ho
            left
            show 0 < update s.counter v (s.counter v + 1) v
            rw [update_self]
            exact Nat.succ_pos _
          · right
            have hcalls : ((s.put t (.addVisit events (c.hit o) (kept ++ [(o, m)]) rest)).onEvents o).calls t =
                .addVisit events (c.hit o) (kept ++ [(o, m)]) rest := by
              cases o with
              | other n | poller w => exact hput _
            rw [hcalls]
            exact .visit hint (hrest (.inl ho))

theorem Due.not_returned {v : Nat} {call : Call} (h : Due v mask call) : call.returned = false := by
  cases h <;> rfl

theorem IoEvents.or_and_eq_zero {a e : IoEvents} (ha : a &&& mask = 0) (he : mask &&& e = 0) :
    (a ||| e) &&& mask = 0 := by
  rw [BitVec.and_comm, BitVec.and_or_distrib_left, he, BitVec.and_comm, ha]
  rfl

namespace Pollee.Heard

theorem of_step (h : s.Heard) (hothers : ∀ u ≠ t, s'.calls u = s.calls u)
    (hlate : ∀ v mask, s'.polled v = .late mask 0 → s'.taken v = false → s'.events &&& mask ≠ 0 →
      Due v mask (s'.calls t) ∨
        s.polled v = .late mask 0 ∧ s.taken v = false ∧ s.events &&& mask ≠ 0 ∧ s.counter v ≤ s'.counter v)
    (hdue : ∀ v mask, s.polled v = .late mask 0 → Due v mask (s.calls t) →
      0 < s'.counter v ∨ Due v mask (s'.calls t)) : s'.Heard := by
  intro v mask hpolled htaken hevents
  rcases hlate v mask hpolled htaken hevents with hnew | ⟨hpolled, htaken, hevents, hcounter⟩
  · exact .inr ⟨t, hnew⟩
  · rcases h v mask hpolled htaken hevents with hpos | ⟨u, hu⟩
    · exact .inl (Nat.lt_of_lt_of_le hpos hcounter)
    · by_cases hut : u = t
      · subst hut
        exact (hdue v mask hpolled hu).imp_right fun hdue => ⟨u, hdue⟩
      · exact .inr ⟨u, by rw [hothers u hut]; exact hu⟩

theorem act_late (hinv : s.Inv) (h : s.act t = some s') {v : Nat} (hpolled : s'.polled v = .late mask 0)
    (htaken : s'.taken v = false) : s'.events = s.events ∧ s.events &&& mask = 0 ∨
      s.polled v = .late mask 0 ∧ s.taken v = false ∧ s.counter v ≤ s'.counter v := by
  have hacted := act_acted h
  by_cases hv : v = t
  case neg =>
    obtain ⟨-, hsame, hcounter⟩ := hacted.others v hv
    exact .inr ⟨hsame.symm.trans hpolled, (act_taken_of_ne h hv).symm.trans htaken, hcounter⟩
  subst hv
  by_cases hlast : ∃ m, s.calls v = .pollLast m
  · obtain ⟨m, hlast⟩ := hlast
    rw [(act_pollLast hlast h).2.1, update_self] at hpolled
    obtain ⟨rfl, hzero⟩ := Polled.late.inj hpolled
    refine .inl ⟨hacted.events ?_ ?_, hzero⟩
    all_goals
      intro x hx
      cases hlast.symm.trans hx
  have hlast' : ∀ m, s.calls v ≠ .pollLast m := fun m hm => hlast ⟨m, hm⟩
  rw [act_taken h hlast'] at htaken
  by_cases hfirst : ∃ m, s.calls v = .pollFirst m
  · -- an early return has events
    obtain ⟨m, hfirst⟩ := hfirst
    have hnone := hinv.within v
    rw [hfirst] at hnone
    rcases act_pollFirst hfirst h with ⟨-, hearly⟩ | ⟨-, hsame⟩
    · cases hearly.symm.trans hpolled
    · rw [hsame] at hpolled
      cases Eq.trans hnone.symm hpolled
  · rw [hacted.polled (fun m hm => hfirst ⟨m, hm⟩) hlast'] at hpolled
    refine .inr ⟨hpolled, htaken, ?_⟩
    by_cases hunlock : ∃ o, s.calls v = .unregisterUnlock o
    · obtain ⟨o, hunlock⟩ := hunlock
      have hown := hinv.within v
      rw [hunlock] at hown
      unfold act at h
      rw [hunlock] at h
      cases h
      cases o with
      | other n => exact Nat.le_refl _
      | poller w => cases Eq.trans (hown w rfl).2.symm hpolled
    · exact hacted.counter fun o ho => hunlock ⟨o, ho⟩

/-- **No event is set unheard.** -/
theorem act (h : s.Heard) (hinv : s.Inv) (hact : s.act t = some s') : s'.Heard := by
  have hacted := act_acted hact
  refine h.of_step (fun u hu => (hacted.others u hu).1) (fun v mask hpolled htaken hevents => ?_)
    fun v mask hpolled hdue => hdue.act hinv hpolled hact
  rcases act_late hinv hact hpolled htaken with ⟨hsame, hzero⟩ | ⟨hpolled, htaken, hcounter⟩
  · rw [hsame] at hevents
    exact absurd hzero hevents
  · by_cases hset : ∃ events, s.calls t = .addSet events
    · obtain ⟨events, hset⟩ := hset
      obtain ⟨hnew, c, hcount⟩ := act_addSet hset hact
      by_cases hint : mask.intersects events = true
      · left
        rw [hcount]
        exact .count hint
      · rw [hnew] at hevents
        refine .inr ⟨hpolled, htaken, fun hzero => hevents ?_, hcounter⟩
        exact IoEvents.or_and_eq_zero hzero (by simpa [IoEvents.intersects] using hint)
    · by_cases hdel : ∃ events, s.calls t = .delClear events
      · obtain ⟨events, hdel⟩ := hdel
        rw [(act_delClear hdel hact).1] at hevents
        refine .inr ⟨hpolled, htaken, fun hzero => hevents ?_, hcounter⟩
        rw [BitVec.and_assoc, BitVec.and_comm (~~~events), ← BitVec.and_assoc, hzero]
        exact BitVec.zero_and
      · rw [hacted.events (fun e he => hset ⟨e, he⟩) fun e he => hdel ⟨e, he⟩] at hevents
        exact .inr ⟨hpolled, htaken, hevents, hcounter⟩

theorem start (h : s.Heard) (hreturned : (s.calls t).returned = true) (r : Request) : (s.start t r).Heard := by
  have hothers : ∀ u ≠ t, (s.start t r).calls u = s.calls u := by
    intro u hu
    cases r <;> exact update_of_ne hu ..
  refine h.of_step hothers (fun v mask hpolled htaken hevents => .inr ?_) fun v mask _ hdue => ?_
  · have hsame : s.polled v = .late mask 0 := by
      by_cases hv : v = t
      · subst hv
        cases r with
        | poll m | drop =>
          have hnone : update s.polled v .none v = .none := update_self ..
          cases hnone.symm.trans hpolled
        | registerObserver n m | unregisterObserver n | addEvents e | delEvents e => exact hpolled
      · cases r with
        | poll m | drop => exact (update_of_ne hv ..).symm.trans hpolled
        | registerObserver n m | unregisterObserver n | addEvents e | delEvents e => exact hpolled
    cases r <;> exact ⟨hsame, htaken, hevents, Nat.le_refl _⟩
  · rw [hdue.not_returned] at hreturned
    cases hreturned

theorem wait (h : s.Heard) (hwait : s.wait t = some s') : s'.Heard := by
  obtain rfl := wait_eq hwait
  intro v mask hpolled htaken hevents
  by_cases hv : v = t
  · subst hv
    have htrue : update s.taken v true v = true := update_self ..
    cases htrue.symm.trans htaken
  · have htaken' : s.taken v = false := (update_of_ne hv ..).symm.trans htaken
    refine (h v mask hpolled htaken' hevents).imp_left fun hpos => ?_
    show 0 < update s.counter t 0 v
    rw [update_of_ne hv]
    exact hpos

theorem new (initEvents : IoEvents) : (Pollee.new initEvents).Heard := nofun

end Pollee.Heard

end

end Poll
end AsterKernel
