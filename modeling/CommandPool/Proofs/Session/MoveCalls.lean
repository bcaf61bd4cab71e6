import CommandPool.Proofs.Session.Moves
/-!
# Every call is made of moves

One statement for each call, in the order of the calls, says by which moves it comes to its end, and
that it leaves no warning in the log and is not turned down for its core. Together they say that an
event is a `Turn`, and that only attaching and detaching the region is turned down on another core
(`perform_turn`). It is asked that buffers of the ring are in the slot of the main core only.
-/
namespace CommandPool

variable {b : Bench} {ws : List Record} {p q : Phase} {s t : Session} {c : Core}

namespace Step

variable {α : Type}

/-! ## The consumer -/

theorem meets_free {E : Stop → Session → Prop} {Q : Unit → Session → Prop} {d : Descriptor} :
    Meets E (onPool (Pool.free d)) s Q ↔
      (d.used ≠ d.capacity → E (.fatal (.sizeMismatch d.used d.capacity)) s) ∧
      (d.used = d.capacity →
        match if d.backing = .ring then s.pool.ring.release d.start d.capacity else .ok () s.pool.ring with
        | .ok _ r => Q () { s with pool := { s.pool with ring := r, arena := s.pool.arena.give d } }
        | .error e r => E e.toStop { s with pool := { s.pool with ring := r } }) := by
  unfold Pool.free
  rw [meets_onPool_ite]
  cases hd : d.backing <;> simp [meets_onRing]
  intro _
  cases s.pool.ring.release d.start d.capacity <;> rfl

/-- The journal of what was executed is not on the bench. -/
theorem execute_same (d : Descriptor) (s : Session) {E : Stop → Session → Prop} :
    Meets E (execute d) s fun _ t => t.pool = s.pool ∧ t.console = s.console ∧
      t.journal.overruns = s.journal.overruns ∧ t.warnings = s.warnings := by
  unfold execute
  rw [meets_modify]
  split <;> exact ⟨rfl, rfl, rfl, rfl⟩

theorem freeOldest_moves (h : Reached b ws p s) :
    Meets (Calm ws) freeOldest s fun _ t => Reached b ws p t := by
  unfold freeOldest
  rw [meets_bind, meets_get]
  cases hsub : s.console.submitted with
  | nil => exact h
  | cons d rest =>
    rw [meets_bind, meets_onConsole, meets_bind]
    refine Meets.imp (execute_same d _) ?_
    rintro _ t ⟨hpool, hconsole, hoverruns, hwarn⟩
    rw [meets_bind, meets_free, hpool]
    refine ⟨fun _ => h.calm (by simp) hwarn, fun hused => ?_⟩
    cases hd : d.backing with
    | ring =>
      rw [if_pos rfl]
      cases hr : s.pool.ring.release d.start d.capacity with
      | error e r => exact h.calm ((Ring.keeps_release _ _ _).calm hr) hwarn
      | ok a r =>
        have hfree := Move.free (b := s.bench p) hsub hd hused hr
        refine h.move ?_ hwarn
        simpa only [Session.bench, hconsole, hoverruns] using hfree
    | displayList =>
      have hdrop := Move.drop (b := s.bench p) hsub hd
      refine h.move ?_ hwarn
      simpa only [Session.bench, hconsole, hoverruns] using hdrop

theorem freeSome_moves (n : Nat) (h : Reached b ws p s) :
    Meets (Calm ws) (freeSome n) s fun _ t => Reached b ws p t := by
  induction n generalizing s with
  | zero => exact h
  | succ n ih =>
    unfold freeSome
    rw [meets_bind]
    refine Meets.imp (freeOldest_moves h) ?_
    intro freed t ht
    cases freed with
    | true => exact ih ht
    | false => exact ht

theorem freeAhead_moves (h : Reached b ws p s) :
    Meets (Calm ws) freeAhead s fun _ t => Reached b ws p t := by
  unfold freeAhead
  rw [meets_bind, meets_get]
  cases s.console.ahead with
  | nil => exact h
  | cons n rest => exact freeSome_moves n (h.same rfl rfl)

theorem advance_moves (h : Reached b ws p s) :
    Meets (Calm ws) advance s fun _ t => Reached b ws p t := by
  unfold advance
  simp only [meets_bind, meets_onConsole, meets_get, meets_report]
  refine Reached.reported (h.same ?_ ?_) _ (by simp [Timeline.record]) <;> rfl

theorem retireOne_moves (h : Reached b ws p s) :
    Meets (Calm ws) retireOne s fun _ t => Reached b ws p t := by
  unfold retireOne
  rw [meets_bind]
  refine Meets.imp (freeOldest_moves h) ?_
  intro freed t ht
  cases freed with
  | true => exact meets_bind.2 (advance_moves ht)
  | false => exact ht

theorem await_moves (h : Reached b ws p s) :
    Meets (Calm ws) await s fun _ t => Reached b ws p t := by
  unfold await
  simp only [meets_bind, meets_get, meets_modify]
  refine Meets.imp (freeAhead_moves (h.same rfl rfl)) ?_
  intro _ t ht
  cases t.console.idle with
  | succ n => exact advance_moves (ht.same rfl rfl)
  | zero =>
    simp only [meets_bind]
    refine Meets.imp (retireOne_moves ht) ?_
    intro retired u hu
    cases retired with
    | true => exact hu
    | false => exact hu.calm (by simp) rfl

/-! ## Submitting -/

theorem submit_moves (h : Reached b ws .rest s) {d : Descriptor} (hlist : d.backing = .displayList)
    (hused : d.used = d.capacity) : Meets (Calm ws) (submit d) s fun _ t => Reached b ws .rest t := by
  unfold submit
  rw [meets_bind, meets_onConsole]
  exact freeAhead_moves (h.move (.queue (d := { d with stamp := s.console.lastStamp + 1 }) hlist hused) rfl)

/-- The buffer of the calling core goes to the queue, if there are words in it. Only the main core
has a buffer to submit. -/
theorem submitActive_moves (h : Reached b ws .rest s) (hring : (s.bench .rest).RingAtMain) :
    Meets (Calm ws) (submitActive b.current) s fun _ t => b.current = b.main ∧ Reached b ws .vacant t := by
  unfold submitActive Pool.close
  rw [meets_bind, meets_onPool_bind, meets_active]
  cases hd : s.pool.leases.active b.current with
  | none => exact h.calm (by simp) rfl
  | some d =>
    simp only [meets_onPool_ite, meets_onPool_bind, meets_onPool_fatal, meets_setActive, meets_onLeases,
      meets_onRing, meets_giveDescriptor, meets_onPool_pure]
    refine ⟨fun _ => h.calm (by simp) rfl, fun hlist => ?_⟩
    have hbacking : d.backing = .ring := by cases hb : d.backing <;> simp_all
    have hmain : b.current = b.main := (hring _ _ hd hbacking).trans h.main
    rw [← h.current] at hd hmain ⊢
    unfold Leases.unlease
    cases hleased : s.pool.leases.leased with
    | false =>
      simp only [Leases.leased_setActive, hleased, Bool.false_eq_true, if_false]
      exact h.calm (by simp [Failure.toStop]) rfl
    | true =>
      simp only [Leases.leased_setActive, hleased, if_true]
      cases hr : s.pool.ring.shrink d.start d.used d.capacity with
      | error e r => exact h.calm ((Ring.keeps_shrink _ _ _ _).calm hr) rfl
      | ok a r =>
        have hclose := Move.close (b := s.bench .rest) rfl hd hbacking hleased hr
        constructor
        · intro h0
          rw [if_pos h0] at hclose
          exact ⟨hmain, h.move hclose rfl⟩
        · intro h0
          rw [if_neg h0] at hclose
          unfold submit
          rw [meets_bind, meets_onConsole]
          refine Meets.imp (freeAhead_moves (p := .vacant) ?_) fun _ t ht => ⟨hmain, ht⟩
          exact ⟨(h.moves.tail hclose).tail (.submit rfl), h.warnings⟩

/-! ## Allocating -/

theorem meets_tryAcquire {E : Stop → Session → Prop} {Q : Option Acquired → Session → Prop} {words : Nat} :
    Meets E (onPool (Pool.tryAcquire words)) s Q ↔ match s.pool.ring.acquire words with
      | .ok a r => Q (some a) { s with pool := { s.pool with ring := r } }
      | .error e r =>
        if e = .refused .insufficient then Q none { s with pool := { s.pool with ring := r } }
        else E e.toStop { s with pool := { s.pool with ring := r } } := by
  rw [meets_onPool]
  unfold Pool.tryAcquire
  rcases s.pool.ring.acquire words with ⟨a, r⟩ | ⟨e | f, r⟩
  · rfl
  · cases e <;> simp
  · simp

theorem acquire_moves (h : Reached b ws .leased s) (words : Nat) :
    Meets (Calm ws) (waitFor ringFull (Pool.tryAcquire words)) s fun a t =>
      ∀ d : Descriptor, d.backing = .ring → d.used = 0 → d.grant = a.grant → Reached b ws (.granted d) t := by
  apply meets_waitFor (I := Reached b ws .leased) _ s h
  intro t ht
  rw [meets_tryAcquire]
  cases hr : t.pool.ring.acquire words with
  | ok a r => exact fun d hring hused hd => ht.move (.grant rfl hr hring hused hd) rfl
  | error e r =>
    dsimp only
    split
    · rename_i he
      subst he
      have hstall : Reached b ws .leased { t with pool := { t.pool with ring := r } } :=
        ht.move (.stall rfl hr) rfl
      exact await_moves (hstall.debug _)
    · exact ht.calm ((Ring.keeps_acquire _ _).calm hr) rfl

/-- The main core gets a buffer. -/
theorem allocate_moves (h : Reached b ws .vacant s) (hmain : b.current = b.main) (words : Nat) :
    Meets (Calm ws) (allocate words) s fun o t => ∃ d, o = some d ∧ Reached b ws (.granted d) t := by
  unfold allocate
  simp only [meets_bind, meets_currentCore, meets_mainCore, meets_ite, meets_report, meets_pure]
  refine ⟨fun hne => absurd (h.current.trans (hmain.trans h.main.symm)) hne, fun _ => ?_⟩
  rw [meets_onLeases]
  unfold Leases.lease
  cases hleased : s.pool.leases.leased with
  | true =>
    rw [if_pos rfl]
    exact h.calm (by simp [Failure.toStop]) rfl
  | false =>
    rw [if_neg (by simp)]
    have hlease : Reached b ws .leased
        { s with pool := { s.pool with leases := { s.pool.leases with leased := true } } } :=
      h.move (.lease rfl hleased) rfl
    apply meets_bind.2
    refine Meets.imp (acquire_moves hlease words) ?_
    intro a t ht
    simp only [meets_bind, meets_report, meets_takeDescriptor, meets_pure]
    refine ⟨_, rfl, Reached.same ((ht _ rfl rfl rfl).reported _ ?_) rfl rfl⟩
    cases a.skip <;> simp [Ring.skipRecord, Record.debug]

/-- The main core gets a buffer for its slot. -/
theorem allocateMinimum_moves (h : Reached b ws .vacant s) (hmain : b.current = b.main) :
    Meets (Calm ws) allocateMinimum s fun o t => Reached b ws .rest
      { t with pool := { t.pool with leases := t.pool.leases.setActive b.current o } } := by
  unfold allocateMinimum
  rw [meets_bind, meets_config]
  refine Meets.imp (allocate_moves h hmain _) ?_
  rintro _ t ⟨d, rfl, ht⟩
  rw [← ht.current]
  exact ht.move (.seat rfl) rfl

/-! ## The region -/

theorem init_turn (base : Address) (size : Nat) :
    Meets (CalmEvent (.init base size) (s.bench .rest) s.warnings) (init base size) s fun _ t =>
      Turned (.init base size) (s.bench .rest) s.warnings t := by
  unfold init
  simp only [meets_bind, meets_currentCore, meets_mainCore, meets_ite, meets_fatal, meets_onRing,
    meets_report, meets_borrow, meets_setActive, meets_debug]
  refine ⟨fun hne => ⟨fun _ => ⟨rfl, hne⟩, rfl⟩, fun hmain => ?_⟩
  rw [Decidable.not_not] at hmain
  cases hr : s.pool.ring.attach base size with
  | error e r => exact Calm.event ⟨Ring.attach_calm hr, rfl⟩
  | ok a r =>
    have hwarn : (({ s with pool := { s.pool with ring := r } } : Session).reported
        [Ring.attachRecord base size]).warnings = s.warnings :=
      warnings_reported (by simp [Ring.attachRecord, Record.debug])
    refine ⟨fun _ => Calm.event ⟨by simp, hwarn⟩, fun _ =>
      ⟨fun _ => Calm.event ⟨by simp, hwarn⟩, fun hnone => ?_⟩⟩
    have ht : Reached { s.bench .rest with phase := .vacant, ring := r } s.warnings .vacant
        (({ s with pool := { s.pool with ring := r } } : Session).reported [Ring.attachRecord base size]) :=
      ⟨.refl, hwarn⟩
    refine Meets.mono (allocateMinimum_moves ht hmain) (fun _ _ he => he.event) ?_
    intro o t ht
    have hu := ht.debug ("CommandBufferPool: initialized on " ++ s.console.topology.current.text)
    exact ⟨.init hmain (Option.not_isSome_iff_eq_none.1 hnone) hr hu.moves, hu.warnings⟩

/-- Nothing is in the hands of the call when it waits for the consumer. -/
theorem drain_moves (h : Reached b ws .vacant s) :
    Meets (Calm ws) (waitFor (fun _ => []) Pool.tryDrained) s fun _ t => Reached b ws .vacant t := by
  apply meets_waitFor (I := Reached b ws .vacant) _ s h
  intro t ht
  rw [meets_onPool]
  unfold Pool.tryDrained
  by_cases hout : t.pool.ring.outstanding = 0
  · rw [if_pos hout]
    exact ht
  · rw [if_neg hout]
    exact await_moves (ht.reported [] (by simp))

theorem shutdown_turn (hring : (s.bench .rest).RingAtMain) :
    Meets (CalmEvent .shutdown (s.bench .rest) s.warnings) shutdown s fun _ t =>
      Turned .shutdown (s.bench .rest) s.warnings t := by
  have hs : Reached (s.bench .rest) s.warnings .rest s := .refl s .rest
  have hrest : ∀ t, Reached (s.bench .rest) s.warnings .vacant t →
      Meets (CalmEvent .shutdown (s.bench .rest) s.warnings) (do
        waitFor (fun _ => []) Pool.tryDrained
        onPool (Pool.onRing Ring.detach)
        debug "CommandBufferPool: shut down") t fun _ u => Turned .shutdown (s.bench .rest) s.warnings u := by
    intro t ht
    apply meets_bind.2
    refine Meets.mono (drain_moves ht) (fun _ _ he => he.event) ?_
    intro _ u hu
    rw [meets_bind, meets_onRing]
    cases hr : u.pool.ring.detach with
    | error e r => exact (hu.calm (Ring.detach_calm hr) rfl).event
    | ok a r =>
      refine ⟨.shutdown hu.moves rfl hr, ?_⟩
      exact (warnings_reported (by simp [Record.debug])).trans hu.warnings
  unfold shutdown
  simp only [meets_bind, meets_currentCore, meets_mainCore, meets_ite, meets_fatal, meets_borrow]
  refine ⟨fun hne => ⟨fun _ => ⟨rfl, hne⟩, rfl⟩, fun hmain => ?_⟩
  rw [Decidable.not_not] at hmain
  refine ⟨fun _ => (hs.calm (by simp) rfl).event, fun _ => ⟨fun _ => ?_, fun hnone => ?_⟩⟩
  · refine Meets.mono (submitActive_moves hs hring) (fun _ _ he => he.event) ?_
    rintro _ t ⟨-, ht⟩
    exact hrest t ht
  · exact hrest s (hs.move (.vacate rfl hmain (Option.not_isSome_iff_eq_none.1 hnone)) rfl)

theorem flush_moves (h : Reached b ws .rest s) (hring : (s.bench .rest).RingAtMain) :
    Meets (Calm ws) flush s fun _ t => Reached b ws .rest t := by
  unfold flush
  simp only [meets_bind, meets_currentCore, meets_borrow, meets_setActive, h.current]
  refine ⟨fun _ => h.calm (by simp) rfl, fun _ => ?_⟩
  refine Meets.imp (submitActive_moves h hring) ?_
  rintro _ t ⟨hmain, ht⟩
  exact allocateMinimum_moves ht hmain

/-! ## Display lists -/

/-- A list takes the slot of the calling core, which has to be empty. -/
theorem record_turn (h : Reached b ws p s) (hp : p = .rest ∨ p = .vacant) (storage : Address) (words : Nat)
    (text : String) : Meets (Calm ws) (do
      if (← onPool (Pool.active b.current)).isSome then
        fatal (.slotOccupied b.current)
      let d ← onPool Pool.takeDescriptor
      onPool (Pool.setActive b.current (some (d.bind storage 0 words .displayList)))
      debug text) s fun _ t => Turned (.beginDisplayList storage words) b ws t := by
  simp only [meets_bind, meets_active, meets_ite, meets_fatal, meets_takeDescriptor, meets_setActive,
    meets_debug]
  refine ⟨fun _ => h.calm (by simp) rfl, fun hnone => ?_⟩
  rw [← h.current] at hnone ⊢
  refine ⟨.record h.moves hp (Option.not_isSome_iff_eq_none.1 hnone), ?_⟩
  exact (warnings_reported (by simp [Record.debug])).trans h.warnings

theorem beginDisplayList_turn (hring : (s.bench .rest).RingAtMain) (storage : Address) (words : Nat) :
    Meets (Calm s.warnings) (beginDisplayList storage words) s fun _ t =>
      Turned (.beginDisplayList storage words) (s.bench .rest) s.warnings t := by
  have hs : Reached (s.bench .rest) s.warnings .rest s := .refl s .rest
  unfold beginDisplayList
  rw [meets_bind, meets_currentCore, meets_bind, meets_borrow]
  refine ⟨fun _ => hs.calm (by simp) rfl, fun _ => ?_⟩
  rw [meets_bind, meets_mainCore, meets_ite, meets_bind]
  constructor
  · intro _
    refine Meets.imp (submitActive_moves hs hring) ?_
    rintro _ t ⟨-, ht⟩
    exact record_turn ht (.inr rfl) storage words _
  · intro _
    exact record_turn hs (.inl rfl) storage words _

theorem queueDisplayList_moves (h : Reached b ws .rest s) (storage : Address) (words : Nat) :
    Meets (Calm ws) (queueDisplayList storage words) s fun _ t => Reached b ws .rest t := by
  unfold queueDisplayList
  rw [meets_bind, meets_takeDescriptor]
  have ht : Reached b ws .rest { s with pool := { s.pool with arena := s.pool.arena.take.2 } } := h.same rfl rfl
  exact submit_moves ht rfl rfl

theorem recordedList_moves (h : Reached b ws .rest s) :
    Meets (Calm ws) recordedList s fun _ t => Reached b ws .rest t := by
  unfold recordedList
  rw [meets_bind, meets_currentCore, meets_bind, meets_borrow]
  refine ⟨fun _ => h.calm (by simp) rfl, fun _ => ?_⟩
  cases s.pool.leases.active s.console.topology.current with
  | none => exact h.calm (by simp) rfl
  | some d => exact h

theorem remaining_moves (h : Reached b ws .rest s) (c : Core) :
    Meets (Calm ws) (remaining c) s fun _ t => Reached b ws .rest t := by
  unfold remaining
  rw [meets_bind, meets_active]
  cases s.pool.leases.active c with
  | none => exact h.calm (by simp) rfl
  | some d =>
    simp only [meets_checked]
    cases d.remaining with
    | error o => exact h.calm (by simp) rfl
    | ok n => exact h

/-! ## Words -/

/-- Nobody's core is to blame for a write. -/
theorem append_calm {w : UInt32} {o o' : OpenBuffer} {e : Failure} (h : o.append w = .error e o') :
    ¬ e.toStop.OffMain := by
  unfold OpenBuffer.append at h
  split at h <;> cases h
  exact not_offMain_fault _

theorem push_calm {w : UInt32} {o o' : OpenBuffer} {e : Failure} (h : o.push w = .error e o') :
    ¬ e.toStop.OffMain := by
  unfold OpenBuffer.push at h
  split at h
  · cases h
    simp [Failure.toStop]
  · exact append_calm h

theorem pushEach_calm {ws : List UInt32} {o o' : OpenBuffer} {e : Failure} (h : o.pushEach ws = .error e o') :
    ¬ e.toStop.OffMain := by
  induction ws generalizing o with
  | nil => cases h
  | cons w ws ih =>
    unfold OpenBuffer.pushEach at h
    split at h
    · exact ih h
    · rename_i hpush
      cases h
      exact push_calm hpush

theorem pushAll_calm {ws : List UInt32} {o o' : OpenBuffer} {e : Failure} (h : o.pushAll ws = .error e o') :
    ¬ e.toStop.OffMain := by
  unfold OpenBuffer.pushAll at h
  split at h
  · exact pushEach_calm h
  · cases h
    simp [Failure.toStop]

theorem fill_calm {n : Nat} {o o' : OpenBuffer} {e : Failure} (h : o.fill n = .error e o') :
    ¬ e.toStop.OffMain := by
  induction n generalizing o with
  | zero => cases h
  | succ n ih =>
    unfold OpenBuffer.fill at h
    split at h
    · exact ih h
    · rename_i happend
      cases h
      exact append_calm happend

theorem pad_calm {align : Nat} {o o' : OpenBuffer} {e : Failure} (h : o.pad align = .error e o') :
    ¬ e.toStop.OffMain := by
  unfold OpenBuffer.pad at h
  split at h
  · cases h
    simp [Failure.toStop]
  split at h
  · cases h
    simp [Failure.toStop]
  · exact fill_calm h

/-- Writing into the buffer of `c`; `P` says which words go there. -/
theorem onActive_words (p : Phase) (c : Core) {f : OpenBuffer → Outcome OpenBuffer Unit}
    {P : Descriptor → List UInt32 → Prop}
    (hok : ∀ o o', f o = .ok () o' → ∃ ws, P o.buffer ws ∧ o.Writes ws (f o))
    (herror : ∀ o e o', f o = .error e o' → ¬ e.toStop.OffMain) :
    Meets (Calm s.warnings) (onActive c f) s fun _ t => t.warnings = s.warnings ∧
      ∃ d ws, s.pool.leases.active c = some d ∧ P d ws ∧ Words c ws (s.bench p) (t.bench p) := by
  rw [meets_onActive]
  cases hd : s.pool.leases.active c with
  | none => exact ⟨by simp, rfl⟩
  | some d =>
    dsimp only
    cases hr : f ⟨d, s.console.memory⟩ with
    | error e o => exact ⟨herror _ _ _ hr, rfl⟩
    | ok a o =>
      obtain ⟨ws, hP, hwrites⟩ := hok _ _ hr
      let onBench (o : OpenBuffer) : Bench := { s.bench p with
        leases := s.pool.leases.setActive c (some o.buffer)
        memory := o.memory }
      have happends : OpenBuffer.Appends fun ws o => Words c ws (s.bench p) (onBench o) := by
        intro _ o w m ho hroom hwrite
        refine ho.concat ?_
        have hword := Word.intro (c := c) (w := w) (b := onBench o) (Leases.active_setActive_self ..) hroom hwrite
        simpa [onBench] using hword
      have hstart : onBench ⟨d, s.console.memory⟩ = s.bench p := by
        simp only [onBench, ← hd, Leases.setActive_active]
        rfl
      have hwritten := hwrites _ happends [] (by rw [hstart]; exact .nil _)
      rw [hr] at hwritten
      exact ⟨rfl, d, ws, rfl, hP, hwritten⟩

/-- Words through the writer of `c`, if it is open. -/
theorem through_turn {e : Event} {vs : List UInt32} (hthrough : e.through? = some (c, vs))
    {f : OpenBuffer → Outcome OpenBuffer Unit} (hok : ∀ o : OpenBuffer, o.Writes vs (f o))
    (herror : ∀ o e o', f o = .error e o' → ¬ e.toStop.OffMain) :
    Meets (Calm s.warnings) (do if (← get).pool.leases.held c then onActive c f) s fun _ t =>
      Turned e (s.bench .rest) s.warnings t := by
  rw [meets_bind, meets_get, meets_ite]
  refine ⟨fun hheld => ?_, fun hheld => ⟨.shut hthrough (Bool.eq_false_iff.2 hheld), rfl⟩⟩
  refine Meets.imp (onActive_words (P := fun _ us => us = vs) .rest c (fun o _ _ => ⟨vs, rfl, hok o⟩) herror) ?_
  rintro _ t ⟨hwarn, _, _, -, rfl, hwords⟩
  exact ⟨.write hthrough hheld hwords, hwarn⟩

/-! ## Lists that are handed over -/

/-- The list of the calling core is padded, and its size is told. -/
theorem padActive_padded {d : Descriptor} (hd : s.pool.leases.active s.console.topology.current = some d)
    (hlist : d.backing = .displayList) :
    Meets (Calm s.warnings) (padActive s.console.topology.current) s fun a t =>
      Padded (s.bench .rest) (t.bench .rest) d a.1 ∧ a.2 = a.1.used * wordBytes ∧ t.warnings = s.warnings := by
  unfold padActive
  rw [meets_bind, meets_config, meets_bind]
  refine Meets.imp (onActive_words .rest _
    (P := fun d ws => ∃ aligned, Counter.alignUp d.used s.pool.config.padAlign = .ok aligned ∧
      aligned ≤ d.capacity ∧ ws = .replicate (aligned - d.used) padWord) ?_ fun _ _ _ => pad_calm) ?_
  · intro o o' ho
    obtain ⟨aligned, hup, hle, hwrites⟩ := OpenBuffer.pad_writes ho
    exact ⟨_, ⟨aligned, hup, hle, rfl⟩, hwrites⟩
  rintro _ t ⟨hwarn, e, _, he, ⟨aligned, hup, hle, rfl⟩, hwords⟩
  cases hd.symm.trans he
  have hx := hwords.slot hd
  rw [meets_bind, meets_active, show t.pool.leases.active _ = _ from hx]
  simp only [meets_bind, meets_checked, meets_pure]
  cases hbytes : Descriptor.sizeBytes _ with
  | error o => exact ⟨by simp, hwarn⟩
  | ok n =>
    refine ⟨⟨hd, hlist, ⟨aligned, hup, hle, hwords⟩, hx⟩, ?_, hwarn⟩
    exact (Counter.mul_eq_ok_iff.1 hbytes).2.symm

/-- What is done to a list when it is finalized, and the size that is told. -/
theorem finalizeDisplayList_bytes (storage : Address) :
    Meets (Calm s.warnings) (finalizeDisplayList storage) s fun bytes t =>
      Turned (.finalizeDisplayList storage) (s.bench .rest) s.warnings t ∧
      ∃ u d x, Padded (s.bench .rest) u d x ∧ bytes = x.used * wordBytes := by
  unfold finalizeDisplayList
  rw [meets_bind, meets_currentCore, meets_bind, meets_borrow]
  refine ⟨fun _ => ⟨by simp, rfl⟩, fun _ => ?_⟩
  cases hd : s.pool.leases.active s.console.topology.current with
  | none => exact ⟨by simp, rfl⟩
  | some d =>
    simp only [meets_bind, meets_ite, meets_fatal, ne_eq]
    refine ⟨fun _ => ⟨by simp, rfl⟩, fun hlist => ⟨fun _ => ⟨by simp, rfl⟩, fun hstart => ?_⟩⟩
    rw [Decidable.not_not] at hlist hstart
    refine Meets.imp (padActive_padded hd hlist) ?_
    rintro ⟨x, bytes⟩ t ⟨hpadded, hbytes, hwarn⟩
    simp only [meets_setActive, meets_giveDescriptor, meets_mainCore, meets_debug, meets_pure]
    have hcurrent : t.console.topology.current = s.console.topology.current := hpadded.beside.current
    rw [← hcurrent]
    let emptied : Session := { t with pool := { t.pool with
      arena := t.pool.arena.give x
      leases := t.pool.leases.setActive t.console.topology.current none } }
    constructor
    · intro hmain
      have hvacant : Reached ((t.bench .rest).setSlot .vacant none) s.warnings .vacant emptied := ⟨.refl, hwarn⟩
      refine Meets.imp (allocateMinimum_moves hvacant hmain) ?_
      intro o v hv
      have hv := hv.debug ("CommandBufferPool: display list " ++ storage.text ++ " finalized at "
        ++ toString bytes ++ " bytes")
      refine ⟨⟨.finalize hpadded hstart ?_, hv.warnings⟩, _, d, x, hpadded, hbytes⟩
      rw [Bench.cleared, if_pos (show (t.bench .rest).current = (t.bench .rest).main from hmain)]
      exact hv.moves
    · intro hmain
      have hrest : Reached ((t.bench .rest).setSlot .rest none) s.warnings .rest emptied := ⟨.refl, hwarn⟩
      have hv := hrest.debug ("CommandBufferPool: display list " ++ storage.text ++ " finalized at "
        ++ toString bytes ++ " bytes")
      refine ⟨⟨.finalize hpadded hstart ?_, hv.warnings⟩, _, d, x, hpadded, hbytes⟩
      rw [Bench.cleared, if_neg (show (t.bench .rest).current ≠ (t.bench .rest).main from hmain)]
      exact hv.moves

theorem askForStorage_bench (question : Overrun) :
    Meets (Calm s.warnings) (askForStorage question) s fun _ t =>
      t.bench .rest = (s.bench .rest).asked question ∧ t.warnings = s.warnings := by
  unfold askForStorage
  simp only [meets_bind, meets_modify, meets_get]
  cases s.console.offers with
  | nil => exact ⟨rfl, rfl⟩
  | cons answer rest => exact ⟨rfl, rfl⟩

/-- The list `d` of the calling core was padded, which brought the session to `u`, and was replaced,
`needed` words being asked for. -/
structure Grown (s : Session) (d : Descriptor) (needed : Nat) (u t : Session) : Prop where
  padActive : ∃ a, padActive s.console.topology.current s = .ok a u
  bench : ∃ x next, Padded (s.bench .rest) (u.bench .rest) d x ∧ next.backing = .displayList ∧
    next.used = 0 ∧ t.bench .rest = ((u.bench .rest).asked (x.question needed)).setSlot .rest (some next)
  warnings : t.warnings = s.warnings

theorem growDisplayList_grown {d : Descriptor} (hd : s.pool.leases.active s.console.topology.current = some d)
    (hlist : d.backing = .displayList) (needed : Nat) :
    Meets (Calm s.warnings) (growDisplayList s.console.topology.current needed) s fun _ t =>
      ∃ u, Grown s d needed u t := by
  unfold growDisplayList
  rw [meets_bind]
  refine Meets.imp (padActive_padded hd hlist).and_eq ?_
  rintro ⟨x, bytes⟩ t ⟨hpad, hpadded, hbytes, hwarn⟩
  dsimp only at hpadded hbytes ⊢
  subst hbytes
  rw [meets_bind, ← hwarn]
  refine Meets.imp (askForStorage_bench _) ?_
  rintro answer v ⟨hbench, hwarn'⟩
  cases answer with
  | none => exact ⟨by simp, hwarn'⟩
  | some next =>
    simp only [meets_bind, meets_ite, meets_fatal, meets_debug, meets_setActive]
    refine ⟨fun _ => ⟨by simp, hwarn'⟩, fun _ => ⟨t, ⟨_, hpad⟩, ⟨x,
      x.bind next.start 0 (next.bytes / wordBytes) .displayList, hpadded, rfl, rfl, ?_⟩, ?_⟩⟩
    · have hcurrent : v.console.topology.current = s.console.topology.current :=
        (congrArg Bench.current hbench).trans hpadded.beside.current
      rw [Descriptor.question, ← hbench, ← hcurrent]
      rfl
    · exact (warnings_reported (by simp [Record.debug])).trans (hwarn'.trans hwarn)

theorem replaceRingBuffer_moves (h : Reached b ws .rest s) (hring : (s.bench .rest).RingAtMain) (needed : Nat) :
    Meets (Calm ws) (replaceRingBuffer b.current needed) s fun _ t => Reached b ws .rest t := by
  unfold replaceRingBuffer
  rw [meets_bind]
  refine Meets.imp (submitActive_moves h hring) ?_
  rintro _ t ⟨hmain, ht⟩
  rw [meets_bind]
  refine Meets.imp (allocate_moves ht hmain needed) ?_
  rintro _ u ⟨d, rfl, hu⟩
  dsimp only
  rw [meets_setActive, ← hu.current]
  exact hu.move (.seat rfl) rfl

/-- The buffer that stands in the slot is asked again, and nothing changes. -/
theorem fits_same (hws : s.warnings = ws) (c : Core) (needed : Nat) : Meets (Calm ws) (do
      if let some d ← onPool (Pool.active c) then
        if ¬ d.Fits needed then
          fatal (.commandTooLarge needed (← checked d.remaining))) s fun _ t => t = s := by
  rw [meets_bind, meets_active]
  cases s.pool.leases.active c with
  | none => exact rfl
  | some d =>
    simp only [meets_ite, meets_bind, meets_checked, meets_fatal, meets_pure]
    refine ⟨fun _ => ?_, fun _ => trivial⟩
    cases d.remaining with
    | error o => exact ⟨by simp, hws⟩
    | ok n => exact ⟨by simp, hws⟩

/-- A buffer with room enough is left as it is. -/
theorem getBuffer_kept {d : Descriptor} {words : Nat}
    (hd : s.pool.leases.active s.console.topology.current = some d)
    (hheld : s.pool.leases.held s.console.topology.current = false) (hfits : d.Fits words) :
    getBuffer words s = .ok s.console.topology.current
      { s with pool := { s.pool with leases := s.pool.leases.setHeld s.console.topology.current true } } := by
  have hborrow : onPool (Pool.borrow s.console.topology.current) s = .ok (some d) s := by
    simp only [onPool, Pool.borrow, Leases.borrow, hheld, hd]
    rfl
  refine bind_eq_ok_iff.2 ⟨_, s, rfl, bind_eq_ok_iff.2 ⟨_, s, hborrow, ?_⟩⟩
  simp only
  rw [if_neg (not_not_intro hfits)]
  rfl

/-- If a question was put on the way from `s` to `t`, the list was padded by then, and since then guest
memory is as it was. -/
def AskedPadded (s t : Session) : Prop :=
  t.journal.overruns = s.journal.overruns ∨
    ∃ a u, padActive s.console.topology.current s = .ok a u ∧ t.console.memory = u.console.memory

theorem getBuffer_turn (hring : (s.bench .rest).RingAtMain) (words : Nat) :
    Meets (Calm s.warnings) (getBuffer words) s fun _ t =>
      Turned (.getBuffer words) (s.bench .rest) s.warnings t ∧ AskedPadded s t := by
  have hs : Reached (s.bench .rest) s.warnings .rest s := .refl s .rest
  unfold getBuffer
  rw [meets_bind, meets_currentCore, meets_bind, meets_borrow]
  refine ⟨fun _ => hs.calm (by simp) rfl, fun _ => ?_⟩
  cases hd : s.pool.leases.active s.console.topology.current with
  | none => exact hs.calm (by simp) rfl
  | some d =>
    simp only [meets_ite, meets_bind]
    refine ⟨fun hfull => ?_, fun hfits => ?_⟩
    · unfold replaceActive
      cases hb : d.backing with
      | displayList =>
        apply meets_bind.2
        refine Meets.imp (growDisplayList_grown hd hb words) ?_
        rintro _ t ⟨u, ⟨a, hpad⟩, ⟨x, next, hpadded, hlist, hused, hbench⟩, hwarn⟩
        refine Meets.imp (fits_same hwarn _ words) ?_
        rintro _ _ rfl
        have hcurrent : (u.bench .rest).current = s.console.topology.current := hpadded.beside.current
        have hgrow := Turn.grow hpadded hfull hlist hused
        rw [Bench.replaced, show (u.bench .rest).phase = .rest from rfl, hcurrent, ← hbench] at hgrow
        exact ⟨⟨hgrow, hwarn⟩, .inr ⟨a, u, hpad, congrArg Bench.memory hbench⟩⟩
      | ring =>
        apply meets_bind.2
        refine Meets.imp (replaceRingBuffer_moves hs hring words) fun _ t ht => ?_
        refine Meets.imp (fits_same ht.warnings _ words) ?_
        rintro _ _ rfl
        refine ⟨Reached.turned ?_ (ht.move .hold rfl), .inl ht.moves.onCore.overruns⟩
        intro e he hlist
        cases hd.symm.trans he
        simp [hb] at hlist
    · refine ⟨Reached.turned ?_ (hs.move .hold rfl), .inl rfl⟩
      intro e he _
      cases hd.symm.trans he
      exact Decidable.not_not.1 hfits

/-! ## Events -/

theorem perform_turn (hring : (s.bench .rest).RingAtMain) (e : Event) :
    Meets (CalmEvent e (s.bench .rest) s.warnings) (perform e) s fun _ t =>
      Turned e (s.bench .rest) s.warnings t := by
  have hs : Reached (s.bench .rest) s.warnings .rest s := .refl s .rest
  have hcalm : ∀ {x : Step Unit} {Q : Unit → Session → Prop}, Meets (Calm s.warnings) x s Q →
      Meets (CalmEvent e (s.bench .rest) s.warnings) x s Q := fun h =>
    h.mono (fun _ _ he => he.event) fun _ _ hq => hq
  cases e with
  | enter c => exact ⟨.enter c, rfl⟩
  | init base size => exact init_turn base size
  | shutdown => exact shutdown_turn hring
  | flush => exact hcalm ((flush_moves hs hring).imp fun _ _ ht => ht.turned trivial)
  | getBuffer words => exact hcalm (meets_bind.2 ((getBuffer_turn hring words).imp fun _ _ ht => ht.1))
  | write c w =>
    exact hcalm (through_turn rfl (fun o => OpenBuffer.writes_push w) fun _ _ _ => push_calm)
  | writeAll c ws =>
    exact hcalm (through_turn rfl (fun o => OpenBuffer.writes_pushAll ws) fun _ _ _ => pushAll_calm)
  | remaining c =>
    apply hcalm
    rw [perform, meets_bind, meets_get, meets_ite]
    refine ⟨fun _ => meets_bind.2 ?_, fun _ => hs.turned trivial⟩
    exact (remaining_moves hs c).imp fun _ _ ht => ht.turned trivial
  | dropWriter c => exact Reached.turned trivial (hs.move .hold rfl)
  | beginDisplayList storage words => exact hcalm (beginDisplayList_turn hring storage words)
  | finalizeDisplayList storage =>
    exact hcalm (meets_bind.2 ((finalizeDisplayList_bytes storage).imp fun _ _ ht => ht.1))
  | queueDisplayList storage words =>
    exact hcalm ((queueDisplayList_moves hs storage words).imp fun _ _ ht => ht.turned trivial)
  | recordedList => exact hcalm (meets_bind.2 ((recordedList_moves hs).imp fun _ _ ht => ht.turned trivial))
  | freeOldest => exact hcalm (meets_bind.2 ((freeOldest_moves hs).imp fun _ _ ht => ht.turned trivial))
  | advance => exact hcalm ((advance_moves hs).imp fun _ _ ht => ht.turned trivial)
  | setIdle n => exact ⟨.plain trivial .refl, rfl⟩
  | runAhead n => exact ⟨.plain trivial .refl, rfl⟩
  | offer answer => exact ⟨.plain trivial .refl, rfl⟩
  | poke a w =>
    apply hcalm
    rw [perform, poke]
    simp only [meets_bind, meets_get, meets_unfaulted, meets_onConsole]
    cases hw : s.console.memory.write a w with
    | error f => exact ⟨by simp, rfl⟩
    | ok m => exact ⟨.poke hw, rfl⟩

end Step

end CommandPool
