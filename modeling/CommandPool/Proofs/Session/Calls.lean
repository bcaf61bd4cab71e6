import CommandPool.Proofs.OpenBuffer
import CommandPool.Proofs.Session.Invariant
/-!
# What the calls do to a pool at rest

Every call that is not stopped leaves the pool at rest again, with the same words accounted for; a
write through a writer of the ring adds its words to them. A stop is the fault of a caller, of the
application or of the storage, never of the pool itself.

One statement for each call, in the order of the calls. Each is taken apart into its parts by
`meets_bind`, and the parts are covered by statements of their own; where a part hands a buffer to
the next one the slot of the main core is `Vacant`.
-/
namespace CommandPool

namespace Step

variable {α : Type} {R : Region} {k c : Core} {o : Option Descriptor} {ws : List UInt32} {s : Session}

/-! ## Writing -/

/-- Words through a writer on a buffer of the ring. -/
theorem onActive_ring_spec (h : AtRest R k ws s.ledger) {d : Descriptor}
    (hd : s.pool.leases.active c = some d) (hring : d.backing = .ring)
    {f : OpenBuffer → Outcome OpenBuffer Unit} {new : List UInt32}
    (hf : OpenBuffer.Writes ⟨d, s.console.memory⟩ new (f ⟨d, s.console.memory⟩)) :
    Meets Stop.External (onActive c f) s fun _ t => AtRest R k (ws ++ new) t.ledger := by
  obtain ⟨rfl, -⟩ := h.ring_at hd hring
  obtain ⟨hleased, hbal⟩ := h.ring_open hd hring
  have hwritten := hf (fun ws b => Balanced R (some b.buffer) ws { s.ledger with memory := b.memory })
    (fun _ _ _ _ hb hroom hw => hb.push hroom hw) ws hbal
  rw [meets_onActive, hd]
  dsimp only
  cases hr : f ⟨d, s.console.memory⟩ with
  | error e b =>
    rw [hr] at hwritten
    exact hwritten
  | ok a b =>
    rw [hr] at hwritten
    exact atRest_seat (l := { s.ledger with memory := b.memory }) h.main h.seated hwritten hleased

/-- Words through a writer on a display list are no concern of the ring. -/
theorem onActive_list_spec (h : AtRest R k ws s.ledger) {d : Descriptor}
    (hd : s.pool.leases.active c = some d) (hlist : d.backing = .displayList)
    {f : OpenBuffer → Outcome OpenBuffer Unit} {new : List UInt32}
    (hf : OpenBuffer.Writes ⟨d, s.console.memory⟩ new (f ⟨d, s.console.memory⟩)) :
    Meets Stop.External (onActive c f) s fun _ t => AtRest R k ws t.ledger ∧
      ∃ d', t.pool.leases.active c = some d' ∧ d'.backing = .displayList := by
  obtain ⟨hused, hclear⟩ := h.list_at hd hlist
  let P : List UInt32 → OpenBuffer → Prop := fun _ b =>
    b.buffer.backing = .displayList ∧ b.buffer.used ≤ b.buffer.capacity ∧
      R.Clear b.buffer.start b.buffer.capacity ∧
      Balanced R s.ledger.openRing ws { s.ledger with memory := b.memory }
  have happ : OpenBuffer.Appends P := fun _ b w m ⟨h1, _, h3, h4⟩ hroom hw =>
    ⟨h1, hroom, h3, h4.write_clear h3 hroom hw⟩
  have hwritten := hf P happ [] ⟨hlist, hused, hclear, h.balanced⟩
  rw [meets_onActive, hd]
  dsimp only
  cases hr : f ⟨d, s.console.memory⟩ with
  | error e b =>
    rw [hr] at hwritten
    exact hwritten
  | ok a b =>
    rw [hr] at hwritten
    obtain ⟨hlist', hused', hclear', hbal⟩ := hwritten
    have hrest : AtRest R k ws { s.ledger with memory := b.memory } := h.same ⟨rfl, rfl⟩ hbal
    refine ⟨?_, b.buffer, Leases.active_setActive_self .., hlist'⟩
    apply hrest.setList
    · intro d' hd'
      cases hd.symm.trans hd'
      exact hlist
    · rintro _ ⟨⟩
      exact ⟨hlist', hused', hclear'⟩

/-! ## Submitting -/

theorem close_spec (h : AtRest R k ws s.ledger) (c : Core) :
    Meets Stop.External (onPool (Pool.close c)) s fun done t =>
      c = k ∧ Vacant R k done false ws t.ledger ∧ ∀ d, done = some d → d.used = d.capacity := by
  unfold Pool.close
  rw [meets_onPool_bind, meets_active]
  cases hc : s.pool.leases.active c with
  | none => exact rfl
  | some d =>
    simp only [meets_onPool_ite, meets_onPool_bind, meets_onPool_fatal, meets_setActive, meets_onLeases,
      meets_onRing, meets_giveDescriptor, meets_onPool_pure]
    constructor
    · intro _
      exact rfl
    intro hd
    have hring : d.backing = .ring := by cases hb : d.backing <;> simp_all
    obtain ⟨rfl, -⟩ := h.ring_at hc hring
    obtain ⟨hleased, hbal⟩ := h.ring_open hc hring
    obtain ⟨r, hr, hdropped, hcut⟩ := hbal.shrink
    simp only [Session.ledger] at hr hleased
    simp only [Leases.unlease, Leases.leased_setActive, hleased, if_true, hr]
    have hseated := seated_setActive (c := c) (o := none) h.seated (by simp)
    have hvacant := Leases.active_setActive_self s.pool.leases c none
    constructor
    · intro h0
      exact ⟨trivial, ⟨h.main, hseated, (hdropped h0).leases _, hvacant, rfl⟩, by simp⟩
    · intro h0
      refine ⟨trivial, ⟨h.main, hseated, (hcut h0).leases _, hvacant, rfl⟩, ?_⟩
      rintro _ ⟨⟩
      rfl

/-- The buffer of the main core goes to the queue, whose turn it is. -/
theorem submitActive_spec (h : AtRest R k ws s.ledger) (c : Core) :
    Meets Stop.External (submitActive c) s fun _ t => c = k ∧ Vacant R k none false ws t.ledger := by
  unfold submitActive
  rw [meets_bind]
  refine Meets.imp (close_spec h c) ?_
  rintro done t ⟨hc, ht, hdone⟩
  cases done with
  | none => exact ⟨hc, ht⟩
  | some d =>
    unfold submit
    simp only [meets_bind, meets_onConsole]
    refine (consuming_freeAhead.vacant ?_).imp fun _ _ hu => ⟨hc, hu⟩
    exact ⟨ht.main, ht.seated, ht.balanced.submit (hdone d rfl) _, ht.vacant, ht.leased⟩

/-! ## Allocating -/

/-- A grant for the slot of the main core. -/
theorem acquire_wait_spec (h : Vacant R k none true ws s.ledger) (words : Nat) :
    Meets Stop.External (waitFor ringFull (Pool.tryAcquire words)) s fun a t =>
      ∀ d : Descriptor, d.backing = .ring → d.used = 0 → d.grant = a.grant →
        Vacant R k (some d) true ws t.ledger := by
  apply meets_waitFor (I := fun t => Vacant R k none true ws t.ledger) _ s h
  intro t ht
  have hpost := ht.balanced.acquire words
  simp only [Session.ledger] at hpost
  rw [meets_onPool]
  unfold Pool.tryAcquire
  cases hr : t.pool.ring.acquire words with
  | ok a r =>
    rw [hr] at hpost
    intro d hd hused hgrant
    exact ⟨ht.main, ht.seated, hpost d hd hused hgrant, ht.vacant, ht.leased⟩
  | error e r =>
    rw [hr] at hpost
    rcases hpost with ⟨hbal, rfl | rfl | ⟨wanted, rfl⟩⟩
    · exact consuming_await.vacant ⟨ht.main, ht.seated, hbal, ht.vacant, ht.leased⟩
    · exact rfl
    · exact rfl

theorem allocate_spec (h : Vacant R k none false ws s.ledger) (words : Nat) :
    Meets Stop.External (allocate words) s fun o t => Vacant R k o o.isSome ws t.ledger := by
  unfold allocate
  simp only [meets_bind, meets_currentCore, meets_mainCore, meets_ite, meets_report, meets_pure,
    meets_onLeases]
  constructor
  · intro _
    exact h
  intro _
  have hleased : s.pool.leases.leased = false := h.leased
  simp only [Leases.lease, hleased, Bool.false_eq_true, if_false]
  have hwait : Vacant R k none true ws
      { s.ledger with leases := { s.pool.leases with leased := true } } :=
    ⟨h.main, h.seated, h.balanced.leases _, h.vacant, rfl⟩
  apply meets_bind.2
  refine Meets.imp (acquire_wait_spec hwait words) ?_
  intro a t ht
  simp only [meets_bind, meets_report, meets_takeDescriptor, meets_pure]
  exact ht _ rfl rfl rfl

theorem allocateMinimum_spec (h : Vacant R k none false ws s.ledger) :
    Meets Stop.External allocateMinimum s fun o t => Vacant R k o o.isSome ws t.ledger := by
  unfold allocateMinimum
  rw [meets_bind, meets_config]
  exact allocate_spec h _

/-! ## The region -/

theorem attach_error {r r' : Ring} {base : Address} {size : Nat} {e : Failure}
    (h : r.attach base size = .error e r') : e.toStop.internal = false := by
  unfold Ring.attach at h
  split at h
  · cases h
    exact rfl
  · split at h <;> cases h
    exact rfl

theorem init_spec (h : AtRest R k ws s.ledger) {base : Address} {size : Nat}
    (hfit : size ≠ 0 → base = R.start ∧ size = R.words) :
    Meets Stop.External (init base size) s fun _ t => AtRest R k ws t.ledger := by
  unfold init
  simp only [meets_bind, meets_currentCore, meets_mainCore, meets_ite, meets_fatal, meets_onRing,
    meets_report, meets_borrow, meets_setActive, meets_debug]
  constructor
  · intro _
    exact rfl
  intro hmain
  have hcore : s.console.topology.current = k := (Decidable.not_not.1 hmain).trans h.main
  rw [hcore]
  cases hr : s.pool.ring.attach base size with
  | error e r => exact attach_error hr
  | ok a r =>
    obtain ⟨ho, hbal⟩ := h.balanced.attach hfit hr
    refine ⟨fun _ => rfl, fun _ => ⟨fun _ => rfl, ?_⟩⟩
    intro hnone
    have hleased : s.ledger.leases.leased = false := by
      rw [h.leased, ho]
      rfl
    have hvacant : Vacant R k none false ws { s.ledger with ring := r } :=
      ⟨h.main, h.seated, hbal, Option.not_isSome_iff_eq_none.1 hnone, hleased⟩
    exact Meets.imp (allocateMinimum_spec hvacant) fun o t ht => ht.seat

/-- The ring is drained before its region goes. -/
theorem drain_spec (h : Vacant R k none false ws s.ledger) :
    Meets Stop.External (waitFor (fun _ => []) Pool.tryDrained) s fun _ t =>
      Vacant R k none false ws t.ledger ∧ t.pool.ring.outstanding = 0 := by
  apply meets_waitFor (I := fun t => Vacant R k none false ws t.ledger) _ s h
  intro t ht
  rw [meets_onPool]
  unfold Pool.tryDrained
  by_cases hout : t.pool.ring.outstanding = 0
  · rw [if_pos hout]
    exact ⟨ht, hout⟩
  · rw [if_neg hout]
    exact consuming_await.vacant ht

theorem shutdown_spec (h : AtRest R k ws s.ledger) :
    Meets Stop.External shutdown s fun _ t => AtRest R k ws t.ledger := by
  have hrest : ∀ t : Session, Vacant R k none false ws t.ledger → Meets Stop.External (do
      waitFor (fun _ => []) Pool.tryDrained
      onPool (Pool.onRing Ring.detach)
      debug "CommandBufferPool: shut down") t fun _ u => AtRest R k ws u.ledger := by
    intro t ht
    apply meets_bind.2
    refine Meets.imp (drain_spec ht) ?_
    rintro _ u ⟨hu, hout⟩
    simp only [meets_bind, meets_onRing, meets_debug, Ring.detach, hout]
    by_cases hattached : u.pool.ring.IsAttached
    · simp only [hattached, not_true_eq_false, if_false, ne_eq]
      exact Vacant.atRest ⟨hu.main, hu.seated, hu.balanced.detach hout, hu.vacant, hu.leased⟩
    · simp only [hattached, not_false_eq_true, if_true]
      exact rfl
  unfold shutdown
  simp only [meets_bind, meets_currentCore, meets_mainCore, meets_ite, meets_fatal, meets_borrow]
  refine ⟨fun _ => rfl, fun hmain => ⟨fun _ => rfl, fun _ => ?_⟩⟩
  constructor
  · intro _
    refine Meets.imp (submitActive_spec h _) ?_
    rintro _ t ⟨-, ht⟩
    exact hrest t ht
  · intro hnone
    have hcore : s.console.topology.current = k := (Decidable.not_not.1 hmain).trans h.main
    rw [hcore] at hnone
    exact hrest s (h.vacant (Option.not_isSome_iff_eq_none.1 hnone))

theorem flush_spec (h : AtRest R k ws s.ledger) :
    Meets Stop.External flush s fun _ t => AtRest R k ws t.ledger := by
  unfold flush
  simp only [meets_bind, meets_currentCore, meets_borrow]
  constructor
  · intro _
    exact rfl
  intro _
  refine Meets.imp (submitActive_spec h _) ?_
  rintro _ t ⟨hc, ht⟩
  refine Meets.imp (allocateMinimum_spec ht) ?_
  intro o u hu
  rw [hc]
  exact hu.seat

/-! ## Display lists -/

/-- A list takes a slot that is empty. -/
theorem record_spec (h : AtRest R k ws s.ledger) (c : Core) {storage : Address} {words : Nat}
    (hclear : R.Clear storage words) (text : String) : Meets Stop.External (do
      if (← onPool (Pool.active c)).isSome then
        fatal (.slotOccupied c)
      let d ← onPool Pool.takeDescriptor
      onPool (Pool.setActive c (some (d.bind storage 0 words .displayList)))
      debug text) s fun _ t => AtRest R k ws t.ledger := by
  simp only [meets_bind, meets_active, meets_ite, meets_fatal, meets_takeDescriptor, meets_setActive,
    meets_debug]
  constructor
  · intro _
    exact rfl
  intro hc
  apply h.setList
  · intro d hd
    exact absurd (Option.isSome_iff_exists.2 ⟨d, hd⟩) hc
  · rintro _ ⟨⟩
    exact ⟨rfl, Nat.zero_le _, hclear⟩

theorem beginDisplayList_spec (h : AtRest R k ws s.ledger) {storage : Address} {words : Nat}
    (hclear : R.Clear storage words) :
    Meets Stop.External (beginDisplayList storage words) s fun _ t => AtRest R k ws t.ledger := by
  unfold beginDisplayList
  rw [meets_bind, meets_currentCore, meets_bind, meets_borrow]
  constructor
  · intro _
    exact rfl
  intro _
  rw [meets_bind, meets_mainCore, meets_ite, meets_bind]
  constructor
  · intro _
    refine Meets.imp (submitActive_spec h _) ?_
    rintro _ t ⟨-, ht⟩
    exact record_spec ht.atRest _ hclear _
  · intro _
    exact record_spec h _ hclear _

/-- An alignment fits beside the size of a list that leaves room for the ring. -/
theorem pad_sum_lt (h : AtRest R k ws s.ledger) {d : Descriptor} (hd : s.pool.leases.active c = some d)
    (hlist : d.backing = .displayList) : d.used + s.pool.config.padAlign < Counter.bound := by
  obtain ⟨hused, hclear⟩ := h.list_at hd hlist
  have hshort := hclear.lt R.nonempty
  have halign := h.balanced.padAlign.2
  change s.pool.config.padAlign ≤ 2 ^ 31 at halign
  unfold Counter.bound
  omega

/-- Padding keeps a list in its slot. -/
theorem padActive_spec (h : AtRest R k ws s.ledger) {d : Descriptor} (hd : s.pool.leases.active c = some d)
    (hlist : d.backing = .displayList) :
    Meets Stop.External (padActive c) s fun p t => AtRest R k ws t.ledger ∧
      t.pool.leases.active c = some p.1 ∧ p.1.backing = .displayList := by
  obtain ⟨new, hpad⟩ := OpenBuffer.writes_pad (b := ⟨d, s.console.memory⟩) (h.list_at hd hlist).1
    h.balanced.padAlign.1 (pad_sum_lt h hd hlist)
  unfold padActive
  rw [meets_bind, meets_config, meets_bind]
  refine Meets.imp (onActive_list_spec h hd hlist hpad) ?_
  rintro _ t ⟨ht, d', hd', hlist'⟩
  rw [meets_bind, meets_active, hd']
  obtain ⟨hused, hclear⟩ := ht.list_at hd' hlist'
  have hshort := hclear.lt R.nonempty
  have hbytes : d'.sizeBytes = .ok (d'.used * wordBytes) := by
    refine Counter.mul_eq_ok_iff.2 ⟨?_, rfl⟩
    unfold wordBytes Counter.bound
    omega
  simp only [meets_bind, meets_checked, hbytes, meets_pure]
  exact ⟨ht, hd', hlist'⟩

theorem finalizeDisplayList_spec (h : AtRest R k ws s.ledger) (storage : Address) :
    Meets Stop.External (finalizeDisplayList storage) s fun _ t => AtRest R k ws t.ledger := by
  unfold finalizeDisplayList
  rw [meets_bind, meets_currentCore, meets_bind, meets_borrow]
  constructor
  · intro _
    exact rfl
  intro _
  cases hd : s.pool.leases.active s.console.topology.current with
  | none => exact rfl
  | some d =>
    simp only [meets_bind, meets_ite, meets_fatal, ne_eq]
    refine ⟨fun _ => rfl, fun hlist => ⟨fun _ => rfl, fun _ => ?_⟩⟩
    rw [Decidable.not_not] at hlist
    refine Meets.imp (padActive_spec h hd hlist) ?_
    rintro p t ⟨ht, hd', hlist'⟩
    simp only [meets_setActive, meets_giveDescriptor, meets_mainCore, meets_debug, meets_pure]
    have hempty : AtRest R k ws
        { t.ledger with leases := t.pool.leases.setActive s.console.topology.current none } := by
      apply ht.setList
      · intro x hx
        cases hd'.symm.trans hx
        exact hlist'
      · simp
    constructor
    · intro hmain
      have hcore : s.console.topology.current = k := hmain.trans ht.main
      rw [hcore] at hempty ⊢
      have hvacant := hempty.vacant (Leases.active_setActive_self ..)
      exact Meets.imp (allocateMinimum_spec hvacant) fun o u hu => hu.seat
    · intro _
      exact hempty

theorem queueDisplayList_spec (h : AtRest R k ws s.ledger) (storage : Address) (words : Nat) :
    Meets Stop.External (queueDisplayList storage words) s fun _ t => AtRest R k ws t.ledger := by
  unfold queueDisplayList submit
  simp only [meets_bind, meets_takeDescriptor, meets_onConsole]
  apply consuming_freeAhead.atRest
  refine h.same ⟨rfl, rfl⟩ (h.balanced.submit_list ?_ ?_) <;> rfl

theorem recordedList_spec (h : AtRest R k ws s.ledger) :
    Meets Stop.External recordedList s fun _ t => AtRest R k ws t.ledger := by
  unfold recordedList
  rw [meets_bind, meets_currentCore, meets_bind, meets_borrow]
  constructor
  · intro _
    exact rfl
  intro _
  cases s.pool.leases.active s.console.topology.current with
  | none => exact rfl
  | some d => exact h

/-! ## Room in the active buffer -/

theorem remaining_spec (h : AtRest R k ws s.ledger) (c : Core) :
    Meets Stop.External (remaining c) s fun _ t => AtRest R k ws t.ledger := by
  unfold remaining
  rw [meets_bind, meets_active]
  cases hd : s.pool.leases.active c with
  | none => exact rfl
  | some d =>
    simp only [meets_checked, h.remaining_eq hd]
    exact h

theorem askForStorage_spec (h : AtRest R k ws s.ledger) (question : Overrun) :
    Meets Stop.External (askForStorage question) s fun answer t => AtRest R k ws t.ledger ∧
      t.pool.leases = s.pool.leases ∧
      ∀ st, answer = some st → R.Clear st.start (st.bytes / wordBytes) := by
  unfold askForStorage
  simp only [meets_bind, meets_modify, meets_get]
  cases hoffers : s.console.offers with
  | nil => exact ⟨h, rfl, by simp⟩
  | cons answer rest =>
    have hclear := h.balanced.offers
    simp only [Session.ledger, hoffers] at hclear
    refine ⟨h.same ⟨rfl, rfl⟩ { h.balanced with offers := ?_ }, rfl, ?_⟩
    · intro st hst
      exact hclear st (List.mem_cons_of_mem _ hst)
    · rintro st rfl
      exact hclear st List.mem_cons_self

theorem growDisplayList_spec (h : AtRest R k ws s.ledger) {d : Descriptor}
    (hd : s.pool.leases.active c = some d) (hlist : d.backing = .displayList) (needed : Nat) :
    Meets Stop.External (growDisplayList c needed) s fun _ t => AtRest R k ws t.ledger := by
  unfold growDisplayList
  rw [meets_bind]
  refine Meets.imp (padActive_spec h hd hlist) ?_
  rintro p t ⟨ht, hd', hlist'⟩
  simp only [meets_bind]
  refine Meets.imp (askForStorage_spec ht _) ?_
  rintro answer u ⟨hu, hsame, hclear⟩
  cases answer with
  | none => exact rfl
  | some next =>
    simp only [meets_bind, meets_ite, meets_fatal, meets_debug, meets_setActive]
    refine ⟨fun _ => rfl, fun _ => ?_⟩
    apply hu.setList
    · intro x hx
      change u.pool.leases.active c = some x at hx
      rw [hsame, hd'] at hx
      cases hx
      exact hlist'
    · rintro _ ⟨⟩
      exact ⟨rfl, Nat.zero_le _, hclear next rfl⟩

theorem replaceRingBuffer_spec (h : AtRest R k ws s.ledger) (c : Core) (needed : Nat) :
    Meets Stop.External (replaceRingBuffer c needed) s fun _ t => AtRest R k ws t.ledger := by
  unfold replaceRingBuffer
  rw [meets_bind]
  refine Meets.imp (submitActive_spec h c) ?_
  rintro _ t ⟨hc, ht⟩
  rw [meets_bind]
  refine Meets.imp (allocate_spec ht needed) ?_
  intro o u hu
  cases o with
  | none => exact rfl
  | some d =>
    subst hc
    exact hu.seat

/-- The buffer that stands in the slot is asked again. -/
theorem fits_spec (h : AtRest R k ws s.ledger) (c : Core) (needed : Nat) : Meets Stop.External (do
      if let some d ← onPool (Pool.active c) then
        if ¬ d.Fits needed then
          fatal (.commandTooLarge needed (← checked d.remaining))) s
      fun _ t => AtRest R k ws t.ledger := by
  rw [meets_bind, meets_active]
  cases hd : s.pool.leases.active c with
  | none => exact h
  | some d =>
    simp only [meets_ite, meets_bind, meets_checked, h.remaining_eq hd, meets_fatal, meets_pure]
    exact ⟨fun _ => rfl, fun _ => h⟩

theorem replaceActive_spec (h : AtRest R k ws s.ledger) {d : Descriptor}
    (hd : s.pool.leases.active c = some d) (needed : Nat) :
    Meets Stop.External (replaceActive c d needed) s fun _ t => AtRest R k ws t.ledger := by
  unfold replaceActive
  cases hb : d.backing with
  | displayList =>
    apply meets_bind.2
    exact Meets.imp (growDisplayList_spec h hd hb needed) fun _ t ht => fits_spec ht c needed
  | ring =>
    apply meets_bind.2
    exact Meets.imp (replaceRingBuffer_spec h c needed) fun _ t ht => fits_spec ht c needed

theorem getBuffer_spec (h : AtRest R k ws s.ledger) (words : Nat) :
    Meets Stop.External (getBuffer words) s fun _ t => AtRest R k ws t.ledger := by
  unfold getBuffer
  rw [meets_bind, meets_currentCore, meets_bind, meets_borrow]
  constructor
  · intro _
    exact rfl
  intro _
  cases hd : s.pool.leases.active s.console.topology.current with
  | none => exact rfl
  | some d =>
    simp only [meets_ite, meets_bind]
    constructor
    · intro _
      exact Meets.imp (replaceActive_spec h hd words) fun _ t ht => ht.setHeld _ _
    · intro _
      exact h.setHeld _ _

end Step

end CommandPool
