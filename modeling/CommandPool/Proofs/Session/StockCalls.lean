import CommandPool.Proofs.Session.Script
import CommandPool.Proofs.Session.Stock
/-!
# What the calls do to the stock

A call takes the open buffer out of the slot of the main core, if it needs to, waits empty-handed,
if it has to, and puts a new buffer into that slot. One statement for each call, in the order of the
calls, says that the pool is between calls again when the call is over (`perform_stock` for any
event, `play_stock` for a script), and that a call that hangs is `Stranded`.

The regions that are attached are short enough for addresses of 32 bits (`Event.Short`); nothing
else is asked of a script.
-/
namespace CommandPool

/-- A region that is attached has at most 2^30 words. -/
def Event.Short : Event → Prop
  | .init _ size => size ≤ 2 ^ 30
  | _ => True

namespace Step

variable {k c : Core} {s : Session}

/-! ## Writing -/

/-- Whatever is done to the buffer in a slot, its storage stays. -/
theorem onActive_stock (h : Between k s.stock) (c : Core) {f : OpenBuffer → Outcome OpenBuffer Unit}
    (hf : ∀ b b', f b = .ok () b' → OpenBuffer.SameStorage b.buffer b'.buffer) :
    Meets Stranded (onActive c f) s fun _ t => Between k t.stock ∧
      ∀ d, s.pool.leases.active c = some d →
        ∃ d', t.pool.leases.active c = some d' ∧ d'.backing = d.backing := by
  rw [meets_onActive]
  cases hd : s.pool.leases.active c with
  | none => exact stranded_fatal _ _
  | some d =>
    dsimp only
    cases hr : f ⟨d, s.console.memory⟩ with
    | error e b => exact stranded_toStop _ _
    | ok a b =>
      have hsame := hf _ _ hr
      refine ⟨h.rewrite hd hsame, ?_⟩
      rintro _ ⟨⟩
      exact ⟨b.buffer, Leases.active_setActive_self .., hsame.backing⟩

/-! ## Submitting -/

theorem close_stock (h : Between k s.stock) (c : Core) :
    Meets Stranded (onPool (Pool.close c)) s fun done t => c = k ∧ During k done t.stock := by
  unfold Pool.close
  rw [meets_onPool_bind, meets_active]
  cases hd : s.pool.leases.active c with
  | none => exact stranded_fatal _ _
  | some d =>
    simp only [meets_onPool_ite, meets_onPool_bind, meets_onPool_fatal, meets_setActive, meets_onLeases,
      meets_onRing, meets_giveDescriptor, meets_onPool_pure]
    refine ⟨fun _ => stranded_fatal _ _, fun hlist => ?_⟩
    have hring : d.backing = .ring := by cases hb : d.backing <;> simp_all
    obtain ⟨rfl, hacc, hlists⟩ := h.ring_at hd hring
    have hempty := lists_setActive (o := none) hlists (by simp)
    unfold Leases.unlease
    split
    · rename_i hunlease
      split at hunlease <;> cases hunlease
      rcases Nat.lt_or_ge d.capacity d.used with hover | hused
      · simp only [Ring.shrink, if_pos hover, Ring.refuse, stranded_toStop]
      · obtain ⟨r, hr, -, hdropped, hcut⟩ := hacc.shrink hused
        simp only [Session.stock] at hr
        simp only [hr]
        exact ⟨fun h0 => ⟨trivial, h.main, hempty, hdropped h0⟩,
          fun h0 => ⟨trivial, h.main, hempty, hcut h0⟩⟩
    · exact stranded_toStop _ _

/-- The open buffer goes to the queue. -/
theorem submitActive_stock (h : Between k s.stock) (c : Core) :
    Meets Stranded (submitActive c) s fun _ t => c = k ∧ During k none t.stock := by
  unfold submitActive
  rw [meets_bind]
  refine Meets.imp (close_stock h c) ?_
  rintro done t ⟨hc, ht⟩
  cases done with
  | none => exact ⟨hc, ht⟩
  | some d =>
    unfold submit
    simp only [meets_bind, meets_onConsole]
    have hqueued : During k none { t.stock with
        submitted := t.console.submitted ++ [{ d with stamp := t.console.lastStamp + 1 }] } :=
      ⟨ht.main, ht.lists, ht.accounted.submit _⟩
    exact Meets.imp (freeAhead_stock hqueued.accounted) fun _ u hu => ⟨hc, hqueued.consumed hu⟩

/-! ## Allocating -/

theorem acquire_wait_stock (h : During k none s.stock) (words : Nat) :
    Meets Stranded (waitFor ringFull (Pool.tryAcquire words)) s fun a t =>
      ∀ d : Descriptor, d.backing = .ring → d.grant = a.grant → During k (some d) t.stock := by
  apply meets_waitFor (I := fun t => During k none t.stock) _ s h
  intro t ht
  have hpost := ht.accounted.acquire words
  simp only [Session.stock] at hpost
  rw [meets_onPool]
  unfold Pool.tryAcquire
  cases hr : t.pool.ring.acquire words with
  | ok a r =>
    rw [hr] at hpost
    exact fun d hring hgrant => ⟨ht.main, ht.lists, hpost.2 d hring hgrant⟩
  | error e r =>
    rw [hr] at hpost
    rcases hpost with ⟨-, hacc, rfl | rfl | ⟨wanted, rfl⟩⟩
    · exact await_stock ⟨ht.main, ht.lists, hacc⟩
    · exact stranded_toStop _ _
    · exact stranded_toStop _ _

theorem allocate_stock (h : During k none s.stock) (words : Nat) :
    Meets Stranded (allocate words) s fun o t => During k o t.stock := by
  unfold allocate
  simp only [meets_bind, meets_currentCore, meets_mainCore, meets_ite, meets_report, meets_pure,
    meets_onLeases]
  refine ⟨fun _ => h, fun _ => ?_⟩
  unfold Leases.lease
  split
  · rename_i hlease
    split at hlease <;> cases hlease
    have hleased : During k none
        { s.stock with leases := { s.pool.leases with leased := true } } :=
      ⟨h.main, h.lists, h.accounted⟩
    apply meets_bind.2
    refine Meets.imp (acquire_wait_stock hleased words) ?_
    intro a t ht
    simp only [meets_bind, meets_report, meets_takeDescriptor, meets_pure]
    exact ht _ rfl rfl
  · exact stranded_toStop _ _

theorem allocateMinimum_stock (h : During k none s.stock) :
    Meets Stranded allocateMinimum s fun o t => During k o t.stock := by
  unfold allocateMinimum
  rw [meets_bind, meets_config]
  exact allocate_stock h _

/-! ## The region -/

theorem init_stock (h : Between k s.stock) {base : Address} {size : Nat} (hsize : size ≤ 2 ^ 30) :
    Meets Stranded (init base size) s fun _ t => Between k t.stock := by
  unfold init
  simp only [meets_bind, meets_currentCore, meets_mainCore, meets_ite, meets_fatal, meets_onRing,
    meets_report, meets_borrow, meets_setActive, meets_debug]
  refine ⟨fun _ => stranded_fatal _ _, fun hmain => ?_⟩
  have hcore : s.console.topology.current = k := (Decidable.not_not.1 hmain).trans h.main
  rw [hcore]
  cases hr : s.pool.ring.attach base size with
  | error e r => exact stranded_toStop _ _
  | ok a r =>
    refine ⟨fun _ => stranded_fatal _ _, fun _ => ⟨fun _ => stranded_fatal _ _, fun hnone => ?_⟩⟩
    have hnone : s.pool.leases.active k = none := Option.not_isSome_iff_eq_none.1 hnone
    have hd := h.during fun d hd => by cases hnone.symm.trans hd
    obtain ⟨-, -, hacc⟩ := hd.accounted.attach hsize hr
    exact Meets.imp (allocateMinimum_stock ⟨hd.main, hd.lists, hacc⟩) fun o t ht => ht.seat

theorem drain_stock (h : During k none s.stock) :
    Meets Stranded (waitFor (fun _ => []) Pool.tryDrained) s fun _ t =>
      During k none t.stock ∧ t.pool.ring.outstanding = 0 := by
  apply meets_waitFor (I := fun t => During k none t.stock) _ s h
  intro t ht
  rw [meets_onPool]
  unfold Pool.tryDrained
  by_cases hout : t.pool.ring.outstanding = 0
  · rw [if_pos hout]
    exact ⟨ht, hout⟩
  · rw [if_neg hout]
    exact await_stock ht

theorem shutdown_stock (h : Between k s.stock) :
    Meets Stranded shutdown s fun _ t => Between k t.stock := by
  have hrest : ∀ t : Session, During k none t.stock → Meets Stranded (do
      waitFor (fun _ => []) Pool.tryDrained
      onPool (Pool.onRing Ring.detach)
      debug "CommandBufferPool: shut down") t fun _ u => Between k u.stock := by
    intro t ht
    apply meets_bind.2
    refine Meets.imp (drain_stock ht) ?_
    rintro _ u ⟨hu, hout⟩
    simp only [meets_bind, meets_onRing, meets_debug, Ring.detach, hout]
    by_cases hattached : u.pool.ring.IsAttached
    · simp only [hattached, not_true_eq_false, if_false, ne_eq]
      exact .closed ⟨hu.main, hu.lists, hu.accounted.detach hout⟩
    · simp only [hattached, not_false_eq_true, if_true]
      exact stranded_toStop _ _
  unfold shutdown
  simp only [meets_bind, meets_currentCore, meets_mainCore, meets_ite, meets_fatal, meets_borrow]
  refine ⟨fun _ => stranded_fatal _ _, fun hmain => ⟨fun _ => stranded_fatal _ _, fun _ => ⟨?_, ?_⟩⟩⟩
  · intro _
    refine Meets.imp (submitActive_stock h _) ?_
    rintro _ t ⟨-, ht⟩
    exact hrest t ht
  · intro hnone
    have hcore : s.console.topology.current = k := (Decidable.not_not.1 hmain).trans h.main
    rw [hcore] at hnone
    have hnone : s.pool.leases.active k = none := Option.not_isSome_iff_eq_none.1 hnone
    exact hrest s (h.during fun d hd => by cases hnone.symm.trans hd)

theorem flush_stock (h : Between k s.stock) :
    Meets Stranded flush s fun _ t => Between k t.stock := by
  unfold flush
  simp only [meets_bind, meets_currentCore, meets_borrow]
  refine ⟨fun _ => stranded_fatal _ _, fun _ => ?_⟩
  refine Meets.imp (submitActive_stock h _) ?_
  rintro _ t ⟨hc, ht⟩
  refine Meets.imp (allocateMinimum_stock ht) ?_
  intro o u hu
  rw [hc]
  exact hu.seat

/-! ## Display lists -/

/-- A list takes a slot that is empty. -/
theorem record_stock (h : Between k s.stock) (c : Core) (storage : Address) (words : Nat)
    (text : String) : Meets Stranded (do
      if (← onPool (Pool.active c)).isSome then
        fatal (.slotOccupied c)
      let d ← onPool Pool.takeDescriptor
      onPool (Pool.setActive c (some (d.bind storage 0 words .displayList)))
      debug text) s fun _ t => Between k t.stock := by
  simp only [meets_bind, meets_active, meets_ite, meets_fatal, meets_takeDescriptor, meets_setActive,
    meets_debug]
  refine ⟨fun _ => stranded_fatal _ _, fun hc => ?_⟩
  apply h.setList
  · intro d hd
    exact absurd (Option.isSome_iff_exists.2 ⟨d, hd⟩) hc
  · rintro _ ⟨⟩
    rfl

theorem beginDisplayList_stock (h : Between k s.stock) (storage : Address) (words : Nat) :
    Meets Stranded (beginDisplayList storage words) s fun _ t => Between k t.stock := by
  unfold beginDisplayList
  rw [meets_bind, meets_currentCore, meets_bind, meets_borrow]
  refine ⟨fun _ => stranded_fatal _ _, fun _ => ?_⟩
  rw [meets_bind, meets_mainCore, meets_ite, meets_bind]
  constructor
  · intro _
    refine Meets.imp (submitActive_stock h _) ?_
    rintro _ t ⟨-, ht⟩
    exact record_stock (.closed ht) _ storage words _
  · intro _
    exact record_stock h _ storage words _

/-- Padding keeps a list in its slot. -/
theorem padActive_stock (h : Between k s.stock) {d : Descriptor} (hd : s.pool.leases.active c = some d) :
    Meets Stranded (padActive c) s fun p t => Between k t.stock ∧
      t.pool.leases.active c = some p.1 ∧ p.1.backing = d.backing := by
  unfold padActive
  rw [meets_bind, meets_config, meets_bind]
  refine Meets.imp (onActive_stock h c fun _ _ => OpenBuffer.sameStorage_pad) ?_
  rintro _ t ⟨ht, hslot⟩
  obtain ⟨d', hd', hb⟩ := hslot d hd
  rw [meets_bind, meets_active, hd']
  simp only [meets_bind, meets_checked, meets_pure]
  cases d'.sizeBytes with
  | error o => exact stranded_fault _ _
  | ok n => exact ⟨ht, hd', hb⟩

theorem finalizeDisplayList_stock (h : Between k s.stock) (storage : Address) :
    Meets Stranded (finalizeDisplayList storage) s fun _ t => Between k t.stock := by
  unfold finalizeDisplayList
  rw [meets_bind, meets_currentCore, meets_bind, meets_borrow]
  refine ⟨fun _ => stranded_fatal _ _, fun _ => ?_⟩
  cases hd : s.pool.leases.active s.console.topology.current with
  | none => exact stranded_fatal _ _
  | some d =>
    simp only [meets_bind, meets_ite, meets_fatal, ne_eq]
    refine ⟨fun _ => stranded_fatal _ _, fun hlist => ⟨fun _ => stranded_fatal _ _, fun _ => ?_⟩⟩
    rw [Decidable.not_not] at hlist
    refine Meets.imp (padActive_stock h hd) ?_
    rintro p t ⟨ht, hd', hb⟩
    simp only [meets_setActive, meets_giveDescriptor, meets_mainCore, meets_debug, meets_pure]
    have hempty : Between k
        { t.stock with leases := t.pool.leases.setActive s.console.topology.current none } := by
      apply ht.setList
      · intro x hx
        cases hd'.symm.trans hx
        rw [hb, hlist]
      · simp
    constructor
    · intro hmain
      have hcore : s.console.topology.current = k := hmain.trans ht.main
      rw [hcore] at hempty ⊢
      have hduring := hempty.during fun x hx => by
        rw [Leases.active_setActive_self] at hx
        cases hx
      exact Meets.imp (allocateMinimum_stock hduring) fun o u hu => hu.seat
    · intro _
      exact hempty

theorem queueDisplayList_stock (h : Between k s.stock) (storage : Address) (words : Nat) :
    Meets Stranded (queueDisplayList storage words) s fun _ t => Between k t.stock := by
  obtain ⟨o, hacc, hnext⟩ := h.consumed
  unfold queueDisplayList submit
  simp only [meets_bind, meets_takeDescriptor, meets_onConsole]
  have hqueued : Consumed o s.stock { s.stock with submitted := s.console.submitted ++
      [{ s.pool.arena.take.1.bind storage words words .displayList with
        stamp := s.console.lastStamp + 1 }] } := ⟨rfl, rfl, hacc.submit_list rfl⟩
  exact Meets.imp (freeAhead_stock hqueued.accounted) fun _ t ht => hnext _ (hqueued.trans ht)

theorem recordedList_stock (h : Between k s.stock) :
    Meets Stranded recordedList s fun _ t => Between k t.stock := by
  unfold recordedList
  rw [meets_bind, meets_currentCore, meets_bind, meets_borrow]
  refine ⟨fun _ => stranded_fatal _ _, fun _ => ?_⟩
  cases s.pool.leases.active s.console.topology.current with
  | none => exact stranded_fatal _ _
  | some d => exact h

/-! ## Room in the active buffer -/

theorem remaining_stock (h : Between k s.stock) (c : Core) :
    Meets Stranded (remaining c) s fun _ t => Between k t.stock := by
  unfold remaining
  rw [meets_bind, meets_active]
  cases s.pool.leases.active c with
  | none => exact stranded_fatal _ _
  | some d =>
    simp only [meets_checked]
    cases d.remaining with
    | error o => exact stranded_fault _ _
    | ok n => exact h

theorem askForStorage_stock (question : Overrun) :
    Meets Stranded (askForStorage question) s fun _ t => t.stock = s.stock := by
  unfold askForStorage
  simp only [meets_bind, meets_modify, meets_get]
  cases s.console.offers with
  | nil => rfl
  | cons answer rest => rfl

theorem growDisplayList_stock (h : Between k s.stock) {d : Descriptor}
    (hd : s.pool.leases.active c = some d) (hlist : d.backing = .displayList) (needed : Nat) :
    Meets Stranded (growDisplayList c needed) s fun _ t => Between k t.stock := by
  unfold growDisplayList
  rw [meets_bind]
  refine Meets.imp (padActive_stock h hd) ?_
  rintro p t ⟨ht, hd', hb⟩
  simp only [meets_bind]
  refine Meets.imp (askForStorage_stock _) ?_
  intro answer u hu
  cases answer with
  | none => exact stranded_fatal _ _
  | some next =>
    simp only [meets_bind, meets_ite, meets_fatal, meets_debug, meets_setActive]
    refine ⟨fun _ => stranded_fatal _ _, fun _ => ?_⟩
    rw [← hu] at ht
    apply ht.setList
    · intro x hx
      have hleases : u.pool.leases = t.pool.leases := congrArg Stock.leases hu
      change u.pool.leases.active c = some x at hx
      rw [hleases, hd'] at hx
      cases hx
      rw [hb, hlist]
    · rintro _ ⟨⟩
      rfl

theorem replaceRingBuffer_stock (h : Between k s.stock) (c : Core) (needed : Nat) :
    Meets Stranded (replaceRingBuffer c needed) s fun _ t => Between k t.stock := by
  unfold replaceRingBuffer
  rw [meets_bind]
  refine Meets.imp (submitActive_stock h c) ?_
  rintro _ t ⟨hc, ht⟩
  rw [meets_bind]
  refine Meets.imp (allocate_stock ht needed) ?_
  intro o u hu
  cases o with
  | none => exact stranded_fatal _ _
  | some d =>
    subst hc
    exact hu.seat

/-- The buffer that stands in the slot is asked again. -/
theorem fits_stock (h : Between k s.stock) (c : Core) (needed : Nat) : Meets Stranded (do
      if let some d ← onPool (Pool.active c) then
        if ¬ d.Fits needed then
          fatal (.commandTooLarge needed (← checked d.remaining))) s
      fun _ t => Between k t.stock := by
  rw [meets_bind, meets_active]
  cases s.pool.leases.active c with
  | none => exact h
  | some d =>
    simp only [meets_ite, meets_bind, meets_checked, meets_fatal, meets_pure]
    refine ⟨fun _ => ?_, fun _ => h⟩
    cases d.remaining with
    | error o => exact stranded_fault _ _
    | ok n => exact stranded_fatal _ _

theorem replaceActive_stock (h : Between k s.stock) {d : Descriptor}
    (hd : s.pool.leases.active c = some d) (needed : Nat) :
    Meets Stranded (replaceActive c d needed) s fun _ t => Between k t.stock := by
  unfold replaceActive
  cases hb : d.backing with
  | displayList =>
    apply meets_bind.2
    exact Meets.imp (growDisplayList_stock h hd hb needed) fun _ t ht => fits_stock ht c needed
  | ring =>
    apply meets_bind.2
    exact Meets.imp (replaceRingBuffer_stock h c needed) fun _ t ht => fits_stock ht c needed

theorem getBuffer_stock (h : Between k s.stock) (words : Nat) :
    Meets Stranded (getBuffer words) s fun _ t => Between k t.stock := by
  unfold getBuffer
  rw [meets_bind, meets_currentCore, meets_bind, meets_borrow]
  refine ⟨fun _ => stranded_fatal _ _, fun _ => ?_⟩
  cases hd : s.pool.leases.active s.console.topology.current with
  | none => exact stranded_fatal _ _
  | some d =>
    simp only [meets_ite, meets_bind]
    constructor
    · intro _
      exact Meets.imp (replaceActive_stock h hd words) fun _ t ht => ht.setHeld _ _
    · intro _
      exact h.setHeld _ _

/-! ## Events -/

/-- What is done only if the writer of `c` is open. -/
theorem whenHeld_stock (h : Between k s.stock) (c : Core) {f : Step Unit}
    (hf : Meets Stranded f s fun _ t => Between k t.stock) :
    Meets Stranded (do if (← get).pool.leases.held c then f) s fun _ t => Between k t.stock := by
  rw [meets_bind, meets_get, meets_ite]
  exact ⟨fun _ => hf, fun _ => h⟩

/-- The consumer, between calls. -/
theorem freeOldest_between (h : Between k s.stock) :
    Meets Stranded freeOldest s fun _ t => Between k t.stock := by
  obtain ⟨o, hacc, hnext⟩ := h.consumed
  exact Meets.imp (freeOldest_stock hacc) fun _ t ht => hnext _ ht.1

theorem poke_stock (h : Between k s.stock) (a : Address) (w : UInt32) :
    Meets Stranded (poke a w) s fun _ t => Between k t.stock := by
  unfold poke
  simp only [meets_bind, meets_get, meets_unfaulted, meets_onConsole]
  cases s.console.memory.write a w with
  | error f => exact stranded_fault _ _
  | ok m => exact h

/-- One event. -/
theorem perform_stock (h : Between k s.stock) {e : Event} (hshort : e.Short) :
    Meets Stranded (perform e) s fun _ t => Between k t.stock := by
  cases e with
  | enter c => exact h
  | init base size => exact init_stock h hshort
  | shutdown => exact shutdown_stock h
  | flush => exact flush_stock h
  | getBuffer words => exact meets_bind.2 (getBuffer_stock h words)
  | write c w =>
    refine whenHeld_stock h c (Meets.imp (onActive_stock h c fun _ _ => OpenBuffer.sameStorage_push) ?_)
    exact fun _ t ht => ht.1
  | writeAll c ws =>
    refine whenHeld_stock h c (Meets.imp (onActive_stock h c fun _ _ => OpenBuffer.sameStorage_pushAll) ?_)
    exact fun _ t ht => ht.1
  | remaining c => exact whenHeld_stock h c (meets_bind.2 (remaining_stock h c))
  | dropWriter c => exact h.setHeld c false
  | beginDisplayList storage words => exact beginDisplayList_stock h storage words
  | finalizeDisplayList storage => exact meets_bind.2 (finalizeDisplayList_stock h storage)
  | queueDisplayList storage words => exact queueDisplayList_stock h storage words
  | recordedList => exact meets_bind.2 (recordedList_stock h)
  | freeOldest => exact meets_bind.2 (freeOldest_between h)
  | advance => exact h
  | setIdle n => exact h
  | runAhead n => exact h
  | offer answer => exact h
  | poke a w => exact poke_stock h a w

/-- A whole script. -/
theorem play_stock {es : List Event} (hshort : ∀ e ∈ es, e.Short) (h : Between k s.stock) :
    Meets Stranded (play es) s fun _ t => Between k t.stock := by
  induction es generalizing s with
  | nil => exact h
  | cons e es ih =>
    rw [play, meets_bind, meets_get, meets_bind]
    refine Meets.imp (perform_stock h (hshort e List.mem_cons_self)) ?_
    intro _ t ht
    rw [meets_bind]
    exact Meets.imp (ih (fun e he => hshort e (List.mem_cons_of_mem _ he)) ht) fun _ u hu => hu

end Step

/-- Before the first event nothing is out. -/
theorem between_start {c : Config} {pool : Pool} (hpool : Pool.ofConfig c = .ok pool)
    (topology : Topology) (memory : Memory) :
    Between topology.main (Session.start pool topology memory).stock := by
  obtain ⟨hc, rfl⟩ := Pool.ofConfig_eq_ok hpool
  obtain ⟨hmin, hmax, -⟩ := c.validate_eq_ok_iff.1 hc
  refine .closed ⟨rfl, ?_, hmin, Nat.lt_of_lt_of_le hmin hmax, Nat.zero_le _,
    .empty rfl rfl rfl rfl, by simp⟩
  intro c' d hd
  simp [Session.stock, Session.start, Leases.allIdle, Leases.active, Slot.empty] at hd

end CommandPool
