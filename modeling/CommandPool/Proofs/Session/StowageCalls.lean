import CommandPool.Proofs.Padding
import CommandPool.Proofs.Session.Stowage
/-!
# No descriptor is lost or handed out twice

One statement for each call, in the order of the calls, says that it leaves every descriptor in a slot,
in the queue or back in the arena. A slot is filled only when it is empty, and a buffer that is
replaced in its slot keeps its descriptor. So in every state of every run the slots of the arena that
were ever used are each in one place (`descriptors_once`), from whichever cores the calls come,
wherever graphics run, and whichever submitted buffer is freed next.
-/
namespace CommandPool

/-- Lists that an event begins, or offers to go on in, lie where `A` says. -/
def Event.Lists (A : Address → Nat → Prop) : Event → Prop
  | .beginDisplayList storage words => A storage words
  | .offer (some st) => A st.start (st.bytes / wordBytes)
  | _ => True

variable {A : Address → Nat → Prop} {hand : List Descriptor} {d : Descriptor} {c : Core} {s t : Session}

namespace Step

variable {α : Type}

/-! ## Writing -/

/-- Words change nothing but the count in the descriptor. -/
theorem onActive_stowed (h : Stowed A hand s.stowage) (c : Core) {f : OpenBuffer → Outcome OpenBuffer Unit}
    (hf : ∀ b b', f b = .ok () b' → ∃ ws, b.Writes ws (f b)) :
    Meets Anyhow (onActive c f) s fun _ t => Stowed A hand t.stowage ∧
      ∀ d, s.pool.leases.active c = some d → ∃ n, t.pool.leases.active c = some { d with used := n } := by
  rw [meets_onActive]
  cases hd : s.pool.leases.active c with
  | none => trivial
  | some d =>
    dsimp only
    cases hr : f ⟨d, s.console.memory⟩ with
    | error e b => trivial
    | ok a b =>
      obtain ⟨ws, hwrites⟩ := hf _ _ hr
      have hb := hwrites (fun _ b => ∃ n, b.buffer = { d with used := n })
        (fun _ b w m ⟨n, hn⟩ _ _ => ⟨n + 1, by simp [hn]⟩) [] ⟨d.used, rfl⟩
      rw [hr] at hb
      obtain ⟨n, hn⟩ := hb
      have hstored : stored c b s = stored c ⟨{ d with used := n }, b.memory⟩ s := by rw [← hn]
      dsimp only
      rw [hstored]
      refine ⟨h.rebind hd rfl fun hlist => h.lists c d hd hlist, ?_⟩
      rintro _ ⟨⟩
      exact ⟨n, Leases.active_setActive_self ..⟩

/-- What is done only if the writer of `c` is open. -/
theorem whenHeld_stowed (h : Stowed A hand s.stowage) {c : Core} {f : Step Unit}
    (hf : Meets Anyhow f s fun _ t => Stowed A hand t.stowage) :
    Meets Anyhow (do if (← get).pool.leases.held c then f) s fun _ t => Stowed A hand t.stowage := by
  rw [meets_bind, meets_get, meets_ite]
  exact ⟨fun _ => hf, fun _ => h⟩

/-! ## Submitting -/

theorem submit_stowed (h : Stowed A (d :: hand) s.stowage) :
    Meets Anyhow (submit d) s fun _ t => Stows A hand s t := by
  unfold submit
  rw [meets_bind, meets_onConsole]
  refine (quiet_freeAhead A hand _ ?_).imp fun _ t ht => ⟨ht.stowed, ht.active⟩
  have hstamped : Stowed A ({ d with stamp := s.console.lastStamp + 1 } :: hand) s.stowage := h.alter rfl
  exact hstamped.enqueue

/-- The buffer is taken out of its slot, and given back if it is empty. -/
theorem close_stowed (h : Stowed A hand s.stowage) (c : Core) :
    Meets Anyhow (onPool (Pool.close c)) s fun done t =>
      Stowed A (done.toList ++ hand) t.stowage ∧ t.pool.leases.active c = none := by
  unfold Pool.close
  rw [meets_onPool_bind, meets_active]
  cases hd : s.pool.leases.active c with
  | none => trivial
  | some d =>
    simp only [meets_onPool_ite, meets_onPool_bind, meets_onPool_fatal, meets_setActive, meets_onLeases,
      meets_onRing, meets_giveDescriptor, meets_onPool_pure]
    refine ⟨fun _ => trivial, fun _ => ?_⟩
    have hout (d' : Descriptor) (hd' : d'.slot = d.slot) : Stowed A (d' :: hand)
        { s.stowage with leases := { s.pool.leases.setActive c none with leased := false } } :=
      ((h.unseat hd).alter hd').slots rfl
    have hnone : (s.pool.leases.setActive c none).active c = none := Leases.active_setActive_self ..
    unfold Leases.unlease
    split
    · rename_i l hl
      split at hl <;> cases hl
      split
      · exact ⟨fun _ => ⟨(hout _ rfl).give, hnone⟩, fun _ => ⟨hout _ rfl, hnone⟩⟩
      · trivial
    · trivial

/-- The slot of the core is empty then. -/
theorem submitActive_stowed (h : Stowed A hand s.stowage) (c : Core) :
    Meets Anyhow (submitActive c) s fun _ t =>
      Stowed A hand t.stowage ∧ t.pool.leases.active c = none := by
  unfold submitActive
  rw [meets_bind]
  refine Meets.imp (close_stowed h c) ?_
  rintro done t ⟨ht, hnone⟩
  cases done with
  | none => exact ⟨ht, hnone⟩
  | some d =>
    refine Meets.imp (submit_stowed ht) ?_
    rintro _ u ⟨hu, hactive⟩
    exact ⟨hu, hactive ▸ hnone⟩

/-! ## Allocating -/

theorem quiet_tryAcquire (words : Nat) : Quiet (onPool (Pool.tryAcquire words)) := by
  refine quiet_onPool fun p a p' hp => ?_
  unfold Pool.tryAcquire at hp
  split at hp <;> cases hp <;> exact ⟨rfl, rfl⟩

theorem quiet_lease : Quiet (onPool (Pool.onLeases Leases.lease)) := by
  refine quiet_onPool fun p a p' hp => ?_
  unfold Pool.onLeases Leases.lease at hp
  cases hl : p.leases.leased <;> simp only [hl, if_true, Bool.false_eq_true, if_false] at hp <;> cases hp
  exact ⟨rfl, rfl⟩

theorem quiet_report (rs : List Record) : Quiet (report rs) := quiet_modify fun _ => rfl

/-- A buffer of the ring, if one is allocated, is in the hands of the call. -/
theorem allocate_stowed (h : Stowed A hand s.stowage) (words : Nat) :
    Meets Anyhow (allocate words) s fun o t => Stowed A (o.toList ++ hand) t.stowage ∧
      t.pool.leases.active = s.pool.leases.active ∧ ∀ d, o = some d → d.backing = .ring := by
  unfold allocate
  simp only [meets_bind, meets_currentCore, meets_mainCore, meets_ite, meets_report, meets_pure]
  refine ⟨fun _ => ⟨h, rfl, by simp⟩, fun _ => ?_⟩
  refine Meets.imp (quiet_lease A hand s h) ?_
  rintro _ t ⟨ht, hactive⟩
  apply meets_bind.2
  refine Meets.imp (quiet_waitFor (quiet_tryAcquire words) A hand t ht) ?_
  rintro a u ⟨hu, hactive'⟩
  simp only [meets_bind, meets_report, meets_takeDescriptor, meets_pure]
  refine ⟨?_, hactive'.trans hactive, ?_⟩
  · exact hu.take.alter rfl
  · rintro _ ⟨⟩
    rfl

theorem allocateMinimum_stowed (h : Stowed A hand s.stowage) :
    Meets Anyhow allocateMinimum s fun o t => Stowed A (o.toList ++ hand) t.stowage ∧
      t.pool.leases.active = s.pool.leases.active ∧ ∀ d, o = some d → d.backing = .ring := by
  unfold allocateMinimum
  rw [meets_bind, meets_config]
  exact allocate_stowed h _

/-- An allocated buffer goes to the slot of `c`, which is empty. -/
theorem seat_stowed {o : Option Descriptor} (h : Stowed A (o.toList ++ hand) s.stowage)
    (hnone : s.pool.leases.active c = none) (hring : ∀ d, o = some d → d.backing = .ring) :
    Stowed A hand { s.stowage with leases := s.pool.leases.setActive c o } := by
  refine h.seat hnone fun d hd hlist => ?_
  rw [hring d hd] at hlist
  cases hlist

/-- The slot of `c`, which is empty, gets a buffer of the ring, if one is allocated. -/
theorem refill_stowed (h : Stowed A hand s.stowage) (hnone : s.pool.leases.active c = none) :
    Meets Anyhow (do onPool (Pool.setActive c (← allocateMinimum))) s fun _ t =>
      Stowed A hand t.stowage := by
  rw [meets_bind]
  refine Meets.imp (allocateMinimum_stowed h) ?_
  rintro o t ⟨ht, hactive, hring⟩
  rw [meets_setActive]
  exact seat_stowed ht (hactive ▸ hnone) hring

/-! ## The region -/

theorem quiet_onRing {f : Ring → Outcome Ring α} : Quiet (onPool (Pool.onRing f)) := by
  refine quiet_onPool fun p a p' hp => ?_
  unfold Pool.onRing at hp
  split at hp <;> cases hp
  exact ⟨rfl, rfl⟩

theorem init_stowed (h : Stowed A hand s.stowage) (base : Address) (size : Nat) :
    Meets Anyhow (init base size) s fun _ t => Stowed A hand t.stowage := by
  unfold init
  simp only [meets_bind, meets_currentCore, meets_mainCore, meets_ite, meets_fatal, meets_report,
    meets_borrow, meets_debug, anyhow, implies_true, true_and]
  refine fun _ => Meets.imp (quiet_onRing A hand s h) ?_
  rintro _ t ⟨ht, -⟩ _ hnone
  have hrefill := refill_stowed (s := t.reported [Ring.attachRecord base size]) ht
    (Option.not_isSome_iff_eq_none.1 hnone)
  rw [meets_bind] at hrefill
  exact hrefill

theorem shutdown_stowed (h : Stowed A hand s.stowage) :
    Meets Anyhow shutdown s fun _ t => Stowed A hand t.stowage := by
  have hdrained : Quiet (onPool Pool.tryDrained) := quiet_onPool fun p a p' hp => by
    cases hp
    exact ⟨rfl, rfl⟩
  have hrest : Quiet (do
      waitFor (fun _ => []) Pool.tryDrained
      onPool (Pool.onRing Ring.detach)
      debug "CommandBufferPool: shut down") :=
    (quiet_waitFor hdrained).bind fun _ => quiet_onRing.bind fun _ => quiet_report _
  unfold shutdown
  simp only [meets_bind, meets_currentCore, meets_mainCore, meets_ite, meets_fatal, meets_borrow, anyhow,
    implies_true, true_and]
  refine fun _ _ => ⟨fun _ => ?_, fun _ => ?_⟩
  · refine Meets.imp (submitActive_stowed h _) fun _ t ht => ?_
    exact (hrest A hand t ht.1).imp fun _ u hu => hu.stowed
  · exact (hrest A hand s h).imp fun _ u hu => hu.stowed

theorem flush_stowed (h : Stowed A hand s.stowage) :
    Meets Anyhow flush s fun _ t => Stowed A hand t.stowage := by
  unfold flush
  simp only [meets_bind, meets_currentCore, meets_borrow, anyhow, implies_true, true_and]
  refine fun _ => Meets.imp (submitActive_stowed h _) ?_
  rintro _ t ⟨ht, hnone⟩
  have hrefill := refill_stowed ht hnone
  rw [meets_bind] at hrefill
  exact hrefill

/-! ## Display lists -/

/-- A list takes a slot that is empty. -/
theorem record_stowed (h : Stowed A hand s.stowage) (c : Core) {storage : Address} {words : Nat}
    (hA : A storage words) (text : String) : Meets Anyhow (do
      if (← onPool (Pool.active c)).isSome then
        fatal (.slotOccupied c)
      let d ← onPool Pool.takeDescriptor
      onPool (Pool.setActive c (some (d.bind storage 0 words .displayList)))
      debug text) s fun _ t => Stowed A hand t.stowage := by
  simp only [meets_bind, meets_active, meets_ite, meets_fatal, meets_takeDescriptor, meets_setActive,
    meets_debug, anyhow, implies_true, true_and]
  intro hnone
  have hlist : Stowed A ((some (s.pool.arena.take.1.bind storage 0 words .displayList)).toList ++ hand)
      { s.stowage with arena := s.pool.arena.take.2 } := h.take.alter rfl
  exact hlist.seat (Option.not_isSome_iff_eq_none.1 hnone) fun d hd _ => by cases hd; exact hA

theorem beginDisplayList_stowed (h : Stowed A hand s.stowage) {storage : Address} {words : Nat}
    (hA : A storage words) :
    Meets Anyhow (beginDisplayList storage words) s fun _ t => Stowed A hand t.stowage := by
  unfold beginDisplayList
  rw [meets_bind, meets_currentCore, meets_bind, meets_borrow]
  refine ⟨fun _ => trivial, fun _ => ?_⟩
  rw [meets_bind, meets_mainCore, meets_ite, meets_bind]
  refine ⟨fun _ => ?_, fun _ => record_stowed h _ hA _⟩
  refine Meets.imp (submitActive_stowed h _) ?_
  rintro _ t ⟨ht, -⟩
  exact record_stowed ht _ hA _

/-- Padding keeps the list in its slot. -/
theorem padActive_stowed (h : Stowed A hand s.stowage) (c : Core) :
    Meets Anyhow (padActive c) s fun p t => Stowed A hand t.stowage ∧
      t.pool.leases.active c = some p.1 := by
  unfold padActive
  rw [meets_bind, meets_config, meets_bind]
  refine Meets.imp (onActive_stowed h c fun b b' hb => ?_) ?_
  · obtain ⟨_, _, _, hwrites⟩ := OpenBuffer.pad_writes hb
    exact ⟨_, hwrites⟩
  rintro _ t ⟨ht, -⟩
  rw [meets_bind, meets_active]
  cases hd : t.pool.leases.active c with
  | none => trivial
  | some d =>
    simp only [meets_bind, meets_checked, meets_pure]
    cases d.sizeBytes with
    | error o => trivial
    | ok n => exact ⟨ht, hd⟩

theorem finalizeDisplayList_stowed (h : Stowed A hand s.stowage) (storage : Address) :
    Meets Anyhow (finalizeDisplayList storage) s fun _ t => Stowed A hand t.stowage := by
  unfold finalizeDisplayList
  rw [meets_bind, meets_currentCore, meets_bind, meets_borrow]
  refine ⟨fun _ => trivial, fun _ => ?_⟩
  cases s.pool.leases.active s.console.topology.current with
  | none => trivial
  | some d =>
    simp only [meets_bind, meets_ite, meets_fatal, anyhow, implies_true, true_and]
    refine fun _ _ => Meets.imp (padActive_stowed h _) ?_
    rintro p t ⟨ht, hslot⟩
    simp only [meets_setActive, meets_giveDescriptor, meets_mainCore, meets_debug, meets_pure]
    have hgiven := (ht.unseat hslot).give
    refine ⟨fun _ => ?_, fun _ => hgiven⟩
    have hrefill := refill_stowed (s := { t with pool := { t.pool with
      arena := t.pool.arena.give p.1
      leases := t.pool.leases.setActive s.console.topology.current none } }) hgiven
      (Leases.active_setActive_self ..)
    rw [meets_bind] at hrefill
    exact hrefill

theorem queueDisplayList_stowed (h : Stowed A hand s.stowage) (storage : Address) (words : Nat) :
    Meets Anyhow (queueDisplayList storage words) s fun _ t => Stowed A hand t.stowage := by
  unfold queueDisplayList
  rw [meets_bind, meets_takeDescriptor]
  have hlist : Stowed A (s.pool.arena.take.1.bind storage words words .displayList :: hand)
      { s.stowage with arena := s.pool.arena.take.2 } := h.take.alter rfl
  exact Meets.imp (submit_stowed hlist) fun _ t ht => ht.stowed

theorem quiet_borrow (c : Core) : Quiet (onPool (Pool.borrow c)) := by
  refine quiet_onPool fun p a p' hp => ?_
  unfold Pool.borrow at hp
  split at hp <;> cases hp
  exact ⟨rfl, rfl⟩

theorem quiet_fatal (e : Refusal) : Quiet (fatal e : Step α) := quiet_throw _

theorem quiet_checked (x : Except Overflow α) : Quiet (checked x) := by
  cases x with
  | ok a => exact quiet_pure a
  | error o => exact quiet_throw _

theorem quiet_active (c : Core) : Quiet (onPool (Pool.active c)) := fun _ _ _ h => ⟨h, rfl⟩

theorem quiet_currentCore : Quiet currentCore := fun _ _ _ h => ⟨h, rfl⟩

theorem quiet_recordedList : Quiet recordedList := by
  refine quiet_currentCore.bind fun c => (quiet_borrow c).bind fun o => ?_
  cases o with
  | none => exact quiet_fatal _
  | some d => exact quiet_pure _

theorem quiet_remaining (c : Core) : Quiet (remaining c) := by
  refine (quiet_active c).bind fun o => ?_
  cases o with
  | none => exact quiet_fatal _
  | some d => exact quiet_checked _

/-! ## Room in the active buffer -/

/-- What the application answers lies where it may. -/
theorem askForStorage_stowed (h : Stowed A hand s.stowage) (question : Overrun) :
    Meets Anyhow (askForStorage question) s fun answer t => Stows A hand s t ∧
      ∀ st, answer = some st → A st.start (st.bytes / wordBytes) := by
  unfold askForStorage
  simp only [meets_bind, meets_modify, meets_get]
  cases hoffers : s.console.offers with
  | nil => exact ⟨⟨h, rfl⟩, by simp⟩
  | cons answer rest =>
    have hmem (st : Storage) (hst : some st ∈ answer :: rest) : A st.start (st.bytes / wordBytes) :=
      h.offers st (by simpa only [Session.stowage, hoffers] using hst)
    refine ⟨⟨⟨h.lent, h.lists, fun st hst => hmem st (List.mem_cons_of_mem _ hst)⟩, rfl⟩, ?_⟩
    rintro st rfl
    exact hmem st List.mem_cons_self

/-- The list stays in its slot, on other storage. -/
theorem growDisplayList_stowed (h : Stowed A hand s.stowage) (c : Core) (needed : Nat) :
    Meets Anyhow (growDisplayList c needed) s fun _ t => Stowed A hand t.stowage := by
  unfold growDisplayList
  rw [meets_bind]
  refine Meets.imp (padActive_stowed h c) ?_
  rintro p t ⟨ht, hslot⟩
  simp only [meets_bind]
  refine Meets.imp (askForStorage_stowed ht _) ?_
  rintro answer u ⟨⟨hu, hactive⟩, hanswer⟩
  cases answer with
  | none => trivial
  | some next =>
    simp only [meets_bind, meets_ite, meets_fatal, meets_debug, meets_setActive, anyhow, implies_true,
      true_and]
    have hactive : u.pool.leases.active c = some p.1 := hactive ▸ hslot
    exact fun _ => hu.rebind hactive rfl fun _ => hanswer next rfl

theorem replaceRingBuffer_stowed (h : Stowed A hand s.stowage) (c : Core) (needed : Nat) :
    Meets Anyhow (replaceRingBuffer c needed) s fun _ t => Stowed A hand t.stowage := by
  unfold replaceRingBuffer
  rw [meets_bind]
  refine Meets.imp (submitActive_stowed h c) ?_
  rintro _ t ⟨ht, hnone⟩
  rw [meets_bind]
  refine Meets.imp (allocate_stowed ht needed) ?_
  rintro o u ⟨hu, hactive, hring⟩
  cases o with
  | none => trivial
  | some d => exact seat_stowed hu (hactive ▸ hnone) hring

theorem quiet_fits (c : Core) (needed : Nat) : Quiet (do
      if let some d ← onPool (Pool.active c) then
        if ¬ d.Fits needed then
          fatal (.commandTooLarge needed (← checked d.remaining))) := by
  refine (quiet_active c).bind fun o => ?_
  cases o with
  | none => exact quiet_pure ()
  | some d =>
    dsimp only
    split
    · exact (quiet_checked _).bind fun _ => quiet_fatal _
    · exact quiet_pure ()

theorem replaceActive_stowed (h : Stowed A hand s.stowage) (c : Core) (d : Descriptor) (needed : Nat) :
    Meets Anyhow (replaceActive c d needed) s fun _ t => Stowed A hand t.stowage := by
  have hfits (t : Session) (ht : Stowed A hand t.stowage) :=
    (quiet_fits c needed A hand t ht).imp fun _ u hu => hu.stowed
  unfold replaceActive
  cases d.backing with
  | displayList =>
    apply meets_bind.2
    exact Meets.imp (growDisplayList_stowed h c needed) fun _ t ht => hfits t ht
  | ring =>
    apply meets_bind.2
    exact Meets.imp (replaceRingBuffer_stowed h c needed) fun _ t ht => hfits t ht

theorem getBuffer_stowed (h : Stowed A hand s.stowage) (words : Nat) :
    Meets Anyhow (getBuffer words) s fun _ t => Stowed A hand t.stowage := by
  have hwriter (c : Core) (held : Bool) (t : Session) (ht : Stowed A hand t.stowage) :
      Stowed A hand { t.stowage with leases := t.pool.leases.setHeld c held } :=
    ht.slots (funext fun k => Leases.active_setHeld ..)
  unfold getBuffer
  rw [meets_bind, meets_currentCore, meets_bind, meets_borrow]
  refine ⟨fun _ => trivial, fun _ => ?_⟩
  cases s.pool.leases.active s.console.topology.current with
  | none => trivial
  | some d =>
    simp only [meets_ite, meets_bind]
    refine ⟨fun _ => ?_, fun _ => hwriter _ true s h⟩
    exact Meets.imp (replaceActive_stowed h _ d words) fun _ t ht => hwriter _ true t ht

/-! ## Events -/

theorem poke_stowed (h : Stowed A hand s.stowage) (a : Address) (w : UInt32) :
    Meets Anyhow (poke a w) s fun _ t => Stowed A hand t.stowage := by
  unfold poke
  simp only [meets_bind, meets_get, meets_unfaulted, meets_onConsole]
  cases s.console.memory.write a w with
  | error f => trivial
  | ok m => exact h

/-- **One event** leaves every descriptor in a place. -/
theorem perform_stowed (h : Stowed A hand s.stowage) {e : Event} (he : e.Lists A) :
    Meets Anyhow (perform e) s fun _ t => Stowed A hand t.stowage := by
  cases e with
  | enter c => exact h
  | init base size => exact init_stowed h base size
  | shutdown => exact shutdown_stowed h
  | flush => exact flush_stowed h
  | getBuffer words => exact meets_bind.2 (getBuffer_stowed h words)
  | write c w =>
    refine whenHeld_stowed h (Meets.imp (onActive_stowed h c fun b b' hb => ?_) fun _ t ht => ht.1)
    exact ⟨_, OpenBuffer.writes_push w⟩
  | writeAll c ws =>
    refine whenHeld_stowed h (Meets.imp (onActive_stowed h c fun b b' hb => ?_) fun _ t ht => ht.1)
    exact ⟨_, OpenBuffer.writes_pushAll ws⟩
  | remaining c =>
    exact whenHeld_stowed h (meets_bind.2 ((quiet_remaining c A hand s h).imp fun _ _ ht => ht.stowed))
  | dropWriter c => exact h.slots (funext fun k => Leases.active_setHeld ..)
  | beginDisplayList storage words => exact beginDisplayList_stowed h he
  | finalizeDisplayList storage => exact meets_bind.2 (finalizeDisplayList_stowed h storage)
  | queueDisplayList storage words => exact queueDisplayList_stowed h storage words
  | recordedList => exact meets_bind.2 ((quiet_recordedList A hand s h).imp fun _ _ ht => ht.stowed)
  | freeOldest => exact meets_bind.2 ((quiet_freeOldest A hand s h).imp fun _ _ ht => ht.stowed)
  | advance => exact h
  | setIdle n => exact h
  | runAhead n => exact h
  | offer answer =>
    refine ⟨h.lent, h.lists, fun st hst => ?_⟩
    rcases List.mem_append.1 hst with hst | hst
    · exact h.offers st hst
    · cases List.mem_singleton.1 hst
      exact he
  | poke a w => exact poke_stowed h a w

end Step

/-! ## Runs -/

/-- What may happen to a pool whose buffers are freed only out of the queue: the events of a script,
graphics that move to another core, and a consumer that is done with the `i`-th submitted buffer. The
fields of that one may have become those of `d`, but not its slot. -/
inductive Dealing where
  | event (e : Event)
  | setMain (c : Core)
  | free (i : Nat) (d : Descriptor)
deriving DecidableEq, Repr

namespace Step

def deal : Dealing → Step Unit
  | .event e => perform e
  | .setMain c => onConsole (Console.setMain c)
  | .free i d => do
    if let some taken ← withdraw i then
      onPool (Pool.free { d with slot := taken.slot })

def dealAll : List Dealing → Step Unit
  | [] => return
  | o :: os => do
    deal o
    dealAll os

/-- Nothing is asked of lists. -/
abbrev Anywhere (_ : Address) (_ : Nat) : Prop := True

theorem lists_anywhere (e : Event) : e.Lists Anywhere := by
  unfold Event.Lists
  split <;> trivial

theorem free_submitted_stowed (h : Stowed A hand s.stowage) (i : Nat) (d : Descriptor) :
    Meets Anyhow (deal (.free i d)) s fun _ t => Stowed A hand t.stowage := by
  unfold deal withdraw
  simp only [meets_bind, meets_get, meets_onConsole, meets_pure]
  cases hi : s.console.submitted[i]? with
  | none =>
    have hsame : s.console.submitted.eraseIdx i = s.console.submitted :=
      List.eraseIdx_of_length_le (List.getElem?_eq_none_iff.1 hi)
    simp only [hsame]
    exact h
  | some taken =>
    have hout : Stowed A ({ d with slot := taken.slot } :: hand)
        { s.stowage with submitted := s.console.submitted.eraseIdx i } := (h.dequeue hi).alter rfl
    exact Meets.imp (free_stowed hout) fun _ t ht => ht.stowed

theorem deal_stowed (h : Stowed Anywhere [] s.stowage) (o : Dealing) :
    Meets Anyhow (deal o) s fun _ t => Stowed Anywhere [] t.stowage := by
  cases o with
  | event e => exact perform_stowed h (lists_anywhere e)
  | setMain c => exact h
  | free i d => exact free_submitted_stowed h i d

theorem dealAll_stowed (os : List Dealing) (h : Stowed Anywhere [] s.stowage) :
    Meets Anyhow (dealAll os) s fun _ t => Stowed Anywhere [] t.stowage := by
  induction os generalizing s with
  | nil => exact h
  | cons o os ih =>
    rw [dealAll, meets_bind]
    exact Meets.imp (deal_stowed h o) fun _ t ht => ih ht

end Step

theorem stowed_start {c : Config} {pool : Pool} (hpool : Pool.ofConfig c = .ok pool)
    (topology : Topology) (memory : Memory) :
    Stowed A [] (Session.start pool topology memory).stowage := by
  obtain ⟨-, rfl⟩ := Pool.ofConfig_eq_ok hpool
  refine ⟨Arena.lent_ofCapacity _, fun c d hd => ?_, fun st hst => ?_⟩
  · cases (Leases.active_allIdle c).symm.trans hd
  · cases hst

/-- **No descriptor is lost or handed out twice.** In every state of every run that nothing stopped,
each slot of the arena that was ever used is once on the stack of the arena, in the slot of a core or
in the queue, and no other slot is anywhere. -/
theorem descriptors_once {c : Config} {pool : Pool} (hpool : Pool.ofConfig c = .ok pool)
    (topology : Topology) (memory : Memory) {os : List Dealing} {s : Session}
    (hs : Step.dealAll os (.start pool topology memory) = .ok () s) :
    s.pool.arena.Shelved (s.pool.leases.buffers ++ s.console.submitted) :=
  ((Step.dealAll_stowed os (stowed_start hpool topology memory)).ok hs).lent.shelved

/-- An arena of two slots. Two cores record without a slot, the finished list is freed before the
buffer that was submitted first, whose slot goes out again for another list. -/
theorem descriptors_once_reused :
    let c : Config := ⟨2, 5, 2, 2⟩
    let pool : Pool := ⟨c, .ofConfig c, .ofCapacity 2, .allIdle⟩
    let os : List Dealing := [
      .event (.init ⟨0x1000⟩ 8), .event (.getBuffer 2), .event (.writeAll .one [1, 2]),
      .event (.dropWriter .one), .event .flush, .event (.enter .two),
      .event (.beginDisplayList ⟨0x1020⟩ 4), .event (.enter .zero), .event (.beginDisplayList ⟨0x1030⟩ 4),
      .event (.getBuffer 1), .event (.write .zero 3), .event (.dropWriter .zero),
      .event (.finalizeDisplayList ⟨0x1030⟩), .event (.queueDisplayList ⟨0x1030⟩ 2),
      .free 1 ⟨none, .displayList, 0, 7, 7, ⟨0x1030⟩⟩, .free 0 ⟨none, .ring, 1, 2, 2, ⟨0x1000⟩⟩,
      .setMain .zero, .event (.queueDisplayList ⟨0x1030⟩ 2)]
    Pool.ofConfig c = .ok pool ∧
      ∃ s, Step.dealAll os (.start pool .standard (.zeroed ⟨0x1000⟩ 16)) = .ok () s ∧
        (s.pool.leases.buffers.map Descriptor.slot, s.console.submitted.map Descriptor.slot,
            s.pool.arena.created, s.pool.arena.reused, s.pool.arena.unpooled) =
          ([some 1, none], [some 0], 2, 1, 3) ∧
        s.pool.arena.Shelved (s.pool.leases.buffers ++ s.console.submitted) :=
  ⟨rfl, Step.ok_of_seen (by decide +kernel) fun _ hs => descriptors_once (c := ⟨2, 5, 2, 2⟩) rfl _ _ hs⟩

end CommandPool
