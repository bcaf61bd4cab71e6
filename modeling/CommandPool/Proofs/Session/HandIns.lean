import CommandPool.Proofs.Session.RingPath
/-!
# Handed in and worked off

A buffer of the ring is handed in when it is taken out of its slot with words in it; the consumer works it
off when it frees it. `handedIn` lists what a script hands in, as a function of the script and of the
session it starts in. What is in the queue at any moment is the end of this list, and what was worked off
is the rest of it: each buffer once and in order, and no other (`play_handsIn`). What the consumer read in a
buffer is what stood there in the session in which it freed it (`Step.Read`).

Most of what a call does hands nothing in (`Passive`), but for waiting, during which the consumer works.
The configuration stays the same in all of this.
-/
namespace CommandPool

/-- In the course of the step `x`, taken in `s`, the consumer frees `d`, which is the oldest buffer then;
`words` is what stands in it at that moment. -/
def Step.Read {α : Type} (x : Step α) (s : Session) (d : Descriptor) (words : Option (List UInt32)) : Prop :=
  ∃ u, Step.ComesTo Step.freeOldest u x s ∧ u.console.submitted.head? = some d ∧
    words = d.contents u.console.memory

/-- The buffers `new` were handed in between `s` and `t`, and the consumer worked off a front part of
the queue. In each of these buffers it found what `Found` says. -/
structure Passed (Found : Descriptor → Option (List UInt32) → Prop) (new : List Descriptor) (s t : Session) :
    Prop where
  config : t.pool.config = s.pool.config
  lastStamp : s.console.lastStamp ≤ t.console.lastStamp
  stamps : ∀ d ∈ new, s.console.lastStamp < d.stamp ∧ d.stamp ≤ t.console.lastStamp
  /-- No two of them have the same stamp. -/
  ordered : new.Pairwise fun d e => d.stamp < e.stamp
  worked : ∃ freed read, ringBacked s.console.submitted ++ new = freed ++ ringBacked t.console.submitted ∧
    t.journal.executed = s.journal.executed ++ read ∧ List.Forall₂ Found freed read

variable {Found Found' : Descriptor → Option (List UInt32) → Prop} {new new' : List Descriptor}
  {s t u : Session} {c : Core} {d : Descriptor}

theorem Passed.imp (h : Passed Found new s t) (hfound : ∀ d words, Found d words → Found' d words) :
    Passed Found' new s t := by
  obtain ⟨freed, read, hqueue, hread, hboth⟩ := h.worked
  exact { h with worked := ⟨freed, read, hqueue, hread, hboth.imp hfound⟩ }

theorem Passed.trans (h : Passed Found new s t) (h' : Passed Found new' t u) :
    Passed Found (new ++ new') s u := by
  obtain ⟨freed, read, hqueue, hread, hboth⟩ := h.worked
  obtain ⟨freed', read', hqueue', hread', hboth'⟩ := h'.worked
  refine ⟨h'.config.trans h.config, h.lastStamp.trans h'.lastStamp, ?_, ?_,
    freed ++ freed', read ++ read', ?_, ?_, List.rel_append hboth hboth'⟩
  · intro d hd
    rcases List.mem_append.1 hd with hd | hd
    · exact ⟨(h.stamps d hd).1, (h.stamps d hd).2.trans h'.lastStamp⟩
    · exact ⟨Nat.lt_of_le_of_lt h.lastStamp (h'.stamps d hd).1, (h'.stamps d hd).2⟩
  · refine List.pairwise_append.2 ⟨h.ordered, h'.ordered, fun d hd e he => ?_⟩
    exact Nat.lt_of_le_of_lt (h.stamps d hd).2 (h'.stamps e he).1
  · rw [← List.append_assoc, hqueue, List.append_assoc, hqueue', List.append_assoc]
  · rw [hread', hread, List.append_assoc]

/-- Nothing happened to the queue, but that lists came or went. -/
theorem Passed.same (hconfig : t.pool.config = s.pool.config)
    (hstamp : s.console.lastStamp ≤ t.console.lastStamp)
    (hqueue : ringBacked t.console.submitted = ringBacked s.console.submitted)
    (hread : t.journal.executed = s.journal.executed) : Passed Found [] s t :=
  ⟨hconfig, hstamp, by simp, .nil, [], [], by simp [hqueue], by simp [hread], .nil⟩

theorem Passed.refl (s : Session) : Passed Found [] s s := .same rfl (Nat.le_refl _) rfl rfl

theorem Passed.reported (s : Session) (rs : List Record) : Passed Found [] s (s.reported rs) :=
  .same rfl (Nat.le_refl _) rfl rfl

namespace Step

variable {α β : Type}

/-! ## What a step hands in -/

theorem Read.first {x : Step α} {f : α → Step β} {words : Option (List UInt32)} (h : Read x s d words) :
    Read (x >>= f) s d words := by
  obtain ⟨u, hu, hfound⟩ := h
  exact ⟨u, .first hu, hfound⟩

theorem Read.next {x : Step α} {f : α → Step β} {a : α} {words : Option (List UInt32)}
    (hx : x s = .ok a t) (h : Read (f a) t d words) : Read (x >>= f) s d words := by
  obtain ⟨u, hu, hfound⟩ := h
  exact ⟨u, .next hx hu, hfound⟩

/-- The step `x`, taken in `s`, hands the buffers `new` in, if nothing stops it. -/
def HandsIn (new : List Descriptor) (x : Step α) (s : Session) : Prop :=
  Meets Anyhow x s fun _ t => Passed (Read x s) new s t

/-- A step that hands nothing in, wherever it is taken. -/
def Passive (x : Step α) : Prop := ∀ s, HandsIn [] x s

theorem HandsIn.bind {x : Step α} {f : α → Step β} (hx : HandsIn new x s)
    (hf : ∀ a t, x s = .ok a t → HandsIn new' (f a) t) : HandsIn (new ++ new') (x >>= f) s := by
  refine meets_bind.2 (Meets.imp (Meets.and_eq hx) ?_)
  rintro a t ⟨hrun, ht⟩
  refine Meets.imp (hf a t hrun) fun _ u hu => ?_
  exact (ht.imp fun _ _ => Read.first).trans (hu.imp fun _ _ => Read.next hrun)

theorem Passive.bind {x : Step α} {f : α → Step β} (hx : Passive x) (hf : ∀ a, Passive (f a)) :
    Passive (x >>= f) := fun s => (hx s).bind fun a t _ => hf a t

/-- A step that hands nothing in may come before. -/
theorem Passive.then_handsIn {x : Step α} {f : α → Step β} (hx : Passive x)
    (hf : ∀ a t, x s = .ok a t → HandsIn new (f a) t) : HandsIn new (x >>= f) s := (hx s).bind hf

/-- What a step hands in, one that hands nothing in may follow. -/
theorem HandsIn.then_passive {x : Step α} {f : α → Step β} (hx : HandsIn new x s)
    (hf : ∀ a, Passive (f a)) : HandsIn new (x >>= f) s := by
  simpa using hx.bind fun a t _ => hf a t

/-- A step that only looks at the session comes before. -/
theorem HandsIn.skip {x : Step α} {f : α → Step β} {a : α} (hx : x s = .ok a s)
    (h : HandsIn new (f a) s) : HandsIn new (x >>= f) s := by
  unfold HandsIn Meets
  rw [bind_of_ok hx]
  exact Meets.imp h fun _ u hu => hu.imp fun _ _ => Read.next hx

/-- The slot of `c` is borrowed before. -/
theorem HandsIn.borrow {f : Option Descriptor → Step β} (h : HandsIn new (f (s.pool.leases.active c)) s) :
    HandsIn new (onPool (Pool.borrow c) >>= f) s := by
  cases hheld : s.pool.leases.held c with
  | true =>
    refine meets_bind.2 (meets_borrow.2 ⟨fun _ => trivial, fun hfree => ?_⟩)
    cases hheld.symm.trans hfree
  | false =>
    refine .skip ?_ h
    simp only [onPool, Pool.borrow, Leases.borrow, hheld]
    rfl

theorem handsIn_fatal (new : List Descriptor) (e : Refusal) (f : Unit → Step α) (s : Session) :
    HandsIn new (fatal e >>= f) s := trivial

/-! ## Steps that hand nothing in -/

theorem passive_pure (a : α) : Passive (pure a) := fun s => .refl s

theorem passive_get : Passive get := fun s => .refl s

theorem passive_throw (e : Stop) : Passive (throw e : Step α) := fun _ => trivial

theorem passive_fatal (e : Refusal) : Passive (fatal e : Step α) := passive_throw _

theorem passive_report (rs : List Record) : Passive (report rs) := fun s => .reported s rs

theorem passive_debug (text : String) : Passive (debug text) := passive_report _

theorem passive_currentCore : Passive currentCore := fun s => .refl s

theorem passive_mainCore : Passive mainCore := fun s => .refl s

theorem passive_config : Passive config := fun s => .refl s

theorem passive_checked (x : Except Overflow α) : Passive (checked x) := by
  cases x with
  | ok a => exact passive_pure a
  | error o => exact passive_throw _

theorem passive_unfaulted (x : Except Fault α) : Passive (unfaulted x) := by
  cases x with
  | ok a => exact passive_pure a
  | error f => exact passive_throw _

theorem passive_ite {p : Prop} [Decidable p] {x y : Step α} (hx : Passive x) (hy : Passive y) :
    Passive (if p then x else y) := by
  split
  · exact hx
  · exact hy

/-- A guard stops a call or does nothing. -/
theorem passive_guard {α : Type} {p : Prop} [Decidable p] {e : Refusal} {f : Unit → Step α} {x : Step α}
    (hx : Passive x) : Passive (if p then fatal e >>= f else x) := passive_ite (handsIn_fatal [] e f) hx

/-- What the pool does by itself. -/
theorem passive_onPool {f : Pool.Action α} (h : ∀ p a p', f p = .ok a p' → p'.config = p.config) :
    Passive (onPool f) := by
  intro s
  refine meets_onPool.2 ?_
  split
  · exact .same (h _ _ _ ‹_›) (Nat.le_refl _) rfl rfl
  · trivial

theorem passive_onRing (f : Ring → Outcome Ring α) : Passive (onPool (Pool.onRing f)) := by
  refine passive_onPool fun p a p' hp => ?_
  unfold Pool.onRing at hp
  split at hp <;> cases hp
  rfl

theorem passive_onLeases (f : Leases → Outcome Leases α) : Passive (onPool (Pool.onLeases f)) := by
  refine passive_onPool fun p a p' hp => ?_
  unfold Pool.onLeases at hp
  split at hp <;> cases hp
  rfl

theorem passive_borrow (c : Core) : Passive (onPool (Pool.borrow c)) := by
  refine passive_onPool fun p a p' hp => ?_
  unfold Pool.borrow at hp
  split at hp <;> cases hp
  rfl

theorem passive_active (c : Core) : Passive (onPool (Pool.active c)) :=
  passive_onPool fun _ _ _ hp => by cases hp; rfl

theorem passive_setActive (c : Core) (o : Option Descriptor) : Passive (onPool (Pool.setActive c o)) :=
  passive_onPool fun _ _ _ hp => by cases hp; rfl

theorem passive_takeDescriptor : Passive (onPool Pool.takeDescriptor) :=
  passive_onPool fun _ _ _ hp => by cases hp; rfl

theorem passive_giveDescriptor (d : Descriptor) : Passive (onPool (Pool.giveDescriptor d)) :=
  passive_onPool fun _ _ _ hp => by cases hp; rfl

/-- Words that are written do not matter here. -/
theorem passive_onActive (c : Core) (f : OpenBuffer → Outcome OpenBuffer α) : Passive (onActive c f) := by
  intro s
  refine meets_onActive.2 ?_
  split
  · trivial
  · split
    · exact .same rfl (Nat.le_refl _) rfl rfl
    · trivial

/-! ## The consumer -/

theorem passive_advance : Passive advance := fun _ => .same rfl (Nat.le_refl _) rfl rfl

/-- One buffer is worked off, if there is one. -/
theorem passive_freeOldest : Passive freeOldest := by
  intro s
  have hread : ∀ d, s.console.submitted.head? = some d → Read freeOldest s d (d.contents s.console.memory) :=
    fun d hd => ⟨s, .enter, hd, rfl⟩
  unfold HandsIn
  generalize Read freeOldest s = Found at hread
  unfold freeOldest
  rw [meets_bind, meets_get]
  cases hsub : s.console.submitted with
  | nil => exact .refl s
  | cons d rest =>
    rw [hsub] at hread
    simp only [meets_bind, meets_onConsole, execute, meets_modify, Pool.free, meets_onPool_bind,
      meets_onPool_ite, meets_onPool_fatal, anyhow, implies_true, true_and, meets_onRing,
      meets_giveDescriptor, meets_pure]
    intro _
    cases hd : d.backing with
    | ring =>
      simp only [if_true, not_true_eq_false, false_implies, and_true, true_implies]
      split
      · refine ⟨rfl, Nat.le_refl _, by simp, .nil, [d], [d.contents s.console.memory], ?_, rfl, ?_⟩
        · simp [hsub, ringBacked_cons_ring rest hd]
        · exact .cons (hread d rfl) .nil
      · trivial
    | displayList =>
      simp only [reduceCtorEq, if_false, false_implies, true_and, not_false_eq_true, true_implies]
      exact .same rfl (Nat.le_refl _) (by simp [hsub, ringBacked_cons_list rest hd]) rfl

theorem passive_freeSome (n : Nat) : Passive (freeSome n) := by
  induction n with
  | zero => exact passive_pure ()
  | succ n ih =>
    refine passive_freeOldest.bind fun freed => ?_
    cases freed with
    | true => exact ih
    | false => exact passive_pure ()

theorem passive_freeAhead : Passive freeAhead := by
  refine passive_get.bind fun t => ?_
  cases t.console.ahead with
  | nil => exact passive_pure ()
  | cons n rest =>
    refine .bind (fun s => ?_) fun _ => passive_freeSome n
    exact .same rfl (Nat.le_refl _) rfl rfl

theorem passive_retireOne : Passive retireOne := by
  refine passive_freeOldest.bind fun freed => ?_
  cases freed with
  | true => exact passive_advance.bind fun _ => passive_pure true
  | false => exact passive_pure false

theorem passive_await : Passive await := by
  refine passive_get.bind fun t => .bind (fun s => ?_) fun _ =>
    passive_freeAhead.bind fun _ => passive_get.bind fun u => ?_
  · exact .same rfl (Nat.le_refl _) rfl rfl
  cases u.console.idle with
  | succ n =>
    refine .bind (fun s => ?_) fun _ => passive_advance
    exact .same rfl (Nat.le_refl _) rfl rfl
  | zero =>
    refine passive_retireOne.bind fun retired => ?_
    cases retired with
    | true => exact passive_pure ()
    | false => exact passive_throw _

section Rounds

variable {notice : Nat → List Record} {attempt : Pool.Action (Option α)} {words : Option (List UInt32)}

theorem Read.now (h : Read (onPool attempt) s d words) : Read (waitFor notice attempt) s d words := by
  rw [waitFor_eq_bind]
  exact h.first

theorem Read.await (hattempt : onPool attempt s = .ok none t)
    (h : Read await (t.reported (notice (t.console.timeline.retired + 1))) d words) :
    Read (waitFor notice attempt) s d words := by
  rw [waitFor_eq_bind]
  exact .next hattempt (.next rfl (.next rfl h.first))

theorem Read.later (hattempt : onPool attempt s = .ok none t)
    (hwait : Step.await (t.reported (notice (t.console.timeline.retired + 1))) = .ok () u)
    (h : Read (waitFor notice attempt) u d words) : Read (waitFor notice attempt) s d words := by
  rw [waitFor_eq_bind]
  exact .next hattempt (.next rfl (.next rfl (.next hwait h)))

end Rounds

theorem passive_waitFor {notice : Nat → List Record} {attempt : Pool.Action (Option α)}
    (h : Passive (onPool attempt)) : Passive (waitFor notice attempt) := by
  intro s
  -- what is read in a later round is read in the course of the loop
  apply meets_waitFor (I := fun t => Passed (Read (waitFor notice attempt) s) [] s t ∧
    ∀ d words, Read (waitFor notice attempt) t d words → Read (waitFor notice attempt) s d words) _ s
    ⟨.refl s, fun _ _ => id⟩
  rintro t ⟨ht, hlater⟩
  refine Meets.imp (Meets.and_eq (h t)) ?_
  rintro o u ⟨hattempt, hu⟩
  have hsu := ht.trans (hu.imp fun _ _ hread => hlater _ _ hread.now)
  cases o with
  | some a => exact hsu
  | none =>
    refine Meets.imp (Meets.and_eq (passive_await _)) ?_
    rintro _ v ⟨hwait, hv⟩
    have hsv := (hsu.trans (.reported u _)).trans (hv.imp fun _ _ hread => hlater _ _ (.await hattempt hread))
    exact ⟨hsv, fun _ _ hread => hlater _ _ (.later hattempt hwait hread)⟩

end Step

/-! ## What is handed in -/

/-- What a hand-in of the buffer of `c` brings to the queue: nothing, if it has no words. -/
def Session.handIn (s : Session) (c : Core) : List Descriptor :=
  match s.pool.leases.active c with
  | some d => if d.backing = .ring then Step.cut d (s.console.lastStamp + 1) else []
  | none => []

/-- What an event hands in, when nothing stops it. -/
def Event.handsIn (s : Session) : Event → List Descriptor
  | .shutdown | .flush | .beginDisplayList _ _ => s.handIn s.console.topology.current
  | .getBuffer words =>
    if (s.pool.leases.active s.console.topology.current).any (·.Fits words) then []
    else s.handIn s.console.topology.current
  | _ => []

/-- What a script hands in, up to its end or to where something stops it. -/
def handedIn : List Event → Session → List Descriptor
  | [], _ => []
  | e :: es, s =>
    e.handsIn s ++ match Step.perform e s with
      | .ok _ t => handedIn es t
      | .error _ _ => []

theorem Session.handIn_ring (hd : s.pool.leases.active c = some d) (hring : d.backing = .ring) :
    s.handIn c = Step.cut d (s.console.lastStamp + 1) := by
  simp only [Session.handIn, hd, if_pos hring]

theorem Session.handIn_list (hd : s.pool.leases.active c = some d) (hlist : d.backing = .displayList) :
    s.handIn c = [] := by
  simp [Session.handIn, hd, hlist]

theorem Session.handIn_none (hnone : s.pool.leases.active c = none) : s.handIn c = [] := by
  simp [Session.handIn, hnone]

namespace Step

variable {words : Nat}

theorem submit_handsIn (d : Descriptor) (s : Session) :
    HandsIn (ringBacked [{ d with stamp := s.console.lastStamp + 1 }]) (submit d) s := by
  refine HandsIn.then_passive ?_ fun _ => passive_freeAhead
  refine ⟨rfl, Nat.le_succ _, ?_, (List.pairwise_singleton _ _).filter _, [], [], ?_, by simp, .nil⟩
  · intro e he
    obtain rfl := List.mem_singleton.1 (List.mem_of_mem_filter he)
    exact ⟨Nat.lt_succ_self _, Nat.le_refl _⟩
  · simp [ringBacked]

/-- The buffer that is closed is the one to hand in. -/
theorem close_handIn (c : Core) (s : Session) : Meets Anyhow (onPool (Pool.close c)) s fun o _ =>
    (∀ d, o = some d → d.backing = .ring) ∧
      s.handIn c = o.toList.map fun d => { d with stamp := s.console.lastStamp + 1 } := by
  unfold Pool.close
  simp only [meets_onPool_bind, meets_active]
  cases hd : s.pool.leases.active c with
  | none => trivial
  | some d =>
    simp only [meets_onPool_bind, meets_onPool_ite, meets_onPool_fatal, anyhow, implies_true, true_and]
    intro hlist
    have hring : d.backing = .ring := by cases hb : d.backing <;> simp_all
    rw [Session.handIn_ring hd hring]
    refine Meets.imp (meets_anyhow _ _) fun _ t _ => Meets.imp (meets_anyhow _ _) fun _ u _ =>
      Meets.imp (meets_anyhow _ _) fun _ v _ => ?_
    constructor
    · intro h0
      refine Meets.imp (meets_anyhow _ _) fun _ w _ => ⟨by simp, ?_⟩
      simp [cut, h0]
    · intro h0
      refine ⟨?_, ?_⟩
      · rintro _ ⟨⟩
        exact hring
      · simp [cut, h0]

theorem passive_close (c : Core) : Passive (onPool (Pool.close c)) := by
  unfold Pool.close
  rw [onPool_bind]
  refine (passive_active c).bind fun o => ?_
  cases o with
  | none => exact passive_fatal _
  | some d =>
    simp only [onPool_bind, onPool_ite, onPool_fatal, onPool_pure]
    refine passive_guard <| (passive_setActive c none).bind fun _ => (passive_onLeases _).bind fun _ =>
      (passive_onRing _).bind fun _ => passive_ite ?_ (passive_pure _)
    exact (passive_giveDescriptor _).bind fun _ => passive_pure _

theorem submitActive_handsIn (c : Core) (s : Session) : HandsIn (s.handIn c) (submitActive c) s := by
  refine (passive_close c).then_handsIn fun o t hrun => ?_
  obtain ⟨hring, hnew⟩ := Meets.ok (close_handIn c s) hrun
  rw [hnew, ← console_onPool hrun]
  cases o with
  | none => exact passive_pure () t
  | some d =>
    have hbacked : ringBacked [{ d with stamp := t.console.lastStamp + 1 }] =
        [{ d with stamp := t.console.lastStamp + 1 }] := ringBacked_cons_ring _ (hring d rfl)
    have hsubmit := submit_handsIn d t
    rw [hbacked] at hsubmit
    exact hsubmit

theorem passive_queueDisplayList (storage : Address) (words : Nat) :
    Passive (queueDisplayList storage words) := by
  exact passive_takeDescriptor.bind fun d s => submit_handsIn (d.bind storage words words .displayList) s

/-! ## The calls -/

theorem passive_allocate (words : Nat) : Passive (allocate words) := by
  refine passive_currentCore.bind fun c => passive_mainCore.bind fun k => ?_
  have hgrant : Passive (do
      onPool (Pool.onLeases Leases.lease)
      let a ← waitFor ringFull (Pool.tryAcquire words)
      report (a.skip.map Ring.skipRecord).toList
      let d ← onPool Pool.takeDescriptor
      return some (d.bind a.grant.start 0 a.grant.words .ring) : Step (Option Descriptor)) := by
    refine (passive_onLeases _).bind fun _ => .bind (passive_waitFor (passive_onPool ?_)) fun a =>
      (passive_report _).bind fun _ => passive_takeDescriptor.bind fun d => passive_pure _
    intro p a p' hp
    unfold Pool.tryAcquire at hp
    split at hp <;> cases hp <;> rfl
  exact passive_ite (.bind (passive_report _) fun _ => passive_pure none) hgrant

theorem passive_allocateMinimum : Passive allocateMinimum := passive_config.bind fun _ => passive_allocate _

/-- A buffer is opened in the slot of `c`. -/
theorem passive_refill (c : Core) : Passive (do
      let o ← allocateMinimum
      onPool (Pool.setActive c o)) :=
  passive_allocateMinimum.bind fun _ => passive_setActive c _

theorem passive_init (base : Address) (size : Nat) : Passive (init base size) :=
  passive_currentCore.bind fun c => passive_mainCore.bind fun _ => passive_guard <|
    (passive_onRing _).bind fun _ => (passive_report _).bind fun _ => (passive_borrow c).bind fun _ =>
      passive_guard <| passive_allocateMinimum.bind fun o => (passive_setActive c o).bind fun _ =>
        passive_debug _

/-- Waiting for the queue and detaching the region. -/
theorem passive_drain : Passive (do
      waitFor (fun _ => []) Pool.tryDrained
      onPool (Pool.onRing Ring.detach)
      debug "CommandBufferPool: shut down") := by
  refine .bind (passive_waitFor (passive_onPool ?_)) fun _ => (passive_onRing _).bind fun _ => passive_debug _
  rintro p a p' ⟨⟩
  rfl

theorem shutdown_handsIn (s : Session) : HandsIn (s.handIn s.console.topology.current) shutdown s := by
  unfold shutdown
  refine .skip rfl (.skip rfl ?_)
  split
  · exact handsIn_fatal _ _ _ s
  · refine .borrow ?_
    split
    · exact (submitActive_handsIn _ s).then_passive fun _ => passive_drain
    · rename_i hnone
      rw [Session.handIn_none (Option.not_isSome_iff_eq_none.1 hnone)]
      exact passive_drain s

theorem flush_handsIn (s : Session) : HandsIn (s.handIn s.console.topology.current) flush s := by
  unfold flush
  exact .skip rfl (.borrow ((submitActive_handsIn _ s).then_passive fun _ => passive_refill _))

/-- A list goes to the slot of `c`, which has to be empty. -/
theorem passive_record (c : Core) (storage : Address) (words : Nat) (text : String) : Passive (do
      if (← onPool (Pool.active c)).isSome then
        fatal (.slotOccupied c)
      let d ← onPool Pool.takeDescriptor
      onPool (Pool.setActive c (some (d.bind storage 0 words .displayList)))
      debug text) :=
  (passive_active c).bind fun _ => passive_guard <| passive_takeDescriptor.bind fun _ =>
    (passive_setActive c _).bind fun _ => passive_debug _

theorem beginDisplayList_handsIn (storage : Address) (words : Nat) (s : Session) :
    HandsIn (s.handIn s.console.topology.current) (beginDisplayList storage words) s := by
  unfold beginDisplayList
  refine .skip rfl (.borrow (.skip rfl ?_))
  split
  · exact (submitActive_handsIn _ s).then_passive fun _ => passive_record _ storage words _
  · -- without a hand-in the slot has to be empty already
    cases hd : s.pool.leases.active s.console.topology.current with
    | none =>
      rw [Session.handIn_none hd]
      exact passive_record _ storage words _ s
    | some d =>
      refine .skip (congrArg (EStateM.Result.ok · s) hd) ?_
      exact handsIn_fatal _ _ _ s

theorem passive_padActive (c : Core) : Passive (padActive c) := by
  refine passive_config.bind fun _ => (passive_onActive c _).bind fun _ => (passive_active c).bind fun o => ?_
  cases o with
  | none => exact passive_fatal _
  | some d => exact (passive_checked _).bind fun _ => passive_pure _

theorem passive_finalizeDisplayList (storage : Address) : Passive (finalizeDisplayList storage) := by
  refine passive_currentCore.bind fun c => (passive_borrow c).bind fun o => ?_
  cases o with
  | none => exact passive_fatal _
  | some d =>
    have hreport (text : String) (bytes : Nat) : Passive (do debug text; return bytes) :=
      (passive_debug text).bind fun _ => passive_pure bytes
    refine passive_guard <| passive_guard <| (passive_padActive c).bind fun p =>
      (passive_setActive c none).bind fun _ => (passive_giveDescriptor _).bind fun _ =>
        passive_mainCore.bind fun _ => passive_ite ?_ (hreport _ _)
    exact passive_allocateMinimum.bind fun _ => (passive_setActive c _).bind fun _ => hreport _ _

theorem passive_recordedList : Passive recordedList := by
  refine passive_currentCore.bind fun c => (passive_borrow c).bind fun o => ?_
  cases o with
  | none => exact passive_fatal _
  | some d => exact passive_pure _

theorem passive_remaining (c : Core) : Passive (remaining c) := by
  refine (passive_active c).bind fun o => ?_
  cases o with
  | none => exact passive_fatal _
  | some d => exact passive_checked _

theorem passive_askForStorage (question : Overrun) : Passive (askForStorage question) := by
  refine .bind (fun s => ?_) fun _ => passive_get.bind fun t => ?_
  · exact .same rfl (Nat.le_refl _) rfl rfl
  cases t.console.offers with
  | nil => exact passive_pure _
  | cons answer rest =>
    refine .bind (fun s => ?_) fun _ => passive_pure _
    exact .same rfl (Nat.le_refl _) rfl rfl

theorem passive_growDisplayList (c : Core) (needed : Nat) : Passive (growDisplayList c needed) := by
  refine (passive_padActive c).bind fun p => (passive_askForStorage _).bind fun answer => ?_
  cases answer with
  | none => exact passive_fatal _
  | some next =>
    exact passive_guard <| (passive_debug _).bind fun _ => passive_setActive c _

/-- What is left to do once the buffer is replaced. -/
theorem passive_fits (c : Core) (needed : Nat) : Passive (do
      if let some d ← onPool (Pool.active c) then
        if ¬ d.Fits needed then
          fatal (.commandTooLarge needed (← checked d.remaining))) := by
  refine (passive_active c).bind fun o => ?_
  cases o with
  | none => exact passive_pure ()
  | some d => exact passive_ite ((passive_checked _).bind fun _ => passive_fatal _) (passive_pure ())

theorem replaceActive_handsIn (hd : s.pool.leases.active c = some d) (needed : Nat) :
    HandsIn (s.handIn c) (replaceActive c d needed) s := by
  unfold replaceActive
  cases hb : d.backing with
  | displayList =>
    rw [Session.handIn_list hd hb]
    exact (passive_growDisplayList c needed).bind (fun _ => passive_fits c needed) s
  | ring =>
    refine HandsIn.then_passive ((submitActive_handsIn c s).then_passive fun _ => ?_) fun _ =>
      passive_fits c needed
    refine (passive_allocate needed).bind fun o => ?_
    cases o with
    | none => exact passive_fatal _
    | some d => exact passive_setActive c _

theorem getBuffer_handsIn (words : Nat) (s : Session) :
    HandsIn ((Event.getBuffer words).handsIn s) (getBuffer words) s := by
  have hopen (c : Core) : Passive (do openWriter c; return c) := by
    refine .bind (passive_onPool ?_) fun _ => passive_pure c
    rintro p a p' ⟨⟩
    rfl
  unfold getBuffer Event.handsIn
  refine .skip rfl (.borrow ?_)
  cases hd : s.pool.leases.active s.console.topology.current with
  | none => trivial
  | some d =>
    by_cases hfits : d.Fits words
    · simp only [Option.any_some, hfits, decide_true, if_true, not_true_eq_false, if_false]
      exact hopen _ s
    · simp only [Option.any_some, hfits, decide_false, Bool.false_eq_true, if_false, not_false_eq_true, if_true]
      exact (replaceActive_handsIn hd words).then_passive fun _ => hopen _

/-! ## Events -/

/-- What is done only if the writer of `c` is open. -/
theorem passive_whenHeld (c : Core) {x : Step Unit} (hx : Passive x) :
    Passive (do if (← get).pool.leases.held c then x) :=
  passive_get.bind fun _ => passive_ite hx (passive_pure ())

/-- **One event** hands in what it does, and the consumer works off a front part of the queue. -/
theorem perform_handsIn (e : Event) (s : Session) : HandsIn (e.handsIn s) (perform e) s := by
  have hconsole (f : Console → Console) (hstamp : (f s.console).lastStamp = s.console.lastStamp)
      (hsub : (f s.console).submitted = s.console.submitted) : HandsIn [] (onConsole f) s := by
    refine .same rfl ?_ ?_ rfl
    · exact Nat.le_of_eq hstamp.symm
    · exact congrArg ringBacked hsub
  cases e with
  | enter c => exact hconsole _ rfl rfl
  | init base size => exact passive_init base size s
  | shutdown => exact shutdown_handsIn s
  | flush => exact flush_handsIn s
  | getBuffer words => exact (getBuffer_handsIn words s).then_passive fun _ => passive_pure ()
  | write c w => exact passive_whenHeld c (passive_onActive c _) s
  | writeAll c ws => exact passive_whenHeld c (passive_onActive c _) s
  | remaining c => exact passive_whenHeld c ((passive_remaining c).bind fun _ => passive_pure ()) s
  | dropWriter c =>
    refine Passive.bind (passive_onPool ?_) (fun _ => passive_pure ()) s
    rintro p a p' ⟨⟩
    rfl
  | beginDisplayList storage words => exact beginDisplayList_handsIn storage words s
  | finalizeDisplayList storage => exact (passive_finalizeDisplayList storage).bind (fun _ => passive_pure ()) s
  | queueDisplayList storage words => exact passive_queueDisplayList storage words s
  | recordedList => exact passive_recordedList.bind (fun _ => passive_pure ()) s
  | freeOldest => exact passive_freeOldest.bind (fun _ => passive_pure ()) s
  | advance => exact passive_advance s
  | setIdle n => exact hconsole _ rfl rfl
  | runAhead n => exact hconsole _ rfl rfl
  | offer answer => exact hconsole _ rfl rfl
  | poke a w =>
    refine Passive.bind passive_get (fun _ => (passive_unfaulted _).bind fun m t => ?_) s
    exact .same rfl (Nat.le_refl _) rfl rfl

/-- **A script** hands in what it does, and the consumer works off a front part of the queue. -/
theorem play_handsIn (es : List Event) (s : Session) : HandsIn (handedIn es s) (play es) s := by
  induction es generalizing s with
  | nil => exact .refl s
  | cons e es ih =>
    rw [play]
    refine .skip rfl ((perform_handsIn e s).bind ?_)
    rintro ⟨⟩ t hrun
    rw [hrun]
    exact (ih t).then_passive fun _ => passive_pure _

/-- A script that went through goes on with what happens next. -/
theorem play_concat {es : List Event} {e : Event} {ws : List UInt32} (hs : play es s = .ok ws t)
    (he : perform e t = .ok () u) : ∃ ws', play (es ++ [e]) s = .ok ws' u := by
  induction es generalizing s ws with
  | nil =>
    cases hs
    exact ⟨_, play_cons_eq_ok_iff.2 ⟨u, [], he, rfl, rfl⟩⟩
  | cons e' es ih =>
    obtain ⟨v, vs, hv, hvs, -⟩ := play_cons_eq_ok_iff.1 hs
    obtain ⟨vs', hplay⟩ := ih hvs
    exact ⟨_, play_cons_eq_ok_iff.2 ⟨v, vs', hv, hplay, rfl⟩⟩

end Step

/-- If a script leaves no buffer of the ring in the queue, each one that it handed in was worked off once and
in order, and what the journal says of it stood in it then. -/
theorem handedIn_worked_off {pool : Pool} {topology : Topology} {memory : Memory} {es : List Event}
    {ws : List UInt32} (hs : Step.play es (.start pool topology memory) = .ok ws t)
    (hqueue : ringBacked t.console.submitted = []) :
    List.Forall₂ (Step.Read (Step.play es) (.start pool topology memory))
      (handedIn es (.start pool topology memory)) t.journal.executed := by
  obtain ⟨freed, read, hall, hread, hboth⟩ := ((Step.play_handsIn es _).ok hs).worked
  rw [hqueue, List.append_nil] at hall
  change [] ++ _ = freed at hall
  rw [hread, ← List.nil_append (handedIn _ _), hall]
  exact hboth

end CommandPool
