import CommandPool.Proofs.Session.Calls
/-!
# Delivery

Over every script that fits its region: what the consumer has read, what stands in the buffers it
is still to read and what stands in the open one are together the words that were written through
writers of the ring, in their order (`commandWords_play`); and when the script is stopped, the pool
is not to blame (`external_play`).

Both come from one invariant, that the pool is at rest between events (`play_spec`).
-/
namespace CommandPool

variable {R : Region} {k : Core} {ws : List UInt32} {s : Session}

namespace Step

/-! ## Events -/

/-- Words through an open writer count if it writes into the ring. -/
theorem through_spec (h : AtRest R k ws s.ledger) (c : Core) {f : OpenBuffer → Outcome OpenBuffer Unit}
    {new : List UInt32} (hf : ∀ b : OpenBuffer, b.Writes new (f b)) :
    Meets Stop.External (do if (← get).pool.leases.held c then onActive c f) s fun _ t =>
      AtRest R k (ws ++ if (s.ringWriter? c).isSome then new else []) t.ledger := by
  rw [meets_bind, meets_get, meets_ite]
  constructor
  · intro hheld
    cases hd : s.pool.leases.active c with
    | none =>
      rw [meets_onActive, hd]
      exact rfl
    | some d =>
      cases hb : d.backing with
      | ring =>
        have hring : s.ringWriter? c = some d := by simp [Session.ringWriter?, hheld, hd, hb]
        rw [hring]
        exact onActive_ring_spec h hd hb (hf _)
      | displayList =>
        have hring : s.ringWriter? c = none := by simp [Session.ringWriter?, hheld, hd, hb]
        rw [hring]
        refine Meets.imp (onActive_list_spec h hd hb (hf _)) ?_
        rintro _ t ⟨ht, _⟩
        simpa using ht
  · intro hheld
    have hring : s.ringWriter? c = none := by simp [Session.ringWriter?, hheld]
    rw [hring]
    simpa using h

theorem poke_spec (h : AtRest R k ws s.ledger) {a : Address} (ha : R.Clear a 1) (w : UInt32) :
    Meets Stop.External (poke a w) s fun _ t => AtRest R k ws t.ledger := by
  unfold poke
  simp only [meets_bind, meets_get, meets_unfaulted, meets_onConsole]
  cases hw : s.console.memory.write a w with
  | error f => exact OpenBuffer.write_error hw
  | ok m =>
    have hw' : s.console.memory.write (a.addWords 0) w = .ok m := by
      rw [Address.addWords_zero]
      exact hw
    exact h.same ⟨rfl, rfl⟩ (h.balanced.write_clear ha Nat.zero_lt_one hw')

theorem offer_spec (h : AtRest R k ws s.ledger) {answer : Option Storage}
    (ha : ∀ st, answer = some st → R.Clear st.start (st.bytes / wordBytes)) :
    Meets Stop.External (onConsole (Console.offer answer)) s fun _ t => AtRest R k ws t.ledger := by
  refine h.same ⟨rfl, rfl⟩ { h.balanced with offers := ?_ }
  intro st hst
  rcases List.mem_append.1 hst with hst | hst
  · exact h.balanced.offers st hst
  · exact ha st (List.mem_singleton.1 hst).symm

/-- One event keeps the pool at rest, and what it writes is accounted for. -/
theorem perform_spec (h : AtRest R k ws s.ledger) {e : Event} (hfit : e.Fits R) :
    Meets Stop.External (perform e) s fun _ t => AtRest R k (ws ++ e.written s) t.ledger := by
  have hquiet : ∀ {x : Step Unit}, e.written s = [] →
      Meets Stop.External x s (fun _ t => AtRest R k ws t.ledger) →
      Meets Stop.External x s fun _ t => AtRest R k (ws ++ e.written s) t.ledger := by
    intro x hnone hx
    rw [hnone, List.append_nil]
    exact hx
  cases e with
  | enter c => exact hquiet rfl h
  | init base size => exact hquiet rfl (init_spec h hfit)
  | shutdown => exact hquiet rfl (shutdown_spec h)
  | flush => exact hquiet rfl (flush_spec h)
  | getBuffer words => exact hquiet rfl (meets_bind.2 (getBuffer_spec h words))
  | write c w => exact through_spec h c fun _ => OpenBuffer.writes_push w
  | writeAll c ws => exact through_spec h c fun _ => OpenBuffer.writes_pushAll ws
  | remaining c =>
    apply hquiet rfl
    rw [perform, meets_bind, meets_get, meets_ite]
    constructor
    · intro _
      exact meets_bind.2 (remaining_spec h c)
    · intro _
      exact h
  | dropWriter c => exact hquiet rfl (h.setHeld c false)
  | beginDisplayList storage words => exact hquiet rfl (beginDisplayList_spec h hfit)
  | finalizeDisplayList storage => exact hquiet rfl (meets_bind.2 (finalizeDisplayList_spec h storage))
  | queueDisplayList storage words => exact hquiet rfl (queueDisplayList_spec h storage words)
  | recordedList => exact hquiet rfl (meets_bind.2 (recordedList_spec h))
  | freeOldest => exact hquiet rfl (meets_bind.2 (consuming_freeOldest.atRest h))
  | advance => exact hquiet rfl (consuming_advance.atRest h)
  | setIdle n => exact hquiet rfl h
  | runAhead n => exact hquiet rfl h
  | offer answer =>
    apply hquiet rfl
    apply offer_spec h
    rintro st rfl
    exact hfit
  | poke a w => exact hquiet rfl (poke_spec h hfit w)

/-- A whole script does. -/
theorem play_spec {es : List Event} (hfit : ∀ e ∈ es, e.Fits R) (h : AtRest R k ws s.ledger) :
    Meets Stop.External (play es) s fun new t => AtRest R k (ws ++ new) t.ledger := by
  induction es generalizing ws s with
  | nil =>
    show AtRest R k (ws ++ []) s.ledger
    rw [List.append_nil]
    exact h
  | cons e es ih =>
    rw [play, meets_bind, meets_get, meets_bind]
    refine Meets.imp (perform_spec h (hfit e List.mem_cons_self)) ?_
    intro _ t ht
    rw [meets_bind]
    refine Meets.imp (ih (fun e he => hfit e (List.mem_cons_of_mem _ he)) ht) ?_
    intro new u hu
    rw [meets_pure, ← List.append_assoc]
    exact hu

end Step

/-! ## The start -/

theorem atRest_start {c : Config} {pool : Pool} (hpool : Pool.ofConfig c = .ok pool)
    (hpad : c.padAlign < Counter.bound) (R : Region) (topology : Topology) (memory : Memory) :
    AtRest R topology.main [] (Session.start pool topology memory).ledger := by
  obtain ⟨hc, rfl⟩ := Pool.ofConfig_eq_ok hpool
  obtain ⟨hmin, hmax, hpow, _⟩ := c.validate_eq_ok_iff.1 hc
  have hidle : ∀ c, Leases.allIdle.active c = none := fun c => by
    simp [Leases.allIdle, Leases.active, Slot.empty]
  refine Vacant.atRest ⟨rfl, ?_, ?_, hidle _, rfl⟩
  · intro c d hd
    rw [Session.ledger, Session.start, hidle] at hd
    cases hd
  · refine ⟨⟨hmin, Nat.lt_of_lt_of_le hmin hmax, ?_⟩, Config.isPowerOfTwo_le hpow hpad,
      .empty rfl rfl rfl rfl, ?_, by simp, ?_, rfl⟩
    · intro hsize
      exact absurd rfl hsize
    · intro d hd
      exact absurd hd List.not_mem_nil
    · intro st hst
      exact absurd hst List.not_mem_nil

/-! ## Delivery -/

/-- The buffers of the ring that the consumer has not freed: those that are submitted, the oldest
first, then those in the slots of the cores. -/
def Session.ringBuffers (s : Session) : List Descriptor :=
  ringBacked (s.console.submitted ++ Core.all.filterMap s.pool.leases.active)

/-- What the consumer read in the buffers of the ring that it freed, then what guest memory holds
in the others; `none` if some of it could not be read. -/
def Session.commandWords (s : Session) : Option (List UInt32) :=
  joined (s.journal.executed ++ s.ringBuffers.map (·.contents s.console.memory))

/-- Where only the slot of `k` may have a buffer of the ring, namely `o`. -/
theorem ringBacked_slots {l : Leases} {o : Option Descriptor} (hslot : ∀ c,
    (l.active c).filter (·.backing = .ring) = if c = k then o else none) :
    ringBacked (Core.all.filterMap l.active) = o.toList := by
  rw [ringBacked, List.filter_filterMap, funext hslot]
  cases k <;> cases o <;> rfl

theorem Session.ringBuffers_eq (s : Session) :
    s.ringBuffers = ringBacked s.console.submitted ++ ringBacked (Core.all.filterMap s.pool.leases.active) :=
  List.filter_append ..

theorem AtRest.ringBuffers_eq (h : AtRest R k ws s.ledger) :
    s.ringBuffers = s.ledger.out s.ledger.openRing := by
  rw [s.ringBuffers_eq, ringBacked_slots (k := k) (o := s.ledger.openRing)]
  · rfl
  intro c
  by_cases hc : c = k
  · rw [if_pos hc, h.openRing_eq, hc]
    rfl
  · rw [if_neg hc, Option.filter_eq_none_iff]
    intro d hd hring
    exact hc (h.ring_at hd (by simpa using hring)).1

/-- **Delivery.** In every state of every script what was read and what is still to be read are
the words that were written through writers of the ring, in their order; none is lost, doubled or
overwritten before its buffer is freed. The alignment is a 32-bit number, as all numbers of a
configuration are. -/
theorem commandWords_play {c : Config} {pool : Pool} (hpool : Pool.ofConfig c = .ok pool)
    (hpad : c.padAlign < Counter.bound) (R : Region) (topology : Topology) (memory : Memory)
    {es : List Event} (hfit : ∀ e ∈ es, e.Fits R) {ws : List UInt32} {t : Session}
    (h : Step.play es (.start pool topology memory) = .ok ws t) : t.commandWords = some ws := by
  have ht := (Step.play_spec hfit (atRest_start hpool hpad R topology memory)).ok h
  rw [Session.commandWords, ht.ringBuffers_eq]
  exact ht.balanced.words

/-- Eight words, with four words for a list behind them. Two buffers fill the ring; the first is
freed while the second is written into and another core records. The next request waits, and its
grant wraps over the words of the freed buffers. -/
theorem commandWords_play_wrapped :
    let c : Config := ⟨2, 5, 2, 4⟩
    let pool : Pool := ⟨c, .ofConfig c, .ofCapacity 4, .allIdle⟩
    let R : Region := ⟨⟨0x1000⟩, 8, by decide, by decide⟩
    let es : List Event := [
      .init ⟨0x1000⟩ 8, .getBuffer 4, .writeAll .one [1, 2, 3, 4], .dropWriter .one, .flush,
      .getBuffer 2, .write .one 5, .enter .two, .beginDisplayList ⟨0x1020⟩ 4, .getBuffer 1,
      .write .two 50, .freeOldest, .write .one 6, .dropWriter .one, .enter .one, .getBuffer 3,
      .writeAll .one [7, 8, 9], .dropWriter .one, .flush, .getBuffer 1, .write .one 10]
    Pool.ofConfig c = .ok pool ∧ c.padAlign < Counter.bound ∧ (∀ e ∈ es, e.Fits R) ∧
      ∃ t, Step.play es (.start pool .standard (.zeroed ⟨0x1000⟩ 12)) =
          .ok [1, 2, 3, 4, 5, 6, 7, 8, 9, 10] t ∧
        (t.journal.executed, t.pool.ring.stats.wraps) = ([some [1, 2, 3, 4], some [5, 6]], 1) ∧
        t.commandWords = some [1, 2, 3, 4, 5, 6, 7, 8, 9, 10] := by
  have hlist : (⟨⟨0x1000⟩, 8, by decide, by decide⟩ : Region).Clear ⟨0x1020⟩ 4 :=
    Address.apart_addWords (o := 0) (p := 8) ⟨0x1000⟩ (by decide) (by decide) (by decide)
  refine ⟨rfl, by decide, by simp [Event.Fits, hlist], ?_⟩
  refine Step.ok_of_seen (by decide +kernel) fun t ht => ?_
  exact commandWords_play (c := ⟨2, 5, 2, 4⟩) rfl (by decide) ⟨⟨0x1000⟩, 8, by decide, by decide⟩ _ _
    (by simp [Event.Fits, hlist]) ht

/-- **No blame on the pool.** Whatever stops a script, it is not that the parts of the pool
disagree about the lease, the ring or the size of a buffer, nor that a counter overflows. -/
theorem external_play {c : Config} {pool : Pool} (hpool : Pool.ofConfig c = .ok pool)
    (hpad : c.padAlign < Counter.bound) (R : Region) (topology : Topology) (memory : Memory)
    {es : List Event} (hfit : ∀ e ∈ es, e.Fits R) {e : Stop} {t : Session}
    (h : Step.play es (.start pool topology memory) = .error e t) : e.internal = false :=
  (Step.play_spec hfit (atRest_start hpool hpad R topology memory)).error h

/-- The ring is drained for a shutdown while a list of the main core was recorded in between, then
attached again; at last a caller asks for more room than any grant has. -/
theorem external_play_too_large :
    let c : Config := ⟨2, 5, 2, 4⟩
    let pool : Pool := ⟨c, .ofConfig c, .ofCapacity 4, .allIdle⟩
    let R : Region := ⟨⟨0x1000⟩, 8, by decide, by decide⟩
    let es : List Event := [
      .init ⟨0x1000⟩ 8, .getBuffer 3, .writeAll .one [1, 2, 3], .dropWriter .one,
      .beginDisplayList ⟨0x1020⟩ 4, .getBuffer 3, .writeAll .one [50, 51, 52], .dropWriter .one,
      .offer (some ⟨⟨0x1028⟩, 8⟩), .getBuffer 2, .dropWriter .one, .finalizeDisplayList ⟨0x1028⟩,
      .shutdown, .init ⟨0x1000⟩ 8, .getBuffer 6]
    Pool.ofConfig c = .ok pool ∧ c.padAlign < Counter.bound ∧ (∀ e ∈ es, e.Fits R) ∧
      ∃ t, Step.play es (.start pool .standard (.zeroed ⟨0x1000⟩ 12)) =
          .error (.fatal (.commandTooLarge 6 5)) t ∧
        (t.journal.executed, t.journal.waits) = ([some [1, 2, 3]], [1]) ∧
        (Stop.fatal (.commandTooLarge 6 5)).internal = false := by
  have hlist : (⟨⟨0x1000⟩, 8, by decide, by decide⟩ : Region).Clear ⟨0x1020⟩ 4 :=
    Address.apart_addWords (o := 0) (p := 8) ⟨0x1000⟩ (by decide) (by decide) (by decide)
  have hnext : (⟨⟨0x1000⟩, 8, by decide, by decide⟩ : Region).Clear ⟨0x1028⟩ 2 :=
    Address.apart_addWords (o := 0) (p := 10) ⟨0x1000⟩ (by decide) (by decide) (by decide)
  refine ⟨rfl, by decide, by simp [Event.Fits, hlist, hnext, wordBytes], ?_⟩
  refine Step.error_of_seen (by decide +kernel) fun t ht => ?_
  exact external_play (c := ⟨2, 5, 2, 4⟩) rfl (by decide) ⟨⟨0x1000⟩, 8, by decide, by decide⟩ _ _
    (by simp [Event.Fits, hlist, hnext, wordBytes]) ht

end CommandPool
