import CommandPool.Proofs.Session.Ample
import CommandPool.Proofs.Session.Room
/-!
# Shutting down

A shutdown hands in the open buffer and waits until no word of the ring is outstanding. That is not to say
that the queue is empty then: lists may be left in it, which take no words of the ring. What the count does
say is that no buffer of the ring is left (`Accounted.out_eq_nil`), so the region can be detached, and the
ring is as in a pool that was just created (`shutdown_drains`).

As for all loops, none of the waits is for an empty queue (`ComesTo.queued`), so a console that answers
them brings the shutdown to its end.
-/
namespace CommandPool

/-- The consumer answers each wait of a shutdown, for which the buffer of the current core is handed in
first. -/
def Session.Drains (s : Session) : Prop :=
  ∀ t, Step.submitActive s.console.topology.current s = .ok () t →
    ∀ v, Loop.drained.WaitsAt t v → v.console.Answered

/-- A consumer that frees a buffer whenever the pool waits, and none besides, drains the ring. -/
theorem Session.drains_of_prompt {s : Session} (h : s.console.ahead = []) : s.Drains := by
  intro t ht v hv
  have hprompt := Step.submitActive_prompt h ht
  exact Console.answered_of_prompt (hv.prompt hprompt)

/-- A pool of the configuration `cfg` without a region, as far as the ring and the main core go: nothing is
left of whatever it was used for. -/
structure AsNew (cfg : Config) (s : Session) : Prop where
  config : s.pool.config = cfg
  ring : s.pool.ring = .ofConfig cfg
  unleased : s.pool.leases.leased = false
  slot : s.pool.leases.active s.console.topology.main = none
  free : s.pool.leases.held s.console.topology.main = false
  /-- The main core is to call. -/
  main : s.console.topology.current = s.console.topology.main

/-- What a shutdown leaves of `s`. -/
structure ShutDown (cfg : Config) (s t : Session) : Prop where
  asNew : AsNew cfg t
  /-- Of the queue at most lists are left. -/
  queue : ringBacked t.console.submitted = []
  topology : t.console.topology = s.console.topology
  /-- The slots of other cores are left alone. -/
  others : ∀ c, c ≠ s.console.topology.main → t.pool.leases.active c = s.pool.leases.active c

variable {cfg : Config} {k : Core} {s t : Session} {d : Descriptor}

/-- Other cores have nothing but lists, as before. -/
theorem ShutDown.lists (h : ShutDown cfg s t) (hs : Upheld cfg k s) {c : Core}
    (hne : c ≠ t.console.topology.main) (hd : t.pool.leases.active c = some d) :
    d.backing = .displayList := by
  rw [h.topology] at hne
  rw [h.others c hne] at hd
  cases hb : d.backing with
  | displayList => rfl
  | ring => exact absurd (hs.steady.disciplined.ringAtMain c d hd hb) hne

namespace Step

/-! ## The wait for a drained ring -/

/-- The loop can only hang, and what it leaves is drained. -/
theorem drained_flows (h : Flowing none s) : Meets Hangs (Loop.run .drained) s fun _ t =>
    Flowing none t ∧ Worked s t ∧ t.pool.ring.outstanding = 0 := by
  apply meets_waitFor (I := fun t => Flowing none t ∧ Worked s t) _ s ⟨h, .refl s⟩
  rintro t ⟨ht, hwork⟩
  rw [meets_onPool]
  by_cases hout : t.pool.ring.outstanding = 0
  · simp only [Loop.attempt, Pool.tryDrained, if_pos hout]
    exact ⟨ht, hwork, hout⟩
  · simp only [Loop.attempt, Pool.tryDrained, if_neg hout]
    refine (await_flows (o := none) (s := t.reported []) ⟨ht.accounted, ht.finished⟩).imp ?_
    rintro _ u ⟨hu, hwork'⟩
    exact ⟨hu, hwork.trans { hwork' with }⟩

theorem shutdown_comesTo (hmain : s.console.topology.current = s.console.topology.main)
    (hheld : s.pool.leases.held s.console.topology.current = false)
    (hd : s.pool.leases.active s.console.topology.current = some d)
    (hsub : submitActive s.console.topology.current s = .ok () t) : ComesTo Loop.drained.run t shutdown s := by
  unfold shutdown
  refine .next (t := s) rfl (.next (t := s) rfl ?_)
  rw [if_neg (not_not_intro hmain)]
  refine .next (t := s) (a := some d) ?_ ?_
  · simp only [onPool, Pool.borrow, Leases.borrow, hheld, hd]
    rfl
  · simp only [Option.isSome_some, if_true]
    exact .next hsub (.first .enter)

/-- The loop ends, if the console answers its waits. -/
theorem drained_returns (hbetween : Between k s.stock) (hd : s.OnRing d) (hdrains : s.Drains)
    (hsub : submitActive s.console.topology.current s = .ok () t) (ht : Flowing none t) :
    Meets Never (Loop.run .drained) t fun _ u =>
      Flowing none u ∧ Worked t u ∧ u.pool.ring.outstanding = 0 := by
  have hcomes := shutdown_comesTo hd.main hd.free hd.slot hsub
  have hqueued : ∀ v, Loop.drained.WaitsAt t v → v.console.submitted ≠ [] := fun v hv =>
    hcomes.queued (perform_stock (e := .shutdown) hbetween trivial) hv
  have hanswered := Loop.run_answered hqueued (hdrains t hsub)
  refine Meets.mono ((drained_flows ht).and hanswered) ?_ fun _ _ hu => hu.1
  rintro e u ⟨⟨n, hn⟩, hleft⟩
  exact hleft n hn

/-! ## The shutdown -/

/-- What a shutdown does to the parts of a session that a new buffer of the ring depends on. -/
theorem shutdown_flows (hc : cfg.validate = .ok ()) (h : Upheld cfg k s) (hd : s.OnRing d)
    (hdrains : s.Drains) : Meets Never shutdown s fun _ t => t.pool.ring = .ofConfig cfg ∧
      t.pool.leases = { s.pool.leases.setActive s.console.topology.current none with leased := false } ∧
      t.console.topology = s.console.topology ∧ ringBacked t.console.submitted = [] := by
  have hpoised := h.steady.poised hc h.between hd
  obtain ⟨-, hmin, hmax⟩ := (h.steady.conserved hc).live.sound hc
  have hattached : s.pool.ring.IsAttached := by
    have hpos := hpoised.flowing.accounted.minGrant
    have hle := hpoised.minGrant_le
    exact Nat.ne_of_gt (by omega)
  unfold shutdown
  simp only [meets_bind, meets_currentCore, meets_mainCore, meets_ite, meets_borrow]
  refine ⟨fun hne => absurd hd.main hne, fun _ => ⟨fun hheld => ?_, fun _ => ⟨fun _ => ?_, fun hnone => ?_⟩⟩⟩
  · exact absurd hd.free (by simp [hheld])
  · refine Meets.imp (submitActive_flows hpoised.flowing hd.slot hpoised.used_le hpoised.leased).and_eq ?_
    rintro ⟨⟩ t ⟨hsub, ht, hin⟩
    apply meets_bind.2
    refine Meets.imp (drained_returns h.between hd hdrains hsub ht) ?_
    rintro _ u ⟨hu, hwork, hout⟩
    have hregion := hin.region.trans hwork.region
    have hattached' : u.pool.ring.IsAttached := by
      rw [Ring.IsAttached, hregion.size]
      exact hattached
    rw [meets_bind, meets_onRing]
    simp only [Ring.detach, not_not_intro hattached', hout, ne_eq, not_true_eq_false, if_false, meets_debug]
    refine ⟨?_, hwork.leases.trans hin.leases, hwork.topology.trans hin.topology, ?_⟩
    · rw [hregion.minGrant, hregion.maxGrant, hmin, hmax]
      rfl
    · have hqueue := hu.accounted.out_eq_nil hout
      exact (List.append_eq_nil_iff.1 hqueue).1
  · exact absurd hnone (by simp [hd.slot])

/-- **A shutdown** on the main core, with a buffer of the ring in its slot, returns if the consumer answers
its waits. -/
theorem shutdown_drains (hc : cfg.validate = .ok ()) (h : Upheld cfg k s) (hd : s.OnRing d)
    (hdrains : s.Drains) : Meets Never shutdown s fun _ t => ShutDown cfg s t := by
  refine Meets.mono ((shutdown_flows hc h hd hdrains).and (shutdown_handsIn s)) (fun _ _ he => he.1) ?_
  rintro _ t ⟨⟨hring, hleases, htopology, hqueue⟩, hpassed⟩
  rw [hd.main] at hleases
  refine ⟨⟨hpassed.config.trans h.config, hring, ?_, ?_, ?_, ?_⟩, hqueue, htopology, fun c hne => ?_⟩
  · rw [hleases]
  · rw [hleases, htopology]
    exact Leases.active_setActive_self ..
  · rw [hleases, htopology]
    refine (Leases.held_setActive ..).trans ?_
    rw [← hd.main]
    exact hd.free
  · rw [htopology]
    exact hd.main
  · rw [hleases]
    exact Leases.active_setActive_of_ne _ _ hne

end Step

end CommandPool
