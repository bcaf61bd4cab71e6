import CommandPool.Proofs.Session.HandIns
import CommandPool.Proofs.Session.StowageCalls
/-!
# The open buffer has the minimum

No grant is below the minimum of the configuration, and the buffer that is open between calls has its
grant whole: it is cut to its words only when it is handed in. `Ample` says so by the phase of a call, and
is kept by every move (`Move.ample`).

`Upheld` puts together what scripts keep, wherever their lists lie.
-/
namespace CommandPool

/-! ## No grant is below the minimum -/

theorem place_room {r : Ring} {wanted : Nat} {p : Ring.Place} (hp : r.place wanted = .ok p)
    (hle : wanted ≤ r.size) : wanted ≤ p.room := by
  unfold Ring.place at hp
  repeat' split at hp
  all_goals cases hp
  all_goals simp only
  all_goals omega

theorem acquire_enough {r r' : Ring} {wanted : Nat} {a : Acquired} (ha : r.acquire wanted = .ok a r') :
    min (max wanted r.minGrant) r.maxGrant ≤ a.grant.words := by
  obtain ⟨hle, p, hp, hg⟩ := acquire_ok ha
  have hsame := (SameRegion.refl r).settled
  have hroom := place_room hp (by rw [hsame.size]; exact hle)
  rw [(grant_ok hg).1, hsame.maxGrant]
  simp only
  omega

/-- The buffer of the ring that is open has the minimum, before it is cut. -/
structure Ample (b : Bench) : Prop where
  limits : b.ring.minGrant ≤ b.ring.maxGrant
  slot : b.phase = .rest → ∀ d, b.leases.active b.main = some d → d.backing = .ring →
    b.ring.minGrant ≤ d.capacity
  granted : ∀ d, b.phase = .granted d → b.ring.minGrant ≤ d.capacity

variable {b b' : Bench} {c : Core} {d : Descriptor}

theorem SameRegion.limits {r r' : Ring} (h : SameRegion r r') (hr : r.minGrant ≤ r.maxGrant) :
    r'.minGrant ≤ r'.maxGrant := by
  rw [h.minGrant, h.maxGrant]
  exact hr

/-- The same buffers of the ring are open, for all that matters here. -/
theorem Ample.same (h : Ample b) (hring : SameRegion b.ring b'.ring) (hphase : b'.phase = b.phase)
    (hslot : ∀ d', b'.leases.active b'.main = some d' → d'.backing = .ring →
      ∃ d, b.leases.active b.main = some d ∧ d.backing = .ring ∧ d'.capacity = d.capacity) : Ample b' := by
  refine ⟨hring.limits h.limits, fun hrest d' hd' hb => ?_, fun d hd => ?_⟩
  · obtain ⟨d, hd, hb', hcapacity⟩ := hslot d' hd' hb
    rw [hring.minGrant, hcapacity]
    exact h.slot (hphase ▸ hrest) d hd hb'
  · rw [hring.minGrant]
    exact h.granted d (hphase ▸ hd)

/-- In the middle of a call that has no buffer in its hands nothing is asked. -/
theorem Ample.between (hr : b.ring.minGrant ≤ b.ring.maxGrant) (hrest : b.phase ≠ .rest)
    (hgranted : ∀ d, b.phase ≠ .granted d) : Ample b :=
  ⟨hr, fun h => absurd h hrest, fun d h => absurd h (hgranted d)⟩

/-- **One move** keeps the open buffer ample. -/
theorem Move.ample (hb : Disciplined b) (h : Ample b) (hmove : Move b b') : Ample b' := by
  have hleasing := hb.leasing
  unfold Bench.Leasing at hleasing
  have hlimits := hmove.region.limits h.limits
  cases hmove with
  | @close d r hphase hslot hring hleased hshrink =>
    refine .between hlimits ?_ fun e => ?_
    · simp only
      split <;> simp
    · simp only
      split <;> simp
  | submit hphase => exact .between hlimits (by simp) (by simp)
  | vacate hphase hmain hslot => exact .between hlimits (by simp) (by simp)
  | lease hphase hleased => exact .between hlimits (by simp) (by simp)
  | stall hphase hstall => exact .between hlimits (by simp [hphase]) (by simp [hphase])
  | @grant wanted a r d hphase hgrant hring hused hd =>
    refine ⟨hlimits, by simp, ?_⟩
    rintro _ ⟨⟩
    have henough := acquire_enough hgrant
    have hmin := ((b.ring.keeps_acquire wanted).same hgrant).minGrant
    have hwords : d.capacity = a.grant.words := congrArg Grant.words hd
    have := h.limits
    simp only
    omega
  | @seat d hphase =>
    rw [hphase] at hleasing
    refine ⟨hlimits, fun _ e he _ => ?_, by simp⟩
    simp only [hleasing.1.main, Leases.active_setActive_self] at he
    cases he
    exact h.granted d hphase
  | hold => exact h.same (.refl _) rfl fun d hd hring => ⟨d, by simpa using hd, hring, rfl⟩
  | queue hlist hused => exact h.same (.refl _) rfl fun d hd hring => ⟨d, hd, hring, rfl⟩
  | free hsub hring hused hrelease =>
    exact h.same ((b.ring.keeps_release _ _).same hrelease) rfl fun d hd hring => ⟨d, hd, hring, rfl⟩
  | drop hsub hlist => exact h.same (.refl _) rfl fun d hd hring => ⟨d, hd, hring, rfl⟩

theorem Moves.ample (hb : Disciplined b) (h : Ample b) (hmoves : Moves b b') : Ample b' := by
  induction hmoves with
  | refl => exact h
  | tail hmoves hmove ih => exact hmove.ample (Moves.disciplined hb hmoves) ih

theorem Words.ample {ws : List UInt32} (h : Ample b) (hwords : Words c ws b b') : Ample b' := by
  have hbeside := hwords.beside
  refine h.same (hbeside.ring ▸ .refl _) hbeside.phase fun d' hd' hring => ?_
  rw [hbeside.main] at hd'
  by_cases hc : b.main = c
  · subst hc
    obtain ⟨d, hd, rfl⟩ := hwords.slot_of hd'
    exact ⟨d, hd, hring, rfl⟩
  · rw [hbeside.slots _ hc] at hd'
    exact ⟨d', hd', hring, rfl⟩

theorem Padded.ample {u : Bench} {x : Descriptor} (hpadded : Padded b u d x) (h : Ample b) : Ample u := by
  obtain ⟨aligned, -, -, hwords⟩ := hpadded.words
  exact hwords.ample h

/-- The slot of the calling core is set to a list, or emptied. -/
theorem Ample.setSlot (hb : Disciplined b) (h : Ample b) (hphase : b.phase = .rest ∨ b.phase = .vacant)
    {o : Option Descriptor} (ho : ∀ d, o = some d → d.backing = .displayList) :
    Ample (b.setSlot .rest o) := by
  refine ⟨h.limits, fun _ d hd hring => ?_, by simp [Bench.setSlot]⟩
  simp only [Bench.setSlot] at hd
  by_cases hc : b.main = b.current
  · rw [hc, Leases.active_setActive_self] at hd
    rw [ho d hd] at hring
    cases hring
  · rw [Leases.active_setActive_of_ne _ _ hc] at hd
    rcases hphase with hphase | hphase
    · exact h.slot hphase d hd hring
    · -- with the slot of the main core empty the call is from there
      have hleasing := hb.leasing
      rw [Bench.Leasing, hphase] at hleasing
      exact absurd hleasing.main.symm hc

/-- **One event** keeps the open buffer ample. -/
theorem Turn.ample {e : Event} (hb : Disciplined b) (h : Ample b) (hphase : b.phase = .rest)
    (hturn : Turn e b b') : Ample b' := by
  cases hturn with
  | enter c => exact h.same (.refl _) rfl fun d hd hring => ⟨d, hd, hring, rfl⟩
  | poke hwrite => exact h.same (.refl _) rfl fun d hd hring => ⟨d, hd, hring, rfl⟩
  | shut hthrough hheld => exact h
  | write hthrough hheld hwords => exact hwords.ample h
  | @init _ _ base size r hmain hslot hattach hmoves =>
    have hlimits : r.minGrant ≤ r.maxGrant := by
      obtain ⟨rfl, -⟩ := attach_spec hattach
      exact h.limits
    exact hmoves.ample (hb.attach hphase hmain hslot r) (.between hlimits (by simp) (by simp))
  | shutdown hmoves hvacant hdetach =>
    have hu := hmoves.ample hb h
    have hleasing := (hmoves.disciplined hb).leasing
    rw [Bench.Leasing, hvacant] at hleasing
    obtain ⟨-, rfl⟩ := Ring.detach_ok hdetach
    refine ⟨hu.limits, fun _ d hd _ => ?_, by simp⟩
    cases hleasing.slot.symm.trans hd
  | record hmoves hrest hslot =>
    refine (hmoves.ample hb h).setSlot (hmoves.disciplined hb) hrest ?_
    rintro _ ⟨⟩
    rfl
  | grow hpadded hfull hlist hused =>
    have hrest := hpadded.beside.phase.trans hphase
    have hnext := (hpadded.ample h).setSlot (hpadded.disciplined hb hphase) (.inl hrest)
      (o := some _) (by rintro _ ⟨⟩; exact hlist)
    rw [← hrest] at hnext
    refine hnext.same (.refl _) rfl fun d hd hring => ⟨d, ?_, hring, rfl⟩
    simpa [Bench.replaced, Bench.setHeld, Bench.asked, Bench.setSlot] using hd
  | finalize hpadded hstart hmoves =>
    have hrest := hpadded.beside.phase.trans hphase
    have hu := hpadded.disciplined hb hphase
    refine hmoves.ample (hu.discard hrest hpadded.slot_current hpadded.backing) ?_
    unfold Bench.cleared
    split
    · exact .between (hpadded.ample h).limits (by simp [Bench.setSlot]) (by simp [Bench.setSlot])
    · exact (hpadded.ample h).setSlot hu (.inl hrest) (by simp)
  | plain hplain hmoves => exact hmoves.ample hb h

/-! ## Scripts -/

variable {cfg : Config} {k : Core} {s t : Session} {ws : List UInt32}

/-- What scripts keep. -/
structure Upheld (cfg : Config) (k : Core) (s : Session) : Prop where
  steady : Steady cfg k s
  between : Between k s.stock
  stowed : Stowed Step.Anywhere [] s.stowage
  ample : Ample (s.bench .rest)
  config : s.pool.config = cfg

namespace Step

theorem perform_upheld (hc : cfg.validate = .ok ()) {e : Event} (he : e.Short) (h : Upheld cfg k s)
    {a : Unit} (hs : perform e s = .ok a t) : Upheld cfg k t := by
  obtain ⟨hturn, -⟩ := (perform_turn h.steady.disciplined.ringAtMain e).ok hs
  exact ⟨perform_steady hc he h.steady hs, (perform_stock h.between he).ok hs,
    (perform_stowed h.stowed (lists_anywhere e)).ok hs, hturn.ample h.steady.disciplined h.ample rfl,
    ((perform_handsIn e s).ok hs).config.trans h.config⟩

theorem play_upheld (hc : cfg.validate = .ok ()) {es : List Event} (hes : ∀ e ∈ es, e.Short)
    (h : Upheld cfg k s) (hs : play es s = .ok ws t) : Upheld cfg k t := by
  exact play_keeps (fun _ _ _ he hu hrun => perform_upheld hc he hu hrun) hes h hs

end Step

theorem upheld_start {pool : Pool} (hpool : Pool.ofConfig cfg = .ok pool) (topology : Topology)
    (memory : Memory) :
    cfg.validate = .ok () ∧ Upheld cfg topology.main (.start pool topology memory) := by
  obtain ⟨-, hsteady⟩ := steady_start hpool topology memory
  have hbetween := between_start hpool topology memory
  have hstowed : Stowed Step.Anywhere [] _ := stowed_start hpool topology memory
  obtain ⟨hc, rfl⟩ := Pool.ofConfig_eq_ok hpool
  refine ⟨hc, hsteady, hbetween, hstowed, ⟨(cfg.validate_eq_ok_iff.1 hc).2.1, fun _ d hd => ?_, ?_⟩, rfl⟩
  · cases (Leases.active_allIdle topology.main).symm.trans hd
  · simp [Session.bench]

end CommandPool
