import CommandPool.Proofs.Session.RingPath
import CommandPool.Proofs.Session.Window
/-!
# A request for room is kept

`getBuffer` is asked for room for some words, and answers with a writer, waits, or stops the run.
`Delivers` says what can be counted on, whichever core asks: the writer that is answered has the room, and
takes the words; a buffer with room enough stays as it is; and on the ring a request is answered if
and only if a grant and the region can be that large. `delivers_play` is for scripts of which the ring and
the lists lie in memory, in any state.
-/
namespace CommandPool

/-- The consumer answers each wait of a request for `words` words, for which the buffer of the current
core is handed in first. -/
def Session.Answers (s : Session) (words : Nat) : Prop :=
  ∀ t, Step.submitActive s.console.topology.current s = .ok () t →
    ∀ v, (Loop.room words).WaitsAt t.leasing v → v.console.Answered

/-! ## A consumer that does not run ahead -/

theorem Console.answered_of_prompt {k : Console} (h : k.ahead = []) : k.Answered := by
  by_cases hempty : k.submitted = []
  · exact .inr (.inl hempty)
  · refine .inr (.inr ?_)
    rw [Console.runsAhead, h]
    exact List.length_pos_iff.2 hempty

theorem Loop.WaitsAt.prompt {l : Loop} {u v : Session} (h : l.WaitsAt u v) (hu : u.console.ahead = []) :
    v.console.ahead = [] := by
  induction h with
  | now hmissed =>
    obtain ⟨p, -, rfl⟩ := hmissed
    exact hu
  | later hmissed hwait _ ih =>
    obtain ⟨p, -, rfl⟩ := hmissed
    obtain ⟨-, hconsole⟩ := (Step.await_run _).ok hwait
    refine ih ?_
    rw [hconsole]
    exact congrArg List.tail hu

/-- Handing a buffer in does not make the consumer run ahead. -/
theorem Step.submitActive_prompt {s t : Session} {c : Core} {a : Unit} (h : s.console.ahead = [])
    (ht : submitActive c s = .ok a t) : t.console.ahead = [] := by
  obtain ⟨done, u, hu, ht⟩ := bind_eq_ok_iff.1 ht
  rw [← console_onPool hu] at h
  cases done with
  | none =>
    cases ht
    exact h
  | some d =>
    obtain ⟨_, _, ⟨⟩, ht⟩ := bind_eq_ok_iff.1 ht
    obtain ⟨-, hfreed⟩ := (freeAhead_run _).ok ht
    rw [hfreed]
    exact congrArg List.tail h

/-- A consumer that frees a buffer whenever the pool waits, and none besides, answers each wait. -/
theorem Session.answers_of_prompt {s : Session} (h : s.console.ahead = []) (words : Nat) :
    s.Answers words := by
  intro t ht v hv
  have hprompt := Step.submitActive_prompt h ht
  exact Console.answered_of_prompt (hv.prompt hprompt)

namespace Step

variable {s t : Session} {c k : Core} {d : Descriptor} {words : Nat}

/-! ## The writer -/

theorem growDisplayList_seats : Meets Anyhow (growDisplayList c words) s fun _ t =>
    t.pool.leases.active c ≠ none := by
  unfold growDisplayList
  refine Meets.last fun _ _ => Meets.last fun answer _ => ?_
  cases answer with
  | none => trivial
  | some next =>
    rw [meets_ite]
    exact ⟨fun _ => trivial, fun _ => Meets.last fun _ _ => by simp⟩

theorem replaceRingBuffer_seats : Meets Anyhow (replaceRingBuffer c words) s fun _ t =>
    t.pool.leases.active c ≠ none := by
  unfold replaceRingBuffer
  refine Meets.last fun _ _ => Meets.last fun o _ => ?_
  cases o with
  | none => trivial
  | some d => simp

theorem fits_passed (hs : s.pool.leases.active c ≠ none) (words : Nat) : Meets Anyhow (do
      if let some d ← onPool (Pool.active c) then
        if ¬ d.Fits words then
          fatal (.commandTooLarge words (← checked d.remaining))) s
      fun _ t => ∃ d, t.pool.leases.active c = some d ∧ d.Fits words := by
  rw [meets_bind, meets_active]
  cases hd : s.pool.leases.active c with
  | none => exact absurd hd hs
  | some d =>
    rw [meets_ite]
    exact ⟨fun _ => Meets.last fun _ _ => trivial, fun hfits => ⟨d, hd, Decidable.not_not.1 hfits⟩⟩

/-- The buffer that stands in the slot after all has room. -/
theorem replaceActive_fits : Meets Anyhow (replaceActive c d words) s fun _ t =>
    ∃ d', t.pool.leases.active c = some d' ∧ d'.Fits words := by
  unfold replaceActive
  cases d.backing with
  | displayList => exact meets_bind.2 (growDisplayList_seats.imp fun _ _ ht => fits_passed ht words)
  | ring => exact meets_bind.2 (replaceRingBuffer_seats.imp fun _ _ ht => fits_passed ht words)

/-- The writer that is answered is open on a buffer with room. -/
theorem getBuffer_fits : Meets Anyhow (getBuffer words) s fun k t => k = s.console.topology.current ∧
    t.pool.leases.held k = true ∧ ∃ d', t.pool.leases.active k = some d' ∧ d'.Fits words := by
  have hopen (c : Core) (t : Session) (ht : ∃ d', t.pool.leases.active c = some d' ∧ d'.Fits words) :
      Meets Anyhow (openWriter c >>= fun _ => pure c) t fun k u => k = c ∧
        u.pool.leases.held k = true ∧ ∃ d', u.pool.leases.active k = some d' ∧ d'.Fits words := by
    obtain ⟨d', hd', hfits⟩ := ht
    refine ⟨rfl, ?_, d', ?_, hfits⟩
    · simp [Leases.held, Leases.setHeld, PerCore.modify]
    · exact (Leases.active_setHeld ..).trans hd'
  unfold getBuffer
  simp only [meets_bind, meets_currentCore, meets_borrow]
  refine ⟨fun _ => trivial, fun _ => ?_⟩
  cases hd : s.pool.leases.active s.console.topology.current with
  | none => trivial
  | some d =>
    rw [meets_ite]
    constructor
    · intro _
      exact meets_bind.2 (replaceActive_fits.imp fun _ t ht => hopen _ t ht)
    · intro hfits
      exact hopen _ s ⟨d, hd, Decidable.not_not.1 hfits⟩

end Step

/-! ## What a request delivers -/

open Step

/-- The main core is to ask, and has the buffer `d` of the ring in its slot, which no writer holds. -/
structure Session.OnRing (s : Session) (d : Descriptor) : Prop where
  main : s.console.topology.current = s.console.topology.main
  slot : s.pool.leases.active s.console.topology.current = some d
  ring : d.backing = .ring
  free : s.pool.leases.held s.console.topology.current = false

instance (s : Session) (d : Descriptor) : Decidable (s.OnRing d) :=
  decidable_of_iff (s.console.topology.current = s.console.topology.main ∧
      s.pool.leases.active s.console.topology.current = some d ∧ d.backing = .ring ∧
      s.pool.leases.held s.console.topology.current = false)
    ⟨fun ⟨hmain, hslot, hring, hfree⟩ => ⟨hmain, hslot, hring, hfree⟩,
      fun h => ⟨h.main, h.slot, h.ring, h.free⟩⟩

/-- What a request for `words` words does in a state with configuration `cfg`. -/
structure Delivers (cfg : Config) (words : Nat) (s : Session) : Prop where
  /-- The writer of the current core is answered, with the room that was asked for. -/
  room : ∀ k t, getBuffer words s = .ok k t → k = s.console.topology.current ∧
    ∃ n, remaining k t = .ok n t ∧ words ≤ n
  /-- It takes so many words, one by one or in runs. -/
  writes : ∀ k t, getBuffer words s = .ok k t → ∀ es : List Event,
    (∀ e ∈ es, e.through?.map Prod.fst = some k) → (es.flatMap Event.words).length ≤ words →
      ∃ ws u, play es t = .ok ws u
  /-- If there was room before, nothing is done but to open the writer. -/
  kept : ∀ d, s.pool.leases.active s.console.topology.current = some d →
    s.pool.leases.held s.console.topology.current = false → d.Fits words →
      getBuffer words s = .ok s.console.topology.current
        { s with pool := { s.pool with leases := s.pool.leases.setHeld s.console.topology.current true } }
  /-- On the ring a request is answered if a grant and the region can be that large, and only then. -/
  granted : ∀ d, s.OnRing d → s.Answers words →
    ((∃ k t, getBuffer words s = .ok k t) ↔ words ≤ min cfg.maxGrant s.pool.ring.size)
  /-- If there was not, the words of the buffer were handed in, and the writer is open on an empty one. -/
  reopened : ∀ d k t, s.OnRing d → ¬ d.Fits words → getBuffer words s = .ok k t →
    Reopened s.console.topology.current d words s t

variable {m : Memory} {cfg : Config} {k : Core} {s t : Session} {d : Descriptor} {words : Nat}

theorem Settled.writes (hc : cfg.validate = .ok ()) (h : Settled m cfg k s) {c : Core}
    (hs : getBuffer words s = .ok c t) : ∃ d, t.Writes c d ∧ d.Fits words := by
  have ht : Settled m cfg k t := by
    refine perform_settled (e := .getBuffer words) (a := ()) hc ⟨trivial, trivial, by simp⟩ h ?_
    exact bind_eq_ok_iff.2 ⟨c, t, hs, rfl⟩
  obtain ⟨-, hheld, d, hd, hfits⟩ := getBuffer_fits.ok hs
  exact ⟨d, ⟨hheld, hd, ht.spans hd⟩, hfits⟩

/-- The open buffer of the ring `d`, between calls. -/
structure Poised (cfg : Config) (d : Descriptor) (s : Session) : Prop where
  flowing : Flowing (some d) s
  used_le : d.used ≤ d.capacity
  capacity_le : d.capacity ≤ min cfg.maxGrant s.pool.ring.size
  leased : s.pool.leases.leased = true
  minGrant_le : s.pool.ring.minGrant ≤ s.pool.ring.size
  maxGrant : s.pool.ring.maxGrant = cfg.maxGrant

theorem Steady.poised (hc : cfg.validate = .ok ()) (h : Steady cfg k s) (hbetween : Between k s.stock)
    (hd : s.OnRing d) : Poised cfg d s := by
  obtain ⟨-, hacc, -⟩ := hbetween.ring_at hd.slot hd.ring
  have hdisciplined := h.disciplined
  have hlive := (h.conserved hc).live
  have hmax := (hlive.sound hc).2.2
  have hmem : d.grant ∈ s.ringBuffers.map Descriptor.grant := by
    refine List.mem_map_of_mem ?_
    rw [s.ringBuffers_eq, List.mem_append]
    have hslot := List.mem_filterMap.2 ⟨_, Core.mem_all _, hd.slot⟩
    exact .inr (List.mem_filter.2 ⟨hslot, by simpa using hd.ring⟩)
  have hmost : d.capacity ≤ s.pool.ring.maxGrant := hlive.bounded.most _ hmem
  obtain ⟨o, -, hend⟩ := hacc.layout_some.inside (g := d.grant) (by simp)
  have hend : o + d.capacity ≤ s.pool.ring.size := hend
  refine ⟨⟨hacc, h.conserving.finished⟩, (hdisciplined.placed _ _ hd.slot).1, by omega, ?_,
    hlive.bounded.least (List.ne_nil_of_mem hmem), hmax⟩
  refine hdisciplined.leasing.1.2 ⟨d, ?_, hd.ring⟩
  have hslot := hd.slot
  rw [hd.main] at hslot
  exact hslot

/-- A request that the buffer has no room for, if the console answers what it waits for. -/
theorem Poised.reopened (h : Poised cfg d s) (hd : s.OnRing d) (hfull : ¬ d.Fits words)
    {H : Stop → Session → Prop} (hloop : ∀ t, HandedIn s.console.topology.current d s t →
      submitActive s.console.topology.current s = .ok () t →
        Meets H (Loop.run (.room words)) t.leasing fun _ _ => True) :
    Meets (fun e t => Hangs e t ∧ H e t ∨ min cfg.maxGrant s.pool.ring.size < words) (getBuffer words) s
      fun _ t => Reopened s.console.topology.current d words s t := by
  rw [← h.maxGrant]
  refine getBuffer_ring h.flowing hd.main hd.free hd.slot h.used_le h.leased h.minGrant_le hfull ?_
  intro t ht
  exact hloop t ((submitActive_flows h.flowing hd.slot h.used_le h.leased).ok ht).2 ht

/-- **A request for room is kept**, in a state that a script in the window of `m` leaves. -/
theorem Settled.delivers (hc : cfg.validate = .ok ()) (h : Settled m cfg k s) (words : Nat) :
    Delivers cfg words s := by
  refine ⟨?_, ?_, fun d => getBuffer_kept, ?_, ?_⟩
  · intro c t ht
    obtain ⟨hcore, -, d, hd, hfits⟩ := getBuffer_fits.ok ht
    refine ⟨hcore, d.capacity - d.used, ?_, Nat.le_sub_of_add_le' hfits⟩
    refine bind_eq_ok_iff.2 ⟨some d, t, ?_, ?_⟩
    · simp only [onPool, Pool.active, hd]
    · simp only [Descriptor.remaining, Counter.sub, if_pos (Nat.le_of_add_right_le hfits)]
      rfl
  · intro c t ht es hes hle
    obtain ⟨d, hwrites, hfits⟩ := h.writes hc ht
    obtain ⟨ws, u, hu, -⟩ := play_fits hwrites hes (Nat.le_trans (Nat.add_le_add_left hle _) hfits)
    exact ⟨ws, u, hu⟩
  · intro d hd hanswers
    have hpoised := h.steady.poised hc h.between hd
    by_cases hfits : d.Fits words
    · refine ⟨fun _ => ?_, fun _ => ⟨_, _, getBuffer_kept hd.slot hd.free hfits⟩⟩
      exact Nat.le_trans (Nat.le_trans (Nat.le_add_left ..) hfits) hpoised.capacity_le
    -- no wait is left unanswered, so none hangs
    have hmeets := hpoised.reopened (H := fun e _ => ∀ n, e ≠ .hang n) hd hfits fun t hin ht => by
      have hcomes := getBuffer_comesTo hd.free hd.slot hd.ring hfits ht
        (by rw [hin.topology, hd.main]) (by rw [hin.leases])
      exact Loop.run_answered (fun v hv => hcomes.queued (getBuffer_stock h.between words) hv) (hanswers t ht)
    constructor
    · rintro ⟨c, t, ht⟩
      obtain ⟨d', -, -, -, hroom, hmost⟩ := (hmeets.ok ht).slot
      rw [hpoised.maxGrant] at hmost
      exact Nat.le_trans hroom hmost
    · intro hle
      unfold Meets at hmeets
      split at hmeets
      · exact ⟨_, _, ‹_›⟩
      · obtain ⟨⟨n, hn⟩, hleft⟩ | hlt := hmeets
        · exact absurd hn (hleft n)
        · exact absurd hle (Nat.not_le.2 hlt)
  · intro d c t hd hfull ht
    exact ((h.steady.poised hc h.between hd).reopened (H := Anyhow) hd hfull fun t _ _ => meets_anyhow _ _).ok ht

/-- **A request for room is kept**, in every state of every script of which the ring and the lists lie in
memory. -/
theorem delivers_play {pool : Pool} (hpool : Pool.ofConfig cfg = .ok pool) (topology : Topology)
    (memory : Memory) {es : List Event} (hes : ∀ e ∈ es, e.Within memory) {ws : List UInt32}
    (hs : play es (.start pool topology memory) = .ok ws s) (words : Nat) : Delivers cfg words s := by
  obtain ⟨hc, hstart⟩ := settled_start hpool topology memory
  exact (play_settled hc hes hstart hs).delivers hc words

/-- Three words are asked for when the open buffer has room for two more, and the one before it is still
in the queue. There are two words left at the end of the region, so the request waits for those at its
base. -/
theorem delivers_play_wrapped :
    let c : Config := ⟨2, 5, 2, 4⟩
    let pool : Pool := ⟨c, .ofConfig c, .ofCapacity 4, .allIdle⟩
    let d : Descriptor := ⟨some 1, .ring, 0, 2, 4, ⟨0x1010⟩⟩
    let es : List Event := [
      .init ⟨0x1000⟩ 8, .getBuffer 4, .writeAll .one [1, 2, 3, 4], .dropWriter .one, .flush,
      .getBuffer 2, .write .one 5, .write .one 6, .dropWriter .one, .enter .two,
      .beginDisplayList ⟨0x1020⟩ 4, .enter .one]
    Pool.ofConfig c = .ok pool ∧ (∀ e ∈ es, e.Within (.zeroed ⟨0x1000⟩ 12)) ∧
      ∃ s, play es (.start pool .standard (.zeroed ⟨0x1000⟩ 12)) = .ok [1, 2, 3, 4, 5, 6] s ∧
        s.OnRing d ∧ ¬ d.Fits 3 ∧ s.Answers 3 ∧
        (3 ≤ min c.maxGrant s.pool.ring.size ∧ ∃ k t, getBuffer 3 s = .ok k t) ∧
        Delivers c 3 s := by
  intro c pool d es
  have hpool : Pool.ofConfig c = .ok pool := by
    rw [Pool.ofConfig, show c.validate = .ok () by decide]
  have hwithin : ∀ e ∈ es, e.Within (.zeroed ⟨0x1000⟩ 12) := by
    simp [es, Event.Within, Event.Short, Event.Lists]
    decide
  refine ⟨hpool, hwithin, ?_⟩
  obtain ⟨s, hs, hseen, -⟩ : ∃ s,
      play es (.start pool .standard (.zeroed ⟨0x1000⟩ 12)) = .ok [1, 2, 3, 4, 5, 6] s ∧
      decide (s.console.topology = ⟨.one, some .one⟩ ∧ s.pool.leases.active .one = some d ∧
        s.pool.leases.held .one = false ∧ s.console.ahead = [] ∧ s.pool.ring.size = 8) = true ∧ True :=
    ok_of_seen (by decide +kernel) fun _ _ => trivial
  obtain ⟨hcore, hslot, hheld, hahead, hsize⟩ := of_decide_eq_true hseen
  have hring : s.OnRing d := by
    refine ⟨by rw [hcore]; rfl, ?_, rfl, ?_⟩
    · rw [hcore]
      exact hslot
    · rw [hcore]
      exact hheld
  have hanswers := Session.answers_of_prompt hahead 3
  have hdelivers := delivers_play hpool .standard (.zeroed ⟨0x1000⟩ 12) hwithin hs 3
  have hle : 3 ≤ min c.maxGrant s.pool.ring.size := by rw [hsize]; decide
  exact ⟨s, hs, hring, by decide, hanswers, ⟨hle, (hdelivers.granted d hring hanswers).2 hle⟩, hdelivers⟩

end CommandPool
