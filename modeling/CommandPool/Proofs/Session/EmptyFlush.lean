import CommandPool.Proofs.Ring.Regrant
import CommandPool.Proofs.Session.Ample
import CommandPool.Proofs.Session.Room
/-!
# An empty flush

A flush of a buffer without words gives its grant back, and its descriptor, and asks for the minimum
again. Nothing is submitted and nothing is waited for: the new buffer has no less room than the old one,
and is on the same slot of the arena (`emptyFlush_play`).

That the minimum is there at once has two reasons. The grant of the open buffer is the newest one, and has
the minimum itself (`Ample`); and what was just given back can be had again (`Layout.regrant`).
-/
namespace CommandPool

variable {cfg : Config} {k : Core} {s t : Session} {d : Descriptor} {ws : List UInt32}

/-! ## The descriptor comes back -/

namespace Arena

variable {a : Arena} {ds : List Descriptor} {n : Nat}

theorem Lent.slot_lt (h : a.Lent ds) (hd : d ∈ ds) (hn : d.slot = some n) : n < a.capacity := by
  obtain ⟨b, shelf, hb, rfl, hout⟩ := h
  have hmem : some n ∈ shelf.out := by
    rw [← hb.out, hout.mem_iff, ← hn]
    exact List.mem_map_of_mem hd
  have hlt := (hb.mem_slots n).1 (.inr (List.reduceOption_mem_iff.2 hmem))
  rw [hb.capacity]
  exact Nat.lt_of_lt_of_le hlt hb.fresh_le

/-- What is given back is the next to be taken. -/
theorem slot_take_give (hn : d.slot = some n) (hlt : n < a.capacity) : (a.give d).take.1.slot = some n := by
  simp only [give, hn, if_pos hlt, push, take, Descriptor.blank]

end Arena

/-! ## The grant comes back -/

/-- What a flush of the buffer `d`, which has no words, leaves of `s`. -/
structure EmptyFlushed (d : Descriptor) (s t : Session) : Prop where
  /-- Nothing was submitted, no time has passed, … -/
  console : t.console = s.console
  /-- … and nothing was waited for, reported or worked off. -/
  journal : t.journal = s.journal
  stalls : t.pool.ring.stats.stalls = s.pool.ring.stats.stalls
  wraps : t.pool.ring.stats.wraps = s.pool.ring.stats.wraps
  others : ∀ c, c ≠ s.console.topology.current → t.pool.leases.active c = s.pool.leases.active c
  /-- A buffer of the ring is open that has no words and no less room, on the slot of the old one. -/
  opened : ∃ d', t.OnRing d' ∧ d'.used = 0 ∧ d.capacity ≤ d'.capacity ∧
    ∀ n, d.slot = some n → d'.slot = some n

namespace Step

/-- A buffer without words is taken out of its slot: its grant and its descriptor are given back. -/
theorem submitActive_empty {c : Core} {r : Ring} (hslot : s.pool.leases.active c = some d)
    (hring : d.backing = .ring) (hempty : d.used = 0) (hleased : s.pool.leases.leased = true)
    (hshrink : s.pool.ring.shrink d.start 0 d.capacity = .ok () r) :
    Meets Never (submitActive c) s fun _ t => t = { s with pool := { s.pool with
      ring := r
      arena := s.pool.arena.give { d with used := 0, capacity := 0 }
      leases := { s.pool.leases.setActive c none with leased := false } } } := by
  unfold submitActive Pool.close
  simp only [meets_bind, meets_onPool_bind, meets_active, hslot, meets_onPool_ite, meets_onPool_fatal,
    meets_setActive, meets_onLeases, meets_onRing, meets_giveDescriptor, meets_onPool_pure]
  refine ⟨by simp [hring], fun _ => ?_⟩
  simp only [Leases.unlease, Leases.leased_setActive, hleased, if_true, hempty, hshrink]
  exact ⟨fun _ => rfl, by simp⟩

/-- **An empty flush** neither waits nor stops. -/
theorem flush_empty (hc : cfg.validate = .ok ()) (h : Upheld cfg k s) (hd : s.OnRing d)
    (hempty : d.used = 0) : Meets Never flush s fun _ t => EmptyFlushed d s t := by
  have hpoised := h.steady.poised hc h.between hd
  obtain ⟨hcurrent, hslot, hring, hfree⟩ := hd
  have hmain : s.pool.leases.active s.console.topology.main = some d := hcurrent ▸ hslot
  have hacc := hpoised.flowing.accounted
  have hmost : d.capacity ≤ s.pool.ring.maxGrant := by
    have := hpoised.capacity_le
    have := hpoised.maxGrant
    omega
  have hleast : s.pool.ring.minGrant ≤ d.capacity := h.ample.slot rfl d hmain hring
  have hmin : s.pool.config.minGrant = s.pool.ring.minGrant := by
    rw [h.config, ((h.steady.conserved hc).live.sound hc).2.1]
  obtain ⟨r₁, a, r₂, hshrink, hacquire, hroom, hplace⟩ := hacc.layout_some.regrant hacc.short hacc.minGrant
    hleast hmost
  unfold flush
  simp only [meets_bind, meets_currentCore, meets_borrow, hfree, Bool.false_eq_true, false_implies, true_and,
    true_implies]
  refine Meets.imp (submitActive_empty hslot hring hempty hpoised.leased hshrink) ?_
  rintro _ _ rfl
  unfold allocateMinimum
  simp only [meets_bind, meets_config]
  rw [hmin]
  refine Meets.imp (allocate_at_once hcurrent rfl hacquire) ?_
  rintro _ _ ⟨rfl, rfl⟩
  simp only [meets_setActive, hplace.skip, Option.map_none, Option.toList_none]
  refine ⟨rfl, ?_, hplace.stalls, hplace.wraps, fun c hne => ?_, _,
    ⟨hcurrent, Leases.active_setActive_self .., rfl, ?_⟩, rfl, hroom, fun n hn => ?_⟩
  · simp [Session.reported]
  · simp only [Leases.active_setActive_of_ne _ _ hne]
    exact Leases.active_setActive_of_ne _ _ hne
  · exact (Leases.held_setActive ..).trans ((Leases.held_setActive ..).trans hfree)
  · refine Arena.slot_take_give hn (h.stowed.lent.slot_lt ?_ hn)
    have huse : d ∈ s.stowage.inUse :=
      List.mem_append_left _ (List.mem_filterMap.2 ⟨_, Core.mem_all _, hslot⟩)
    exact huse

end Step

open Step

/-- **An empty flush is harmless**, in every state of every script: it returns at once and opens a buffer
with no less room. -/
theorem emptyFlush_play {pool : Pool} (hpool : Pool.ofConfig cfg = .ok pool) (topology : Topology)
    (memory : Memory) {es : List Event} (hes : ∀ e ∈ es, e.Short)
    (hs : play es (.start pool topology memory) = .ok ws s) (hd : s.OnRing d) (hempty : d.used = 0) :
    ∃ t, flush s = .ok () t ∧ EmptyFlushed d s t := by
  obtain ⟨hc, hstart⟩ := upheld_start hpool topology memory
  obtain ⟨⟨⟩, t, hflush, ht⟩ := (flush_empty hc (play_upheld hc hes hstart hs) hd hempty).returns
  exact ⟨t, hflush, ht⟩

/-- The open buffer has four words at the base, behind a wrap. Since it was granted the two words in front
of the skipped ones were released, so its successor gets five. -/
theorem emptyFlush_play_wrapped :
    let c : Config := ⟨2, 5, 2, 4⟩
    let pool : Pool := ⟨c, .ofConfig c, .ofCapacity 4, .allIdle⟩
    let d : Descriptor := ⟨some 0, .ring, 0, 0, 4, ⟨0x1000⟩⟩
    let es : List Event := [
      .init ⟨0x1000⟩ 8, .getBuffer 4, .writeAll .one [1, 2, 3, 4], .dropWriter .one, .flush,
      .getBuffer 2, .writeAll .one [5, 6], .dropWriter .one, .flush, .freeOldest,
      .getBuffer 2, .writeAll .one [7, 8], .dropWriter .one, .flush, .freeOldest]
    Pool.ofConfig c = .ok pool ∧ (∀ e ∈ es, e.Short) ∧
      ∃ s, play es (.start pool .standard (.zeroed ⟨0x1000⟩ 12)) = .ok [1, 2, 3, 4, 5, 6, 7, 8] s ∧
        s.OnRing d ∧ d.used = 0 ∧ s.pool.ring.stats.wraps = 1 ∧
        ∃ t, flush s = .ok () t ∧ EmptyFlushed d s t := by
  intro c pool d es
  have hpool : Pool.ofConfig c = .ok pool := by
    rw [Pool.ofConfig, show c.validate = .ok () by decide]
  have hshort : ∀ e ∈ es, e.Short := by simp [es, Event.Short]
  refine ⟨hpool, hshort, ?_⟩
  obtain ⟨s, hs, hseen, -⟩ : ∃ s,
      play es (.start pool .standard (.zeroed ⟨0x1000⟩ 12)) = .ok [1, 2, 3, 4, 5, 6, 7, 8] s ∧
      decide (s.OnRing d ∧ s.pool.ring.stats.wraps = 1) = true ∧ True :=
    ok_of_seen (by decide +kernel) fun _ _ => trivial
  obtain ⟨hring, hwraps⟩ := of_decide_eq_true hseen
  exact ⟨s, hs, hring, rfl, hwraps, emptyFlush_play hpool _ _ hshort hs hring rfl⟩

end CommandPool
