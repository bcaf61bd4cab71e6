import CommandPool.Proofs.Session.Conservation
import CommandPool.Proofs.Session.StowageCalls
/-!
# Buffers lie in guest memory

When the ring and all lists lie inside the memory window (`Event.Within`), so does every buffer that can
be written into, at any time: memory keeps its window, the ring its region, and lists are recorded only
where the application said. A buffer that lies in memory takes as many words as it has room for, in
whatever portions they come (`Words.play`).
-/
namespace CommandPool

/-- Regions that an event attaches and lists that it begins or offers lie in memory. -/
def Event.Within (m : Memory) (e : Event) : Prop :=
  e.Short ∧ e.Lists m.Spans ∧ ∀ base size, e = .init base size → m.Spans base size

/-! ## The region and the window -/

variable {b b' : Bench} {c : Core} {ws : List UInt32} {e : Event} {m : Memory}

theorem Word.window {w : UInt32} (h : Word c w b b') : Memory.SameWindow b.memory b'.memory := by
  cases h with
  | intro hslot hroom hwrite => exact Memory.sameWindow_write hwrite

theorem Words.window (h : Words c ws b b') : Memory.SameWindow b.memory b'.memory := by
  induction h with
  | nil b => exact .refl _
  | concat _ hword ih => exact ih.trans hword.window

/-- The region lies in a memory with the window of `m`. -/
structure Housed (m : Memory) (b : Bench) : Prop where
  window : m.SameWindow b.memory
  region : m.Spans b.ring.base b.ring.size

theorem Housed.next (h : Housed m b) (hwindow : b.memory.SameWindow b'.memory)
    (hregion : SameRegion b.ring b'.ring) : Housed m b' := by
  refine ⟨h.window.trans hwindow, ?_⟩
  rw [hregion.base, hregion.size]
  exact h.region

theorem Moves.housed (h : Housed m b) (hmoves : Moves b b') : Housed m b' := by
  refine h.next ?_ hmoves.region
  rw [hmoves.onCore.memory]
  exact .refl _

theorem Words.housed (h : Housed m b) (hwords : Words c ws b b') : Housed m b' := by
  refine h.next hwords.window ?_
  rw [hwords.beside.ring]
  exact .refl _

theorem Padded.housed {u : Bench} {d x : Descriptor} (h : Housed m b) (hpadded : Padded b u d x) :
    Housed m u := by
  obtain ⟨aligned, -, -, hwords⟩ := hpadded.words
  exact hwords.housed h

theorem Turn.housed (h : Housed m b) (he : ∀ base size, e = .init base size → m.Spans base size)
    (hturn : Turn e b b') : Housed m b' := by
  cases hturn with
  | enter c => exact ⟨h.window, h.region⟩
  | poke hwrite => exact ⟨h.window.trans (Memory.sameWindow_write hwrite), h.region⟩
  | shut hthrough hheld => exact h
  | write hthrough hheld hwords => exact hwords.housed h
  | @init _ _ base size r hmain hslot hattach hmoves =>
    have hopened : Housed m { b with phase := .vacant, ring := r } := by
      obtain ⟨rfl, -⟩ := attach_spec hattach
      exact ⟨h.window, he base size rfl⟩
    exact hmoves.housed hopened
  | shutdown hmoves hphase hdetach =>
    obtain ⟨-, rfl⟩ := Ring.detach_ok hdetach
    exact ⟨(hmoves.housed h).window, fun i hi => absurd hi (Nat.not_lt_zero i)⟩
  | record hmoves hphase hslot => exact ⟨(hmoves.housed h).window, (hmoves.housed h).region⟩
  | grow hpadded hfull hlist hused =>
    have hu := hpadded.housed h
    exact ⟨hu.window, hu.region⟩
  | finalize hpadded hstart hmoves =>
    have hu := hpadded.housed h
    have hcleared : Housed m (Bench.cleared _) := ⟨hu.window, hu.region⟩
    exact hmoves.housed hcleared
  | plain hplain hmoves => exact hmoves.housed h

/-! ## Scripts in memory -/

variable {cfg : Config} {k : Core} {s t : Session}

/-- What scripts keep that stay within the window of `m`. -/
structure Settled (m : Memory) (cfg : Config) (k : Core) (s : Session) : Prop where
  steady : Steady cfg k s
  between : Between k s.stock
  stowed : Stowed m.Spans [] s.stowage
  housed : Housed m (s.bench .rest)

namespace Step

theorem perform_settled (hc : cfg.validate = .ok ()) (he : e.Within m) (h : Settled m cfg k s) {a : Unit}
    (hs : perform e s = .ok a t) : Settled m cfg k t := by
  obtain ⟨hshort, hlists, hregion⟩ := he
  obtain ⟨hturn, -⟩ := (perform_turn h.steady.disciplined.ringAtMain e).ok hs
  exact ⟨perform_steady hc hshort h.steady hs, (perform_stock h.between hshort).ok hs,
    (perform_stowed h.stowed hlists).ok hs, hturn.housed h.housed hregion⟩

theorem play_settled (hc : cfg.validate = .ok ()) {es : List Event} (hes : ∀ e ∈ es, e.Within m)
    (h : Settled m cfg k s) (hs : play es s = .ok ws t) : Settled m cfg k t := by
  exact play_keeps (fun _ _ _ he hu hrun => perform_settled hc he hu hrun) hes h hs

end Step

theorem settled_start {pool : Pool} (hpool : Pool.ofConfig cfg = .ok pool) (topology : Topology)
    (memory : Memory) :
    cfg.validate = .ok () ∧ Settled memory cfg topology.main (.start pool topology memory) := by
  obtain ⟨hc, hsteady⟩ := steady_start hpool topology memory
  refine ⟨hc, hsteady, between_start hpool topology memory, stowed_start hpool topology memory, .refl _, ?_⟩
  obtain ⟨-, rfl⟩ := Pool.ofConfig_eq_ok hpool
  exact fun i hi => absurd hi (Nat.not_lt_zero i)

/-- **Every buffer lies in memory.** -/
theorem Settled.spans (h : Settled m cfg k s) {d : Descriptor}
    (hd : s.pool.leases.active c = some d) : s.console.memory.Spans d.start d.capacity := by
  have hwindow : m.SameWindow s.console.memory := h.housed.window
  rw [hwindow.spans]
  cases hb : d.backing with
  | displayList => exact h.stowed.lists c d hd hb
  | ring =>
    obtain ⟨-, hacc, -⟩ := h.between.ring_at hd hb
    obtain ⟨o, ho, hle⟩ := hacc.layout_some.inside (g := d.grant) (by simp)
    intro i hi
    rw [show d.start = s.pool.ring.base.addWords o from ho.1, Address.addWords_addWords]
    refine h.housed.region (o + i) ?_
    change o + d.capacity ≤ s.pool.ring.size at hle
    change o + i < s.pool.ring.size
    omega

/-! ## Words that find room -/

/-- The words that an event brings, through whichever writer. -/
def Event.words (e : Event) : List UInt32 := (e.through?.map Prod.snd).getD []

/-- A writer of `c` is open on `d`, which lies in memory. -/
structure Session.Writes (s : Session) (c : Core) (d : Descriptor) : Prop where
  held : s.pool.leases.held c = true
  slot : s.pool.leases.active c = some d
  spans : s.console.memory.Spans d.start d.capacity

namespace Step

theorem onActive_fits {d : Descriptor} (h : s.Writes c d) {n : Nat}
    {f : OpenBuffer → Outcome OpenBuffer Unit} {m : Memory}
    (hf : f ⟨d, s.console.memory⟩ = .ok () ⟨{ d with used := n }, m⟩)
    (hwindow : s.console.memory.SameWindow m) :
    ∃ t, onActive c f s = .ok () t ∧ t.Writes c { d with used := n } := by
  refine ⟨stored c ⟨{ d with used := n }, m⟩ s, ?_, ?_, Leases.active_setActive_self .., ?_⟩
  · exact onActive_ok h.slot hf
  · exact (Leases.held_setActive ..).trans h.held
  · exact hwindow.spans.2 h.spans

/-- One portion of words. -/
theorem perform_fits {d : Descriptor} (h : s.Writes c d) (he : e.through?.map Prod.fst = some c)
    (hroom : d.used + e.words.length ≤ d.capacity) :
    ∃ t, perform e s = .ok () t ∧ t.Writes c { d with used := d.used + e.words.length } := by
  cases e <;> cases he
  case write w =>
    obtain ⟨m, hpush, hwindow⟩ := OpenBuffer.push_fits (b := ⟨d, s.console.memory⟩) hroom
      (OpenBuffer.writable_of_spans h.spans) w
    obtain ⟨t, ht, hwrites⟩ := onActive_fits h hpush hwindow
    refine ⟨t, bind_eq_ok_iff.2 ⟨s, s, rfl, ?_⟩, hwrites⟩
    rw [if_pos h.held]
    exact ht
  case writeAll ws =>
    obtain ⟨m, hpush, hwindow⟩ := OpenBuffer.pushEach_fits (b := ⟨d, s.console.memory⟩) ws hroom
      (OpenBuffer.writable_of_spans h.spans)
    rw [← OpenBuffer.pushAll_eq_pushEach hroom] at hpush
    obtain ⟨t, ht, hwrites⟩ := onActive_fits h hpush hwindow
    refine ⟨t, bind_eq_ok_iff.2 ⟨s, s, rfl, ?_⟩, hwrites⟩
    rw [if_pos h.held]
    exact ht

/-- **Words that find room are written**, in whatever portions they come. -/
theorem play_fits {es : List Event} {d : Descriptor} (h : s.Writes c d)
    (hes : ∀ e ∈ es, e.through?.map Prod.fst = some c)
    (hroom : d.used + (es.flatMap Event.words).length ≤ d.capacity) :
    ∃ ws t, play es s = .ok ws t ∧
      t.Writes c { d with used := d.used + (es.flatMap Event.words).length } := by
  induction es generalizing s d with
  | nil => exact ⟨[], s, rfl, h⟩
  | cons e es ih =>
    rw [List.flatMap_cons, List.length_append] at hroom ⊢
    obtain ⟨t, ht, hwrites⟩ := perform_fits h (hes e List.mem_cons_self) (by omega)
    obtain ⟨ws, u, hu, hwrites'⟩ := ih hwrites (fun e he => hes e (List.mem_cons_of_mem _ he))
      (by simp only; omega)
    refine ⟨e.written s ++ ws, u, ?_, by rwa [← Nat.add_assoc]⟩
    exact play_cons_eq_ok_iff.2 ⟨t, ws, ht, hu, rfl⟩

end Step

end CommandPool
