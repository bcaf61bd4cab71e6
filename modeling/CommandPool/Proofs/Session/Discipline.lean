import CommandPool.Proofs.Session.MoveCalls
/-!
# Lease discipline

The lease is one flag and the slots are another piece of state; flushing, recording, growing,
attaching and detaching change them in different orders. `Disciplined` says what they have to do with
each other at each phase of a call: between calls the lease is out if and only if the main core writes
into a buffer of the ring. Every move keeps it (`Move.disciplined`), and so does every run of
operations, whoever frees which buffers (`lease_discipline`). So nobody but the main core is ever at
the point where a buffer is allocated, and no caller is turned down there.
-/
namespace CommandPool

/-! ## The lease and the slots -/

/-- The slot of the main core is empty, in the middle of a call from that core. -/
structure Bench.Emptied (b : Bench) (leased : Bool) : Prop where
  main : b.current = b.main
  slot : b.leases.active b.main = none
  leased : b.leases.leased = leased

/-- The lease and the slot of the main core, by how far the call is. -/
def Bench.Leasing (b : Bench) : Prop :=
  match b.phase with
  | .rest =>
    (b.leases.leased = true ↔ ∃ d, b.leases.active b.main = some d ∧ d.backing = .ring) ∧
      (b.ring.IsAttached → b.leases.active b.main ≠ none)
  | .closed _ => b.Emptied false
  | .vacant => b.Emptied false
  | .leased => b.Emptied true
  | .granted d => b.Emptied true ∧ d.backing = .ring ∧ d.used = 0

/-- What may stand in the slot of `c`, if `k` is the main core. -/
def Descriptor.Placed (k c : Core) (d : Descriptor) : Prop :=
  d.used ≤ d.capacity ∧ (c ≠ k → d.backing = .displayList)

structure Disciplined (b : Bench) : Prop where
  placed : ∀ c d, b.leases.active c = some d → d.Placed b.main c
  leasing : b.Leasing

variable {b b' : Bench} {c : Core} {d : Descriptor}

/-- One slot is set. -/
theorem forall_setActive {P : Core → Descriptor → Prop} {l : Leases} {k : Core} {o : Option Descriptor}
    (h : ∀ c d, l.active c = some d → P c d) (ho : ∀ d, o = some d → P k d) :
    ∀ c d, (l.setActive k o).active c = some d → P c d := by
  intro c d hd
  by_cases hc : c = k
  · subst hc
    rw [Leases.active_setActive_self] at hd
    exact ho d hd
  · rw [Leases.active_setActive_of_ne l o hc] at hd
    exact h c d hd

theorem Disciplined.ringAtMain (h : Disciplined b) : b.RingAtMain := by
  intro c d hd hring
  apply Decidable.byContradiction
  intro hc
  rw [(h.placed c d hd).2 hc] at hring
  cases hring

/-- The slots, the lease and the region stay as they are. -/
structure SamePlaces (b b' : Bench) : Prop where
  phase : b'.phase = b.phase
  current : b'.current = b.current
  main : b'.main = b.main
  active : ∀ c, b'.leases.active c = b.leases.active c
  leased : b'.leases.leased = b.leases.leased
  size : b'.ring.size = b.ring.size

theorem SamePlaces.emptied (hsame : SamePlaces b b') {leased : Bool} (h : b.Emptied leased) :
    b'.Emptied leased :=
  ⟨by rw [hsame.current, hsame.main, h.main], by rw [hsame.main, hsame.active, h.slot],
    hsame.leased.trans h.leased⟩

theorem Disciplined.same (h : Disciplined b) (hsame : SamePlaces b b') : Disciplined b' := by
  have hleasing := h.leasing
  refine ⟨fun c d hd => ?_, ?_⟩
  · rw [hsame.active] at hd
    rw [hsame.main]
    exact h.placed c d hd
  unfold Bench.Leasing at hleasing ⊢
  rw [hsame.phase]
  cases hphase : b.phase with
  | rest =>
    rw [hphase] at hleasing
    simpa only [Ring.IsAttached, hsame.size, hsame.main, hsame.active, hsame.leased] using hleasing
  | granted d =>
    rw [hphase] at hleasing
    exact ⟨hsame.emptied hleasing.1, hleasing.2⟩
  | _ =>
    rw [hphase] at hleasing
    exact hsame.emptied hleasing

/-- Between calls, with no buffer of the ring in the slot of the main core, the lease is not out. -/
theorem Disciplined.unleased (h : Disciplined b) (hphase : b.phase = .rest)
    (hslot : ∀ d, b.leases.active b.main = some d → d.backing = .displayList) : b.leases.leased = false := by
  have hleasing := h.leasing
  rw [Bench.Leasing, hphase] at hleasing
  cases hleased : b.leases.leased with
  | false => rfl
  | true =>
    obtain ⟨d, hd, hring⟩ := hleasing.1.1 hleased
    rw [hslot d hd] at hring
    cases hring

/-- A slot other than that of the main core is set. -/
theorem Bench.Leasing.setActive_of_ne (h : b.Leasing) (hphase : b.phase = .rest) (hc : c ≠ b.main)
    (o : Option Descriptor) (m : Memory) :
    { b with leases := b.leases.setActive c o, memory := m }.Leasing := by
  unfold Bench.Leasing at h ⊢
  rw [hphase] at h ⊢
  simpa only [Leases.leased_setActive, Leases.active_setActive_of_ne _ _ (Ne.symm hc)] using h

/-- A list goes to the slot of the calling core, where no buffer of the ring is. -/
theorem Disciplined.setList (h : Disciplined b) (hphase : b.phase = .rest ∨ b.phase = .vacant)
    (hslot : ∀ d, b.leases.active b.current = some d → d.backing = .displayList)
    (hlist : d.backing = .displayList) (hused : d.used = 0) :
    Disciplined { b with phase := .rest, leases := b.leases.setActive b.current (some d) } := by
  refine ⟨forall_setActive h.placed ?_, ?_⟩
  · rintro _ ⟨⟩
    exact ⟨hused ▸ Nat.zero_le _, fun _ => hlist⟩
  have hleasing := h.leasing
  unfold Bench.Leasing at hleasing
  by_cases hmain : b.current = b.main
  · have hleased : b.leases.leased = false := by
      rcases hphase with hphase | hphase
      · exact h.unleased hphase (hmain ▸ hslot)
      · rw [hphase] at hleasing
        exact hleasing.leased
    simp [Bench.Leasing, hmain, hleased, hlist]
  · rcases hphase with hphase | hphase
    · rw [← hphase]
      exact h.leasing.setActive_of_ne hphase hmain _ b.memory
    · rw [hphase] at hleasing
      exact absurd hleasing.main hmain

/-- A list is taken out of the slot of the calling core. -/
theorem Disciplined.discard (h : Disciplined b) (hphase : b.phase = .rest)
    (hslot : b.leases.active b.current = some d) (hlist : d.backing = .displayList) :
    Disciplined b.cleared := by
  refine ⟨forall_setActive h.placed (by simp), ?_⟩
  unfold Bench.cleared
  by_cases hmain : b.current = b.main
  · rw [if_pos hmain]
    rw [hmain] at hslot
    have hleased := h.unleased hphase fun e he => by cases hslot.symm.trans he; exact hlist
    exact ⟨hmain, hmain ▸ Leases.active_setActive_self b.leases b.current none, hleased⟩
  · rw [if_neg hmain, ← hphase]
    exact h.leasing.setActive_of_ne hphase hmain _ b.memory

/-- **One move** keeps the discipline. -/
theorem Move.disciplined (h : Disciplined b) (hmove : Move b b') : Disciplined b' := by
  have hplaced := h.placed
  have hleasing := h.leasing
  unfold Bench.Leasing at hleasing
  cases hmove with
  | @close d r hphase hslot hring hleased hshrink =>
    have hmain : b.current = b.main := h.ringAtMain _ _ hslot hring
    refine ⟨forall_setActive hplaced (by simp), ?_⟩
    have hempty : Bench.Emptied { b with
        phase := if d.used = 0 then .vacant else .closed { d with capacity := d.used }
        leases := { b.leases.setActive b.current none with leased := false }
        ring := r } false := ⟨hmain, hmain ▸ Leases.active_setActive_self b.leases b.current none, rfl⟩
    unfold Bench.Leasing
    by_cases h0 : d.used = 0
    · simp only [if_pos h0] at hempty ⊢
      exact hempty
    · simp only [if_neg h0] at hempty ⊢
      exact hempty
  | submit hphase =>
    rw [hphase] at hleasing
    exact ⟨hplaced, hleasing.main, hleasing.slot, hleasing.leased⟩
  | vacate hphase hmain hslot =>
    rw [hmain] at hslot
    exact ⟨hplaced, hmain, hslot, h.unleased hphase fun d hd => by cases hslot.symm.trans hd⟩
  | lease hphase hleased =>
    rw [hphase] at hleasing
    exact ⟨hplaced, hleasing.main, hleasing.slot, rfl⟩
  | stall hphase hstall =>
    rw [hphase] at hleasing
    refine ⟨hplaced, ?_⟩
    unfold Bench.Leasing
    rw [hphase]
    exact ⟨hleasing.main, hleasing.slot, hleasing.leased⟩
  | grant hphase hgrant hring hused hd =>
    rw [hphase] at hleasing
    exact ⟨hplaced, ⟨hleasing.main, hleasing.slot, hleasing.leased⟩, hring, hused⟩
  | @seat d hphase =>
    rw [hphase] at hleasing
    obtain ⟨hempty, hring, hused⟩ := hleasing
    have hslot : (b.leases.setActive b.current (some d)).active b.main = some d := by
      rw [hempty.main, Leases.active_setActive_self]
    refine ⟨forall_setActive hplaced ?_, ⟨fun _ => ⟨d, hslot, hring⟩, fun _ => hempty.leased⟩, ?_⟩
    · rintro _ ⟨⟩
      exact ⟨hused ▸ Nat.zero_le _, fun hne => absurd hempty.main hne⟩
    · intro _ hnone
      cases hslot.symm.trans hnone
  | hold => exact h.same ⟨rfl, rfl, rfl, fun _ => Leases.active_setHeld .., rfl, rfl⟩
  | queue hlist hused => exact h.same ⟨rfl, rfl, rfl, fun _ => rfl, rfl, rfl⟩
  | free hsub hring hused hrelease =>
    exact h.same ⟨rfl, rfl, rfl, fun _ => rfl, rfl, ((b.ring.keeps_release _ _).same hrelease).size⟩
  | drop hsub hlist => exact h.same ⟨rfl, rfl, rfl, fun _ => rfl, rfl, rfl⟩

theorem Moves.disciplined (h : Disciplined b) (hmoves : Moves b b') : Disciplined b' := by
  induction hmoves with
  | refl => exact h
  | tail _ hmove ih => exact hmove.disciplined ih

/-- A word fits into the buffer it goes to. -/
theorem Word.disciplined {w : UInt32} (h : Disciplined b) (hphase : b.phase = .rest)
    (hword : Word c w b b') : Disciplined b' := by
  cases hword with
  | @intro d m hslot hroom hwrite =>
    refine ⟨forall_setActive h.placed ?_, ?_⟩
    · rintro _ ⟨⟩
      exact ⟨hroom, (h.placed c d hslot).2⟩
    by_cases hc : c = b.main
    · have hleasing := h.leasing
      subst hc
      simpa [Bench.Leasing, hphase, hslot] using hleasing
    · exact h.leasing.setActive_of_ne hphase hc _ m

theorem Words.disciplined {ws : List UInt32} (h : Disciplined b) (hphase : b.phase = .rest)
    (hwords : Words c ws b b') : Disciplined b' := by
  induction hwords with
  | nil => exact h
  | concat hwords hword ih => exact hword.disciplined (ih h hphase) (hwords.beside.phase.trans hphase)

theorem Padded.disciplined {u : Bench} {x : Descriptor} (hpadded : Padded b u d x) (h : Disciplined b)
    (hphase : b.phase = .rest) : Disciplined u := by
  obtain ⟨aligned, -, -, hwords⟩ := hpadded.words
  exact hwords.disciplined h hphase

/-- A region is attached while the slot of the main core is empty. -/
theorem Disciplined.attach (h : Disciplined b) (hphase : b.phase = .rest) (hmain : b.current = b.main)
    (hslot : b.leases.active b.current = none) (r : Ring) :
    Disciplined { b with phase := .vacant, ring := r } := by
  rw [hmain] at hslot
  exact ⟨h.placed, hmain, hslot, h.unleased hphase fun d hd => by cases hslot.symm.trans hd⟩

/-- **One event** keeps the discipline. -/
theorem Turn.disciplined {e : Event} (h : Disciplined b) (hphase : b.phase = .rest) (hturn : Turn e b b') :
    Disciplined b' := by
  cases hturn with
  | enter c =>
    refine ⟨h.placed, ?_⟩
    have hleasing := h.leasing
    unfold Bench.Leasing at hleasing ⊢
    rw [hphase] at hleasing ⊢
    exact hleasing
  | poke hwrite => exact h.same ⟨rfl, rfl, rfl, fun _ => rfl, rfl, rfl⟩
  | shut hthrough hheld => exact h
  | write hthrough hheld hwords => exact hwords.disciplined h hphase
  | init hmain hslot hattach hmoves =>
    exact hmoves.disciplined (h.attach hphase hmain hslot _)
  | shutdown hmoves hvacant hdetach =>
    have hu := hmoves.disciplined h
    have hleasing := hu.leasing
    rw [Bench.Leasing, hvacant] at hleasing
    refine ⟨hu.placed, ?_⟩
    obtain ⟨-, rfl⟩ := Ring.detach_ok hdetach
    simp [Bench.Leasing, hleasing.leased, hleasing.slot, Ring.IsAttached, Ring.detached]
  | record hmoves hrest hslot =>
    exact (hmoves.disciplined h).setList hrest (fun e he => by cases hslot.symm.trans he) rfl rfl
  | grow hpadded hfull hlist hused =>
    have hrest := hpadded.beside.phase.trans hphase
    have hnext := (hpadded.disciplined h hphase).setList (.inl hrest)
      (fun e he => by cases hpadded.slot_current.symm.trans he; exact hpadded.backing) hlist hused
    exact hnext.same ⟨hrest, rfl, rfl, fun _ => Leases.active_setHeld .., rfl, rfl⟩
  | finalize hpadded hstart hmoves =>
    have hrest := hpadded.beside.phase.trans hphase
    have hu := hpadded.disciplined h hphase
    exact hmoves.disciplined (hu.discard hrest hpadded.slot_current hpadded.backing)
  | plain hplain hmoves => exact hmoves.disciplined h

/-! ## Operations -/

/-- Whatever is done to a pool: the events of a script, and a consumer that takes buffers out of the
queue and frees what it likes. -/
inductive Operation where
  | event (e : Event)
  | withdraw (i : Nat)
  | free (d : Descriptor)
deriving DecidableEq, Repr

namespace Step

def operate : Operation → Step Unit
  | .event e => perform e
  | .withdraw i => do let _ ← withdraw i
  | .free d => onPool (Pool.free d)

def operateAll : List Operation → Step Unit
  | [] => return
  | o :: os => do
    operate o
    operateAll os

end Step

/-- Whether the pool is between an `init` and a `shutdown` after an operation, if `was` says whether it
was before. -/
def Operation.opens (was : Bool) : Operation → Bool
  | .event e => e.opens was
  | _ => was

def Session.activity (s : Session) (c : Core) : Activity := (s.pool.leases.slots.get c).activity

def Session.Unwarned (s : Session) : Prop := ∀ r ∈ s.journal.records, r.level ≠ .warn

/-- An operation stops because of the core it comes from only if it is an `init` or a `shutdown` and
the core is another one than `k`. -/
def Operation.OffMainOnly (o : Operation) (k : Core) (s : Session) (e : Stop) : Prop :=
  ∀ c, e = .fatal (.notMainCore c) → s.console.topology.current ≠ k ∧
    (o = .event .shutdown ∨ ∃ base size, o = .event (.init base size))

/-- The lease discipline with main core `k`; `opened` says whether the pool is between an `init` and a
`shutdown`. -/
structure LeaseDiscipline (k : Core) (opened : Bool) (s : Session) : Prop where
  leased_iff : s.pool.leases.leased = true ↔ s.activity k = .ringBuffer
  others : ∀ c, c ≠ k → s.activity c ≠ .ringBuffer
  busy : opened = true → s.activity k ≠ .idle
  attached_iff : s.pool.ring.IsAttached ↔ opened = true
  used_le : ∀ c d, s.pool.leases.active c = some d → d.used ≤ d.capacity
  /-- No core was ever refused a buffer. -/
  unwarned : s.Unwarned
  /-- Nor will it be in the next operation, however that ends. -/
  next : ∀ o, Step.Meets (fun e t => t.Unwarned ∧ o.OffMainOnly k s e) (Step.operate o) s
    fun _ t => t.Unwarned

variable {k : Core} {opened : Bool} {s t : Session}

theorem unwarned_iff : s.Unwarned ↔ s.warnings = [] := by
  simp [Session.Unwarned, Session.warnings]

theorem activity_eq_ringBuffer : s.activity c = .ringBuffer ↔
    ∃ d, s.pool.leases.active c = some d ∧ d.backing = .ring := by
  unfold Session.activity Slot.activity Leases.active
  cases (s.pool.leases.slots.get c).active with
  | none => simp
  | some d => cases hd : d.backing <;> simp [hd]

theorem activity_eq_idle : s.activity c = .idle ↔ s.pool.leases.active c = none := by
  unfold Session.activity Slot.activity Leases.active
  cases (s.pool.leases.slots.get c).active with
  | none => simp
  | some d => cases hd : d.backing <;> simp [hd]

/-- What runs keep. -/
structure InOrder (k : Core) (opened : Bool) (s : Session) : Prop where
  main : s.console.topology.main = k
  disciplined : Disciplined (s.bench .rest)
  attached_iff : s.pool.ring.IsAttached ↔ opened = true
  warnings : s.warnings = []

namespace Step

/-- **One operation** keeps the order. -/
theorem operate_inOrder (h : InOrder k opened s) (o : Operation) :
    Meets (fun e t => t.warnings = [] ∧ o.OffMainOnly k s e) (operate o) s fun _ t =>
      InOrder k (o.opens opened) t := by
  cases o with
  | event e =>
    refine (perform_turn h.disciplined.ringAtMain e).mono ?_ ?_
    · rintro stop t ⟨hoff, hwarn⟩
      refine ⟨hwarn.trans h.warnings, fun c hc => ?_⟩
      obtain ⟨hmain, hne⟩ := hoff ⟨c, hc⟩
      refine ⟨h.main ▸ hne, ?_⟩
      cases e with
      | init base size => exact .inr ⟨base, size, rfl⟩
      | shutdown => exact .inl rfl
      | _ => cases hmain
    · rintro _ t ⟨hturn, hwarn⟩
      exact ⟨hturn.fixed.1.trans h.main, hturn.disciplined h.disciplined rfl,
        hturn.attached_iff h.attached_iff, hwarn.trans h.warnings⟩
  | withdraw i =>
    unfold operate withdraw
    simp only [meets_bind, meets_get, meets_onConsole, meets_pure]
    exact ⟨h.main, h.disciplined.same ⟨rfl, rfl, rfl, fun _ => rfl, rfl, rfl⟩, h.attached_iff, h.warnings⟩
  | free d =>
    rw [operate, meets_free]
    refine ⟨fun _ => ⟨h.warnings, by simp [Operation.OffMainOnly]⟩, fun _ => ?_⟩
    have hkeeps : s.pool.ring.Keeps
        (if d.backing = .ring then s.pool.ring.release d.start d.capacity else .ok () s.pool.ring) := by
      split
      · exact s.pool.ring.keeps_release _ _
      · exact SameRegion.refl _
    split
    · rename_i r hr
      have hsame := hkeeps.same hr
      refine ⟨h.main, h.disciplined.same ⟨rfl, rfl, rfl, fun _ => rfl, rfl, hsame.size⟩, ?_, h.warnings⟩
      rw [Ring.IsAttached, hsame.size]
      exact h.attached_iff
    · rename_i e r hr
      exact ⟨h.warnings, fun c hc => absurd ⟨c, hc⟩ (hkeeps.calm hr)⟩

theorem operateAll_inOrder (os : List Operation) (h : InOrder k opened s)
    (hs : operateAll os s = .ok () t) : InOrder k (os.foldl Operation.opens opened) t := by
  induction os generalizing opened s with
  | nil =>
    cases hs
    exact h
  | cons o os ih =>
    obtain ⟨_, u, hu, ht⟩ := bind_eq_ok_iff.1 hs
    exact ih ((operate_inOrder h o).ok hu) ht

end Step

theorem InOrder.leaseDiscipline (h : InOrder k opened s) : LeaseDiscipline k opened s := by
  have hleasing := h.disciplined.leasing
  have hplaced := h.disciplined.placed
  have hmain : (s.bench .rest).main = k := h.main
  rw [Bench.Leasing, hmain] at hleasing
  refine ⟨?_, ?_, ?_, h.attached_iff, fun c d hd => (hplaced c d hd).1, unwarned_iff.2 h.warnings, ?_⟩
  · rw [activity_eq_ringBuffer]
    exact hleasing.1
  · intro c hc hring
    obtain ⟨d, hd, hring⟩ := activity_eq_ringBuffer.1 hring
    rw [(hplaced c d hd).2 (hmain ▸ hc)] at hring
    cases hring
  · intro hopened hidle
    exact hleasing.2 (h.attached_iff.2 hopened) (activity_eq_idle.1 hidle)
  · intro o
    refine (Step.operate_inOrder h o).mono ?_ ?_
    · rintro e t ⟨hwarn, hstop⟩
      exact ⟨unwarned_iff.2 hwarn, hstop⟩
    · rintro _ t ht
      exact unwarned_iff.2 ht.warnings

theorem inOrder_start {c : Config} {pool : Pool} (hpool : Pool.ofConfig c = .ok pool)
    (topology : Topology) (memory : Memory) :
    InOrder topology.main false (Session.start pool topology memory) := by
  obtain ⟨-, rfl⟩ := Pool.ofConfig_eq_ok hpool
  refine ⟨rfl, ⟨fun c d hd => ?_, ?_⟩, ?_, rfl⟩
  · cases (Leases.active_allIdle c).symm.trans hd
  · simp [Bench.Leasing, Session.bench, Session.start, Ring.IsAttached, Ring.ofConfig, Ring.detached,
      show Leases.allIdle.leased = false from rfl]
  · simp [Session.start, Ring.IsAttached, Ring.ofConfig, Ring.detached]

/-- **Lease discipline**, in every state of every run of operations, from any cores in any order, that
nothing stopped. -/
theorem lease_discipline {c : Config} {pool : Pool} (hpool : Pool.ofConfig c = .ok pool)
    (topology : Topology) (memory : Memory) {os : List Operation} {s : Session}
    (hs : Step.operateAll os (.start pool topology memory) = .ok () s) :
    LeaseDiscipline topology.main (os.foldl Operation.opens false) s := by
  exact (Step.operateAll_inOrder os (inOrder_start hpool topology memory) hs).leaseDiscipline

/-- The main core hands in three words to begin a list, and goes on with it in more storage; another
core records too. The buffer is taken out of the queue and is freed in two parts. -/
theorem lease_discipline_recording :
    let c : Config := ⟨2, 5, 2, 4⟩
    let pool : Pool := ⟨c, .ofConfig c, .ofCapacity 4, .allIdle⟩
    let os : List Operation := [
      .event (.init ⟨0x1000⟩ 8), .event (.getBuffer 3), .event (.writeAll .one [1, 2, 3]),
      .event (.dropWriter .one), .event (.beginDisplayList ⟨0x1020⟩ 2), .event (.enter .two),
      .event (.beginDisplayList ⟨0x1028⟩ 2), .event (.getBuffer 1), .event (.enter .one),
      .event (.offer (some ⟨⟨0x1030⟩, 8⟩)), .event (.getBuffer 2), .event (.write .one 4),
      .event (.dropWriter .one), .event (.getBuffer 2), .withdraw 0,
      .free ⟨none, .ring, 0, 1, 1, ⟨0x1000⟩⟩, .free ⟨none, .ring, 0, 2, 2, ⟨0x1004⟩⟩]
    Pool.ofConfig c = .ok pool ∧
      ∃ s, Step.operateAll os (.start pool .standard (.zeroed ⟨0x1000⟩ 16)) = .ok () s ∧
        (Core.all.map s.activity, s.pool.leases.leased, s.pool.ring.outstanding) =
          ([.idle, .displayList, .displayList], false, 0) ∧
        LeaseDiscipline .one true s :=
  ⟨rfl, Step.ok_of_seen (by decide +kernel) fun _ hs => lease_discipline (c := ⟨2, 5, 2, 4⟩) rfl _ _ hs⟩

end CommandPool
