import CommandPool.Proofs.Session.AlikeCalls
/-!
# Recording on other cores

While the main core works on the ring, other cores record display lists: they begin a list, ask for room
in it, write, and finalize it. `recording_aside` compares a run with what is left of it without these
operations: that goes through as well, the main core cannot tell the two apart, and guest memory differs
only in the lists that were left out. They take descriptors from the arena too, so without them the others
may come in another order: a buffer that is freed is the same one, but for its place there
(`Operation.Renamed`). Nothing is asked of what is left out but that it puts no question to the application
(`Unasked`), which answers a question once.
-/
namespace CommandPool

/-! ## Runs without the lists of other cores -/

/-- Recording a display list on another core than the main one. -/
def Event.aside (top : Topology) : Event → Bool
  | .beginDisplayList _ _ => !top.onMain
  | .getBuffer _ => !top.onMain
  | .finalizeDisplayList _ => !top.onMain
  | .recordedList => !top.onMain
  | .write c _ => c != top.main
  | .writeAll c _ => c != top.main
  | .remaining c => c != top.main
  | .dropWriter c => c != top.main
  | _ => false

namespace Operation

def aside (top : Topology) : Operation → Bool
  | .event e => e.aside top
  | _ => false

/-- Where the caller runs after an operation. -/
def topology (top : Topology) : Operation → Topology
  | .event (.enter c) => top.enter c
  | _ => top

/-- The storage of the list that an operation begins aside. -/
def storages (top : Topology) : Operation → Storages
  | .event (.beginDisplayList storage words) => if top.onMain then [] else [(storage, words)]
  | _ => []

/-- The same operation, but for the place in the arena of a buffer that is freed. -/
inductive Renamed : Operation → Operation → Prop
  | same (o : Operation) : Renamed o o
  | free {d d' : Descriptor} (hd : d.Renamed d') : Renamed (.free d) (.free d')

end Operation

/-- What is left of a run without recording on other cores. -/
def withoutAsides : Topology → List Operation → List Operation
  | _, [] => []
  | top, o :: os =>
    if o.aside top then withoutAsides (o.topology top) os else o :: withoutAsides (o.topology top) os

/-- The storage of the lists that are left out. -/
def asideStorages : Topology → List Operation → Storages
  | _, [] => []
  | top, o :: os => o.storages top ++ asideStorages (o.topology top) os

/-- No operation that records on another core asks the application for storage. -/
def Unasked : List Operation → Session → Prop
  | [], _ => True
  | o :: os, s =>
    match Step.operate o s with
    | .ok _ t => (o.aside s.console.topology → t.journal.overruns = s.journal.overruns) ∧ Unasked os t
    | .error _ _ => True

instance Unasked.decidable : (os : List Operation) → (s : Session) → Decidable (Unasked os s)
  | [], _ => isTrue trivial
  | o :: os, s =>
    match h : Step.operate o s with
    | .ok _ t =>
      have := Unasked.decidable os t
      decidable_of_iff
        ((o.aside s.console.topology → t.journal.overruns = s.journal.overruns) ∧ Unasked os t)
        (by simp only [Unasked, h])
    | .error _ _ => isTrue (by simp only [Unasked, h])

variable {A : Storages} {top : Topology} {s s' t : Session} {c : Core}

/-! ## What is left alone -/

/-- The slot of another core is set in the first session only. -/
theorem Alike.setOther (h : Alike A top s s') (hc : c ≠ top.main) {o : Option Descriptor}
    (ho : ∀ d, o = some d → d.backing = .displayList ∧ (d.start, d.capacity) ∈ A) :
    Alike A top { s with pool := { s.pool with leases := s.pool.leases.setActive c o } } s' := by
  refine { h with slot := ?_, held := ?_, others := fun k d hk hd => ?_ }
  · simp only [Leases.active_setActive_of_ne _ _ (Ne.symm hc), h.slot]
  · simp only [Leases.held_setActive, h.held]
  · by_cases hkc : k = c
    · rw [hkc, Leases.active_setActive_self] at hd
      exact ho d hd
    · rw [Leases.active_setActive_of_ne _ _ hkc] at hd
      exact h.others k d hk hd

theorem Alike.setOtherHeld (h : Alike A top s s') (hc : c ≠ top.main) (held : Bool) :
    Alike A top { s with pool := { s.pool with leases := s.pool.leases.setHeld c held } } s' := by
  refine { h with slot := ?_, held := ?_, others := fun k d hk hd => ?_ }
  · simp only [Leases.active_setHeld, h.slot]
  · simp only [Leases.held, Leases.setHeld, PerCore.modify, PerCore.get_set_of_ne _ _ (Ne.symm hc)]
    exact h.held
  · rw [Leases.active_setHeld] at hd
    exact h.others k d hk hd

/-- A request that puts no question finds room, if it is for a list. -/
theorem Turn.plain_of_overruns {b b' : Bench} {words : Nat} (h : Turn (.getBuffer words) b b')
    (hover : b'.overruns = b.overruns) : (Event.getBuffer words).Plain b := by
  cases h with
  | shut hthrough hheld => cases hthrough
  | write hthrough hheld hwords => cases hthrough
  | grow hpadded hfull hlist hused =>
    simp [Bench.replaced, Bench.setHeld, Bench.setSlot, Bench.asked, hpadded.beside.overruns] at hover
  | plain hplain hmoves => exact hplain

/-- Whatever is written goes to the storage of the buffer. -/
theorem OpenBuffer.Writes.aside {b u : OpenBuffer} {ws : List UInt32} {r : Outcome OpenBuffer Unit} {m : Memory}
    (hwrites : b.Writes ws r) (hr : r = .ok () u) (hA : (b.buffer.start, b.buffer.capacity) ∈ A)
    (h : b.memory.Agree A m) : SameStorage b.buffer u.buffer ∧ u.memory.Agree A m := by
  have happends : Appends fun _ x => SameStorage b.buffer x.buffer ∧ x.memory.Agree A m := by
    rintro _ x w m' ⟨hsame, hagree⟩ hroom hwrite
    refine ⟨hsame.trans ⟨rfl, rfl, rfl⟩, hagree.write_aside ⟨_, hA, x.buffer.used, ?_, ?_⟩ hwrite⟩
    · rw [← hsame.capacity]
      exact hroom
    · rw [Descriptor.cursor, hsame.start]
  have hend := hwrites _ happends [] ⟨.refl _, h⟩
  rw [hr] at hend
  exact hend

namespace Step

/-! ## Operations that are left out -/

/-- Writing into the list of another core. -/
theorem onActive_aside (h : Alike A top s s') (hc : c ≠ top.main) {f : OpenBuffer → Outcome OpenBuffer Unit}
    (hf : ∀ b u, f b = .ok () u → ∃ ws, b.Writes ws (f b)) :
    Meets Anyhow (onActive c f) s fun _ t => Alike A top t s' := by
  rw [meets_onActive]
  cases hd : s.pool.leases.active c with
  | none => trivial
  | some d =>
    dsimp only
    cases hr : f ⟨d, s.console.memory⟩ with
    | error e b => trivial
    | ok a b =>
      obtain ⟨hlist, hA⟩ := h.others c d hc hd
      obtain ⟨ws, hwrites⟩ := hf _ _ hr
      obtain ⟨hsame, hagree⟩ := hwrites.aside hr hA h.memory
      refine { h.setOther (o := some b.buffer) hc ?_ with memory := hagree }
      rintro _ ⟨⟩
      rw [hsame.backing, hsame.start, hsame.capacity]
      exact ⟨hlist, hA⟩

theorem through_aside (h : Alike A top s s') (hc : c ≠ top.main) {f : OpenBuffer → Outcome OpenBuffer Unit}
    (hf : ∀ b u, f b = .ok () u → ∃ ws, b.Writes ws (f b)) :
    Meets Anyhow (do if (← get).pool.leases.held c then onActive c f) s fun _ t => Alike A top t s' := by
  rw [meets_bind, meets_get, meets_ite]
  exact ⟨fun _ => onActive_aside h hc hf, fun _ => h⟩

theorem remaining_aside (h : Alike A top s s') :
    Meets Anyhow (remaining c) s fun _ t => Alike A top t s' := by
  unfold remaining
  rw [meets_bind, meets_active]
  cases s.pool.leases.active c with
  | none => trivial
  | some d =>
    rw [meets_checked]
    cases d.remaining with
    | error o => trivial
    | ok n => exact h

theorem beginDisplayList_aside (h : Alike A top s s') (hc : top.current ≠ top.main) {storage : Address}
    {words : Nat} (hA : (storage, words) ∈ A) :
    Meets Anyhow (beginDisplayList storage words) s fun _ t => Alike A top t s' := by
  unfold beginDisplayList
  simp only [meets_bind, meets_currentCore, meets_borrow, meets_mainCore, h.topology]
  refine ⟨fun _ => trivial, fun _ => ?_⟩
  rw [if_neg fun hmain => hc hmain.1]
  simp only [meets_bind, meets_active, meets_ite, meets_fatal, meets_takeDescriptor, meets_setActive, meets_debug]
  refine ⟨fun _ => trivial, fun _ => ?_⟩
  refine { h.setOther (o := some (s.pool.arena.take.1.bind storage 0 words .displayList)) hc ?_ with }
  rintro _ ⟨⟩
  exact ⟨rfl, hA⟩

theorem padActive_aside (h : Alike A top s s') (hc : c ≠ top.main) :
    Meets Anyhow (padActive c) s fun _ t => Alike A top t s' := by
  unfold padActive
  rw [meets_bind, meets_config, meets_bind]
  refine (onActive_aside h hc fun b u hu => ?_).imp fun _ t ht => ?_
  · obtain ⟨aligned, -, -, hwrites⟩ := OpenBuffer.pad_writes hu
    exact ⟨_, hwrites⟩
  · rw [meets_bind, meets_active]
    cases t.pool.leases.active c with
    | none => trivial
    | some d =>
      simp only [meets_bind, meets_checked, meets_pure]
      cases d.sizeBytes with
      | error o => trivial
      | ok n => exact ht

theorem finalizeDisplayList_aside (h : Alike A top s s') (hc : top.current ≠ top.main) (storage : Address) :
    Meets Anyhow (finalizeDisplayList storage) s fun _ t => Alike A top t s' := by
  unfold finalizeDisplayList
  simp only [meets_bind, meets_currentCore, meets_borrow, h.topology]
  refine ⟨fun _ => trivial, fun _ => ?_⟩
  cases s.pool.leases.active top.current with
  | none => trivial
  | some d =>
    simp only [meets_bind, meets_ite, meets_fatal]
    refine ⟨fun _ => trivial, fun _ => ⟨fun _ => trivial, fun _ => ?_⟩⟩
    refine (padActive_aside h hc).imp ?_
    rintro ⟨x, bytes⟩ t ht
    simp only [meets_setActive, meets_giveDescriptor, meets_mainCore, meets_debug, meets_pure, ht.topology]
    refine ⟨fun hmain => absurd hmain hc, fun _ => ?_⟩
    exact { ht.setOther (o := none) hc (by simp) with }

theorem recordedList_aside (h : Alike A top s s') :
    Meets Anyhow recordedList s fun _ t => Alike A top t s' := by
  unfold recordedList
  rw [meets_bind, meets_currentCore, meets_bind, meets_borrow]
  refine ⟨fun _ => trivial, fun _ => ?_⟩
  cases s.pool.leases.active s.console.topology.current with
  | none => trivial
  | some d => exact h

/-- A request asks for room in a buffer that no writer holds. -/
theorem getBuffer_free (words : Nat) : Meets Anyhow (getBuffer words) s fun _ _ =>
    s.pool.leases.held s.console.topology.current = false ∧
      ∃ d, s.pool.leases.active s.console.topology.current = some d := by
  unfold getBuffer
  simp only [meets_bind, meets_currentCore, meets_borrow]
  refine ⟨fun _ => trivial, fun hheld => ?_⟩
  cases s.pool.leases.active s.console.topology.current with
  | none => trivial
  | some d => exact (meets_anyhow _ s).imp fun _ _ _ => ⟨hheld, d, rfl⟩

/-- Without a question the list has room, and only the writer is opened. -/
theorem getBuffer_aside (h : Alike A top s s') (hc : top.current ≠ top.main) {words : Nat} {k : Core}
    (hs : getBuffer words s = .ok k t) (hover : t.journal.overruns = s.journal.overruns) :
    Alike A top t s' := by
  have hring : (s.bench .rest).RingAtMain := fun c d hd hring => by
    by_contra hne
    have hlist := (h.others c d (h.topology ▸ hne) hd).1
    cases hring.symm.trans hlist
  obtain ⟨hheld, d, hd⟩ := (getBuffer_free words).ok hs
  have hother := h.others _ d (h.topology ▸ hc) hd
  have hturn := ((getBuffer_turn hring words).ok hs).1.turn
  have hfits := hturn.plain_of_overruns hover d hd hother.1
  cases (getBuffer_kept hd hheld hfits).symm.trans hs
  refine h.setOtherHeld ?_ true
  rw [h.topology]
  exact hc

/-- **An operation that is left out** leaves the first session alike. -/
theorem operate_aside (h : Alike A top s s') {o : Operation} (ho : o.aside top = true)
    (hA : ∀ st ∈ o.storages top, st ∈ A) (hs : operate o s = .ok () t)
    (hover : t.journal.overruns = s.journal.overruns) : Alike A top t s' := by
  have hoff (hoff : (!top.onMain) = true) : top.current ≠ top.main := by
    simpa [Topology.onMain] using hoff
  have hother {c : Core} (hc : (c != top.main) = true) : c ≠ top.main := by simpa using hc
  cases o with
  | withdraw i => cases ho
  | free d => cases ho
  | event e =>
    cases e with
    | beginDisplayList storage words =>
      have hc := hoff ho
      exact (beginDisplayList_aside h hc (hA _ (by simpa [Operation.storages, Topology.onMain] using hc))).ok hs
    | getBuffer words =>
      obtain ⟨k, _, hk, ⟨⟩⟩ := bind_eq_ok_iff.1 hs
      exact getBuffer_aside h (hoff ho) hk hover
    | finalizeDisplayList storage =>
      obtain ⟨bytes, _, hk, ⟨⟩⟩ := bind_eq_ok_iff.1 hs
      exact (finalizeDisplayList_aside h (hoff ho) storage).ok hk
    | recordedList =>
      obtain ⟨l, _, hk, ⟨⟩⟩ := bind_eq_ok_iff.1 hs
      exact (recordedList_aside h).ok hk
    | write c w =>
      exact (through_aside h (hother ho) fun b u _ => ⟨[w], OpenBuffer.writes_push w⟩).ok hs
    | writeAll c ws =>
      exact (through_aside h (hother ho) fun b u _ => ⟨ws, OpenBuffer.writes_pushAll ws⟩).ok hs
    | remaining c =>
      obtain ⟨_, _, ⟨⟩, hs⟩ := bind_eq_ok_iff.1 hs
      split at hs
      · obtain ⟨n, _, hn, ⟨⟩⟩ := bind_eq_ok_iff.1 hs
        exact (remaining_aside h).ok hn
      · cases hs
        exact h
    | dropWriter c =>
      obtain ⟨_, _, hk, ⟨⟩⟩ := bind_eq_ok_iff.1 hs
      cases hk
      exact h.setOtherHeld (hother ho) false
    | _ => cases ho

/-! ## Operations that stay -/

namespace Follows

/-- An answer that is not looked at. -/
theorem ignored {α : Type} {x : Step α} {Q : α → α → Prop} (h : Follows A top x x Q) :
    Follows A top (do let _ ← x) (do let _ ← x) fun _ _ => True := .bind h fun _ _ _ => .pure trivial

theorem imp {α α' : Type} {x : Step α} {x' : Step α'} {Q Q' : α → α' → Prop} (h : Follows A top x x' Q)
    (hq : ∀ a a', Q a a' → Q' a a') : Follows A top x x' Q' := by
  refine fun s s' hs => (h s s' hs).imp ?_
  rintro a t ⟨a', t', hx, hp, ht⟩
  exact ⟨a', t', hx, hq a a' hp, ht⟩

theorem through {f : Step Unit} {Q : Unit → Unit → Prop} (h : Follows A top f f Q) :
    Follows A top (do if (← MonadState.get).pool.leases.held top.main then f)
      (do if (← MonadState.get).pool.leases.held top.main then f) fun _ _ => True := by
  refine .get fun s s' hs => ?_
  rw [hs.held]
  exact .ite (fun _ => h.imp fun _ _ _ => trivial) fun _ => .pure trivial

/-- A word beside the pool goes to the same place. -/
theorem poke (a : Address) (w : UInt32) : Follows A top (poke a w) (Step.poke a w) fun _ _ => True := by
  unfold Step.poke
  refine .get fun s s' h => ?_
  cases hw : s.console.memory.write a w with
  | error f => exact .bind (Q := fun _ _ => False) .throw fun _ _ hnone => hnone.elim
  | ok m =>
    obtain ⟨m', hw', hagree⟩ := h.memory.write hw
    rw [hw']
    refine .bind (.pure hagree) fun m m' hagree => ?_
    exact .onConsole fun u u' hu => { hu with memory := hagree }

theorem withdraw (i : Nat) : Follows A top (withdraw i) (Step.withdraw i) fun _ _ => True := by
  unfold Step.withdraw
  refine .get fun s s' h => .bind (.onConsole fun u u' hu => { hu with submitted := ?_ }) fun _ _ _ =>
    .pure trivial
  simp only [← List.eraseIdx_map, hu.submitted]

end Follows

/-- **An operation that stays** leaves the sessions alike. -/
theorem operate_follows (h : Alike A top s s') {o o' : Operation} (ho : o.aside top = false)
    (hrenamed : o.Renamed o') :
    Meets Anyhow (operate o) s fun _ t => ∃ t', operate o' s' = .ok () t' ∧ Alike A (o.topology top) t t' := by
  have hon (hon : (!top.onMain) = false) : top.current = top.main := by
    simpa [Topology.onMain] using hon
  have hmain {c : Core} (hc : (c != top.main) = false) : c = top.main := by simpa using hc
  -- all but one of them leave the caller where it is
  have hstays {x x' : Step Unit} (hx : Follows A top x x' fun _ _ => True) :
      Meets Anyhow x s fun _ t => ∃ t', x' s' = .ok () t' ∧ Alike A top t t' := by
    refine (hx s s' h).imp ?_
    rintro _ t ⟨_, t', hx, -, ht⟩
    exact ⟨t', hx, ht⟩
  cases hrenamed with
  | free hd => exact hstays (.free hd)
  | same =>
    cases o with
    | withdraw i => exact hstays (.ignored (.withdraw i))
    | free d => exact hstays (.free ⟨d.slot⟩)
    | event e =>
      cases e with
      | enter c =>
        refine ⟨{ s' with console := s'.console.enter c }, rfl, ?_⟩
        exact { h with
          topology := congrArg (Topology.enter · c) h.topology
          topology' := congrArg (Topology.enter · c) h.topology' }
      | init base size => exact hstays (.init base size)
      | shutdown => exact hstays .shutdown
      | flush => exact hstays .flush
      | getBuffer words => exact hstays (.ignored (.getBuffer (hon ho) words))
      | write c w =>
        cases hmain ho
        exact hstays (.through (.onActive (OpenBuffer.even_push w)))
      | writeAll c ws =>
        cases hmain ho
        exact hstays (.through (.onActive (OpenBuffer.even_pushAll ws)))
      | remaining c =>
        cases hmain ho
        exact hstays (.through (.ignored .remaining))
      | dropWriter c =>
        cases hmain ho
        exact hstays (.ignored .dropWriter)
      | beginDisplayList storage words => exact hstays (.beginDisplayList (hon ho) storage words)
      | finalizeDisplayList storage => exact hstays (.ignored (.finalizeDisplayList (hon ho) storage))
      | queueDisplayList storage words => exact hstays (.queueDisplayList storage words)
      | recordedList => exact hstays (.ignored (.recordedList (hon ho)))
      | freeOldest => exact hstays (.ignored .freeOldest)
      | advance => exact hstays .advance
      | setIdle n => exact hstays (.onConsole fun u u' hu => { hu with idle := rfl })
      | runAhead n =>
        exact hstays (.onConsole fun u u' hu => { hu with ahead := congrArg (· ++ [n]) hu.ahead })
      | offer answer =>
        exact hstays (.onConsole fun u u' hu => { hu with offers := congrArg (· ++ [answer]) hu.offers })
      | poke a w => exact hstays (.poke a w)

/-! ## Runs -/

theorem aside_topology {o : Operation} (ho : o.aside top = true) : o.topology top = top := by
  cases o with
  | event e => cases e <;> first | rfl | cases ho
  | _ => rfl

/-- What is left of a run runs alike. -/
theorem operateAll_alike (os : List Operation) {os' : List Operation} (h : Alike A top s s')
    (hA : ∀ st ∈ asideStorages top os, st ∈ A) (hasked : Unasked os s)
    (hos : List.Forall₂ Operation.Renamed (withoutAsides top os) os') (hs : operateAll os s = .ok () t) :
    ∃ t' top', operateAll os' s' = .ok () t' ∧ top'.main = top.main ∧ Alike A top' t t' := by
  induction os generalizing top s s' os' with
  | nil =>
    cases hs
    cases hos
    exact ⟨s', top, rfl, rfl, h⟩
  | cons o os ih =>
    obtain ⟨⟨⟩, u, hu, hs⟩ := bind_eq_ok_iff.1 hs
    rw [asideStorages, List.forall_mem_append] at hA
    simp only [Unasked, hu, h.topology] at hasked
    have hmain : (o.topology top).main = top.main := by
      cases o with
      | event e => cases e <;> rfl
      | _ => rfl
    rw [withoutAsides] at hos
    by_cases ho : o.aside top = true
    · rw [if_pos ho] at hos
      have hnext := operate_aside h ho hA.1 hu (hasked.1 ho)
      rw [← aside_topology ho] at hnext
      obtain ⟨t', top', ht', hmain', hend⟩ := ih hnext hA.2 hasked.2 hos hs
      exact ⟨t', top', ht', hmain'.trans hmain, hend⟩
    · rw [if_neg ho] at hos
      obtain ⟨o', os', hrenamed, hrest, rfl⟩ := List.forall₂_cons_left_iff.1 hos
      obtain ⟨u', hu', hnext⟩ := (operate_follows h (Bool.eq_false_iff.2 ho) hrenamed).ok hu
      obtain ⟨t', top', ht', hmain', hend⟩ := ih hnext hA.2 hasked.2 hrest hs
      exact ⟨t', top', bind_eq_ok_iff.2 ⟨(), u', hu', ht'⟩, hmain'.trans hmain, hend⟩

end Step

/-- **Recording on other cores does not disturb the main core.** What is left of a run without it goes
through as well, whichever places in the arena the freed buffers then have, and ends the same for the main
core. -/
theorem recording_aside {c : Config} {pool : Pool} (hpool : Pool.ofConfig c = .ok pool) (topology : Topology)
    (memory : Memory) {os os' : List Operation} (hasked : Unasked os (.start pool topology memory))
    (hos : List.Forall₂ Operation.Renamed (withoutAsides topology os) os') {s : Session}
    (hs : Step.operateAll os (.start pool topology memory) = .ok () s) :
    ∃ s', Step.operateAll os' (.start pool topology memory) = .ok () s' ∧
      Undisturbed (asideStorages topology os) topology.main s s' := by
  have hstart : Alike (asideStorages topology os) topology (.start pool topology memory)
      (.start pool topology memory) := by
    unfold Pool.ofConfig at hpool
    split at hpool <;> cases hpool
    refine ⟨⟨rfl, rfl, rfl, rfl, rfl, rfl, rfl, rfl, .refl _ _⟩, rfl, rfl, rfl, rfl, rfl, rfl, rfl, ?_⟩
    intro c d _ hd
    cases (Leases.active_allIdle c).symm.trans hd
  obtain ⟨s', top, hs', hmain, hend⟩ := Step.operateAll_alike os hstart (fun _ h => h) hasked hos hs
  exact ⟨s', hs', hmain ▸ hend.toUndisturbed⟩

/-- Core two begins a list while the main core has its first buffer, writes three words into it, and
finalizes it when the main core has submitted that buffer. So the next one of the main core has another
descriptor than without the list, and is freed with it. -/
theorem recording_aside_three_words :
    let c : Config := ⟨2, 5, 2, 4⟩
    let pool : Pool := ⟨c, .ofConfig c, .ofCapacity 4, .allIdle⟩
    let first : Descriptor := ⟨some 0, .ring, 1, 1, 1, ⟨0x1000⟩⟩
    let second (slot : Nat) : Descriptor := ⟨some slot, .ring, 3, 2, 2, ⟨0x1004⟩⟩
    let os : List Operation := [
      .event (.init ⟨0x1000⟩ 8), .event (.enter .two), .event (.beginDisplayList ⟨0x1020⟩ 4),
      .event (.getBuffer 3), .event (.enter .one), .event (.getBuffer 2), .event (.writeAll .two [7, 8, 9]),
      .event (.write .one 1), .event (.dropWriter .two), .event (.dropWriter .one), .event .flush,
      .event (.enter .two), .event (.finalizeDisplayList ⟨0x1020⟩), .event (.queueDisplayList ⟨0x1020⟩ 4),
      .event (.enter .one), .withdraw 0, .free first, .event (.getBuffer 2), .event (.writeAll .one [2, 3]),
      .event (.dropWriter .one), .event .flush, .withdraw 1, .free (second 2)]
    let rest (slot : Nat) : List Operation := [
      .event (.init ⟨0x1000⟩ 8), .event (.enter .two), .event (.enter .one), .event (.getBuffer 2),
      .event (.write .one 1), .event (.dropWriter .one), .event .flush, .event (.enter .two),
      .event (.queueDisplayList ⟨0x1020⟩ 4), .event (.enter .one), .withdraw 0, .free first,
      .event (.getBuffer 2), .event (.writeAll .one [2, 3]), .event (.dropWriter .one), .event .flush,
      .withdraw 1, .free (second slot)]
    (Pool.ofConfig c = .ok pool ∧ Unasked os (.start pool .standard (.zeroed ⟨0x1000⟩ 12))) ∧
      withoutAsides .standard os = rest 2 ∧ List.Forall₂ Operation.Renamed (rest 2) (rest 1) ∧
      ∃ s, Step.operateAll os (.start pool .standard (.zeroed ⟨0x1000⟩ 12)) = .ok () s ∧
        s.console.memory.read ⟨0x1020⟩ = .ok 7 ∧
        ∃ s', Step.operateAll (rest 1) (.start pool .standard (.zeroed ⟨0x1000⟩ 12)) = .ok () s' ∧
          Undisturbed [(⟨0x1020⟩, 4)] .one s s' := by
  intro c pool first second os rest
  have hpool : Pool.ofConfig c = .ok pool := by
    rw [Pool.ofConfig, show c.validate = .ok () by decide]
  have hasked : Unasked os (.start pool .standard (.zeroed ⟨0x1000⟩ 12)) := by decide +kernel
  have hleft : withoutAsides .standard os = rest 2 := by decide
  have hrenamed : List.Forall₂ Operation.Renamed (rest 2) (rest 1) := by repeat' constructor
  refine ⟨⟨hpool, hasked⟩, hleft, hrenamed, Step.ok_of_seen (by decide +kernel) fun s hs => ?_⟩
  exact recording_aside hpool .standard (.zeroed ⟨0x1000⟩ 12) hasked (hleft ▸ hrenamed) hs

end CommandPool
