import CommandPool.Proofs.Session.Script
import CommandPool.Proofs.Session.Waits
/-!
# Where a call waits

In the course of a call `x` a loop `l` is entered in `u` when `ComesTo l.run u x s`. These are all the
places where a call waits: each wait it makes is one of a loop that it comes to (`WaitsInLoops.perform`).
-/
namespace CommandPool

/-- The session with the lease taken. -/
def Session.leasing (s : Session) : Session :=
  { s with pool := { s.pool with leases := { s.pool.leases with leased := true } } }

namespace Step

variable {α β : Type} {l : Loop} {s t u v : Session}

/-! ## Each wait is one of a loop -/

/-- Of the waits made since `s`, each one has the stamp of a session in which a loop that `x` comes
to waits. -/
def InLoops (x : Step α) (s t : Session) : Prop := ∃ stamps,
  t.journal.waits = s.journal.waits ++ stamps ∧
    ∀ n ∈ stamps, ∃ (l : Loop) (u v : Session),
      ComesTo l.run u x s ∧ l.WaitsAt u v ∧ n = v.console.timeline.retired + 1

/-- However the step ends, it made its waits in loops. -/
def WaitsInLoops (x : Step α) : Prop := ∀ s, x.Leaves s (InLoops x s)

theorem WaitsInLoops.of_same {x : Step α}
    (h : ∀ s, x.Leaves s fun t => t.journal.waits = s.journal.waits) : WaitsInLoops x := fun s =>
  Meets.mono (h s) (fun _ _ ht => ⟨[], by rw [ht, List.append_nil], by simp⟩)
    fun _ _ ht => ⟨[], by rw [ht, List.append_nil], by simp⟩

theorem WaitsInLoops.run (l : Loop) : WaitsInLoops l.run := by
  intro u
  -- the loop waits wherever it would wait if it were entered now
  apply meets_waitFor (I := fun s => (∀ v, l.WaitsAt s v → l.WaitsAt u v) ∧ InLoops l.run u s) _ u
    ⟨fun _ => id, [], by simp, by simp⟩
  rintro s ⟨hs, stamps, hstamps, hin⟩
  rw [meets_onPool]
  cases hp : l.attempt s.pool with
  | error e p => exact ⟨stamps, hstamps, hin⟩
  | ok answer p =>
    cases answer with
    | some a => exact ⟨stamps, hstamps, hin⟩
    | none =>
      have hmissed : l.Missed s _ := ⟨p, hp, rfl⟩
      have hmore : ∀ t : Session,
          t.journal.waits = s.journal.waits ++ [s.console.timeline.retired + 1] →
          InLoops l.run u t := by
        intro t ht
        refine ⟨stamps ++ [s.console.timeline.retired + 1], ?_, ?_⟩
        · rw [ht, hstamps, List.append_assoc]
        · intro n hn
          rcases List.mem_append.1 hn with hn | hn
          · exact hin n hn
          · cases List.mem_singleton.1 hn
            exact ⟨l, u, _, .enter, hs _ (.now hmissed), rfl⟩
      refine Meets.mono (await_run _).and_eq ?_ ?_
      · rintro e t ⟨ht, -⟩
        exact hmore t ht
      · rintro _ t ⟨hwait, ht, -⟩
        exact ⟨fun v hv => hs v (.later hmissed hwait hv), hmore t ht⟩

theorem WaitsInLoops.bind {x : Step α} {f : α → Step β} (hx : WaitsInLoops x)
    (hf : ∀ a, WaitsInLoops (f a)) : WaitsInLoops (x >>= f) := by
  intro s
  apply meets_bind.2
  refine Meets.mono (hx s).and_eq ?_ ?_
  · rintro e t ⟨stamps, ht, hin⟩
    refine ⟨stamps, ht, fun n hn => ?_⟩
    obtain ⟨l, u, v, hu, hv, rfl⟩ := hin n hn
    exact ⟨l, u, v, .first hu, hv, rfl⟩
  · rintro a t ⟨hxs, stamps, ht, hin⟩
    have hboth : ∀ w, InLoops (f a) t w → InLoops (x >>= f) s w := by
      rintro w ⟨more, hw, hin'⟩
      refine ⟨stamps ++ more, by rw [hw, ht, List.append_assoc], fun n hn => ?_⟩
      rcases List.mem_append.1 hn with hn | hn
      · obtain ⟨l, u, v, hu, hv, rfl⟩ := hin n hn
        exact ⟨l, u, v, .first hu, hv, rfl⟩
      · obtain ⟨l, u, v, hu, hv, rfl⟩ := hin' n hn
        exact ⟨l, u, v, .next hxs hu, hv, rfl⟩
    exact Meets.mono (hf a t) (fun _ => hboth) fun _ => hboth

theorem WaitsInLoops.ite {c : Prop} [Decidable c] {x y : Step α} (hx : WaitsInLoops x)
    (hy : WaitsInLoops y) : WaitsInLoops (if c then x else y) := by
  split
  · exact hx
  · exact hy

/-- The rest is done either way, after `x` or without it. -/
theorem WaitsInLoops.guarded {c : Prop} [Decidable c] {x : Step Unit} {f : Unit → Step α}
    (hx : WaitsInLoops x) (hf : ∀ a, WaitsInLoops (f a)) :
    WaitsInLoops (if c then x >>= f else f ()) := .ite (.bind hx hf) (hf ())

theorem WaitsInLoops.pure (a : α) : WaitsInLoops (pure a : Step α) :=
  WaitsInLoops.of_same fun _ => rfl

theorem WaitsInLoops.throw (e : Stop) : WaitsInLoops (throw e : Step α) :=
  WaitsInLoops.of_same fun _ => rfl

theorem WaitsInLoops.session : WaitsInLoops (get : Step Session) := WaitsInLoops.of_same fun _ => rfl

theorem WaitsInLoops.onPool (f : Pool.Action α) : WaitsInLoops (onPool f) :=
  WaitsInLoops.of_same fun s => by
    unfold Leaves
    rw [meets_onPool]
    split <;> rfl

theorem WaitsInLoops.onConsole (f : Console → Console) : WaitsInLoops (onConsole f) :=
  WaitsInLoops.of_same fun _ => rfl

theorem WaitsInLoops.report (rs : List Record) : WaitsInLoops (report rs) :=
  WaitsInLoops.of_same fun _ => rfl

theorem WaitsInLoops.checked (x : Except Overflow α) : WaitsInLoops (checked x) := by
  cases x
  · exact WaitsInLoops.throw _
  · exact WaitsInLoops.pure _

theorem WaitsInLoops.unfaulted (x : Except Fault α) : WaitsInLoops (unfaulted x) := by
  cases x
  · exact WaitsInLoops.throw _
  · exact WaitsInLoops.pure _

theorem WaitsInLoops.onActive (c : Core) (f : OpenBuffer → Outcome OpenBuffer α) :
    WaitsInLoops (onActive c f) :=
  WaitsInLoops.of_same fun s => by
    unfold Leaves
    rw [meets_onActive]
    split
    · rfl
    · split <;> rfl

theorem WaitsInLoops.currentCore : WaitsInLoops Step.currentCore := .of_same fun _ => rfl

theorem WaitsInLoops.mainCore : WaitsInLoops Step.mainCore := .of_same fun _ => rfl

theorem WaitsInLoops.config : WaitsInLoops Step.config := .of_same fun _ => rfl

/-! ## The calls -/

theorem WaitsInLoops.freeOldest : WaitsInLoops Step.freeOldest := .of_same fun s =>
  Meets.mono (freeOldest_run s) (fun _ _ ht => ht.2) fun _ _ ht => ht.1

theorem WaitsInLoops.submit (d : Descriptor) : WaitsInLoops (Step.submit d) :=
  .bind (.onConsole _) fun _ => .of_same fun s =>
    Meets.mono (freeAhead_run s) (fun _ _ ht => ht.2) fun _ _ ht => ht.1

theorem WaitsInLoops.submitActive (c : Core) : WaitsInLoops (Step.submitActive c) := by
  unfold Step.submitActive
  refine .bind (.onPool _) fun done => ?_
  cases done with
  | none => exact .pure _
  | some d => exact .submit d

theorem WaitsInLoops.allocate (words : Nat) : WaitsInLoops (Step.allocate words) := by
  unfold Step.allocate
  refine .bind .currentCore fun _ => .bind .mainCore fun _ => .ite ?_ ?_
  · exact .bind (.report _) fun _ => .pure _
  · exact .bind (.onPool _) fun _ => .bind (.run (.room words)) fun _ =>
      .bind (.report _) fun _ => .bind (.onPool _) fun _ => .pure _

theorem WaitsInLoops.allocateMinimum : WaitsInLoops Step.allocateMinimum :=
  .bind .config fun _ => .allocate _

theorem WaitsInLoops.init (base : Address) (size : Nat) : WaitsInLoops (Step.init base size) := by
  unfold Step.init
  refine .bind .currentCore fun _ => .bind .mainCore fun _ => .guarded (.throw _) fun _ => ?_
  refine .bind (.onPool _) fun _ => .bind (.report _) fun _ => .bind (.onPool _) fun _ => ?_
  refine .guarded (.throw _) fun _ => ?_
  exact .bind .allocateMinimum fun _ => .bind (.onPool _) fun _ => .report _

theorem WaitsInLoops.shutdown : WaitsInLoops Step.shutdown := by
  unfold Step.shutdown
  refine .bind .currentCore fun _ => .bind .mainCore fun _ => .guarded (.throw _) fun _ => ?_
  refine .bind (.onPool _) fun _ => .guarded (.submitActive _) fun _ => ?_
  exact .bind (.run .drained) fun _ => .bind (.onPool _) fun _ => .report _

theorem WaitsInLoops.flush : WaitsInLoops Step.flush :=
  .bind .currentCore fun _ => .bind (.onPool _) fun _ => .bind (.submitActive _) fun _ =>
    .bind .allocateMinimum fun _ => .onPool _

theorem WaitsInLoops.beginDisplayList (storage : Address) (words : Nat) :
    WaitsInLoops (Step.beginDisplayList storage words) := by
  unfold Step.beginDisplayList
  refine .bind .currentCore fun _ => .bind (.onPool _) fun _ => .bind .mainCore fun _ => ?_
  refine .guarded (.submitActive _) fun _ => .bind (.onPool _) fun _ => ?_
  refine .guarded (.throw _) fun _ => ?_
  exact .bind (.onPool _) fun _ => .bind (.onPool _) fun _ => .report _

theorem WaitsInLoops.padActive (c : Core) : WaitsInLoops (Step.padActive c) := by
  unfold Step.padActive
  refine .bind .config fun _ => .bind (.onActive _ _) fun _ => .bind (.onPool _) fun o => ?_
  cases o with
  | none => exact .throw _
  | some d => exact .bind (.checked _) fun _ => .pure _

theorem WaitsInLoops.finalizeDisplayList (storage : Address) :
    WaitsInLoops (Step.finalizeDisplayList storage) := by
  unfold Step.finalizeDisplayList
  refine .bind .currentCore fun _ => .bind (.onPool _) fun o => ?_
  cases o with
  | none => exact .throw _
  | some d =>
    refine .guarded (.throw _) fun _ => .guarded (.throw _) fun _ => ?_
    refine .bind (.padActive _) fun _ => .bind (.onPool _) fun _ => .bind (.onPool _) fun _ => ?_
    refine .bind .mainCore fun _ => .ite ?_ ?_
    · exact .bind .allocateMinimum fun _ => .bind (.onPool _) fun _ =>
        .bind (.report _) fun _ => .pure _
    · exact .bind (.report _) fun _ => .pure _

theorem WaitsInLoops.recordedList : WaitsInLoops Step.recordedList := by
  unfold Step.recordedList
  refine .bind .currentCore fun _ => .bind (.onPool _) fun o => ?_
  cases o with
  | none => exact .throw _
  | some d => exact .pure _

theorem WaitsInLoops.askForStorage (question : Overrun) : WaitsInLoops (Step.askForStorage question) := by
  unfold Step.askForStorage
  refine .bind (.of_same fun _ => rfl) fun _ => .bind .session fun s => ?_
  cases s.console.offers with
  | nil => exact .pure _
  | cons answer rest => exact .bind (.onConsole _) fun _ => .pure _

theorem WaitsInLoops.growDisplayList (c : Core) (needed : Nat) :
    WaitsInLoops (Step.growDisplayList c needed) := by
  unfold Step.growDisplayList
  refine .bind (.padActive _) fun _ => .bind (.askForStorage _) fun o => ?_
  cases o with
  | none => exact .throw _
  | some next => exact .guarded (.throw _) fun _ => .bind (.report _) fun _ => .onPool _

theorem WaitsInLoops.replaceRingBuffer (c : Core) (needed : Nat) :
    WaitsInLoops (Step.replaceRingBuffer c needed) := by
  unfold Step.replaceRingBuffer
  refine .bind (.submitActive _) fun _ => .bind (.allocate _) fun o => ?_
  cases o with
  | none => exact .throw _
  | some d => exact .onPool _

theorem WaitsInLoops.replaceActive (c : Core) (full : Descriptor) (needed : Nat) :
    WaitsInLoops (Step.replaceActive c full needed) := by
  unfold Step.replaceActive
  cases full.backing with
  | displayList =>
    refine .bind (.growDisplayList _ _) fun _ => .bind (.onPool _) fun o => ?_
    cases o with
    | none => exact .pure _
    | some d => exact .ite (.bind (.checked _) fun _ => .throw _) (.pure _)
  | ring =>
    refine .bind (.replaceRingBuffer _ _) fun _ => .bind (.onPool _) fun o => ?_
    cases o with
    | none => exact .pure _
    | some d => exact .ite (.bind (.checked _) fun _ => .throw _) (.pure _)

theorem WaitsInLoops.getBuffer (words : Nat) : WaitsInLoops (Step.getBuffer words) := by
  unfold Step.getBuffer
  refine .bind .currentCore fun _ => .bind (.onPool _) fun o => ?_
  cases o with
  | none => exact .throw _
  | some d =>
    exact .guarded (.replaceActive _ _ _) fun _ => .bind (.onPool _) fun _ => .pure _

theorem WaitsInLoops.whenHeld {x : Step Unit} (h : WaitsInLoops x) (c : Core) :
    WaitsInLoops (do if (← get).pool.leases.held c then x) :=
  .bind .session fun _ => .ite h (.pure _)

/-- **Only loops wait**: each wait that a call makes is one of a loop that it comes to. -/
theorem WaitsInLoops.perform (e : Event) : WaitsInLoops (Step.perform e) := by
  cases e with
  | enter c => exact .onConsole _
  | init base size => exact .init base size
  | shutdown => exact .shutdown
  | flush => exact .flush
  | getBuffer words => exact .bind (.getBuffer words) fun _ => .pure _
  | write c w => exact .whenHeld (.onActive _ _) c
  | writeAll c ws => exact .whenHeld (.onActive _ _) c
  | remaining c =>
    refine .whenHeld (.bind (.bind (.onPool _) fun o => ?_) fun _ => .pure _) c
    cases o with
    | none => exact .throw _
    | some d => exact .checked _
  | dropWriter c => exact .bind (.onPool _) fun _ => .pure _
  | beginDisplayList storage words => exact .beginDisplayList storage words
  | finalizeDisplayList storage => exact .bind (.finalizeDisplayList storage) fun _ => .pure _
  | queueDisplayList storage words => exact .bind (.onPool _) fun _ => .submit _
  | recordedList => exact .bind .recordedList fun _ => .pure _
  | freeOldest => exact .bind .freeOldest fun _ => .pure _
  | advance => exact .of_same fun _ => rfl
  | setIdle n => exact .onConsole _
  | runAhead n => exact .onConsole _
  | offer answer => exact .onConsole _
  | poke a w => exact .bind .session fun _ => .bind (.unfaulted _) fun _ => .onConsole _

/-! ## Calls that wait for room -/

theorem allocate_comesTo (words : Nat) (hmain : s.console.topology.current = s.console.topology.main)
    (hleased : s.pool.leases.leased = false) :
    ComesTo (Loop.room words).run s.leasing (allocate words) s := by
  unfold allocate
  refine .next (t := s) rfl (.next (t := s) rfl ?_)
  rw [if_neg (not_not_intro hmain)]
  refine .next (a := ()) ?_ (.first .enter)
  simp only [onPool, Pool.onLeases, Leases.lease, hleased]
  rfl

/-- A ring buffer that is too full for a request is submitted, and the next one is waited for. -/
theorem getBuffer_comesTo {words : Nat} {d : Descriptor}
    (hheld : s.pool.leases.held s.console.topology.current = false)
    (hd : s.pool.leases.active s.console.topology.current = some d) (hring : d.backing = .ring)
    (hfull : ¬ d.Fits words) (hsub : submitActive s.console.topology.current s = .ok () t)
    (hmain : t.console.topology.current = t.console.topology.main)
    (hleased : t.pool.leases.leased = false) :
    ComesTo (Loop.room words).run t.leasing (getBuffer words) s := by
  unfold getBuffer
  refine .next (t := s) rfl (.next (t := s) (a := some d) ?_ ?_)
  · simp only [onPool, Pool.borrow, Leases.borrow, hheld, hd]
    rfl
  · simp only
    rw [if_pos hfull]
    refine .first ?_
    unfold replaceActive
    simp only [hring]
    refine .first ?_
    unfold replaceRingBuffer
    exact .next hsub (.first (allocate_comesTo words hmain hleased))

end Step

end CommandPool
