import CommandPool.Proofs.Session.Alike
import CommandPool.Proofs.Session.Discipline
/-!
# The same calls leave alike sessions alike

Each call of the main core, and whatever else happens beside the calls, answers the same in sessions that
are alike, with a descriptor at another place of the arena at most. One statement for each call in the
order of the calls. No call of another core is among them but those that concern no slot.
-/
namespace CommandPool

open Descriptor (Renamed)

variable {A : Storages} {top : Topology} {d d' : Descriptor}

namespace Step

variable {α β : Type} {s t u : Session}

namespace Follows

/-! ## The consumer -/

theorem free (hd : d.Renamed d') :
    Follows A top (onPool (Pool.free d)) (onPool (Pool.free d')) fun _ _ => True := by
  obtain ⟨slot⟩ := hd
  unfold Pool.free
  simp only [onPool_bind, onPool_ite, onPool_fatal]
  refine .guard fun _ => .ite (fun _ => ?_) fun _ => ?_
  · exact .bind (.onRing _) fun _ _ _ => .giveDescriptor _ _
  · exact .giveDescriptor _ _

theorem execute (hd : d.Renamed d') : Follows A top (execute d) (Step.execute d') fun _ _ => True := by
  obtain ⟨slot⟩ := hd
  refine .modify fun s s' h => ?_
  dsimp only
  split
  · exact { h with }
  · exact h

theorem freeOldest : Follows A top freeOldest Step.freeOldest fun b b' => b' = b := by
  unfold Step.freeOldest
  refine .get fun s s' h => ?_
  have hsub := h.submitted
  cases hq : s.console.submitted with
  | nil =>
    rw [hq, List.map_nil, List.map_eq_nil_iff] at hsub
    rw [hsub]
    exact .pure rfl
  | cons d rest =>
    rw [hq, List.map_cons, List.map_eq_cons_iff] at hsub
    obtain ⟨d', rest', hq', hd, hrest⟩ := hsub
    rw [hq']
    rw [← Descriptor.renamed_iff] at hd
    refine .bind (.onConsole fun u u' hu => { hu with submitted := hrest }) fun _ _ _ => ?_
    exact .bind (.execute hd) fun _ _ _ => .bind (.free hd) fun _ _ _ => .pure rfl

theorem freeSome (n : Nat) : Follows A top (freeSome n) (Step.freeSome n) fun _ _ => True := by
  induction n with
  | zero => exact .pure trivial
  | succ n ih =>
    unfold Step.freeSome
    refine .bind .freeOldest ?_
    rintro _ freed rfl
    exact .ite (fun _ => ih) fun _ => .pure trivial

theorem freeAhead : Follows A top freeAhead Step.freeAhead fun _ _ => True := by
  unfold Step.freeAhead
  refine .get fun s s' h => ?_
  rw [h.ahead]
  cases s.console.ahead with
  | nil => exact .pure trivial
  | cons n rest => exact .bind (.onConsole fun u u' hu => { hu with ahead := rfl }) fun _ _ _ => .freeSome n

theorem advance : Follows A top advance Step.advance fun _ _ => True := by
  unfold Step.advance
  refine .bind (.onConsole fun s s' h => { h with timeline := ?_ }) fun _ _ _ => ?_
  · exact congrArg Timeline.advance h.timeline
  · exact .get fun s s' h => .report _ _

theorem retireOne : Follows A top retireOne Step.retireOne fun b b' => b' = b := by
  unfold Step.retireOne
  refine .bind .freeOldest ?_
  rintro _ freed rfl
  exact .ite (fun _ => .bind .advance fun _ _ _ => .pure rfl) fun _ => .pure rfl

theorem await : Follows A top await Step.await fun _ _ => True := by
  unfold Step.await
  refine .get fun s s' h => ?_
  rw [h.timeline]
  refine .bind (.modify fun u u' hu => { hu with waits := ?_ }) fun _ _ _ => ?_
  · exact congrArg (· ++ [s.console.timeline.retired + 1]) hu.waits
  refine .bind .freeAhead fun _ _ _ => .get fun t t' ht => ?_
  rw [ht.idle]
  cases t.console.idle with
  | succ n => exact .bind (.onConsole fun u u' hu => { hu with idle := rfl }) fun _ _ _ => .advance
  | zero =>
    refine .bind .retireOne ?_
    rintro _ retired rfl
    exact .ite (fun _ => .throw) fun _ => .pure trivial

theorem waitFor {notice : Nat → List Record} {attempt : Pool.Action (Option α)}
    (h : Follows A top (onPool attempt) (onPool attempt) fun o o' => o' = o) :
    Follows A top (waitFor notice attempt) (Step.waitFor notice attempt) fun a a' => a' = a := by
  intro s s' hs
  -- the second loop is as far as the first one
  apply meets_waitFor (I := fun t => ∃ t', Alike A top t t' ∧
    Step.waitFor notice attempt s' = Step.waitFor notice attempt t') _ s ⟨s', hs, rfl⟩
  rintro t ⟨t', ht, heq⟩
  refine (h t t' ht).imp ?_
  rintro _ u ⟨o, u', hu', rfl, hu⟩
  cases o with
  | some a => exact ⟨a, u', heq.trans (waitFor_of_some hu'), rfl, hu⟩
  | none =>
    have hreported : Alike A top (u.reported (notice (u.console.timeline.retired + 1)))
        (u'.reported (notice (u'.console.timeline.retired + 1))) := { hu with }
    refine (Follows.await _ _ hreported).imp ?_
    rintro _ v ⟨_, v', hv', -, hv⟩
    exact ⟨v', hv, heq.trans (waitFor_of_none hu' hv')⟩

/-! ## Submitting -/

theorem submit (hd : d.Renamed d') : Follows A top (submit d) (Step.submit d') fun _ _ => True := by
  obtain ⟨slot⟩ := hd
  unfold Step.submit
  refine .bind (.onConsole fun s s' h => { h with submitted := ?_, lastStamp := ?_ }) fun _ _ _ => .freeAhead
  · simp only [List.map_append, h.submitted, h.lastStamp]
    rfl
  · exact congrArg (· + 1) h.lastStamp

theorem close : Follows A top (onPool (Pool.close top.main)) (onPool (Pool.close top.main))
    (Option.Rel Renamed) := by
  unfold Pool.close
  rw [onPool_bind]
  refine .bind .active ?_
  rintro _ _ (⟨⟨slot⟩⟩ | _)
  · simp only [onPool_bind, onPool_ite, onPool_fatal, onPool_pure]
    refine .guard fun _ => .bind (.setActive .none) fun _ _ _ => .bind .unlease fun _ _ _ => ?_
    refine .bind (.onRing _) fun _ _ _ => .ite (fun _ => ?_) fun _ => .pure (.some ⟨slot⟩)
    exact .bind (.giveDescriptor _ _) fun _ _ _ => .pure .none
  · exact .fatal

theorem submitActive : Follows A top (submitActive top.main) (Step.submitActive top.main) fun _ _ => True := by
  unfold Step.submitActive
  refine .bind .close ?_
  rintro _ _ (hd | _)
  · exact .submit hd
  · exact .pure trivial

/-! ## Allocating -/

theorem allocate (words : Nat) :
    Follows A top (allocate words) (Step.allocate words) (Option.Rel Renamed) := by
  unfold Step.allocate
  refine .bind .currentCore ?_
  rintro _ _ ⟨rfl, rfl⟩
  refine .bind .mainCore ?_
  rintro _ _ ⟨rfl, rfl⟩
  refine .ite (fun _ => .bind (.report _ _) fun _ _ _ => .pure .none) fun _ => ?_
  refine .bind .lease fun _ _ _ => .bind (.waitFor (.tryAcquire words)) ?_
  rintro _ a rfl
  refine .bind (.report _ _) fun _ _ _ => .bind .takeDescriptor ?_
  rintro d _ ⟨slot⟩
  exact .pure (.some ⟨slot⟩)

theorem allocateMinimum :
    Follows A top allocateMinimum Step.allocateMinimum (Option.Rel Renamed) := by
  unfold Step.allocateMinimum
  refine .bind .config ?_
  rintro _ c rfl
  exact .allocate _

/-! ## Calls from the main core -/

/-- The caller runs on the main core. -/
theorem onMain {f f' : Core → Step α} {Q : α → α → Prop} (hmain : top.current = top.main)
    (h : Follows A top (f top.main) (f' top.main) Q) :
    Follows A top (Step.currentCore >>= f) (Step.currentCore >>= f') Q := by
  refine .bind .currentCore ?_
  rintro _ _ ⟨rfl, rfl⟩
  rw [hmain]
  exact h

/-- The caller is asked for only to refuse a core that is not the main one. -/
theorem forMain {e e' : Core → Refusal} {f f' : Core → Step α} {Q : α → α → Prop}
    (h : Follows A top (f top.main) (f' top.main) Q) :
    Follows A top
      (do
        let core ← Step.currentCore
        let main ← Step.mainCore
        if core ≠ main then
          Step.fatal (e core)
        f core)
      (do
        let core ← Step.currentCore
        let main ← Step.mainCore
        if core ≠ main then
          Step.fatal (e' core)
        f' core) Q := by
  refine .bind .currentCore ?_
  rintro _ _ ⟨rfl, rfl⟩
  refine .bind .mainCore ?_
  rintro _ _ ⟨rfl, rfl⟩
  refine .guard fun hmain => ?_
  rw [Decidable.not_not.1 hmain]
  exact h

theorem init (base : Address) (size : Nat) :
    Follows A top (init base size) (Step.init base size) fun _ _ => True := by
  unfold Step.init
  refine .forMain (.bind (.onRing _) fun _ _ _ => .bind (.report _ _) fun _ _ _ => .bind .borrow ?_)
  rintro _ _ (_ | _)
  · exact .guard fun h => absurd rfl h
  · refine .guard fun _ => .bind .allocateMinimum fun _ _ ho => ?_
    exact .bind (.setActive ho) fun _ _ _ => .debug _ _

theorem shutdown : Follows A top shutdown Step.shutdown fun _ _ => True := by
  have hrest : Follows A top
      (do
        Step.waitFor (fun _ => []) Pool.tryDrained
        onPool (Pool.onRing Ring.detach)
        Step.debug "CommandBufferPool: shut down")
      (do
        Step.waitFor (fun _ => []) Pool.tryDrained
        onPool (Pool.onRing Ring.detach)
        Step.debug "CommandBufferPool: shut down") fun _ _ => True :=
    .bind (.waitFor .tryDrained) fun _ _ _ => .bind (.onRing _) fun _ _ _ => .debug _ _
  unfold Step.shutdown
  refine .forMain (.bind .borrow ?_)
  rintro _ _ (_ | _)
  · exact .bind .submitActive fun _ _ _ => hrest
  · exact hrest

/-- Off the main core there is no buffer to submit, so this stops the run. -/
theorem flush : Follows A top flush Step.flush fun _ _ => True := by
  unfold Step.flush
  by_cases hmain : top.current = top.main
  · refine .onMain hmain (.bind .borrow fun _ _ _ => .bind .submitActive fun _ _ _ => ?_)
    exact .bind .allocateMinimum fun _ _ ho => .setActive ho
  · intro s s' h
    simp only [meets_bind, meets_currentCore, meets_borrow]
    refine ⟨fun _ => trivial, fun _ => ?_⟩
    unfold Step.submitActive Pool.close
    simp only [meets_bind, meets_onPool_bind, meets_active]
    cases hd : s.pool.leases.active s.console.topology.current with
    | none => trivial
    | some d =>
      have hlist := (h.others _ d (h.topology ▸ hmain) hd).1
      simp only [hlist, if_true]
      trivial

theorem record (storage : Address) (words : Nat) (text text' : String) : Follows A top
    (do
      if (← onPool (Pool.active top.main)).isSome then
        Step.fatal (.slotOccupied top.main)
      let d ← onPool Pool.takeDescriptor
      onPool (Pool.setActive top.main (some (d.bind storage 0 words .displayList)))
      Step.debug text)
    (do
      if (← onPool (Pool.active top.main)).isSome then
        Step.fatal (.slotOccupied top.main)
      let d ← onPool Pool.takeDescriptor
      onPool (Pool.setActive top.main (some (d.bind storage 0 words .displayList)))
      Step.debug text') fun _ _ => True := by
  refine .bind .active ?_
  rintro _ _ (_ | _)
  · exact .guard fun h => absurd rfl h
  · refine .guard fun _ => .bind .takeDescriptor ?_
    rintro d _ ⟨slot⟩
    exact .bind (.setActive (.some ⟨slot⟩)) fun _ _ _ => .debug _ _

theorem beginDisplayList (hmain : top.current = top.main) (storage : Address) (words : Nat) :
    Follows A top (beginDisplayList storage words) (Step.beginDisplayList storage words)
      fun _ _ => True := by
  unfold Step.beginDisplayList
  refine .onMain hmain (.bind .borrow ?_)
  rintro o _ ho
  refine .bind .mainCore ?_
  rintro _ _ ⟨rfl, rfl⟩
  have hany : ∀ o', Option.Rel Renamed o o' →
      o'.any (·.backing = .ring) = o.any (·.backing = .ring) := by
    rintro _ (⟨⟨slot⟩⟩ | _) <;> rfl
  rw [hany _ ho]
  refine .ite (fun _ => ?_) fun _ => .record storage words _ _
  exact .bind .submitActive fun _ _ _ => .record storage words _ _

theorem padActive : Follows A top (padActive top.main) (Step.padActive top.main)
    fun p p' => ∃ slot, p' = ({ p.1 with slot := slot }, p.2) := by
  unfold Step.padActive
  refine .bind .config ?_
  rintro _ c rfl
  refine .bind (.onActive (OpenBuffer.even_pad _)) fun _ _ _ => .bind .active ?_
  rintro _ _ (⟨⟨slot⟩⟩ | _)
  · refine .bind (.checked _) ?_
    rintro _ bytes rfl
    exact .pure ⟨slot, rfl⟩
  · exact .fatal

theorem finalizeDisplayList (hmain : top.current = top.main) (storage : Address) :
    Follows A top (finalizeDisplayList storage) (Step.finalizeDisplayList storage) fun n n' => n' = n := by
  unfold Step.finalizeDisplayList
  refine .onMain hmain (.bind .borrow ?_)
  rintro _ _ (⟨⟨slot⟩⟩ | _)
  · refine .guard fun _ => .guard fun _ => .bind .padActive ?_
    rintro ⟨d, bytes⟩ _ ⟨slot, rfl⟩
    refine .bind (.setActive .none) fun _ _ _ => .bind (.giveDescriptor _ _) fun _ _ _ => .bind .mainCore ?_
    rintro _ _ ⟨rfl, rfl⟩
    have hdone : Follows A top
        (do
          Step.debug ("CommandBufferPool: display list " ++ storage.text ++ " finalized at "
            ++ toString bytes ++ " bytes")
          return bytes)
        (do
          Step.debug ("CommandBufferPool: display list " ++ storage.text ++ " finalized at "
            ++ toString bytes ++ " bytes")
          return bytes) fun n n' => n' = n := .bind (.debug _ _) fun _ _ _ => .pure rfl
    refine .ite (fun _ => ?_) fun _ => hdone
    exact .bind .allocateMinimum fun _ _ ho => .bind (.setActive ho) fun _ _ _ => hdone
  · exact .fatal

theorem queueDisplayList (storage : Address) (words : Nat) :
    Follows A top (queueDisplayList storage words) (Step.queueDisplayList storage words)
      fun _ _ => True := by
  unfold Step.queueDisplayList
  refine .bind .takeDescriptor ?_
  rintro d _ ⟨slot⟩
  exact .submit ⟨slot⟩

theorem recordedList (hmain : top.current = top.main) :
    Follows A top recordedList Step.recordedList fun l l' => l' = l := by
  unfold Step.recordedList
  refine .onMain hmain (.bind .borrow ?_)
  rintro _ _ (⟨⟨slot⟩⟩ | _)
  · exact .pure rfl
  · exact .fatal

/-! ## Room in the active buffer -/

theorem askForStorage (question : Overrun) :
    Follows A top (askForStorage question) (Step.askForStorage question) fun o o' => o' = o := by
  unfold Step.askForStorage
  refine .bind (.modify fun s s' h => { h with overruns := ?_ }) fun _ _ _ => .get fun s s' h => ?_
  · exact congrArg (· ++ [question]) h.overruns
  rw [h.offers]
  cases s.console.offers with
  | nil => exact .pure rfl
  | cons answer rest =>
    exact .bind (.onConsole fun u u' hu => { hu with offers := rfl }) fun _ _ _ => .pure rfl

theorem growDisplayList (needed : Nat) :
    Follows A top (growDisplayList top.main needed) (Step.growDisplayList top.main needed)
      fun _ _ => True := by
  unfold Step.growDisplayList
  refine .bind .padActive ?_
  rintro ⟨d, bytes⟩ _ ⟨slot, rfl⟩
  refine .bind (.askForStorage _) ?_
  rintro _ answer rfl
  cases answer with
  | none => exact .fatal
  | some next =>
    exact .guard fun _ => .bind (.debug _ _) fun _ _ _ => .setActive (.some ⟨slot⟩)

theorem replaceRingBuffer (needed : Nat) :
    Follows A top (replaceRingBuffer top.main needed) (Step.replaceRingBuffer top.main needed)
      fun _ _ => True := by
  unfold Step.replaceRingBuffer
  refine .bind .submitActive fun _ _ _ => .bind (.allocate needed) ?_
  rintro _ _ (hd | _)
  · exact .setActive (.some hd)
  · exact .fatal

theorem fits (needed : Nat) : Follows A top
    (do
      if let some d ← onPool (Pool.active top.main) then
        if ¬ d.Fits needed then
          Step.fatal (.commandTooLarge needed (← Step.checked d.remaining)))
    (do
      if let some d ← onPool (Pool.active top.main) then
        if ¬ d.Fits needed then
          Step.fatal (.commandTooLarge needed (← Step.checked d.remaining))) fun _ _ => True := by
  refine .bind .active ?_
  rintro _ _ (⟨⟨slot⟩⟩ | _)
  · exact .ite (fun _ => .bind (.checked _) fun _ _ _ => .fatal) fun _ => .pure trivial
  · exact .pure trivial

theorem replaceActive (hd : d.Renamed d') (needed : Nat) :
    Follows A top (replaceActive top.main d needed) (Step.replaceActive top.main d' needed)
      fun _ _ => True := by
  obtain ⟨slot⟩ := hd
  unfold Step.replaceActive
  cases d.backing with
  | displayList => exact .bind (.growDisplayList needed) fun _ _ _ => .fits needed
  | ring => exact .bind (.replaceRingBuffer needed) fun _ _ _ => .fits needed

theorem getBuffer (hmain : top.current = top.main) (words : Nat) :
    Follows A top (getBuffer words) (Step.getBuffer words) fun c c' => c' = c := by
  unfold Step.getBuffer
  refine .onMain hmain (.bind .borrow ?_)
  rintro _ _ (⟨⟨slot⟩⟩ | _)
  · refine .ite (fun _ => .bind (.replaceActive ⟨slot⟩ words) fun _ _ _ => ?_) fun _ => ?_
    · exact .bind .openWriter fun _ _ _ => .pure rfl
    · exact .bind .openWriter fun _ _ _ => .pure rfl
  · exact .fatal

theorem remaining : Follows A top (remaining top.main) (Step.remaining top.main) fun n n' => n' = n := by
  unfold Step.remaining
  refine .bind .active ?_
  rintro _ _ (⟨⟨slot⟩⟩ | _)
  · exact .checked _
  · exact .fatal

end Follows

end Step

end CommandPool
