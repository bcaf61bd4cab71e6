import CommandPool.Proofs.Session.Entries
import CommandPool.Proofs.Session.StockCalls
/-!
# Backpressure ends

A full ring makes the pool wait, in the middle of a call. `backpressure_ends` says of every call of
every script that it waits in its loops and nowhere else, and of every loop that it comes to: the loop
never waits while the queue is empty, it makes no more waits than there are bare ticks pending and
buffers in the queue, and it hangs only if the console leaves a wait unanswered.

That no loop waits for an empty queue is where the whole run comes in. Had one done so it would have
hung with words outstanding that no buffer accounts for; but a call that hangs leaves an empty ring.
-/
namespace CommandPool

namespace Step

variable {α γ : Type} {l : Loop} {s u v : Session}

/-- A stop of the one step is a stop of the other. -/
theorem ComesTo.meets {x : Step α} {y : Step γ} (hu : ComesTo y u x s) {E : Stop → Session → Prop}
    {Q : α → Session → Prop} (h : Meets E x s Q) : Meets E y u fun _ _ => True := by
  induction hu with
  | enter => exact Meets.imp h fun _ _ _ => trivial
  | first _ ih => exact ih (meets_bind.1 h)
  | next hx _ ih => exact ih ((meets_bind.1 h).ok hx)

/-- A call that would hang with an empty ring never waits while the queue is empty. -/
theorem ComesTo.queued {x : Step α} (hu : ComesTo l.run u x s) {Q : α → Session → Prop}
    (h : Meets Stranded x s Q) (hv : l.WaitsAt u v) : v.console.submitted ≠ [] := by
  intro hempty
  have hhang := hv.hangs hempty
  have hstranded := hu.meets h
  unfold Meets at hhang hstranded
  split at hhang
  · exact hhang
  · rename_i hrun
    obtain ⟨⟨n, hn⟩, p, hp⟩ := hhang
    rw [hrun] at hstranded
    exact Loop.attempt_of_empty (hstranded n hn) hp

end Step

/-- What can be counted on when the loop `l` is entered in `u`. -/
structure Loop.Ends (l : Loop) (u : Session) : Prop where
  /-- No wait while the queue is empty. -/
  queued : ∀ v, l.WaitsAt u v → v.console.submitted ≠ []
  /-- However the loop ends, it has made no more waits than there were bare ticks pending and buffers
  in the queue. -/
  bounded : l.run.Leaves u fun t => ∃ stamps, t.journal.waits = u.journal.waits ++ stamps ∧
    stamps.length ≤ u.console.bareTicks + u.console.submitted.length
  /-- It does not hang, as long as the console answers its waits. -/
  left : (∀ v, l.WaitsAt u v → v.console.Answered) → ∀ n t, l.run u ≠ .error (.hang n) t

/-- What can be counted on in the waits of the step `x`, taken in `s`. -/
structure Step.WaitsEnd {α : Type} (x : Step α) (s : Session) : Prop where
  /-- There are no waits but those of loops that the step comes to … -/
  inLoops : x.Leaves s (Step.InLoops x s)
  /-- … and each of these loops comes to its end. -/
  ends : ∀ (l : Loop) (u : Session), Step.ComesTo l.run u x s → l.Ends u

/-- A loop that never waits for an empty queue ends. -/
theorem Loop.ends_of_queued {l : Loop} {u : Session}
    (hqueued : ∀ v, l.WaitsAt u v → v.console.submitted ≠ []) : l.Ends u := by
  refine ⟨hqueued, Loop.run_waits hqueued, ?_⟩
  intro hanswered n t hrun
  exact (Loop.run_answered hqueued hanswered).error hrun n rfl

/-- **Backpressure ends**, in whatever call of a script the pool has to wait. -/
theorem backpressure_ends {c : Config} {pool : Pool} (hpool : Pool.ofConfig c = .ok pool)
    (topology : Topology) (memory : Memory) {es : List Event} (hes : ∀ e ∈ es, e.Short)
    {ws : List UInt32} {s : Session} (hs : Step.play es (.start pool topology memory) = .ok ws s)
    {e : Event} (he : e.Short) : (Step.perform e).WaitsEnd s := by
  have hbetween := (Step.play_stock hes (between_start hpool topology memory)).ok hs
  refine ⟨Step.WaitsInLoops.perform e s, fun l u hu => Loop.ends_of_queued fun v hv => ?_⟩
  exact hu.queued (Step.perform_stock hbetween he) hv

/-- A request for three words finds a buffer with two words left, and the two before it are still in
the queue. The buffer is submitted, and the loop is entered with a bare tick pending: the first wait
gets the tick, and the second one the words at the base of the region. -/
theorem backpressure_ends_tick :
    let c : Config := ⟨2, 5, 2, 4⟩
    let pool : Pool := ⟨c, .ofConfig c, .ofCapacity 4, .allIdle⟩
    let es : List Event := [
      .init ⟨0x1000⟩ 8, .getBuffer 4, .writeAll .one [1, 2, 3, 4], .dropWriter .one, .flush,
      .getBuffer 2, .write .one 5, .write .one 6, .dropWriter .one, .setIdle 1]
    Pool.ofConfig c = .ok pool ∧ (∀ e ∈ es, e.Short) ∧ (Event.getBuffer 3).Short ∧
      ∃ s u, Step.play es (.start pool .standard (.zeroed ⟨0x1000⟩ 12)) = .ok [1, 2, 3, 4, 5, 6] s ∧
        Step.ComesTo (Loop.run (.room 3)) u (Step.perform (.getBuffer 3)) s ∧
        (u.console.bareTicks, u.console.submitted.length, u.journal.waits) = (1, 2, []) ∧
        Step.seen (Loop.run (.room 3)) u (·.journal.waits) =
          (.inl ⟨⟨⟨0x1000⟩, 4⟩, some ⟨⟨0x1018⟩, 2⟩⟩, [1, 2]) ∧
        (Step.perform (.getBuffer 3)).WaitsEnd s ∧ (Loop.room 3).Ends u := by
  intro c pool es
  have hpool : Pool.ofConfig c = .ok pool := by
    rw [Pool.ofConfig, show c.validate = .ok () by decide]
  have hshort : ∀ e ∈ es, e.Short := by
    simp [es, Event.Short]
  refine ⟨hpool, hshort, trivial, ?_⟩
  obtain ⟨s, hs, hseen, -⟩ : ∃ s,
      Step.play es (.start pool .standard (.zeroed ⟨0x1000⟩ 12)) = .ok [1, 2, 3, 4, 5, 6] s ∧
      -- the words 5 and 6 are in the second buffer, which has room for two more
      decide (s.console.topology = .standard ∧ s.pool.leases.held .one = false ∧
        s.pool.leases.active .one = some ⟨some 1, .ring, 0, 2, 4, ⟨0x1010⟩⟩ ∧
        Step.seen (Step.submitActive .one) s (fun t =>
          decide (t.console.topology = .standard ∧ t.pool.leases.leased = false ∧
            (t.leasing.console.bareTicks, t.leasing.console.submitted.length, t.leasing.journal.waits) =
              (1, 2, []) ∧
            Step.seen (Loop.run (.room 3)) t.leasing (·.journal.waits) =
              (.inl ⟨⟨⟨0x1000⟩, 4⟩, some ⟨⟨0x1018⟩, 2⟩⟩, [1, 2]))) = (.inl (), true)) = true ∧ True :=
    Step.ok_of_seen (by decide +kernel) fun _ _ => trivial
  obtain ⟨hcore, hheld, hd, hsubmit⟩ := of_decide_eq_true hseen
  obtain ⟨t, ht, hseen, -⟩ := Step.ok_of_seen (P := fun _ => True) hsubmit fun _ _ => trivial
  obtain ⟨hcore', hleased, hqueue, hrun⟩ := of_decide_eq_true hseen
  have hu : Step.ComesTo (Loop.run (.room 3)) t.leasing (Step.perform (.getBuffer 3)) s := by
    refine .first (Step.getBuffer_comesTo (d := ⟨some 1, .ring, 0, 2, 4, ⟨0x1010⟩⟩)
      ?_ ?_ rfl (by decide) ?_ ?_ hleased)
    · rw [hcore]; exact hheld
    · rw [hcore]; exact hd
    · rw [hcore]; exact ht
    · rw [hcore']; rfl
  have hends := backpressure_ends hpool _ _ hshort hs (e := .getBuffer 3) trivial
  exact ⟨s, t.leasing, hs, hu, hqueue, hrun, hends, hends.ends _ _ hu⟩

end CommandPool
