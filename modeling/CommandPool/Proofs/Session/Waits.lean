import CommandPool.Proofs.Ring.Misuse
import CommandPool.Proofs.Session.Account
import CommandPool.Proofs.Session.Logic
/-!
# How long a loop waits

The pool waits in two loops (`Loop`): for room in the ring, and for a ring without outstanding words.
Each wait is answered by the console: by a tick that is pending, which may come without a buffer, or
else by the oldest buffer of the queue.

As long as the queue is not empty at a wait, the wait uses up a bare tick or a buffer
(`left_waited`), so a loop makes at most that many (`run_waits`) and hangs only if a wait is left
unanswered (`run_answered`). A loop that waits while the queue is empty gets nothing but bare ticks
and hangs in the end (`run_of_empty`).
-/
namespace CommandPool

namespace Console

/-- The ticks that are pending and that come without a buffer: the consumer does not run ahead at
the waits they answer. -/
def bareTicks (k : Console) : Nat := k.idle - (k.ahead.take k.idle).countP (· != 0)

/-- What may still answer a wait. -/
def left (k : Console) : Nat := k.bareTicks + k.submitted.length

/-- The buffers that are freed at a wait before the timeline moves on. -/
def runsAhead (k : Console) : Nat := k.ahead.headD 0

/-- A tick answers the next wait, or the consumer leaves a buffer that does, if there is any. -/
def Answered (k : Console) : Prop := 0 < k.idle ∨ k.submitted = [] ∨ k.runsAhead < k.submitted.length

/-- After a wait: a tick is used up, or one buffer more is freed. -/
def waited (k : Console) : Console :=
  { k with
    timeline := k.timeline.advance
    submitted := k.submitted.drop (k.runsAhead + if k.idle = 0 then 1 else 0)
    idle := k.idle - 1
    ahead := k.ahead.tail }

theorem bareTicks_of_idle_eq_zero {k : Console} (h : k.idle = 0) : k.bareTicks = 0 := by
  rw [bareTicks, h]
  rfl

/-- A tick that is used up was a bare one, unless the consumer ran ahead. -/
theorem bareTicks_waited {k : Console} (h : 0 < k.idle) :
    k.bareTicks = k.waited.bareTicks + if k.runsAhead = 0 then 1 else 0 := by
  obtain ⟨i, hi⟩ : ∃ i, k.idle = i + 1 := ⟨k.idle - 1, by omega⟩
  have hcount (rest : List Nat) : (rest.take i).countP (· != 0) ≤ i :=
    Nat.le_trans List.countP_le_length (List.length_take_le ..)
  unfold runsAhead
  simp only [bareTicks, waited, hi, Nat.add_sub_cancel]
  match k.ahead with
  | [] => simp
  | 0 :: rest =>
    have := hcount rest
    simp
    omega
  | (n + 1) :: rest => simp

/-- **A wait uses up what answers it.** -/
theorem left_waited {k : Console} (h : k.submitted ≠ []) : k.waited.left + 1 ≤ k.left := by
  have hpos := List.length_pos_iff.2 h
  have hqueue : k.waited.submitted.length =
      k.submitted.length - (k.runsAhead + if k.idle = 0 then 1 else 0) := by
    rw [waited, List.length_drop]
  unfold left
  by_cases hidle : k.idle = 0
  · have hlast : k.waited.idle = 0 := by
      rw [waited, hidle]
    rw [bareTicks_of_idle_eq_zero hidle, bareTicks_of_idle_eq_zero hlast, hqueue, if_pos hidle]
    omega
  · rw [bareTicks_waited (Nat.pos_of_ne_zero hidle), hqueue, if_neg hidle]
    split <;> omega

end Console

namespace Step

variable {α : Type} {s t u : Session}

/-! ## A wait -/

/-- Not a hang, and no wait was made since `s`. -/
def Unwaited (s : Session) (e : Stop) (t : Session) : Prop :=
  (∀ n, e ≠ .hang n) ∧ t.journal.waits = s.journal.waits

theorem toStop_ne_hang (e : Failure) (n : Nat) : e.toStop ≠ .hang n := by
  cases e <;> simp [Failure.toStop]

theorem free_run (d : Descriptor) (s : Session) : Meets (Unwaited s) (onPool (Pool.free d)) s fun _ t =>
    t.journal.waits = s.journal.waits ∧ t.console = s.console := by
  unfold Pool.free
  simp only [meets_onPool_bind, meets_onPool_ite, meets_onPool_fatal, meets_onRing, meets_giveDescriptor]
  refine ⟨fun _ => ⟨by simp, rfl⟩, fun _ => ⟨fun _ => ?_, fun _ => ⟨trivial, trivial⟩⟩⟩
  cases s.pool.ring.release d.start d.capacity with
  | ok a r => exact ⟨trivial, trivial⟩
  | error e r => exact ⟨toStop_ne_hang e, rfl⟩

theorem execute_run (d : Descriptor) (s : Session) {E : Stop → Session → Prop} :
    Meets E (execute d) s fun _ t => t.journal.waits = s.journal.waits ∧ t.console = s.console := by
  unfold execute
  rw [meets_modify]
  split <;> exact ⟨rfl, rfl⟩

/-- The oldest buffer leaves the queue, if there is one. -/
theorem freeOldest_run (s : Session) :
    Meets (Unwaited s) freeOldest s fun freed t => t.journal.waits = s.journal.waits ∧
      t.console = { s.console with submitted := s.console.submitted.tail } ∧
      (freed = false → s.console.submitted = []) := by
  unfold freeOldest
  rw [meets_bind, meets_get]
  cases hsub : s.console.submitted with
  | nil =>
    refine ⟨rfl, ?_, fun _ => rfl⟩
    rw [List.tail_nil, ← hsub]
  | cons d rest =>
    rw [meets_bind, meets_onConsole, meets_bind]
    refine Meets.imp (execute_run d _) ?_
    rintro _ t ⟨hwaits, hconsole⟩
    rw [meets_bind]
    refine Meets.mono (free_run d t) ?_ ?_
    · rintro e u ⟨he, hu⟩
      exact ⟨he, hu.trans hwaits⟩
    · rintro _ u ⟨hu, hu'⟩
      exact ⟨hu.trans hwaits, hu'.trans hconsole, by simp⟩

theorem freeSome_run (n : Nat) (s : Session) :
    Meets (Unwaited s) (freeSome n) s fun _ t => t.journal.waits = s.journal.waits ∧
      t.console = { s.console with submitted := s.console.submitted.drop n } := by
  induction n generalizing s with
  | zero => exact ⟨rfl, rfl⟩
  | succ n ih =>
    unfold freeSome
    rw [meets_bind]
    refine Meets.imp (freeOldest_run s) ?_
    rintro freed t ⟨hwaits, hconsole, hempty⟩
    cases freed with
    | true =>
      refine Meets.mono (ih t) ?_ ?_
      · rintro e u ⟨he, hu⟩
        exact ⟨he, hu.trans hwaits⟩
      · rintro _ u ⟨hu, hu'⟩
        rw [hu', hconsole, List.drop_tail]
        exact ⟨hu.trans hwaits, rfl⟩
    | false =>
      refine ⟨hwaits, ?_⟩
      rw [hconsole, hempty rfl, List.tail_nil, List.drop_nil]

theorem freeAhead_run (s : Session) :
    Meets (Unwaited s) freeAhead s fun _ t => t.journal.waits = s.journal.waits ∧
      t.console = { s.console with
        ahead := s.console.ahead.tail
        submitted := s.console.submitted.drop s.console.runsAhead } := by
  unfold freeAhead Console.runsAhead
  rw [meets_bind, meets_get]
  cases hahead : s.console.ahead with
  | nil =>
    have hsame (k : Console) (h : k.ahead = []) : k = { k with ahead := [] } := by rw [← h]
    exact ⟨rfl, hsame s.console hahead⟩
  | cons n rest =>
    rw [meets_bind, meets_onConsole]
    exact freeSome_run n _

theorem advance_run (s : Session) {E : Stop → Session → Prop} :
    Meets E advance s fun _ t => t.journal.waits = s.journal.waits ∧
      t.console = { s.console with timeline := s.console.timeline.advance } := ⟨rfl, rfl⟩

theorem retireOne_run (s : Session) :
    Meets (Unwaited s) retireOne s fun retired t => t.journal.waits = s.journal.waits ∧
      (retired = true → t.console = { s.console with
        timeline := s.console.timeline.advance
        submitted := s.console.submitted.tail }) ∧
      (retired = false → s.console.submitted = []) := by
  unfold retireOne
  rw [meets_bind]
  refine Meets.imp (freeOldest_run s) ?_
  rintro freed t ⟨hwaits, hconsole, hempty⟩
  cases freed with
  | true =>
    apply meets_bind.2
    refine Meets.imp (advance_run t) ?_
    rintro _ u ⟨hwaits', hconsole'⟩
    rw [hconsole] at hconsole'
    exact ⟨hwaits'.trans hwaits, fun _ => hconsole', by simp⟩
  | false => exact ⟨hwaits, by simp, hempty⟩

/-- One wait was made since `s`. If it hangs then no tick was pending, and the consumer freed the
whole queue. -/
def Awaited (s : Session) (e : Stop) (t : Session) : Prop :=
  t.journal.waits = s.journal.waits ++ [s.console.timeline.retired + 1] ∧
    ∀ n, e = .hang n → s.console.idle = 0 ∧ s.console.submitted.length ≤ s.console.runsAhead

/-- **A wait** is answered by a tick or by a buffer. -/
theorem await_run (s : Session) :
    Meets (Awaited s) await s fun _ t =>
      t.journal.waits = s.journal.waits ++ [s.console.timeline.retired + 1] ∧
        t.console = s.console.waited := by
  unfold await
  simp only [meets_bind, meets_get, meets_modify]
  refine Meets.mono (freeAhead_run _) ?_ ?_
  · rintro e t ⟨he, ht⟩
    exact ⟨ht, fun n hn => absurd hn (he n)⟩
  rintro _ t ⟨hwaits, hconsole⟩
  have hidle : t.console.idle = s.console.idle := by rw [hconsole]
  rw [hidle]
  cases hi : s.console.idle with
  | succ n =>
    rw [meets_bind, meets_onConsole]
    refine Meets.imp (advance_run _) ?_
    rintro _ u ⟨hwaits', hconsole'⟩
    refine ⟨hwaits'.trans hwaits, ?_⟩
    rw [hconsole', hconsole, Console.waited, hi]
    rfl
  | zero =>
    rw [meets_bind]
    refine Meets.mono (retireOne_run t) ?_ ?_
    · rintro e u ⟨he, hu⟩
      exact ⟨hu.trans hwaits, fun n hn => absurd hn (he n)⟩
    rintro retired u ⟨hwaits', hretired, hempty⟩
    cases retired with
    | true =>
      refine ⟨hwaits'.trans hwaits, ?_⟩
      rw [hretired rfl, hconsole, Console.waited]
      simp [hi]
    | false =>
      refine ⟨hwaits'.trans hwaits, fun n _ => ⟨hi, ?_⟩⟩
      have hnone := hempty rfl
      rw [hconsole] at hnone
      exact List.drop_eq_nil_iff.1 hnone

end Step

/-! ## The loops -/

/-- What the pool waits for. -/
inductive Loop where
  /-- Room in the ring for at least `words` words. -/
  | room (words : Nat)
  /-- A ring without outstanding words. -/
  | drained
deriving DecidableEq, Repr

/-- However it ends, a run of `x` from `s` leaves a session of `P`. -/
def Step.Leaves {α : Type} (x : Step α) (s : Session) (P : Session → Prop) : Prop :=
  Step.Meets (fun _ t => P t) x s fun _ t => P t

namespace Loop

abbrev Answer : Loop → Type
  | room _ => Acquired
  | drained => Unit

def notice : Loop → Nat → List Record
  | room _ => Step.ringFull
  | drained => fun _ => []

def attempt : (l : Loop) → Pool.Action (Option l.Answer)
  | room words => Pool.tryAcquire words
  | drained => Pool.tryDrained

def run (l : Loop) : Step l.Answer := Step.waitFor l.notice l.attempt

/-- The attempt in `s` finds nothing; the loop is about to wait in `t`. -/
def Missed (l : Loop) (s t : Session) : Prop := ∃ p, l.attempt s.pool = .ok none p ∧
  t = ({ s with pool := p } : Session).reported (l.notice (s.console.timeline.retired + 1))

/-- Entered in `s`, the loop comes to a wait in `t`. -/
inductive WaitsAt (l : Loop) : Session → Session → Prop where
  | now {s t : Session} (h : l.Missed s t) : WaitsAt l s t
  | later {s t u v : Session} {a : Unit} (h : l.Missed s t) (hwait : Step.await t = .ok a u)
      (hnext : WaitsAt l u v) : WaitsAt l s v

variable {l : Loop} {s t u v : Session}

theorem run_of_missed (h : l.Missed s t) {E : Stop → Session → Prop}
    {Q : l.Answer → Session → Prop} (hwait : Step.Meets E Step.await t fun _ u => Step.Meets E l.run u Q) :
    Step.Meets E l.run s Q := by
  obtain ⟨p, hp, rfl⟩ := h
  rw [run, Step.waitFor_eq_bind, Step.meets_bind, Step.meets_onPool, hp]
  exact Step.meets_bind.2 (Step.meets_get.2 (Step.meets_bind.2 (Step.meets_report.2 (Step.meets_bind.2 hwait))))

/-! ## Loops that find buffers to wait for -/

/-- **Bounded waiting.** As long as the queue is not empty at a wait, a loop makes no more waits than
there are bare ticks and buffers to answer them. -/
theorem run_waits (hqueue : ∀ v, l.WaitsAt u v → v.console.submitted ≠ []) :
    l.run.Leaves u fun t => ∃ stamps, t.journal.waits = u.journal.waits ++ stamps ∧
      stamps.length ≤ u.console.left := by
  -- the waits made so far and what is left to answer more of them
  apply Step.meets_waitFor (I := fun s => (∀ v, l.WaitsAt s v → v.console.submitted ≠ []) ∧
    ∃ stamps, s.journal.waits = u.journal.waits ++ stamps ∧
      stamps.length + s.console.left ≤ u.console.left) _ u ⟨hqueue, [], by simp, by simp⟩
  rintro s ⟨hqueue, stamps, hstamps, hle⟩
  rw [Step.meets_onPool]
  cases hp : l.attempt s.pool with
  | error e p => exact ⟨stamps, hstamps, by omega⟩
  | ok answer p =>
    cases answer with
    | some a => exact ⟨stamps, hstamps, by omega⟩
    | none =>
      have hmissed : l.Missed s _ := ⟨p, hp, rfl⟩
      have hused := Console.left_waited (hqueue _ (.now hmissed))
      change s.console.waited.left + 1 ≤ s.console.left at hused
      refine Step.Meets.mono (Step.await_run _).and_eq ?_ ?_
      · rintro e t ⟨ht, -⟩
        refine ⟨stamps ++ [s.console.timeline.retired + 1], ?_, ?_⟩
        · rw [ht, ← List.append_assoc, ← hstamps]
          rfl
        · rw [List.length_append, List.length_singleton]
          omega
      · rintro _ t ⟨hwait, ht, hconsole⟩
        refine ⟨fun v hv => hqueue v (.later hmissed hwait hv),
          stamps ++ [s.console.timeline.retired + 1], ?_, ?_⟩
        · rw [ht, ← List.append_assoc, ← hstamps]
          rfl
        · change t.console = s.console.waited at hconsole
          rw [hconsole, List.length_append, List.length_singleton]
          omega

theorem attempt_ne_hang {p p' : Pool} {e : Stop} (h : l.attempt p = .error e p') (n : Nat) :
    e ≠ .hang n := by
  cases l with
  | room words =>
    simp only [attempt, Pool.tryAcquire] at h
    split at h <;> cases h
    exact Step.toStop_ne_hang _ n
  | drained => cases h

/-- A loop whose waits are answered does not hang. -/
theorem run_answered (hqueue : ∀ v, l.WaitsAt u v → v.console.submitted ≠ [])
    (hanswered : ∀ v, l.WaitsAt u v → v.console.Answered) :
    Step.Meets (fun e _ => ∀ n, e ≠ .hang n) l.run u fun _ _ => True := by
  apply Step.meets_waitFor (I := fun s => ∀ v, l.WaitsAt s v → l.WaitsAt u v) _ u fun _ => id
  intro s hs
  rw [Step.meets_onPool]
  cases hp : l.attempt s.pool with
  | error e p => exact attempt_ne_hang hp
  | ok answer p =>
    cases answer with
    | some a => trivial
    | none =>
      have hmissed : l.Missed s _ := ⟨p, hp, rfl⟩
      have hnow := hs _ (.now hmissed)
      refine Step.Meets.mono (Step.await_run _).and_eq ?_ ?_
      · rintro e t ⟨-, hhang⟩ n he
        obtain ⟨hidle, hfreed⟩ := hhang n he
        rcases hanswered _ hnow with htick | hempty | hlast
        · exact absurd hidle (Nat.ne_of_gt htick)
        · exact hqueue _ hnow hempty
        · exact absurd hfreed (Nat.not_le.2 hlast)
      · rintro _ t ⟨hwait, -⟩ v hv
        exact hs v (.later hmissed hwait hv)

/-! ## A loop that waits for nothing -/

theorem tryDrained_none {p p' : Pool} (h : Pool.tryDrained p = .ok none p') :
    p' = p ∧ p.ring.outstanding ≠ 0 := by
  unfold Pool.tryDrained at h
  split at h
  · cases h
  · cases h
    exact ⟨rfl, ‹_›⟩

/-- What the ring has no room for now it has none for later, unless something is freed. -/
theorem attempt_again {p p' : Pool} (h : l.attempt p = .ok none p') :
    ∃ p'', l.attempt p' = .ok none p'' := by
  cases l with
  | room words =>
    simp only [attempt, Pool.tryAcquire] at h ⊢
    split at h <;> cases h
    rename_i hr
    obtain ⟨r'', hr''⟩ := Ring.acquire_again hr
    simp only [hr'']
    exact ⟨_, rfl⟩
  | drained =>
    obtain ⟨rfl, -⟩ := tryDrained_none h
    exact ⟨_, h⟩

/-- Nothing is found only while words are outstanding. -/
theorem attempt_of_empty {p p' : Pool} (h : Accounted none [] p.ring) : l.attempt p ≠ .ok none p' := by
  intro hmissed
  cases l with
  | room words =>
    simp only [attempt, Pool.tryAcquire] at hmissed
    split at hmissed <;> cases hmissed
    exact h.not_insufficient words ‹_›
  | drained => exact (tryDrained_none hmissed).2 h.layout.outstanding

/-- With an empty queue the consumer has nothing to free. -/
theorem freeOldest_of_empty (h : s.console.submitted = []) {E : Stop → Session → Prop} :
    Step.Meets E Step.freeOldest s fun freed t => freed = false ∧ t = s := by
  unfold Step.freeOldest
  rw [Step.meets_bind, Step.meets_get, h]
  exact ⟨rfl, rfl⟩

theorem freeAhead_of_empty (h : s.console.submitted = []) {E : Stop → Session → Prop} :
    Step.Meets E Step.freeAhead s fun _ t => t.pool = s.pool ∧ t.console.submitted = [] := by
  unfold Step.freeAhead
  rw [Step.meets_bind, Step.meets_get]
  cases s.console.ahead with
  | nil => exact ⟨rfl, h⟩
  | cons n rest =>
    rw [Step.meets_bind, Step.meets_onConsole]
    cases n with
    | zero => exact ⟨rfl, h⟩
    | succ n =>
      unfold Step.freeSome
      rw [Step.meets_bind]
      refine Step.Meets.imp (freeOldest_of_empty (by exact h)) ?_
      rintro _ t ⟨rfl, rfl⟩
      exact ⟨rfl, h⟩

/-- So a wait brings a bare tick or hangs. -/
theorem await_of_empty (h : s.console.submitted = []) :
    Step.Meets (fun e t => (∃ n, e = .hang n) ∧ t.pool = s.pool) Step.await s fun _ t =>
      t.pool = s.pool ∧ t.console.submitted = [] := by
  unfold Step.await
  simp only [Step.meets_bind, Step.meets_get, Step.meets_modify]
  refine Step.Meets.imp (freeAhead_of_empty (by exact h)) ?_
  rintro _ t ⟨hpool, hempty⟩
  cases t.console.idle with
  | succ n => exact ⟨hpool, hempty⟩
  | zero =>
    unfold Step.retireOne
    simp only [Step.meets_bind]
    refine Step.Meets.imp (freeOldest_of_empty hempty) ?_
    rintro _ u ⟨rfl, rfl⟩
    exact ⟨⟨_, rfl⟩, hpool⟩

/-- **A loop that waits for nothing** hangs: it gets all the ticks that are pending, and finds no
more after them than before. -/
theorem run_of_empty (hqueue : s.console.submitted = []) {p : Pool} (hp : l.attempt s.pool = .ok none p) :
    Step.Meets (fun e t => (∃ n, e = .hang n) ∧ ∃ p, l.attempt t.pool = .ok none p) l.run s
      fun _ _ => False := by
  apply Step.meets_waitFor (I := fun s => s.console.submitted = [] ∧ ∃ p, l.attempt s.pool = .ok none p)
    _ s ⟨hqueue, p, hp⟩
  rintro s ⟨hqueue, p, hp⟩
  rw [Step.meets_onPool, hp]
  refine Step.Meets.mono (await_of_empty hqueue) ?_ ?_
  · rintro e t ⟨he, ht⟩
    rw [ht]
    exact ⟨he, attempt_again hp⟩
  · rintro _ t ⟨ht, hempty⟩
    rw [ht]
    exact ⟨hempty, attempt_again hp⟩

theorem WaitsAt.hangs (h : l.WaitsAt u v) (hqueue : v.console.submitted = []) :
    Step.Meets (fun e t => (∃ n, e = .hang n) ∧ ∃ p, l.attempt t.pool = .ok none p) l.run u
      fun _ _ => False := by
  induction h with
  | now hmissed =>
    apply run_of_missed hmissed
    obtain ⟨p, hp, rfl⟩ := hmissed
    refine Step.Meets.mono (await_of_empty hqueue) ?_ ?_
    · rintro e t ⟨he, ht⟩
      rw [ht]
      exact ⟨he, attempt_again hp⟩
    · rintro _ t ⟨ht, hempty⟩
      obtain ⟨p', hp'⟩ := attempt_again hp
      apply run_of_empty hempty
      rw [ht]
      exact hp'
  | later hmissed hwait _ ih =>
    apply run_of_missed hmissed
    unfold Step.Meets
    rw [hwait]
    exact ih hqueue

end Loop

end CommandPool
