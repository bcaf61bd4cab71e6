import CommandPool.Session.Basic
/-!
# Submission, retirement and waiting

Submitted buffers are stamped 1, 2, 3, … and retired in that order: the oldest one is freed and
the timeline advances. A pool that has to wait asks for the next timestamp. It is brought by an
idle advance of the timeline, if one is pending, and else by retiring a buffer; if there is no
buffer either, nothing will bring it and the run hangs. Before that the consumer may run ahead and
free some buffers that the timeline does not tell of.

Main statement: a wait that returns leaves one advance fewer to come (`pending_lt_of_await`), so
a pool that waits again and again stops doing so, and `waitFor` is total.

| here | there |
| --- | --- |
| `submit` | `queue_command_buffer` |
| `retireOne`, `freeOldest` | a consumer that calls `free_command_buffer` and then `HostTimeline::advance` |
| `await` | `wait_until` for the timestamp after `retired_timestamp` |
| `waitFor` | the loops of `allocate_command_buffer` and `shutdown` |
-/
namespace CommandPool

namespace Step

/-- The timeline moves on by one timestamp. -/
def advance : Step Unit := do
  onConsole fun c => { c with timeline := c.timeline.advance }
  report [Timeline.record (← get).console.timeline.retired]

/-- The consumer works off a buffer of the ring; what it reads there goes to the journal. -/
def execute (d : Descriptor) : Step Unit := modify fun s =>
  if d.backing = .ring then
    { s with journal :=
      { s.journal with executed := s.journal.executed ++ [d.contents s.console.memory] } }
  else s

/-- The consumer is done with the oldest buffer and frees it. Answers whether there was one. -/
def freeOldest : Step Bool := do
  match (← get).console.submitted with
  | [] => return false
  | d :: rest =>
    onConsole fun c => { c with submitted := rest }
    execute d
    onPool (Pool.free d)
    return true

/-- The oldest buffer is freed, then the timeline advances. Answers whether there was one. -/
def retireOne : Step Bool := do
  if ← freeOldest then
    advance
    return true
  else
    return false

/-- Retire at most `n` buffers and count them. -/
def retire : Nat → Step Nat
  | 0 => return 0
  | n + 1 => do
    if ← retireOne then
      return (← retire n) + 1
    else
      return 0

/-- Remove the submitted buffer at a place in the queue. -/
def withdraw (i : Nat) : Step (Option Descriptor) := do
  let d := (← get).console.submitted[i]?
  onConsole fun c => { c with submitted := c.submitted.eraseIdx i }
  return d

/-- Free at most `n` buffers. -/
def freeSome : Nat → Step Unit
  | 0 => return
  | n + 1 => do
    if ← freeOldest then
      freeSome n

/-- The consumer may run ahead of the timeline, in the middle of a call. -/
def freeAhead : Step Unit := do
  match (← get).console.ahead with
  | [] => return
  | n :: rest =>
    onConsole fun c => { c with ahead := rest }
    freeSome n

/-- Hand a buffer to the consumer, which may start at once. -/
def submit (d : Descriptor) : Step Unit := do
  onConsole fun c =>
    { c with
      submitted := c.submitted ++ [{ d with stamp := c.lastStamp + 1 }]
      lastStamp := c.lastStamp + 1 }
  freeAhead

/-- Wait until the timeline has moved on by one. -/
def await : Step Unit := do
  let next := (← get).console.timeline.retired + 1
  modify fun s => { s with journal := { s.journal with waits := s.journal.waits ++ [next] } }
  freeAhead
  match (← get).console.idle with
  | n + 1 =>
    onConsole fun c => { c with idle := n }
    advance
  | 0 =>
    if !(← retireOne) then
      throw (.hang next)

/-! ## A wait consumes an advance -/

theorem console_onPool {α : Type} {f : Pool.Action α} {s t : Session} {a : α}
    (h : onPool f s = .ok a t) : t.console = s.console := by
  unfold onPool at h
  split at h <;> cases h
  rfl

theorem pending_advance {s t : Session} {a : Unit} (h : advance s = .ok a t) :
    t.console.pending = s.console.pending := by
  cases h
  rfl

theorem console_execute {d : Descriptor} {s t : Session} {a : Unit} (h : execute d s = .ok a t) :
    t.console = s.console := by
  cases h
  split <;> rfl

theorem pending_freeOldest {s t : Session} (h : freeOldest s = .ok true t) :
    t.console.pending + 1 = s.console.pending := by
  unfold freeOldest at h
  obtain ⟨s₁, s₁', h₁, h⟩ := bind_eq_ok_iff.1 h
  cases h₁
  cases hq : s.console.submitted with
  | nil =>
    simp only [hq] at h
    cases h
  | cons d rest =>
    simp only [hq] at h
    obtain ⟨_, s₂, h₂, h⟩ := bind_eq_ok_iff.1 h
    obtain ⟨_, s₃, h₃, h⟩ := bind_eq_ok_iff.1 h
    obtain ⟨_, s₄, h₄, h⟩ := bind_eq_ok_iff.1 h
    cases h
    rw [console_onPool h₄, console_execute h₃]
    cases h₂
    simp only [Console.pending, hq, List.length_cons]
    omega

theorem pending_retireOne {s t : Session} (h : retireOne s = .ok true t) :
    t.console.pending + 1 = s.console.pending := by
  unfold retireOne at h
  obtain ⟨b, s₁, h₁, h⟩ := bind_eq_ok_iff.1 h
  cases b
  · cases h
  obtain ⟨_, s₂, h₂, h⟩ := bind_eq_ok_iff.1 h
  cases h
  rw [pending_advance h₂, pending_freeOldest h₁]

theorem eq_of_freeOldest_false {s t : Session} (h : freeOldest s = .ok false t) : t = s := by
  unfold freeOldest at h
  obtain ⟨s₁, s₁', h₁, h⟩ := bind_eq_ok_iff.1 h
  cases h₁
  cases hq : s.console.submitted with
  | nil =>
    simp only [hq] at h
    cases h
    rfl
  | cons d rest =>
    simp only [hq] at h
    obtain ⟨_, _, _, h⟩ := bind_eq_ok_iff.1 h
    obtain ⟨_, _, _, h⟩ := bind_eq_ok_iff.1 h
    obtain ⟨_, _, _, h⟩ := bind_eq_ok_iff.1 h
    cases h

theorem pending_freeSome : ∀ {n : Nat} {s t : Session} {a : Unit}, freeSome n s = .ok a t →
    t.console.pending ≤ s.console.pending
  | 0, _, _, _, h => by
    cases h
    exact Nat.le_refl _
  | n + 1, s, t, a, h => by
    unfold freeSome at h
    obtain ⟨b, s₁, h₁, h⟩ := bind_eq_ok_iff.1 h
    cases b
    · cases h
      cases eq_of_freeOldest_false h₁
      exact Nat.le_refl _
    · have := pending_freeSome h
      have := pending_freeOldest h₁
      omega

theorem pending_freeAhead {s t : Session} {a : Unit} (h : freeAhead s = .ok a t) :
    t.console.pending ≤ s.console.pending := by
  unfold freeAhead at h
  obtain ⟨s₁, s₁', h₁, h⟩ := bind_eq_ok_iff.1 h
  cases h₁
  cases hq : s.console.ahead with
  | nil =>
    simp only [hq] at h
    cases h
    exact Nat.le_refl _
  | cons n rest =>
    simp only [hq] at h
    obtain ⟨_, s₂, h₂, h⟩ := bind_eq_ok_iff.1 h
    cases h₂
    have hle := pending_freeSome h
    exact hle

/-- A wait that returns leaves one advance fewer to come. -/
theorem pending_lt_of_await {s t : Session} {a : Unit} (h : await s = .ok a t) :
    t.console.pending < s.console.pending := by
  unfold await at h
  obtain ⟨s₁, s₁', h₁, h⟩ := bind_eq_ok_iff.1 h
  cases h₁
  obtain ⟨_, s₂, h₂, h⟩ := bind_eq_ok_iff.1 h
  cases h₂
  obtain ⟨_, s₃, h₃, h⟩ := bind_eq_ok_iff.1 h
  have hle := pending_freeAhead h₃
  change s₃.console.pending ≤ s.console.pending at hle
  obtain ⟨s₄, s₄', h₄, h⟩ := bind_eq_ok_iff.1 h
  cases h₄
  cases hn : s₃.console.idle with
  | succ n =>
    simp only [hn] at h
    obtain ⟨_, s₅, h₅, h⟩ := bind_eq_ok_iff.1 h
    cases h₅
    rw [pending_advance h]
    simp only [Console.pending, hn] at hle ⊢
    omega
  | zero =>
    simp only [hn] at h
    obtain ⟨b, s₅, h₅, h⟩ := bind_eq_ok_iff.1 h
    cases b
    · cases h
    · cases h
      have := pending_retireOne h₅
      omega

/-- Try, and wait for the next timestamp as long as the attempt finds nothing. `notice` is what
is reported before a wait. -/
def waitFor {α : Type} (notice : Nat → List Record) (attempt : Pool.Action (Option α))
    (s : Session) : EStateM.Result Stop Session α :=
  match _h₁ : onPool attempt s with
  | .error e s₁ => .error e s₁
  | .ok (some a) s₁ => .ok a s₁
  | .ok none s₁ =>
    match _h₂ : await (s₁.reported (notice (s₁.console.timeline.retired + 1))) with
    | .error e s₂ => .error e s₂
    | .ok _ s₂ => waitFor notice attempt s₂
termination_by s.console.pending
decreasing_by
  have h := pending_lt_of_await _h₂
  have : s₁.console = s.console := console_onPool _h₁
  simp only [Session.reported, this] at h
  exact h

end Step

end CommandPool
