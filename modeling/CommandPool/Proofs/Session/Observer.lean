import CommandPool.Proofs.Session.Seclusion
/-!
# An observer of a core

An observer of a core notes down what the core records into lists, and each list at the moment it is
handed over: to the application, with a question for more storage, or as it is finalized
(`Step.observe`). `Recording.Faithful` is what the notes should say: the words of a list stand in its
storage, padded to the alignment, and the lists hold, one after another, whatever was written.
-/
namespace CommandPool

/-! ## What an observer notes -/

/-- A list since it was bound. -/
structure Track where
  /-- Guest memory when it was bound. -/
  before : Memory
  /-- The words that were written since. -/
  words : List UInt32
deriving DecidableEq, Repr

def Track.wrote (t : Track) (ws : List UInt32) : Track := { t with words := t.words ++ ws }

/-- How a list is handed over. -/
inductive Handing where
  /-- With the questions that are put when there is no room for so many words. -/
  | overrun (wanted : Nat) (questions : List Overrun)
  /-- With the size that is answered. -/
  | finalized (bytes : Nat)
deriving DecidableEq, Repr

/-- A list at the moment it is handed over. -/
structure Handover where
  track : Track
  /-- The descriptor as it was before the list was padded. -/
  list : Descriptor
  /-- Guest memory at that moment. -/
  memory : Memory
  how : Handing
deriving DecidableEq, Repr

/-- What stands in the list, less the padding. -/
def Handover.contents (h : Handover) : Option (List UInt32) := h.list.contents h.memory

/-- What was noted of a core since it last began a list. -/
structure Recording where
  handed : List Handover
  current : Option Track
  /-- All words that were written while there was a list. -/
  written : List UInt32
deriving DecidableEq, Repr

namespace Recording

def empty : Recording := ⟨[], none, []⟩

/-- A list was begun; memory is `m`. -/
def begun (m : Memory) : Recording := ⟨[], some ⟨m, []⟩, []⟩

def wrote (r : Recording) (ws : List UInt32) : Recording :=
  match r.current with
  | none => r
  | some t => { r with current := some (t.wrote ws), written := r.written ++ ws }

/-- The list in the slot was handed over while memory was `m`, and recording goes on with `next`. -/
def handOver (r : Recording) (slot : Option Descriptor) (m : Memory) (how : Handing) (next : Option Track) :
    Recording :=
  match r.current, slot with
  | some t, some d => { r with handed := r.handed ++ [⟨t, d, m, how⟩], current := next }
  | _, _ => r

/-- What is noted of `k` when an event leads from `b` to `b'`. If a question was put, memory was `asked`
then; if the event answered, it was with `bytes`. -/
def note (k : Core) (b b' : Bench) (asked : Memory) (bytes : Nat) (r : Recording) : Event → Recording
  | .beginDisplayList _ _ => if b.current = k then .begun b'.memory else r
  | .getBuffer words =>
    let questions := b'.overruns.drop b.overruns.length
    if b.current = k ∧ questions ≠ [] then
      r.handOver (b.leases.active k) asked (.overrun words questions) (some ⟨b'.memory, []⟩)
    else r
  | .finalizeDisplayList _ =>
    if b.current = k then r.handOver (b.leases.active k) b'.memory (.finalized bytes) none else r
  | .write c w => if c = k ∧ b.leases.held k then r.wrote [w] else r
  | .writeAll c ws => if c = k ∧ b.leases.held k then r.wrote ws else r
  | _ => r

end Recording

/-- Guest memory when a question about the list of `k` is put, which is when the list is padded. -/
def Session.memoryPadded (s : Session) (k : Core) : Memory :=
  match Step.padActive k s with
  | .ok _ t => t.console.memory
  | .error _ t => t.console.memory

namespace Step

/-- An event, and the size it answers if it finalizes a list. -/
def attend : Event → Step Nat
  | .finalizeDisplayList storage => finalizeDisplayList storage
  | e => do
    perform e
    return 0

def observe (k : Core) (r : Recording) (e : Event) : Step Recording := do
  let s ← get
  let bytes ← attend e
  let t ← get
  return r.note k (s.bench .rest) (t.bench .rest) (s.memoryPadded k) bytes e

def observeAll (k : Core) : List Event → Recording → Step Recording
  | [], r => return r
  | e :: es, r => do
    observeAll k es (← observe k r e)

/-- The events of a run, each with the session it finds. -/
def trail : List Event → Session → List (Event × Session)
  | [], _ => []
  | e :: es, s => (e, s) :: match perform e s with
    | .ok _ t => trail es t
    | .error _ _ => []

end Step

/-! ## Faithful lists -/

/-- What is told about the list at `a`, whose size is `bytes`. -/
def Handing.Tells (a : Address) (bytes : Nat) : Handing → Prop
  | .overrun wanted questions => questions = [⟨a, bytes, min (4 * wanted) (2 ^ 32 - 1)⟩]
  | .finalized answer => answer = bytes

/-- The list was padded to `length` words when it was handed over. -/
structure Handover.Filled (h : Handover) (length : Nat) : Prop where
  words : h.memory.readWords h.list.start length =
    .ok (h.track.words ++ .replicate (length - h.track.words.length) padWord)
  room : length ≤ h.list.capacity
  untouched : ∀ i, length ≤ i → i < h.list.capacity →
    h.memory.read (h.list.start.addWords i) = h.track.before.read (h.list.start.addWords i)
  told : h.how.Tells h.list.start (4 * length)

/-- A list holds its words, padded to the next multiple of `align`. -/
def Handover.Faithful (align : Nat) (h : Handover) : Prop :=
  ∃ length, IsLeast {n | align ∣ n ∧ h.track.words.length ≤ n} length ∧ h.Filled length

/-- What was noted of `k` until `s`. -/
structure Recording.Faithful (align : Nat) (k : Core) (s : Session) (r : Recording) : Prop where
  handed : ∀ h ∈ r.handed, h.Faithful align
  current : r.current.isSome = (s.pool.leases.list? k).isSome
  /-- The lists hold, one after another, what was written. -/
  written : joined (r.handed.map Handover.contents ++
    (s.pool.leases.list? k).toList.map (·.contents s.console.memory)) = some r.written

/-- The word that an event stores beside the pool. -/
def Event.poked? : Event → Option Address
  | .poke a _ => some a
  | _ => none

/-- The list that `k` records into in `s` is secluded, and the event does not poke into it. -/
def Event.Spares (k : Core) (s : Session) (e : Event) : Prop :=
  ∀ d ∈ s.pool.leases.list? k, d.Secluded k s.pool.leases s.pool.ring ∧
    ∀ a ∈ e.poked?, a.Apart 1 d.start d.capacity

instance (k : Core) (s : Session) (e : Event) : Decidable (e.Spares k s) :=
  inferInstanceAs (Decidable (∀ d ∈ s.pool.leases.list? k, _))

/-! ## Single notes -/

variable {b b' u : Bench} {k : Core} {d x : Descriptor} {ws : List UInt32} {e : Event} {r r' : Recording}
  {s s' : Session}

theorem tells_question (x : Descriptor) (words : Nat) :
    Handing.Tells x.start (4 * x.used) (.overrun words [x.question words]) := by
  simp [Handing.Tells, Descriptor.question, wordBytes, Counter.clampedMul, Counter.largest, Counter.bound,
    Nat.mul_comm]

theorem tells_bytes (a : Address) (n : Nat) : Handing.Tells a (4 * n) (.finalized (n * wordBytes)) :=
  Nat.mul_comm ..

theorem note_through {k' : Core} (hthrough : e.through? = some (k', ws)) (asked : Memory) (bytes : Nat) :
    r.note k b b' asked bytes e = if k' = k ∧ b.leases.held k' then r.wrote ws else r := by
  cases e <;> cases hthrough <;> exact if_congr (and_congr_right fun h => by rw [h]) rfl rfl

/-- Where there are only moves, nothing is noted. -/
theorem note_plain (hplain : e.Plain b) (hoverruns : b'.overruns = b.overruns) (asked : Memory) (bytes : Nat) :
    r.note k b b' asked bytes e = r := by
  cases e with
  | getBuffer words => simp [Recording.note, hoverruns]
  | _ => first | rfl | exact hplain.elim

/-- A list that is replaced is handed over with one question. -/
theorem note_replaced (hpadded : Padded b u d x) (next : Descriptor) (words : Nat) (asked : Memory) (bytes : Nat) :
    r.note b.current b (u.replaced x next words) asked bytes (.getBuffer words) =
      r.handOver (b.leases.active b.current) asked (.overrun words [x.question words]) (some ⟨u.memory, []⟩) := by
  have hquestions : (u.replaced x next words).overruns.drop b.overruns.length = [x.question words] := by
    simp [Bench.replaced, Bench.setHeld, Bench.setSlot, Bench.asked, hpadded.beside.overruns]
  simp only [Recording.note, hquestions]
  exact if_pos ⟨trivial, by simp⟩

/-! ## Observed events -/

namespace Step

theorem attend_of_ne {e : Event} (h : ∀ storage, e ≠ .finalizeDisplayList storage) :
    attend e = (do
      perform e
      return 0) := by
  cases e <;> first | rfl | exact absurd rfl (h _)

/-- An event that is attended to happens as it would otherwise. -/
theorem perform_of_attend {e : Event} {bytes : Nat} (hs : attend e s = .ok bytes s') :
    perform e s = .ok () s' := by
  by_cases he : ∃ storage, e = .finalizeDisplayList storage
  · obtain ⟨storage, rfl⟩ := he
    exact bind_eq_ok_iff.2 ⟨bytes, s', hs, rfl⟩
  · rw [attend_of_ne fun storage hst => he ⟨storage, hst⟩] at hs
    obtain ⟨_, _, hperform, ⟨⟩⟩ := bind_eq_ok_iff.1 hs
    exact hperform

/-- Guest memory is as it was when the question was put. -/
theorem asked_of_perform (hring : (s.bench .rest).RingAtMain) {e : Event} {a : Unit}
    (hs : perform e s = .ok a s') : s'.journal.overruns = s.journal.overruns ∨
      (s.console.topology.current = k → s.memoryPadded k = s'.console.memory) := by
  by_cases he : ∃ words, e = .getBuffer words
  · obtain ⟨words, rfl⟩ := he
    obtain ⟨_, _, hbuffer, ⟨⟩⟩ := bind_eq_ok_iff.1 hs
    rcases ((getBuffer_turn hring words).ok hbuffer).2 with hsame | ⟨a, u, hpad, hmemory⟩
    · exact .inl hsame
    · refine .inr fun hk => ?_
      rw [Session.memoryPadded, ← hk, hpad, hmemory]
  · have hturned := (perform_turn hring e).ok hs
    exact .inl (hturned.turn.overruns fun words hw => he ⟨words, hw⟩)

theorem observe_eq_ok {e : Event} (hs : observe k r e s = .ok r' s') :
    ∃ bytes, attend e s = .ok bytes s' ∧
      r.note k (s.bench .rest) (s'.bench .rest) (s.memoryPadded k) bytes e = r' := by
  obtain ⟨_, _, ⟨⟩, hs⟩ := bind_eq_ok_iff.1 hs
  obtain ⟨bytes, _, hattend, hs⟩ := bind_eq_ok_iff.1 hs
  obtain ⟨_, _, ⟨⟩, hs⟩ := bind_eq_ok_iff.1 hs
  cases hs
  exact ⟨bytes, hattend, rfl⟩

end Step

end CommandPool
