import CommandPool.Arena
import CommandPool.Leases
import CommandPool.Ring.Grants
/-!
# The pool

The ring, the descriptor arena and the leases of all cores. What is here needs nothing of the
console: turning a request to the ring into an answer or a wait, closing a core's buffer, and
disposing of a buffer the consumer is done with. Of all refusals only `insufficient` is answered;
any other one stops the run.

| here | there |
| --- | --- |
| `Pool` | `CommandBufferPool` without its host; `ofConfig` is `CommandBufferPool::new` |
| `tryAcquire` | one turn of the loop in `allocate_command_buffer` |
| `tryDrained` | the condition of the loop in `shutdown` |
| `free` | `free_command_buffer` |
| `close` | `flush_active`, up to where the buffer is queued |
-/
namespace CommandPool

structure Pool where
  config : Config
  ring : Ring
  arena : Arena
  leases : Leases
deriving DecidableEq, Repr

namespace Pool

/-- A pool without a region; a configuration that is not usable is refused. -/
def ofConfig (c : Config) : Except Refusal Pool :=
  match c.validate with
  | .error e => .error e
  | .ok () => .ok ⟨c, .ofConfig c, .ofCapacity c.descriptors, .allIdle⟩

/-- A pool is created for a usable configuration only. -/
theorem ofConfig_eq_ok {c : Config} {p : Pool} (h : ofConfig c = .ok p) :
    c.validate = .ok () ∧ p = ⟨c, .ofConfig c, .ofCapacity c.descriptors, .allIdle⟩ := by
  unfold ofConfig at h
  split at h <;> cases h
  exact ⟨‹_›, rfl⟩

/-- A step of the pool alone. -/
abbrev Action (α : Type) := EStateM Stop Pool α

def fatal {α : Type} (e : Refusal) : Action α := throw (.fatal e)

def onRing {α : Type} (f : Ring → Outcome Ring α) : Action α := fun p =>
  match f p.ring with
  | .ok a r => .ok a { p with ring := r }
  | .error e r => .error e.toStop { p with ring := r }

def onLeases {α : Type} (f : Leases → Outcome Leases α) : Action α := fun p =>
  match f p.leases with
  | .ok a l => .ok a { p with leases := l }
  | .error e l => .error e.toStop { p with leases := l }

/-- Ask the ring for a grant; `none` when it has no room at this moment. -/
def tryAcquire (words : Nat) : Action (Option Acquired) := fun p =>
  match p.ring.acquire words with
  | .ok a r => .ok (some a) { p with ring := r }
  | .error (.refused .insufficient) r => .ok none { p with ring := r }
  | .error e r => .error e.toStop { p with ring := r }

/-- Succeeds once no word of the ring is outstanding. -/
def tryDrained : Action (Option Unit) := fun p =>
  .ok (if p.ring.outstanding = 0 then some () else none) p

def takeDescriptor : Action Descriptor := fun p =>
  .ok p.arena.take.1 { p with arena := p.arena.take.2 }

def giveDescriptor (d : Descriptor) : Action Unit := fun p =>
  .ok () { p with arena := p.arena.give d }

/-- The buffer in the slot of `c`. A slot that a writer holds stops the run. -/
def borrow (c : Core) : Action (Option Descriptor) := fun p =>
  match p.leases.borrow c with
  | .ok d => .ok d p
  | .error e => .error (.fatal e) p

def active (c : Core) : Action (Option Descriptor) := fun p => .ok (p.leases.active c) p

def setActive (c : Core) (d : Option Descriptor) : Action Unit := fun p =>
  .ok () { p with leases := p.leases.setActive c d }

/-- Dispose of a buffer that the consumer has finished with. All its words must be accounted
for; those of the ring go back to it. -/
def free (d : Descriptor) : Action Unit := do
  if d.used ≠ d.capacity then
    fatal (.sizeMismatch d.used d.capacity)
  if d.backing = .ring then
    onRing (Ring.release d.start d.capacity)
  giveDescriptor d

/-- Empty the slot of `c`: the lease is given back and the unused words return to the ring. The
buffer to submit is the answer; one without words is not worth submitting, and its descriptor is
given back instead. -/
def close (c : Core) : Action (Option Descriptor) := do
  match ← active c with
  | none => fatal (.noActiveBuffer c)
  | some d =>
    if d.backing = .displayList then
      fatal .unexpectedDisplayList
    setActive c none
    onLeases Leases.unlease
    onRing (Ring.shrink d.start d.used d.capacity)
    let done := { d with capacity := d.used }
    if d.used = 0 then
      giveDescriptor done
      return none
    else
      return some done

end Pool

end CommandPool
