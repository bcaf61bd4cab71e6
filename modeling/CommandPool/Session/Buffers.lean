import CommandPool.Session.Retirement
/-!
# Buffers of the ring

The main core takes a buffer from the ring, writes into it, and hands it to the consumer when it
is full or asked to. A ring without room makes the main core wait for retirement. There is one
lease on the ring, so no more than one buffer of the ring is written into at a time.

Here are the steps that need no display list: attaching and detaching the region, flushing, and
writing into an active buffer.

| here | there |
| --- | --- |
| `allocate`, `allocateMinimum` | `allocate_command_buffer`, also for `min_alloc_words` |
| `submitActive` | `flush_active` |
| `init`, `shutdown`, `flush` | `CommandBufferPool::init`, `shutdown`, `flush_command_buffer` |
| `openWriter`, `dropWriter` | making and dropping an `ActiveBuffer` |
| `write`, `writeAll`, `remaining` | `ActiveBuffer::write`, `write_all`, `remaining` |
-/
namespace CommandPool

namespace Step

/-- What is reported before waiting for room in the ring. -/
def ringFull (timestamp : Nat) : List Record :=
  [.debug ("CommandBufferPool: ring full, waiting for timestamp " ++ toString timestamp)]

/-- Lease a ring buffer of at least `words` words, waiting for room if need be. Only the main
core gets one. -/
def allocate (words : Nat) : Step (Option Descriptor) := do
  let core ← currentCore
  if core ≠ (← mainCore) then
    report [⟨.warn, "Tried to allocate command buffer on non-main graphics core " ++ core.text⟩]
    return none
  onPool (Pool.onLeases Leases.lease)
  let a ← waitFor ringFull (Pool.tryAcquire words)
  report (a.skip.map Ring.skipRecord).toList
  let d ← onPool Pool.takeDescriptor
  return some (d.bind a.grant.start 0 a.grant.words .ring)

/-- Lease a ring buffer of the minimum size. -/
def allocateMinimum : Step (Option Descriptor) := do
  allocate (← config).minGrant

/-- Hand the ring buffer of `c` to the consumer and give the lease back. -/
def submitActive (c : Core) : Step Unit := do
  if let some d ← onPool (Pool.close c) then
    submit d

/-! ## The region -/

/-- Attach the region of the ring and open the main core's first buffer. -/
def init (base : Address) (size : Nat) : Step Unit := do
  let core ← currentCore
  if core ≠ (← mainCore) then
    fatal (.notMainCore core)
  onPool (Pool.onRing (Ring.attach base size))
  report [Ring.attachRecord base size]
  if (← onPool (Pool.borrow core)).isSome then
    fatal (.slotOccupied core)
  onPool (Pool.setActive core (← allocateMinimum))
  debug ("CommandBufferPool: initialized on " ++ core.text)

/-- Submit the main core's buffer, wait until no word of the ring is outstanding and detach the
region. -/
def shutdown : Step Unit := do
  let core ← currentCore
  if core ≠ (← mainCore) then
    fatal (.notMainCore core)
  if (← onPool (Pool.borrow core)).isSome then
    submitActive core
  waitFor (fun _ => []) Pool.tryDrained
  onPool (Pool.onRing Ring.detach)
  debug "CommandBufferPool: shut down"

/-- Submit the current core's buffer and open one of the minimum size. -/
def flush : Step Unit := do
  let core ← currentCore
  let _ ← onPool (Pool.borrow core)
  submitActive core
  onPool (Pool.setActive core (← allocateMinimum))

/-! ## Writing

A writer holds the slot of its core from `openWriter` until it is dropped, and is named by that
core. -/

/-- A writer takes the slot of `c`. -/
def openWriter (c : Core) : Step Unit :=
  onPool fun p => .ok () { p with leases := p.leases.setHeld c true }

/-- The writer of `c` lets go of the slot. Answers whether there was one. -/
def dropWriter (c : Core) : Step Bool :=
  onPool fun p => .ok (p.leases.held c) { p with leases := p.leases.setHeld c false }

/-- Append a word to the buffer that the writer of `c` holds. -/
def write (c : Core) (w : UInt32) : Step Unit := onActive c (OpenBuffer.push w)

/-- Append a run of words to the buffer that the writer of `c` holds. Its room is looked at
before the first word is written. -/
def writeAll (c : Core) (ws : List UInt32) : Step Unit := onActive c (OpenBuffer.pushAll ws)

/-- The room in the buffer that the writer of `c` holds. -/
def remaining (c : Core) : Step Nat := do
  match ← onPool (Pool.active c) with
  | none => fatal (.noActiveBuffer c)
  | some d => checked d.remaining

end Step

end CommandPool
