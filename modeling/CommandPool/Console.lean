import CommandPool.Descriptor
import CommandPool.Guest.Timeline
/-!
# The console

What the pool works on and does not own: the cores, the guest memory, the retire timeline, the
queue of submitted buffers and the application's answers to display lists that run full.

The consumer of the queue retires the oldest buffer first. The timeline may also advance without
it; `idle` says how often it is about to. Nor need the consumer keep step with the timeline: when
the pool submits a buffer or waits, it may free some on its own account, as `ahead` says.

| here | there |
| --- | --- |
| `Console` | an implementation of `Host` whose consumer retires in order |
| `submitted`, `lastStamp` | what `queue_command_buffer` keeps; the stamps have 64 bits there, no bound here |
| `Overrun`, `Storage`, `offers` | the question and the answers of `display_list_overrun` |
-/
namespace CommandPool

/-- Replacement storage for a display list. -/
structure Storage where
  start : Address
  bytes : Nat
deriving DecidableEq, Repr

/-- The question to the application when a display list is full. -/
structure Overrun where
  list : Address
  sizeBytes : Nat
  neededBytes : Nat
deriving DecidableEq, Repr

structure Console where
  topology : Topology
  memory : Memory
  timeline : Timeline
  /-- Buffers handed to the consumer, the oldest first. -/
  submitted : List Descriptor
  /-- The timestamp of the newest submission. -/
  lastStamp : Nat
  /-- How many of the next timestamps pass without a buffer being freed. -/
  idle : Nat
  /-- How many buffers the consumer frees ahead of the timeline at each of the next submissions and
  waits. -/
  ahead : List Nat
  /-- What the application will answer to the next overruns. -/
  offers : List (Option Storage)
deriving DecidableEq, Repr

namespace Console

/-- A console on which nothing has happened yet. -/
def atRest (topology : Topology) (memory : Memory) : Console :=
  ⟨topology, memory, .start, [], 0, 0, [], []⟩

/-- The advances of the timeline that are still to come: the idle ones and the buffers to
retire. -/
def pending (k : Console) : Nat := k.idle + k.submitted.length

/-- The caller runs on `c` from here on. -/
def enter (c : Core) (k : Console) : Console := { k with topology := k.topology.enter c }

/-- Graphics move to another main core. -/
def setMain (c : Core) (k : Console) : Console :=
  { k with topology := { k.topology with main := c } }

/-- The next `n` timestamps pass without a buffer being freed. -/
def setIdle (n : Nat) (k : Console) : Console := { k with idle := n }

/-- At one more submission or wait the consumer will run `n` buffers ahead. -/
def runAhead (n : Nat) (k : Console) : Console := { k with ahead := k.ahead ++ [n] }

/-- What the application will answer once its answers so far are used up. -/
def offer (answer : Option Storage) (k : Console) : Console :=
  { k with offers := k.offers ++ [answer] }

end Console

end CommandPool
