import CommandPool.Config
import CommandPool.Record
/-!
# The ring and its region

A region of words in guest memory from which grants are taken at `head` and to which they are
returned at `tail`, the oldest first. Offsets are in words from the base; an address is computed
only where one is given or taken. A ring without outstanding words starts over at the base.

| here | there |
| --- | --- |
| `Ring` | `RingPool` with its `RingState`; `minGrant` and `maxGrant` are of its `PoolConfig` |
| `RingStats` | `RingStats`: all but `peak` count in 64 bits there, and have no bound here |
| `ofConfig` | `RingPool::new` |
| `attach`, `detach` | `RingPool::init`, `deinit` |
| `address`, `offset` | `RingState::addr`, `offset` |
| `restarted` | `RingState::reset_empty` |
| `settled` | the guard `outstanding == 0` in front of it |
-/
namespace CommandPool

structure RingStats where
  grants : Nat
  wraps : Nat
  stalls : Nat
  releases : Nat
  /-- The most words that were ever outstanding at once. -/
  peak : Nat
deriving DecidableEq, Repr

def RingStats.zero : RingStats := ⟨0, 0, 0, 0, 0⟩

structure Ring where
  minGrant : Nat
  maxGrant : Nat
  base : Address
  /-- Words of the region; zero while none is attached. -/
  size : Nat
  /-- Where the next grant starts. -/
  head : Nat
  /-- Where the oldest grant starts; `none` in an empty ring. -/
  tail : Option Nat
  /-- Words left unused at the end of the region by the last wrap. -/
  skipped : Nat
  /-- Words granted and not released. -/
  outstanding : Nat
  stats : RingStats
deriving DecidableEq, Repr

namespace Ring

/-- A ring without a region. -/
def detached (minGrant maxGrant : Nat) : Ring :=
  ⟨minGrant, maxGrant, .null, 0, 0, none, 0, 0, .zero⟩

def ofConfig (c : Config) : Ring := detached c.minGrant c.maxGrant

def IsAttached (r : Ring) : Prop := r.size ≠ 0

instance (r : Ring) : Decidable r.IsAttached := inferInstanceAs (Decidable (_ ≠ _))

/-- The address of an offset. -/
def address (r : Ring) (offset : Nat) : Address := r.base.addWords offset

/-- The offset of an address, in whole words. -/
def offset (r : Ring) (a : Address) : Nat := a.wordsSince r.base

/-- The cursors of an empty ring. -/
def restarted (r : Ring) : Ring := { r with head := 0, tail := none, skipped := 0 }

/-- A ring from which the last outstanding word is gone starts over. -/
def settled (r : Ring) : Ring := if r.outstanding = 0 then r.restarted else r

def refuse {α : Type} (e : Refusal) (r : Ring) : Outcome Ring α := .error (.refused e) r

def overflow {α : Type} (o : Overflow) (r : Ring) : Outcome Ring α := .error (.fault (.overflow o)) r

/-! ## The region -/

def attach (base : Address) (size : Nat) (r : Ring) : Outcome Ring Unit :=
  if r.IsAttached then r.refuse .alreadyInitialized
  else if size = 0 then r.refuse ConfigDefect.emptyRegion.refusal
  else .ok () { r.restarted with base := base, size := size, outstanding := 0 }

/-- Only a region without outstanding words can be detached; the counts start over too. -/
def detach (r : Ring) : Outcome Ring Unit :=
  if ¬ r.IsAttached then r.refuse .notInitialized
  else if r.outstanding ≠ 0 then r.refuse (.busy r.outstanding)
  else .ok () (detached r.minGrant r.maxGrant)

/-- What is reported when a region is attached. -/
def attachRecord (base : Address) (size : Nat) : Record :=
  .debug ("RingPool: " ++ toString size ++ " words at " ++ base.text ++ ".."
    ++ (base.addWords size).text)

end Ring

end CommandPool
