import CommandPool.Guest.Address
import CommandPool.Guest.Core
/-!
# How an operation can fail

A `Refusal` is an answer: the component turns the call down and the caller may go on. A `Fault`
is not: the operation reached an access or a sum that has no meaning. The pool itself goes on
after one refusal only, `insufficient`; every other one it treats as a broken promise and stops
(`Stop.fatal`), as it does on a fault and when it would wait for ever.

| here | there |
| --- | --- |
| `Refusal` | `Error`; `message` is its display, `retryable` is `is_retryable` |
| `Fault` | a panic other than that of `fatal`: overflow checks and the assertions of `HostMemory::slot` |
| `Outcome` | a returned `Error` or an answer, with the state that is left behind |
| `Stop.fatal` | `fatal`, also through `or_fatal` |
| `Stop.hang` | a `wait_until` that never returns |
-/
namespace CommandPool

/-! ## Faults -/

inductive Fault where
  | overflow (o : Overflow)
  /-- An address below the window, or between two words. -/
  | badAccess (a : Address)
  /-- An address past the end of the window. -/
  | outsideWindow (a : Address)
deriving DecidableEq, Repr

def Fault.message : Fault → String
  | .overflow o => o.message
  | .badAccess a => "HostMemory: bad access at " ++ a.text
  | .outsideWindow a => "HostMemory: access at " ++ a.text ++ " outside window"

/-! ## Refusals -/

inductive Refusal where
  /-- The ring has no contiguous run that is long enough at this moment. -/
  | insufficient
  | invalidConfig (reason : String)
  | notInitialized
  | alreadyInitialized
  | busy (outstanding : Nat)
  | notMainCore (core : Core)
  /-- More words than the whole ring has; `requested` is the request raised to the minimum. -/
  | requestTooLarge (requested capacity : Nat)
  /-- `expected` is where the ring looks for the oldest grant. -/
  | outOfOrderRelease (region expected : Address)
  | outOfOrderShrink (region : Address)
  | shrinkLargerThanGrant (used granted : Nat)
  | alreadyLeased
  | notLeased
  | noActiveBuffer (core : Core)
  | slotOccupied (core : Core)
  /-- A writer still holds the core's slot. -/
  | slotBorrowed (core : Core)
  | unexpectedDisplayList
  | notDisplayList
  | displayListMismatch (supplied active : Address)
  | overrunFailed
  | padOverflow (aligned capacity : Nat)
  | bufferOverflow
  | commandTooLarge (requested available : Nat)
  | sizeMismatch (used capacity : Nat)
deriving DecidableEq, Repr

namespace Refusal

/-- Waiting for the consumer resolves it. -/
def retryable : Refusal → Bool
  | .insufficient => true
  | _ => false

def message : Refusal → String
  | .insufficient => "command buffer pool temporarily exhausted"
  | .invalidConfig reason => "invalid pool configuration: " ++ reason
  | .notInitialized => "command buffer pool not initialized"
  | .alreadyInitialized => "command buffer pool already initialized"
  | .busy n => "command buffer pool has " ++ toString n ++ " words outstanding"
  | .notMainCore c => "operation requires the main core, called on " ++ c.text
  | .requestTooLarge n cap =>
    "command buffer allocation of " ++ toString n ++ " words greater than entire pool size of "
      ++ toString cap ++ " words"
  | .outOfOrderRelease region expected =>
    "pool release out of order: released " ++ region.text ++ ", oldest is " ++ expected.text
  | .outOfOrderShrink region =>
    "pool shrink of " ++ region.text ++ " is not the most recent allocation"
  | .shrinkLargerThanGrant used granted =>
    "used " ++ toString used ++ " words of a " ++ toString granted ++ " word grant"
  | .alreadyLeased => "command buffer pool lease already held"
  | .notLeased => "command buffer pool lease not held"
  | .noActiveBuffer c => "no active command buffer on " ++ c.text
  | .slotOccupied c => "active command buffer already set on " ++ c.text
  | .slotBorrowed c => "command buffer slot on " ++ c.text ++ " already borrowed by a writer"
  | .unexpectedDisplayList => "active command buffer is a display list"
  | .notDisplayList => "active command buffer is not a display list"
  | .displayListMismatch supplied active =>
    "display list " ++ supplied.text ++ " does not match active display list " ++ active.text
  | .overrunFailed => "unable to handle display list overrun"
  | .padOverflow aligned cap =>
    "padding to " ++ toString aligned ++ " words overflows " ++ toString cap ++ " word buffer"
  | .bufferOverflow => "write past end of command buffer"
  | .commandTooLarge n available =>
    "command of " ++ toString n ++ " words does not fit a " ++ toString available
      ++ " word buffer"
  | .sizeMismatch used cap =>
    "completed buffer has " ++ toString used ++ " of " ++ toString cap ++ " words accounted"

end Refusal

/-! ## Outcomes -/

/-- Why a component did not do what it was asked. -/
inductive Failure where
  | refused (r : Refusal)
  | fault (f : Fault)
deriving DecidableEq, Repr

/-- What a component answers, and its state afterwards, also when it fails. -/
abbrev Outcome (σ α : Type) := EStateM.Result Failure σ α

/-- Why a run ends. -/
inductive Stop where
  | fatal (r : Refusal)
  | fault (f : Fault)
  /-- Waiting for a timestamp that nothing will bring. -/
  | hang (timestamp : Nat)
deriving DecidableEq, Repr

def Stop.message : Stop → String
  | .fatal r => r.message
  | .fault f => f.message
  | .hang t => "waiting for timestamp " ++ toString t

/-- A component failure ends the run. -/
def Failure.toStop : Failure → Stop
  | .refused r => .fatal r
  | .fault f => .fault f

end CommandPool
