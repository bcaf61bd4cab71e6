import CommandPool.Failure
/-!
# Log records

What the pool and its host report while they work. A fatal stop leaves a last record of its own.

| here | there |
| --- | --- |
| `Record` | one call of a `log` macro |
| `Stop.records` | the record that `fatal` leaves |
-/
namespace CommandPool

inductive Level where
  | error
  | warn
  | debug
  | trace
deriving DecidableEq, Repr

structure Record where
  level : Level
  text : String
deriving DecidableEq, Repr

namespace Record

def debug (text : String) : Record := ⟨.debug, text⟩

end Record

/-- The record that a stop leaves behind. -/
def Stop.records : Stop → List Record
  | .fatal r => [⟨.error, "gx2 command buffer pool: " ++ r.message⟩]
  | .fault _ | .hang _ => []

end CommandPool
