import CommandPool.Record
/-!
# Retire timeline

The consumer's progress: the newest timestamp whose work is finished. It only grows, one
timestamp at a time.

| here | there |
| --- | --- |
| `Timeline` | `HostTimeline`; the timestamp has 64 bits there and no bound here |
| `advance` | `HostTimeline::advance` |
| `reach` | what `wait_until` waits for |
-/
namespace CommandPool

structure Timeline where
  retired : Nat
deriving DecidableEq, Repr

namespace Timeline

def start : Timeline := ⟨0⟩

def advance (t : Timeline) : Timeline := ⟨t.retired + 1⟩

/-- What is reported when a timestamp is retired. -/
def record (timestamp : Nat) : Record :=
  ⟨.trace, "HostTimeline: retired " ++ toString timestamp⟩

/-- The timeline once `timestamp` is retired; one that is there already stays. -/
def reach (t : Timeline) (timestamp : Nat) : Timeline := ⟨max timestamp t.retired⟩

/-- The records of the advances from `t` up to `timestamp`. -/
def recordsUpTo (t : Timeline) (timestamp : Nat) : List Record :=
  (List.range (timestamp - t.retired)).map fun i => record (t.retired + i + 1)

end Timeline

end CommandPool
