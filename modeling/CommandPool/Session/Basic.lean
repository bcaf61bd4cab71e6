import CommandPool.Console
import CommandPool.Pool
/-!
# Sessions

A session is a pool on its console. Its journal holds what the steps leave for others to read:
log records, the timestamps that were waited for, the overruns that were asked about and the words
that the consumer got to see.

A `Step` is what a session does in one call. A refusal or a fault of a part stops the run; the
session is then what the step had made of it.

| here | there |
| --- | --- |
| `Session` | a `CommandBufferPool` with its host |
| `Journal` | what a host can record of the calls it gets |
| `onActive` | the descriptor behind an `ActiveBuffer` |
| `Step.fatal` | `fatal` |
-/
namespace CommandPool

/-- All in the order they came. -/
structure Journal where
  records : List Record
  waits : List Nat
  overruns : List Overrun
  /-- What stood in each ring buffer when the consumer freed it. -/
  executed : List (Option (List UInt32))
deriving DecidableEq, Repr

def Journal.empty : Journal := ⟨[], [], [], []⟩

structure Session where
  pool : Pool
  console : Console
  journal : Journal
deriving DecidableEq, Repr

namespace Session

/-- A console at rest, with a pool that has no region yet. -/
def start (pool : Pool) (topology : Topology) (memory : Memory) : Session :=
  ⟨pool, .atRest topology memory, .empty⟩

/-- The session with more records in its journal. -/
def reported (s : Session) (rs : List Record) : Session :=
  { s with journal := { s.journal with records := s.journal.records ++ rs } }

end Session

/-- One call: it answers or stops the run, and leaves a session either way. -/
abbrev Step (α : Type) := EStateM Stop Session α

namespace Step

/-- A sequence answers when both its parts do, the second from where the first left off. -/
theorem bind_eq_ok_iff {α β : Type} {x : Step α} {f : α → Step β} {s u : Session} {b : β} :
    (x >>= f) s = .ok b u ↔ ∃ a t, x s = .ok a t ∧ f a t = .ok b u := by
  show EStateM.bind x f s = .ok b u ↔ _
  unfold EStateM.bind
  constructor
  · intro h
    split at h
    · exact ⟨_, _, ‹_›, h⟩
    · cases h
  · rintro ⟨a, t, hx, hf⟩
    rw [hx]
    exact hf

def fatal {α : Type} (e : Refusal) : Step α := throw (.fatal e)

/-- What the pool does by itself. -/
def onPool {α : Type} (f : Pool.Action α) : Step α := fun s =>
  match f s.pool with
  | .ok a p => .ok a { s with pool := p }
  | .error e p => .error e { s with pool := p }

def onConsole (f : Console → Console) : Step Unit :=
  modify fun s => { s with console := f s.console }

def report (rs : List Record) : Step Unit := modify (Session.reported · rs)

def debug (text : String) : Step Unit := report [.debug text]

/-- An overflow stops the run. -/
def checked {α : Type} (x : Except Overflow α) : Step α :=
  match x with
  | .ok a => pure a
  | .error o => throw (.fault (.overflow o))

/-- A fault stops the run. -/
def unfaulted {α : Type} (x : Except Fault α) : Step α :=
  match x with
  | .ok a => pure a
  | .error f => throw (.fault f)

def currentCore : Step Core := return (← get).console.topology.current

def mainCore : Step Core := return (← get).console.topology.main

def config : Step Config := return (← get).pool.config

/-- Work on the buffer in the slot of `c`, whether or not a writer holds the slot. -/
def onActive {α : Type} (c : Core) (f : OpenBuffer → Outcome OpenBuffer α) : Step α := fun s =>
  match s.pool.leases.active c with
  | none => .error (.fatal (.noActiveBuffer c)) s
  | some d =>
    let store (b : OpenBuffer) : Session :=
      { s with
        pool := { s.pool with leases := s.pool.leases.setActive c (some b.buffer) }
        console := { s.console with memory := b.memory } }
    match f ⟨d, s.console.memory⟩ with
    | .ok a b => .ok a (store b)
    | .error e b => .error e.toStop (store b)

/-- The words at `count` consecutive addresses from `a` on. -/
def peek (a : Address) (count : Nat) : Step (List UInt32) := do
  unfaulted ((← get).console.memory.readWords a count)

/-- Store a word at an address. -/
def poke (a : Address) (w : UInt32) : Step Unit := do
  let m ← unfaulted ((← get).console.memory.write a w)
  onConsole fun c => { c with memory := m }

end Step

end CommandPool
