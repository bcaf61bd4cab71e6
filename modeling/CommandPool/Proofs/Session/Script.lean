import CommandPool.Guest.Timeline
import CommandPool.Proofs.Guest.Address
import CommandPool.Session.DisplayLists
/-!
# Scripts

A script is what happens to a pool from its creation on: calls from any core, words through open
writers, the consumer at work and the application supplying storage, in any order. The main core
stays the same, the consumer frees the oldest buffer as it got it, and who writes to memory beside
the pool keeps off the region of the ring (`Event.Fits`).

`written` is what a script puts into buffers of the ring. A stop is `internal` when no caller is to
blame: a part of the pool broke a promise to another one, or a counter overflowed.
-/
namespace CommandPool

/-- Where the ring of a script lies. -/
structure Region where
  start : Address
  words : Nat
  nonempty : 0 < words
  /-- Addresses have 32 bits. -/
  short : words ≤ 2 ^ 30

/-- The `n` words at `a` are none of the region. -/
def Region.Clear (R : Region) (a : Address) (n : Nat) : Prop := R.start.Apart R.words a n

inductive Event where
  /-- The caller runs on another core from here on. -/
  | enter (c : Core)
  | init (base : Address) (size : Nat)
  | shutdown
  | flush
  | getBuffer (words : Nat)
  /-- Words come through the writer of a core, if it is open. -/
  | write (c : Core) (w : UInt32)
  | writeAll (c : Core) (ws : List UInt32)
  | remaining (c : Core)
  | dropWriter (c : Core)
  | beginDisplayList (storage : Address) (words : Nat)
  | finalizeDisplayList (storage : Address)
  | queueDisplayList (storage : Address) (words : Nat)
  | recordedList
  | freeOldest
  | advance
  | setIdle (n : Nat)
  | runAhead (n : Nat)
  | offer (answer : Option Storage)
  | poke (a : Address) (w : UInt32)
deriving DecidableEq, Repr

/-- What a script may do beside a ring in `R`: attach it there, and keep other storage clear of it. -/
def Event.Fits (R : Region) : Event → Prop
  | .init base size => size ≠ 0 → base = R.start ∧ size = R.words
  | .beginDisplayList storage words => R.Clear storage words
  | .offer (some st) => R.Clear st.start (st.bytes / wordBytes)
  | .poke a _ => R.Clear a 1
  | _ => True

/-- The buffer of the ring that the writer of `c` writes into, if it is open on one. -/
def Session.ringWriter? (s : Session) (c : Core) : Option Descriptor :=
  if s.pool.leases.held c then (s.pool.leases.active c).filter (·.backing = .ring) else none

/-- The words that an event, when it does not stop the run, writes into a buffer of the ring. -/
def Event.written (s : Session) : Event → List UInt32
  | .write c w => if (s.ringWriter? c).isSome then [w] else []
  | .writeAll c ws => if (s.ringWriter? c).isSome then ws else []
  | _ => []

namespace Step

def perform : Event → Step Unit
  | .enter c => onConsole (Console.enter c)
  | .init base size => init base size
  | .shutdown => shutdown
  | .flush => flush
  | .getBuffer words => do let _ ← getBuffer words
  | .write c w => do if (← get).pool.leases.held c then write c w
  | .writeAll c ws => do if (← get).pool.leases.held c then writeAll c ws
  | .remaining c => do if (← get).pool.leases.held c then let _ ← remaining c
  | .dropWriter c => do let _ ← dropWriter c
  | .beginDisplayList storage words => beginDisplayList storage words
  | .finalizeDisplayList storage => do let _ ← finalizeDisplayList storage
  | .queueDisplayList storage words => queueDisplayList storage words
  | .recordedList => do let _ ← recordedList
  | .freeOldest => do let _ ← freeOldest
  | .advance => advance
  | .setIdle n => onConsole (Console.setIdle n)
  | .runAhead n => onConsole (Console.runAhead n)
  | .offer answer => onConsole (Console.offer answer)
  | .poke a w => poke a w

/-- Answers what was written into buffers of the ring. -/
def play : List Event → Step (List UInt32)
  | [] => return []
  | e :: es => do
    let new := e.written (← get)
    perform e
    return new ++ (← play es)

variable {e : Event} {es : List Event} {s t : Session} {ws : List UInt32}

/-- A script that goes through does so event by event. -/
theorem play_cons_eq_ok_iff : play (e :: es) s = .ok ws t ↔
    ∃ u vs, perform e s = .ok () u ∧ play es u = .ok vs t ∧ e.written s ++ vs = ws := by
  constructor
  · intro hs
    obtain ⟨_, _, ⟨⟩, hs⟩ := bind_eq_ok_iff.1 hs
    obtain ⟨⟨⟩, u, hu, hs⟩ := bind_eq_ok_iff.1 hs
    obtain ⟨vs, _, hvs, ⟨⟩⟩ := bind_eq_ok_iff.1 hs
    exact ⟨u, vs, hu, hvs, rfl⟩
  · rintro ⟨u, vs, hu, hvs, rfl⟩
    exact bind_eq_ok_iff.2 ⟨s, s, rfl, bind_eq_ok_iff.2 ⟨(), u, hu, bind_eq_ok_iff.2 ⟨vs, t, hvs, rfl⟩⟩⟩

/-- What each event keeps, a script keeps. -/
theorem play_keeps {P : Event → Prop} {I : Session → Prop}
    (hkeeps : ∀ e s u, P e → I s → perform e s = .ok () u → I u) (hes : ∀ e ∈ es, P e) (h : I s)
    (hs : play es s = .ok ws t) : I t := by
  induction es generalizing s ws with
  | nil =>
    cases hs
    exact h
  | cons e es ih =>
    obtain ⟨u, vs, hu, hvs, -⟩ := play_cons_eq_ok_iff.1 hs
    have hnext := hkeeps e s u (hes e List.mem_cons_self) h hu
    exact ih (fun e he => hes e (List.mem_cons_of_mem _ he)) hnext hvs

end Step

/-! ## Who is to blame for a stop -/

/-- Parts of the pool disagree: about the lease, the cursors of the ring or the size of a buffer. -/
def Refusal.internal : Refusal → Bool
  | .alreadyLeased | .notLeased => true
  | .outOfOrderShrink _ | .shrinkLargerThanGrant _ _ | .outOfOrderRelease _ _ => true
  | .sizeMismatch _ _ | .busy _ => true
  | _ => false

def Stop.internal : Stop → Bool
  | .fatal r => r.internal
  | .fault (.overflow _) => true
  | _ => false

/-- A stop for which the pool is not to blame, whatever session it leaves. -/
def Stop.External (e : Stop) (_ : Session) : Prop := e.internal = false

end CommandPool
