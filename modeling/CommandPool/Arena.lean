import CommandPool.Descriptor
/-!
# Descriptor arena

Descriptors that come back are handed out again, the last one first. The free ones form a stack
threaded through a table: `links` holds, for each slot on the stack, the slot below it. When the
stack is empty the next slot that was never used is taken, and when there is none left the
descriptor has no slot and is dropped on its return.

A slot is whatever a returned descriptor says it is. One of another arena, or one that is on the
stack already, is pushed all the same if it is below the capacity, so the table may then be
cyclic.

| here | there |
| --- | --- |
| `Arena` | `BufferRecycler`; `fresh` has the same name, `top` is the link in `head` |
| `created`, `reused`, `unpooled` | `RecyclerStats`, in 64 bits there and without a bound here |
| `take`, `give`, `push` | `BufferRecycler::take`, `give`, `push` |
| the first case of `take` | `BufferRecycler::pop` |

A link is an optional slot here, and the slot plus one, or zero, there: `Proofs/LinkTable` has the
links as they are there.
-/
namespace CommandPool

structure Arena where
  /-- For each slot the one below it on the stack. -/
  links : Array (Option Nat)
  /-- The slot on top of the stack. -/
  top : Option Nat
  /-- The first slot that was never used. -/
  fresh : Nat
  /-- Descriptors handed out on a slot for its first time. -/
  created : Nat
  /-- Descriptors handed out again. -/
  reused : Nat
  /-- Descriptors handed out without a slot. -/
  unpooled : Nat
deriving DecidableEq, Repr

namespace Arena

/-- An arena none of whose slots was ever used. -/
def ofCapacity (capacity : Nat) : Arena := ⟨.replicate capacity none, none, 0, 0, 0, 0⟩

def capacity (a : Arena) : Nat := a.links.size

/-- The slot below `s` on the stack. -/
def below (a : Arena) (s : Nat) : Option Nat := a.links.getD s none

/-- A descriptor on the slot on top of the stack, or else on a fresh one, or else on none. -/
def take (a : Arena) : Descriptor × Arena :=
  match a.top with
  | some s => (.blank (some s), { a with top := a.below s, reused := a.reused + 1 })
  | none =>
    if a.fresh < a.capacity then
      (.blank (some a.fresh), { a with fresh := a.fresh + 1, created := a.created + 1 })
    else (.blank none, { a with unpooled := a.unpooled + 1 })

/-- Put a slot on top of the stack. -/
def push (a : Arena) (s : Nat) : Arena :=
  { a with links := a.links.setIfInBounds s a.top, top := some s }

/-- Take a descriptor back; one without a slot here is dropped. -/
def give (d : Descriptor) (a : Arena) : Arena :=
  match d.slot with
  | some s => if s < a.capacity then a.push s else a
  | none => a

@[simp] theorem capacity_ofCapacity (n : Nat) : (ofCapacity n).capacity = n := by
  simp [ofCapacity, capacity]

@[simp] theorem capacity_take (a : Arena) : a.take.2.capacity = a.capacity := by
  unfold take
  split
  · rfl
  · split <;> rfl

@[simp] theorem capacity_give (d : Descriptor) (a : Arena) : (a.give d).capacity = a.capacity := by
  unfold give
  split
  · split
    · simp [push, capacity]
    · rfl
  · rfl

end Arena

end CommandPool
