/-!
# 32-bit counters

Sizes, offsets and word counts are kept as natural numbers. The console counts in 32-bit
registers, so a sum, difference or product that does not fit one has no value: it is an
`Overflow`, and the operation that asked for it stops there.

| here | there |
| --- | --- |
| `Counter.add`, `sub`, `mul` | `+`, `-` and `*` on 32-bit numbers, overflow checks on |
| `Counter.clampedMul` | `saturating_mul` |
| `Counter.alignUp` | `align_up` |

Timestamps and statistics count in 64 bits there. They only ever grow by one, and are natural numbers
without a bound here: 2^64 events are out of reach. The modules that hold them say so
(`Guest/Timeline`, `Console`, `Ring/Basic`, `Arena`).
-/
namespace CommandPool

/-- The arithmetic operation whose result does not fit a counter. -/
inductive Overflow where
  | add
  | subtract
  | multiply
deriving DecidableEq, Repr

/-- The message of an overflow. -/
def Overflow.message : Overflow → String
  | .add => "attempt to add with overflow"
  | .subtract => "attempt to subtract with overflow"
  | .multiply => "attempt to multiply with overflow"

namespace Counter

/-- The number of values of a counter, 2^32. -/
def bound : Nat := 0x100000000

/-- The largest value of a counter. -/
def largest : Nat := bound - 1

def add (a b : Nat) : Except Overflow Nat :=
  if a + b < bound then .ok (a + b) else .error .add

def sub (a b : Nat) : Except Overflow Nat :=
  if b ≤ a then .ok (a - b) else .error .subtract

def mul (a b : Nat) : Except Overflow Nat :=
  if a * b < bound then .ok (a * b) else .error .multiply

theorem add_eq_ok_iff {a b c : Nat} : add a b = .ok c ↔ a + b < bound ∧ a + b = c := by
  unfold add
  split <;> rename_i h <;> simp [h]

theorem sub_eq_ok_iff {a b c : Nat} : sub a b = .ok c ↔ b ≤ a ∧ a - b = c := by
  unfold sub
  split <;> rename_i h <;> simp [h]

theorem mul_eq_ok_iff {a b c : Nat} : mul a b = .ok c ↔ a * b < bound ∧ a * b = c := by
  unfold mul
  split <;> rename_i h <;> simp [h]

/-- A product that stops at the largest counter. -/
def clampedMul (a b : Nat) : Nat := min (a * b) largest

/-- `value` rounded up by masking the low bits of `align`, so to a multiple of `align` when
`align` is a power of two. -/
def alignUp (value align : Nat) : Except Overflow Nat := do
  let past ← add value align
  let last ← sub past 1
  let low ← sub align 1
  return last &&& (largest - low)

example : alignUp 5 8 = .ok 8 ∧ alignUp 8 8 = .ok 8 := ⟨rfl, rfl⟩

example : alignUp largest 2 = .error .add ∧ alignUp 0 0 = .error .subtract :=
  ⟨rfl, rfl⟩

end Counter

end CommandPool
