import CommandPool.Failure
/-!
# Pool configuration

Four numbers fix a pool. A usable configuration has a minimum grant that is positive, at most
the maximum and a multiple of the padding alignment, which is a power of two.

| here | there |
| --- | --- |
| `Config` | `PoolConfig`: `min_alloc_words`, `max_alloc_words`, `pad_align_words`, `recycler_capacity` |
| `Config.defect?`, `validate` | `PoolConfig::validate` |
| `ConfigDefect.reason` | the reasons of `Error::InvalidConfig` |
| `padWord` | `PAD_WORD` |
-/
namespace CommandPool

/-- The filler written into padding. -/
def padWord : UInt32 := 0xBEEF2929

structure Config where
  /-- Least words of a ring grant. -/
  minGrant : Nat := 256
  /-- Most words of a ring grant. -/
  maxGrant : Nat := 131072
  /-- Padded buffers are a multiple of this many words long. -/
  padAlign : Nat := 8
  /-- Descriptors that are kept for reuse. -/
  descriptors : Nat := 4096
deriving DecidableEq, Repr

/-- What makes a configuration unusable. -/
inductive ConfigDefect where
  | zeroMinimum
  | minimumAboveMaximum
  | alignmentNotPowerOfTwo
  | minimumNotAligned
  | tooManyDescriptors
  | emptyRegion
deriving DecidableEq, Repr

def ConfigDefect.reason : ConfigDefect → String
  | .zeroMinimum => "minimum allocation is zero"
  | .minimumAboveMaximum => "minimum allocation exceeds maximum"
  | .alignmentNotPowerOfTwo => "padding alignment is not a power of two"
  | .minimumNotAligned => "minimum allocation is not pad aligned"
  | .tooManyDescriptors => "recycler capacity too large"
  | .emptyRegion => "pool region is empty"

def ConfigDefect.refusal (d : ConfigDefect) : Refusal := .invalidConfig d.reason

namespace Config

/-- A positive number with one bit set. -/
def isPowerOfTwo (n : Nat) : Bool := n != 0 && n &&& (n - 1) == 0

/-- The first defect in the order the fields are looked at. -/
def defect? (c : Config) : Option ConfigDefect :=
  if c.minGrant = 0 then some .zeroMinimum
  else if c.maxGrant < c.minGrant then some .minimumAboveMaximum
  else if !isPowerOfTwo c.padAlign then some .alignmentNotPowerOfTwo
  else if c.minGrant % c.padAlign ≠ 0 then some .minimumNotAligned
  else if c.descriptors = Counter.largest then some .tooManyDescriptors
  else none

def validate (c : Config) : Except Refusal Unit :=
  match c.defect? with
  | some d => .error d.refusal
  | none => .ok ()

/-- What a usable configuration promises. -/
theorem validate_eq_ok_iff (c : Config) :
    c.validate = .ok () ↔ 0 < c.minGrant ∧ c.minGrant ≤ c.maxGrant ∧ isPowerOfTwo c.padAlign = true ∧
      c.minGrant % c.padAlign = 0 ∧ c.descriptors ≠ Counter.largest := by
  have : c.validate = .ok () ↔ c.defect? = none := by
    unfold validate
    split <;> simp_all
  rw [this]
  unfold defect?
  repeat' split
  all_goals simp_all
  all_goals omega

end Config

end CommandPool
