import CommandPool.Counter
/-!
# Guest addresses

An address is a byte position in the guest's 32-bit space. Arithmetic on addresses wraps around
that space; the distance between two addresses is therefore always defined.

| here | there |
| --- | --- |
| `Address` | `GuestAddr`; `isNull` is `is_null`, `isAligned` is `is_aligned` |
| `addBytes`, `addWords` | an address plus a count of bytes, `add_words` |
| `bytesSince`, `wordsSince` | the difference of two addresses, `words_since` |
| `text`, `wordBytes` | the display of `GuestAddr`, `WORD_SIZE` |
-/
namespace CommandPool

/-- Bytes of a command word. -/
def wordBytes : Nat := 4

structure Address where
  raw : UInt32
deriving DecidableEq, Ord, Repr

namespace Address

def null : Address := ⟨0⟩

def ofNat (n : Nat) : Address := ⟨.ofNat n⟩

def toNat (a : Address) : Nat := a.raw.toNat

def isNull (a : Address) : Bool := a.raw == 0

/-- No bit of `align - 1` is set in the address. -/
def isAligned (a : Address) (align : Nat) : Except Overflow Bool := do
  let low ← Counter.sub align 1
  return a.toNat &&& low == 0

/-- The address is a multiple of the word size. -/
def IsWord (a : Address) : Prop := a.toNat % wordBytes = 0

instance (a : Address) : Decidable a.IsWord := inferInstanceAs (Decidable (_ = _))

def addBytes (a : Address) (n : Nat) : Address := ⟨a.raw + .ofNat n⟩

def addWords (a : Address) (n : Nat) : Address := a.addBytes (n * wordBytes)

/-- Bytes from `b` up to `a`, going around the top of the space if `a` is below `b`. -/
def bytesSince (a b : Address) : Nat := (a.raw - b.raw).toNat

/-- Whole words from `b` up to `a`. -/
def wordsSince (a b : Address) : Nat := a.bytesSince b / wordBytes

/-- Eight lower-case hexadecimal digits. -/
def hex (a : Address) : String :=
  .ofList ((Nat.toDigits 16 a.toNat).leftpad 8 '0')

/-- How messages write an address. -/
def text (a : Address) : String := "0x" ++ a.hex

example : (Address.mk 0x1abcd).text = "0x0001abcd" := by decide +kernel

example : ((Address.mk 0xfffffffc).addWords 2, (Address.mk 4).wordsSince ⟨0xfffffffc⟩)
    = (⟨4⟩, 2) := by decide

end Address

end CommandPool
