import CommandPool.Failure
/-!
# Guest memory

A window of words at a base address. A word is accessible when its address is not below the
base, is a multiple of four, and its distance from the base, counted in whole words, is less than
the size of the window. Every other access is a fault.

| here | there |
| --- | --- |
| `Memory` | `HostMemory`; `zeroed` is `HostMemory::new` |
| `index` | `HostMemory::slot` |
| `read`, `write`, `readBytes` | `read_u32`, `write_u32`, `read_bytes` |
-/
namespace CommandPool

structure Memory where
  base : Address
  words : Array UInt32
deriving DecidableEq, Repr

namespace Memory

/-- A window of `size` zero words. -/
def zeroed (base : Address) (size : Nat) : Memory := ⟨base, .replicate size 0⟩

/-- The position in the window of the word at an address. -/
def index (m : Memory) (a : Address) : Except Fault (Fin m.words.size) :=
  if a.raw < m.base.raw ∨ ¬ a.IsWord then .error (.badAccess a)
  else if h : a.wordsSince m.base < m.words.size then .ok ⟨a.wordsSince m.base, h⟩
  else .error (.outsideWindow a)

def read (m : Memory) (a : Address) : Except Fault UInt32 :=
  (m.index a).map fun i => m.words[i]

def write (m : Memory) (a : Address) (w : UInt32) : Except Fault Memory :=
  (m.index a).map fun i => { m with words := m.words.set i.val w i.isLt }

/-- The words at `count` consecutive addresses from `a` on. -/
def readWords (m : Memory) (a : Address) (count : Nat) : Except Fault (List UInt32) :=
  (List.range count).mapM fun i => m.read (a.addWords i)

/-- The four bytes of a word in the order the guest stores them, the most significant first. -/
def bytesOf (w : UInt32) : List UInt8 :=
  [(w >>> 24).toUInt8, (w >>> 16).toUInt8, (w >>> 8).toUInt8, w.toUInt8]

def readBytes (m : Memory) (a : Address) : Except Fault (List UInt8) :=
  (m.read a).map bytesOf

end Memory

end CommandPool
