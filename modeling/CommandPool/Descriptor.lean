import CommandPool.Config
import CommandPool.Guest.Memory
/-!
# Command buffer descriptors

A descriptor says where the words of one command buffer live, how many are written and how many
there is room for. Its storage is a grant of the ring or a display list of the application.

Writing goes through `OpenBuffer`, a descriptor together with the memory its storage lies in.
Words are appended at the cursor; padding appends filler up to an aligned length. Neither
changes anything when it is refused.

| here | there |
| --- | --- |
| `Descriptor` | `CommandBuffer` |
| `slot`, `backing`, `stamp` | `id` (a `DescriptorId`), `display_list`, `submit_time` (64 bits there, no bound here) |
| `used`, `capacity`, `start` | `cur_size`, `max_size`, `buffer` |
| `blank`, `bind`, `remaining`, `Fits` | `CommandBuffer::new`, `bind`, `remaining`, `fits` |
| `sizeBytes`, `cursor`, `text` | `size_bytes`, `cursor`, the debug text |
| `OpenBuffer.push`, `pad` | `CommandBuffer::push`, `pad` |
| `OpenBuffer.pushAll` | `ActiveBuffer::write_all`, which narrows the length to 32 bits before `fits` |
-/
namespace CommandPool

/-- Who owns the storage of a buffer. -/
inductive Backing where
  | ring
  | displayList
deriving DecidableEq, Repr

/-- Sizes are in words. -/
structure Descriptor where
  /-- The place of the descriptor among those kept for reuse; `none` if it is not kept. -/
  slot : Option Nat
  backing : Backing
  /-- The timestamp the queue gave the buffer; zero until it is submitted. -/
  stamp : Nat
  used : Nat
  capacity : Nat
  start : Address
deriving DecidableEq, Repr

namespace Descriptor

/-- A descriptor without storage. -/
def blank (slot : Option Nat) : Descriptor := ⟨slot, .ring, 0, 0, 0, .null⟩

/-- The same descriptor on new storage, not submitted. -/
def bind (d : Descriptor) (start : Address) (used capacity : Nat) (backing : Backing) :
    Descriptor :=
  ⟨d.slot, backing, 0, used, capacity, start⟩

/-- Words still free. -/
def remaining (d : Descriptor) : Except Overflow Nat := Counter.sub d.capacity d.used

/-- Room for `n` more words. -/
def Fits (d : Descriptor) (n : Nat) : Prop := d.used + n ≤ d.capacity

instance (d : Descriptor) (n : Nat) : Decidable (d.Fits n) := inferInstanceAs (Decidable (_ ≤ _))

def sizeBytes (d : Descriptor) : Except Overflow Nat := Counter.mul d.used wordBytes

/-- The address of the next word. -/
def cursor (d : Descriptor) : Address := d.start.addWords d.used

/-- The words written so far, as they stand in memory; `none` if they cannot all be read. -/
def contents (d : Descriptor) (m : Memory) : Option (List UInt32) :=
  (m.readWords d.start d.used).toOption

/-! ### Text -/

def slotText (d : Descriptor) : String :=
  "Descriptor#" ++ match d.slot with
    | some n => toString n
    | none => "unpooled"

/-- All fields of a descriptor, for diagnostics. -/
def text (d : Descriptor) : String :=
  "CommandBuffer \x7b id: " ++ d.slotText
    ++ ", display_list: " ++ (if d.backing = .displayList then "true" else "false")
    ++ ", submit_time: " ++ toString d.stamp
    ++ ", cur_size: " ++ toString d.used
    ++ ", max_size: " ++ toString d.capacity
    ++ ", buffer: GuestAddr(" ++ d.start.text ++ ") \x7d"

end Descriptor

/-! ## Writing -/

structure OpenBuffer where
  buffer : Descriptor
  memory : Memory
deriving DecidableEq, Repr

namespace OpenBuffer

/-- Store a word at the cursor and move past it, whether or not there is room for it. -/
def append (w : UInt32) (b : OpenBuffer) : Outcome OpenBuffer Unit :=
  match b.memory.write b.buffer.cursor w with
  | .error f => .error (.fault f) b
  | .ok m => .ok () ⟨{ b.buffer with used := b.buffer.used + 1 }, m⟩

/-- Append one word. -/
def push (w : UInt32) (b : OpenBuffer) : Outcome OpenBuffer Unit :=
  if b.buffer.capacity ≤ b.buffer.used then .error (.refused .bufferOverflow) b
  else b.append w

/-- Append words one by one, up to the first that fails. -/
def pushEach : List UInt32 → OpenBuffer → Outcome OpenBuffer Unit
  | [], b => .ok () b
  | w :: ws, b =>
    match b.push w with
    | .ok () b => pushEach ws b
    | .error f b => .error f b

/-- Append a run of words. The room is looked at first, for the length of the run as a counter
holds it. -/
def pushAll (ws : List UInt32) (b : OpenBuffer) : Outcome OpenBuffer Unit :=
  if b.buffer.Fits (ws.length % Counter.bound) then b.pushEach ws
  else .error (.refused .bufferOverflow) b

/-- Append `n` filler words. -/
def fill : Nat → OpenBuffer → Outcome OpenBuffer Unit
  | 0, b => .ok () b
  | n + 1, b =>
    match b.append padWord with
    | .ok () b => fill n b
    | .error f b => .error f b

/-- Fill up to an aligned length; a buffer that is aligned already is left as it is. -/
def pad (align : Nat) (b : OpenBuffer) : Outcome OpenBuffer Unit :=
  match Counter.alignUp b.buffer.used align with
  | .error o => .error (.fault (.overflow o)) b
  | .ok aligned =>
    if b.buffer.capacity < aligned then
      .error (.refused (.padOverflow aligned b.buffer.capacity)) b
    else b.fill (aligned - b.buffer.used)

end OpenBuffer

end CommandPool
