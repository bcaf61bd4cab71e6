import CommandPool.Session.Buffers
/-!
# Display lists

A display list is storage of the application that is recorded into through the slot of a core.
On the main core recording takes the place of the ring buffer: beginning a list submits that
buffer, and finalizing the list opens a new one. The other cores record display lists only.

A list is padded before it is handed over, when it is finalized and when it is full and the
application is asked for storage to go on with.

Asking for room in the active buffer is here too, since it may find either kind.

| here | there |
| --- | --- |
| `beginDisplayList`, `finalizeDisplayList` | `begin_display_list`, `finalize_display_list` |
| `queueDisplayList` | `queue_display_list` |
| `recordedList` | `get_user_command_buffer` |
| `padActive` with `growDisplayList` | `grow_display_list` |
| `askForStorage` | `display_list_overrun` |
| `replaceActive`, `replaceRingBuffer` | `flush_and_grow`, and its branch for a ring buffer |
| `getBuffer` | `get_buffer` with `ensure_capacity` |
-/
namespace CommandPool

namespace Step

/-- Record into `storage` on the current core. -/
def beginDisplayList (storage : Address) (words : Nat) : Step Unit := do
  let core ← currentCore
  let active ← onPool (Pool.borrow core)
  if core = (← mainCore) ∧ active.any (·.backing = .ring) then
    submitActive core
  if (← onPool (Pool.active core)).isSome then
    fatal (.slotOccupied core)
  let d ← onPool Pool.takeDescriptor
  onPool (Pool.setActive core (some (d.bind storage 0 words .displayList)))
  debug ("CommandBufferPool: display list " ++ storage.text ++ " (" ++ toString words
    ++ " words) begun on " ++ core.text)

/-- Pad the active buffer of `c` and answer it with its size in bytes. -/
def padActive (c : Core) : Step (Descriptor × Nat) := do
  onActive c (OpenBuffer.pad (← config).padAlign)
  match ← onPool (Pool.active c) with
  | none => fatal (.noActiveBuffer c)
  | some d => return (d, ← checked d.sizeBytes)

/-- Stop recording into `storage`, which is the list that is recorded into at present. Answers
its padded size in bytes. -/
def finalizeDisplayList (storage : Address) : Step Nat := do
  let core ← currentCore
  match ← onPool (Pool.borrow core) with
  | none => fatal (.noActiveBuffer core)
  | some d =>
    if d.backing ≠ .displayList then
      fatal .notDisplayList
    if d.start ≠ storage then
      fatal (.displayListMismatch storage d.start)
    let (d, bytes) ← padActive core
    onPool (Pool.setActive core none)
    onPool (Pool.giveDescriptor d)
    if core = (← mainCore) then
      onPool (Pool.setActive core (← allocateMinimum))
    debug ("CommandBufferPool: display list " ++ storage.text ++ " finalized at "
      ++ toString bytes ++ " bytes")
    return bytes

/-- Submit a finished display list. -/
def queueDisplayList (storage : Address) (words : Nat) : Step Unit := do
  let d ← onPool Pool.takeDescriptor
  submit (d.bind storage words words .displayList)

/-- Storage and capacity of the list the current core records into; `none` while it writes into
a ring buffer. -/
def recordedList : Step (Option (Address × Nat)) := do
  let core ← currentCore
  match ← onPool (Pool.borrow core) with
  | none => fatal (.noActiveBuffer core)
  | some d => return if d.backing = .displayList then some (d.start, d.capacity) else none

/-! ## Room in the active buffer -/

/-- Put a question to the application; one it has no answer for is answered by nothing. -/
def askForStorage (question : Overrun) : Step (Option Storage) := do
  modify fun s =>
    { s with journal := { s.journal with overruns := s.journal.overruns ++ [question] } }
  match (← get).console.offers with
  | [] => return none
  | answer :: rest =>
    onConsole fun c => { c with offers := rest }
    return answer

/-- Go on recording in storage that the application supplies. -/
def growDisplayList (c : Core) (needed : Nat) : Step Unit := do
  let (d, bytes) ← padActive c
  match ← askForStorage ⟨d.start, bytes, Counter.clampedMul needed wordBytes⟩ with
  | none => fatal .overrunFailed
  | some next =>
    if next.start.isNull ∨ next.bytes = 0 then
      fatal .overrunFailed
    debug ("CommandBufferPool: display list overrun " ++ d.start.text ++ " -> "
      ++ next.start.text ++ " (" ++ toString next.bytes ++ " bytes)")
    onPool (Pool.setActive c (some (d.bind next.start 0 (next.bytes / wordBytes) .displayList)))

/-- Go on writing in another ring buffer. -/
def replaceRingBuffer (c : Core) (needed : Nat) : Step Unit := do
  submitActive c
  match ← allocate needed with
  | none => fatal (.notMainCore c)
  | some d => onPool (Pool.setActive c (some d))

/-- Replace the active buffer of `c`, which is full, by one with room for `needed` words. -/
def replaceActive (c : Core) (full : Descriptor) (needed : Nat) : Step Unit := do
  match full.backing with
  | .displayList => growDisplayList c needed
  | .ring => replaceRingBuffer c needed
  if let some d ← onPool (Pool.active c) then
    if ¬ d.Fits needed then
      fatal (.commandTooLarge needed (← checked d.remaining))

/-- Make room for `words` more words in the current core's buffer and open its writer. -/
def getBuffer (words : Nat) : Step Core := do
  let core ← currentCore
  match ← onPool (Pool.borrow core) with
  | none => fatal (.noActiveBuffer core)
  | some d =>
    if ¬ d.Fits words then
      replaceActive core d words
    openWriter core
    return core

end Step

end CommandPool
