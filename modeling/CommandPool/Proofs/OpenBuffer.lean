import CommandPool.Proofs.Guest.Memory
import CommandPool.Proofs.Rounding
import CommandPool.Proofs.Session.Script
/-!
# Writing word by word

Whatever is appended to a buffer is appended one word at a time, at the cursor, while there is room.
So a property of buffers that a single word keeps (`Appends`) is kept by every way of writing
(`Writes`). When one fails the pool is not to blame: there was no room, or the storage does not lie
in guest memory.

Words that find room are written if memory takes them, and stand behind the earlier ones then, with
nothing else changed (`Writes.appended`).
-/
namespace CommandPool

namespace OpenBuffer

/-- `P ws b`, read as: `ws` was written so far. One more word may be appended. -/
def Appends (P : List UInt32 → OpenBuffer → Prop) : Prop :=
  ∀ ws b w m, P ws b → b.buffer.used < b.buffer.capacity →
    b.memory.write b.buffer.cursor w = .ok m →
    P (ws ++ [w]) ⟨{ b.buffer with used := b.buffer.used + 1 }, m⟩

/-- What is made of `b` is that the words `ws` are appended to it, one by one. -/
def Writes (b : OpenBuffer) (ws : List UInt32) (r : Outcome OpenBuffer Unit) : Prop :=
  ∀ P, Appends P → ∀ old, P old b → match r with
    | .ok _ b' => P (old ++ ws) b'
    | .error e _ => e.toStop.internal = false

variable {b : OpenBuffer}

theorem write_error {m : Memory} {a : Address} {w : UInt32} {f : Fault} (h : m.write a w = .error f) :
    (Stop.fault f).internal = false := by
  by_cases ha : m.Accessible a
  · rw [Memory.write_of_accessible ha] at h
    cases h
  · rw [Memory.write, Memory.index_of_not_accessible ha] at h
    cases h
    split <;> rfl

theorem writes_append (w : UInt32) (h : b.buffer.used < b.buffer.capacity) :
    b.Writes [w] (b.append w) := by
  intro P hP old hb
  unfold append
  cases hw : b.memory.write b.buffer.cursor w with
  | error f => exact write_error hw
  | ok m => exact hP old b w m hb h hw

theorem writes_push (w : UInt32) : b.Writes [w] (b.push w) := by
  unfold push
  split
  · exact fun _ _ _ _ => rfl
  · exact writes_append w (Nat.lt_of_not_le ‹_›)

/-- One write after another. -/
theorem Writes.trans {us vs : List UInt32} {x r : Outcome OpenBuffer Unit} (hx : b.Writes us x)
    (hok : ∀ b', x = .ok () b' → b'.Writes vs r) (herror : ∀ e b', x = .error e b' → r = .error e b') :
    b.Writes (us ++ vs) r := by
  intro P hP old hb
  have h := hx P hP old hb
  cases x with
  | error e b' =>
    rw [herror e b' rfl]
    exact h
  | ok a b' =>
    rw [← List.append_assoc]
    exact hok b' rfl P hP _ h

theorem writes_nil : b.Writes [] (.ok () b) := by
  intro P _ old hb
  simp only [List.append_nil]
  exact hb

/-- A run goes on after its first word, -/
theorem pushEach_of_ok {w : UInt32} {b' : OpenBuffer} (h : b.push w = .ok () b') (ws : List UInt32) :
    b.pushEach (w :: ws) = b'.pushEach ws := by
  rw [pushEach, h]

/-- and ends with it if that fails. -/
theorem pushEach_of_error {w : UInt32} {e : Failure} {b' : OpenBuffer} (h : b.push w = .error e b')
    (ws : List UInt32) : b.pushEach (w :: ws) = .error e b' := by
  rw [pushEach, h]

theorem writes_pushEach (ws : List UInt32) (b : OpenBuffer) : b.Writes ws (b.pushEach ws) := by
  induction ws generalizing b with
  | nil => exact writes_nil
  | cons w ws ih =>
    apply (writes_push w).trans
    · intro b' hb'
      rw [pushEach_of_ok hb']
      exact ih b'
    · intro e b' hb'
      exact pushEach_of_error hb' ws

theorem writes_pushAll (ws : List UInt32) : b.Writes ws (b.pushAll ws) := by
  unfold pushAll
  split
  · exact writes_pushEach ws b
  · exact fun _ _ _ _ => rfl

theorem append_ok {w : UInt32} {b' : OpenBuffer} (h : b.append w = .ok () b') :
    b'.buffer = { b.buffer with used := b.buffer.used + 1 } := by
  unfold append at h
  split at h <;> cases h
  rfl

/-- Filler words are words like others. -/
theorem fill_eq_pushEach {n : Nat} (h : b.buffer.used + n ≤ b.buffer.capacity) :
    b.fill n = b.pushEach (.replicate n padWord) := by
  induction n generalizing b with
  | zero => rfl
  | succ n ih =>
    rw [List.replicate_succ, fill, pushEach, push, if_neg (by omega)]
    cases hb : b.append padWord with
    | error e b' => rfl
    | ok a b' =>
      refine ih ?_
      rw [append_ok hb]
      simp only
      omega

theorem writes_fill (n : Nat) (b : OpenBuffer) (h : b.buffer.used + n ≤ b.buffer.capacity) :
    b.Writes (.replicate n padWord) (b.fill n) := by
  rw [fill_eq_pushEach h]
  exact writes_pushEach _ b

/-- Padding writes filler, unless the sum of size and alignment leaves the counter. -/
theorem writes_pad {align : Nat} (hused : b.buffer.used ≤ b.buffer.capacity) (hpos : 0 < align)
    (hsum : b.buffer.used + align < Counter.bound) : ∃ ws, b.Writes ws (b.pad align) := by
  obtain ⟨aligned, hup⟩ := alignUp_returns hpos hsum
  unfold pad
  rw [hup]
  simp only
  split
  · exact ⟨[], fun _ _ _ _ => rfl⟩
  · exact ⟨_, writes_fill _ b (by omega)⟩

/-! ## Storage

No way of writing gives a buffer other storage, whether or not there is room for what is written. -/

/-- A buffer may be written into, but lies where it lay. -/
structure SameStorage (d d' : Descriptor) : Prop where
  start : d'.start = d.start
  capacity : d'.capacity = d.capacity
  backing : d'.backing = d.backing

variable {b' : OpenBuffer}

theorem SameStorage.refl (d : Descriptor) : SameStorage d d := ⟨rfl, rfl, rfl⟩

theorem SameStorage.trans {d d' d'' : Descriptor} (h : SameStorage d d') (k : SameStorage d' d'') :
    SameStorage d d'' :=
  ⟨k.start.trans h.start, k.capacity.trans h.capacity, k.backing.trans h.backing⟩

theorem sameStorage_append {w : UInt32} (h : b.append w = .ok () b') :
    SameStorage b.buffer b'.buffer := by
  rw [append_ok h]
  exact ⟨rfl, rfl, rfl⟩

theorem sameStorage_push {w : UInt32} (h : b.push w = .ok () b') : SameStorage b.buffer b'.buffer := by
  unfold push at h
  split at h
  · cases h
  · exact sameStorage_append h

theorem sameStorage_pushEach {ws : List UInt32} (h : b.pushEach ws = .ok () b') :
    SameStorage b.buffer b'.buffer := by
  induction ws generalizing b with
  | nil =>
    cases h
    exact .refl _
  | cons w ws ih =>
    unfold pushEach at h
    split at h
    · exact (sameStorage_push ‹_›).trans (ih h)
    · cases h

theorem sameStorage_pushAll {ws : List UInt32} (h : b.pushAll ws = .ok () b') :
    SameStorage b.buffer b'.buffer := by
  unfold pushAll at h
  split at h
  · exact sameStorage_pushEach h
  · cases h

theorem sameStorage_fill {n : Nat} (h : b.fill n = .ok () b') : SameStorage b.buffer b'.buffer := by
  induction n generalizing b with
  | zero =>
    cases h
    exact .refl _
  | succ n ih =>
    unfold fill at h
    split at h
    · exact (sameStorage_append ‹_›).trans (ih h)
    · cases h

theorem sameStorage_pad {align : Nat} (h : b.pad align = .ok () b') :
    SameStorage b.buffer b'.buffer := by
  unfold pad at h
  split at h
  · cases h
  split at h
  · cases h
  · exact sameStorage_fill h

/-! ## Room

Words that find room are written if memory takes them. -/

/-- The words that are still free can all be accessed. -/
def Writable (b : OpenBuffer) : Prop :=
  ∀ i, b.buffer.used ≤ i → i < b.buffer.capacity → b.memory.Accessible (b.buffer.start.addWords i)

theorem writable_of_spans (h : b.memory.Spans b.buffer.start b.buffer.capacity) : b.Writable :=
  fun i _ hi => h i hi

theorem push_fits (hroom : b.buffer.used < b.buffer.capacity) (h : b.Writable) (w : UInt32) :
    ∃ m, b.push w = .ok () ⟨{ b.buffer with used := b.buffer.used + 1 }, m⟩ ∧
      b.memory.SameWindow m := by
  have hwrite := Memory.write_of_accessible (h _ (Nat.le_refl _) hroom) w
  refine ⟨_, ?_, Memory.sameWindow_write hwrite⟩
  rw [push, if_neg (Nat.not_le.2 hroom), append, Descriptor.cursor, hwrite]

/-- The rest of the storage can be written after a word as it could before. -/
theorem Writable.rest {m : Memory} (h : b.Writable) (hwindow : b.memory.SameWindow m) :
    Writable ⟨{ b.buffer with used := b.buffer.used + 1 }, m⟩ :=
  fun i hi hlt => hwindow.accessible.2 (h i (Nat.le_of_succ_le hi) hlt)

theorem pushEach_fits (ws : List UInt32) (hroom : b.buffer.used + ws.length ≤ b.buffer.capacity)
    (h : b.Writable) :
    ∃ m, b.pushEach ws = .ok () ⟨{ b.buffer with used := b.buffer.used + ws.length }, m⟩ ∧
      b.memory.SameWindow m := by
  induction ws generalizing b with
  | nil => exact ⟨b.memory, rfl, .refl _⟩
  | cons w ws ih =>
    rw [List.length_cons] at hroom ⊢
    obtain ⟨m, hpush, hwindow⟩ := push_fits (by omega) h w
    obtain ⟨m', hrest, hwindow'⟩ := ih (by simp only; omega) (h.rest hwindow)
    refine ⟨m', ?_, hwindow.trans hwindow'⟩
    rw [pushEach_of_ok hpush, hrest]
    simp only [Nat.add_assoc, Nat.add_comm 1]

/-- Words for which there is no room are refused once the room is used up. -/
theorem pushEach_tooLong (ws : List UInt32) (hused : b.buffer.used ≤ b.buffer.capacity)
    (hlong : b.buffer.capacity < b.buffer.used + ws.length) (h : b.Writable) :
    ∃ b', b.pushEach ws = .error (.refused .bufferOverflow) b' ∧
      b.pushEach (ws.take (b.buffer.capacity - b.buffer.used)) = .ok () b' := by
  induction ws generalizing b with
  | nil =>
    rw [List.length_nil] at hlong
    omega
  | cons w ws ih =>
    rw [List.length_cons] at hlong
    rcases Nat.eq_or_lt_of_le hused with hfull | hroom
    · refine ⟨b, ?_, ?_⟩
      · rw [pushEach, push, if_pos (Nat.le_of_eq hfull.symm)]
      · rw [hfull, Nat.sub_self, List.take_zero, pushEach]
    · obtain ⟨m, hpush, hwindow⟩ := push_fits hroom h w
      obtain ⟨b', hall, htaken⟩ := ih (by exact hroom) (by simp only; omega) (h.rest hwindow)
      refine ⟨b', (pushEach_of_ok hpush ws).trans hall, ?_⟩
      rw [show b.buffer.capacity - b.buffer.used = b.buffer.capacity - (b.buffer.used + 1) + 1 by omega,
        List.take_succ_cons, pushEach_of_ok hpush]
      exact htaken

/-- A run that finds room is written word by word. -/
theorem pushAll_eq_pushEach {ws : List UInt32}
    (hroom : b.buffer.used + ws.length ≤ b.buffer.capacity) : b.pushAll ws = b.pushEach ws := by
  -- the length as a counter holds it is not larger than the length
  have hfits : b.buffer.Fits (ws.length % Counter.bound) :=
    Nat.le_trans (Nat.add_le_add_left (Nat.mod_le ..) _) hroom
  rw [pushAll, if_pos hfits]

/-- A run that finds no room is refused, but if what a counter holds of its length does, only after the
room is used up. -/
theorem pushAll_letIn {ws : List UInt32} (hused : b.buffer.used ≤ b.buffer.capacity)
    (hlong : b.buffer.capacity < b.buffer.used + ws.length)
    (hfits : b.buffer.Fits (ws.length % Counter.bound)) (h : b.Writable) :
    ∃ b', b.pushAll ws = .error (.refused .bufferOverflow) b' ∧
      b.pushEach (ws.take (b.buffer.capacity - b.buffer.used)) = .ok () b' := by
  rw [pushAll, if_pos hfits]
  exact pushEach_tooLong ws hused hlong h

/-! ## What stands in memory then -/

/-- `b'` is `b` with the words `ws` behind those that were written, and nothing else is different. -/
structure Appended (b : OpenBuffer) (ws : List UInt32) (b' : OpenBuffer) : Prop where
  buffer : b'.buffer = { b.buffer with used := b.buffer.used + ws.length }
  window : b.memory.SameWindow b'.memory
  words : ∀ k w, ws[k]? = some w →
    b'.memory.read (b.buffer.start.addWords (b.buffer.used + k)) = .ok w
  others : ∀ a, (∀ k < ws.length, a ≠ b.buffer.start.addWords (b.buffer.used + k)) →
    b'.memory.read a = b.memory.read a

theorem Appended.nil (b : OpenBuffer) : b.Appended [] b := ⟨rfl, .refl _, by simp, fun _ _ => rfl⟩

/-- One more word leaves the others where they are, in storage without two places for one word. -/
theorem appends_appended (hshort : b.buffer.capacity ≤ 2 ^ 30) : Appends b.Appended := by
  rintro ws ⟨buffer, memory⟩ w m ⟨rfl, hwindow, hwords, hothers⟩ hroom hwrite
  simp only at hroom hwrite hwords hothers
  refine ⟨?_, hwindow.trans (Memory.sameWindow_write hwrite), ?_, ?_⟩
  · rw [List.length_append, List.length_singleton, ← Nat.add_assoc]
  · simp only [← Address.addWords_addWords] at hwords ⊢
    refine Memory.words_write hwords (by omega) ?_
    rw [Address.addWords_addWords]
    exact hwrite
  · intro a ha
    rw [List.length_append, List.length_singleton] at ha
    rw [Memory.read_write_of_ne hwrite (ha ws.length (by omega))]
    exact hothers a fun k hk => ha k (by omega)

/-- What was written, in whichever way, stands in memory. -/
theorem Writes.appended {ws : List UInt32} {x : Outcome OpenBuffer Unit} (h : b.Writes ws x)
    (hshort : b.buffer.capacity ≤ 2 ^ 30) (hx : x = .ok () b') : b.Appended ws b' := by
  have hall := h b.Appended (appends_appended hshort) [] (.nil b)
  rw [hx] at hall
  exact hall

end OpenBuffer

end CommandPool
