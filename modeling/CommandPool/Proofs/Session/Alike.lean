import CommandPool.Proofs.Guest.Memory
import CommandPool.Proofs.Session.MoveCalls
/-!
# Sessions that are alike for the main core

Two sessions are `Alike` when the main core cannot tell them apart: they have the same ring and
configuration, and the same buffers in its slot and in the queue, but for the descriptors' places in the
arena. In the slots of other cores the first session may have lists, in storage `A`, whose words are not
looked at.

`Follows A top x x' Q`: wherever `x` answers, `x'` does in a session that is alike, their answers are
related by `Q`, and the sessions they leave are alike again. A stop of `x` asks nothing of `x'`. There is
one rule for each way a step is made up, and one for a wait.
-/
namespace CommandPool

/-! ## Descriptors -/

namespace Descriptor

/-- The same descriptor with no place in the arena. -/
def anonymous (d : Descriptor) : Descriptor := { d with slot := none }

/-- The same descriptor, but for its place in the arena. -/
inductive Renamed (d : Descriptor) : Descriptor → Prop
  | intro (slot : Option Nat) : Renamed d { d with slot := slot }

theorem renamed_iff {d d' : Descriptor} : d.Renamed d' ↔ d'.anonymous = d.anonymous := by
  constructor
  · rintro ⟨slot⟩
    rfl
  · intro h
    obtain ⟨slot, backing, stamp, used, capacity, start⟩ := d
    obtain ⟨slot', backing', stamp', used', capacity', start'⟩ := d'
    simp only [anonymous, mk.injEq, true_and] at h
    obtain ⟨rfl, rfl, rfl, rfl, rfl⟩ := h
    exact .intro slot'

theorem rel_renamed_iff {o o' : Option Descriptor} :
    Option.Rel Renamed o o' ↔ o'.map anonymous = o.map anonymous := by
  cases o <;> cases o' <;> simp [renamed_iff]

end Descriptor

open Descriptor (Renamed)

/-! ## Memory -/

/-- Storage by its start and its words. -/
abbrev Storages := List (Address × Nat)

/-- The word at `a` is one of the storage `A`. -/
def Storages.Has (A : Storages) (a : Address) : Prop := ∃ st ∈ A, ∃ i < st.2, a = st.1.addWords i

/-- Memories that agree on all words that are not in `A`. -/
structure Memory.Agree (A : Storages) (m m' : Memory) : Prop where
  window : m.SameWindow m'
  read : ∀ a, ¬ A.Has a → m'.read a = m.read a

variable {A : Storages}

namespace Memory.Agree

variable {m m' u : Memory} {a : Address} {w : UInt32}

theorem refl (A : Storages) (m : Memory) : Agree A m m := ⟨.refl m, fun _ _ => rfl⟩

/-- A word is written on both sides. -/
theorem write (h : Agree A m m') (hw : m.write a w = .ok u) : ∃ u', m'.write a w = .ok u' ∧ Agree A u u' := by
  have hw' := write_of_accessible (h.window.accessible.2 (accessible_of_write hw)) w
  have hu := sameWindow_write hw
  have hu' := sameWindow_write hw'
  refine ⟨_, hw', ⟨?_, ?_⟩, fun b hb => ?_⟩
  · rw [hu'.base, h.window.base, hu.base]
  · rw [hu'.size, h.window.size, hu.size]
  · by_cases hne : b = a
    · rw [hne, read_write_self hw', read_write_self hw]
    · rw [read_write_of_ne hw' hne, read_write_of_ne hw hne, h.read b hb]

/-- A word of `A` is written on one side. -/
theorem write_aside (h : Agree A m m') (ha : A.Has a) (hw : m.write a w = .ok u) : Agree A u m' := by
  have hu := sameWindow_write hw
  refine ⟨⟨?_, ?_⟩, fun b hb => ?_⟩
  · rw [h.window.base, hu.base]
  · rw [h.window.size, hu.size]
  · rw [h.read b hb, read_write_of_ne hw]
    rintro rfl
    exact hb ha

end Memory.Agree

/-! ## Buffers -/

namespace OpenBuffer

/-- The same buffer, but for its descriptor's place in the arena, in memories that agree. -/
structure Twin (A : Storages) (b b' : OpenBuffer) : Prop where
  buffer : b.buffer.Renamed b'.buffer
  memory : b.memory.Agree A b'.memory

/-- What is done to a buffer is done to its twin. -/
def Even {α : Type} (f : OpenBuffer → Outcome OpenBuffer α) : Prop :=
  ∀ (A : Storages) (b b' u : OpenBuffer) (a : α), Twin A b b' → f b = .ok a u →
    ∃ u', f b' = .ok a u' ∧ Twin A u u'

theorem even_append (w : UInt32) : Even (append w) := by
  rintro A ⟨d, m⟩ ⟨-, m'⟩ u a ⟨⟨slot⟩, hm⟩ hu
  unfold append at hu
  split at hu <;> cases hu
  rename_i v hv
  obtain ⟨v', hv', hagree⟩ := hm.write hv
  refine ⟨⟨{ d with slot := slot, used := d.used + 1 }, v'⟩, ?_, ⟨slot⟩, hagree⟩
  rw [append, show Descriptor.cursor { d with slot := slot } = d.cursor from rfl, hv']

/-- One thing after another. -/
theorem Even.andThen {f g : OpenBuffer → Outcome OpenBuffer Unit} (hf : Even f) (hg : Even g) :
    Even fun b => match f b with
      | .ok () b => g b
      | .error e b => .error e b := by
  intro A b b' u a h hu
  dsimp only at hu ⊢
  split at hu
  · rename_i v hv
    obtain ⟨v', hv', htwin⟩ := hf A b b' v () h hv
    rw [hv']
    exact hg A v v' u a htwin hu
  · cases hu

theorem even_push (w : UInt32) : Even (push w) := by
  rintro A ⟨d, m⟩ ⟨-, m'⟩ u a ⟨⟨slot⟩, hm⟩ hu
  unfold push at hu ⊢
  split at hu
  · cases hu
  · rw [if_neg ‹_›]
    exact even_append w A _ _ u a ⟨⟨slot⟩, hm⟩ hu

theorem even_pushEach (ws : List UInt32) : Even (pushEach ws) := by
  induction ws with
  | nil =>
    rintro A b b' u a h ⟨⟩
    exact ⟨b', rfl, h⟩
  | cons w ws ih => exact (even_push w).andThen ih

theorem even_pushAll (ws : List UInt32) : Even (pushAll ws) := by
  rintro A ⟨d, m⟩ ⟨-, m'⟩ u a ⟨⟨slot⟩, hm⟩ hu
  unfold pushAll at hu ⊢
  split at hu
  · rw [if_pos (by assumption)]
    exact even_pushEach ws A _ _ u a ⟨⟨slot⟩, hm⟩ hu
  · cases hu

theorem even_fill (n : Nat) : Even (fill n) := by
  induction n with
  | zero =>
    rintro A b b' u a h ⟨⟩
    exact ⟨b', rfl, h⟩
  | succ n ih => exact (even_append padWord).andThen ih

theorem even_pad (align : Nat) : Even (pad align) := by
  rintro A ⟨d, m⟩ ⟨-, m'⟩ u a ⟨⟨slot⟩, hm⟩ hu
  unfold pad at hu ⊢
  split at hu
  · cases hu
  rename_i aligned haligned
  simp only [haligned] at hu ⊢
  split at hu
  · cases hu
  · rw [if_neg ‹_›]
    exact even_fill _ A _ _ u a ⟨⟨slot⟩, hm⟩ hu

end OpenBuffer

/-! ## Sessions -/

/-- What the main core `k` has of two sessions is the same: the ring and its lease, its slot, the queue and
the timeline, the waits and the overruns so far, and the words in memory that are not in `A`. -/
structure Undisturbed (A : Storages) (k : Core) (s s' : Session) : Prop where
  ring : s'.pool.ring = s.pool.ring
  leased : s'.pool.leases.leased = s.pool.leases.leased
  slot : (s'.pool.leases.active k).map Descriptor.anonymous = (s.pool.leases.active k).map Descriptor.anonymous
  held : s'.pool.leases.held k = s.pool.leases.held k
  submitted : s'.console.submitted.map Descriptor.anonymous = s.console.submitted.map Descriptor.anonymous
  timeline : s'.console.timeline = s.console.timeline
  waits : s'.journal.waits = s.journal.waits
  overruns : s'.journal.overruns = s.journal.overruns
  memory : s.console.memory.Agree A s'.console.memory

/-- The callers of both sessions are as in `top`. What is to come is the same too, and other cores of the
first one record into storage of `A`. -/
structure Alike (A : Storages) (top : Topology) (s s' : Session) : Prop
    extends Undisturbed A top.main s s' where
  topology : s.console.topology = top
  topology' : s'.console.topology = top
  config : s'.pool.config = s.pool.config
  lastStamp : s'.console.lastStamp = s.console.lastStamp
  idle : s'.console.idle = s.console.idle
  ahead : s'.console.ahead = s.console.ahead
  offers : s'.console.offers = s.console.offers
  others : ∀ c d, c ≠ top.main → s.pool.leases.active c = some d →
    d.backing = .displayList ∧ (d.start, d.capacity) ∈ A

variable {top : Topology} {s s' : Session}

theorem Alike.setActive (h : Alike A top s s') {o o' : Option Descriptor} (ho : Option.Rel Renamed o o') :
    Alike A top { s with pool := { s.pool with leases := s.pool.leases.setActive top.main o } }
      { s' with pool := { s'.pool with leases := s'.pool.leases.setActive top.main o' } } := by
  refine { h with slot := ?_, held := ?_, others := fun c d hc hd => ?_ }
  · simp only [Leases.active_setActive_self]
    exact Descriptor.rel_renamed_iff.1 ho
  · simp only [Leases.held_setActive, h.held]
  · rw [Leases.active_setActive_of_ne _ _ hc] at hd
    exact h.others c d hc hd

theorem Alike.setHeld (h : Alike A top s s') (held : Bool) :
    Alike A top { s with pool := { s.pool with leases := s.pool.leases.setHeld top.main held } }
      { s' with pool := { s'.pool with leases := s'.pool.leases.setHeld top.main held } } := by
  refine { h with slot := ?_, held := ?_, others := fun c d hc hd => ?_ }
  · simp only [Leases.active_setHeld, h.slot]
  · simp [Leases.held, Leases.setHeld, PerCore.modify]
  · rw [Leases.active_setHeld] at hd
    exact h.others c d hc hd

/-! ## Steps -/

namespace Step

variable {α β α' β' : Type}

/-- Where `x` answers, `x'` does, from sessions that are alike. -/
def Follows (A : Storages) (top : Topology) (x : Step α) (x' : Step α') (Q : α → α' → Prop) : Prop :=
  ∀ s s', Alike A top s s' → Meets Anyhow x s fun a t =>
    ∃ a' t', x' s' = .ok a' t' ∧ Q a a' ∧ Alike A top t t'

namespace Follows

variable {x : Step α} {x' : Step α'} {f : α → Step β} {f' : α' → Step β'} {Q : α → α' → Prop}
  {P : β → β' → Prop}

theorem bind (hx : Follows A top x x' Q) (hf : ∀ a a', Q a a' → Follows A top (f a) (f' a') P) :
    Follows A top (x >>= f) (x' >>= f') P := by
  intro s s' h
  rw [meets_bind]
  refine (hx s s' h).imp ?_
  rintro a t ⟨a', t', hx', hq, ht⟩
  refine (hf a a' hq t t' ht).imp ?_
  rintro b u ⟨b', u', hf', hp, hu⟩
  exact ⟨b', u', bind_eq_ok_iff.2 ⟨a', t', hx', hf'⟩, hp, hu⟩

theorem pure {a : α} {a' : α'} (h : Q a a') : Follows A top (pure a) (pure a') Q :=
  fun _ s' hs => ⟨a', s', rfl, h, hs⟩

theorem throw {e : Stop} : Follows A top (throw e : Step α) x' Q := fun _ _ _ => trivial

theorem fatal {e : Refusal} : Follows A top (fatal e : Step α) x' Q := fun _ _ _ => trivial

theorem ite {c : Prop} [Decidable c] {y : Step α} {y' : Step α'} (hx : c → Follows A top x x' Q)
    (hy : ¬ c → Follows A top y y' Q) : Follows A top (if c then x else y) (if c then x' else y') Q := by
  split
  · exact hx ‹_›
  · exact hy ‹_›

/-- What is not refused goes on. -/
theorem guard {c : Prop} [Decidable c] {e e' : Refusal} {f : Unit → Step α} {f' : Unit → Step α'}
    (hf : ¬ c → Follows A top (f ()) (f' ()) Q) :
    Follows A top (if c then Step.fatal e >>= f else f ()) (if c then Step.fatal e' >>= f' else f' ()) Q :=
  ite (fun _ => bind (Q := fun _ _ => False) fatal fun _ _ h => h.elim) hf

/-- What is read of the sessions is for the rest to use. -/
theorem get {f : Session → Step β} {f' : Session → Step β'}
    (hf : ∀ s s', Alike A top s s' → Follows A top (f s) (f' s') P) :
    Follows A top (get >>= f) (get >>= f') P := fun s s' h => hf s s' h s s' h

theorem modify {f f' : Session → Session} (hf : ∀ s s', Alike A top s s' → Alike A top (f s) (f' s')) :
    Follows A top (modify f) (modify f') fun _ _ => True :=
  fun s s' h => ⟨(), f' s', rfl, trivial, hf s s' h⟩

theorem onConsole {f f' : Console → Console} (hf : ∀ s s', Alike A top s s' →
      Alike A top { s with console := f s.console } { s' with console := f' s'.console }) :
    Follows A top (onConsole f) (onConsole f') fun _ _ => True := modify hf

/-- Log records are not compared. -/
theorem report (rs rs' : List Record) : Follows A top (report rs) (report rs') fun _ _ => True :=
  modify fun _ _ h => { h with }

theorem debug (text text' : String) : Follows A top (debug text) (debug text') fun _ _ => True :=
  report _ _

theorem currentCore : Follows A top currentCore currentCore fun c c' => c = top.current ∧ c' = top.current :=
  fun s s' h => ⟨_, s', rfl, ⟨by rw [h.topology], by rw [h.topology']⟩, h⟩

theorem mainCore : Follows A top mainCore mainCore fun c c' => c = top.main ∧ c' = top.main :=
  fun s s' h => ⟨_, s', rfl, ⟨by rw [h.topology], by rw [h.topology']⟩, h⟩

theorem config : Follows A top config config fun c c' => c' = c :=
  fun _ s' h => ⟨_, s', rfl, h.config, h⟩

theorem checked (o : Except Overflow α) : Follows A top (checked o) (checked o) fun a a' => a' = a := by
  cases o with
  | ok a => exact pure rfl
  | error o => exact throw

/-! ### The pool -/

theorem onRing (f : Ring → Outcome Ring α) :
    Follows A top (onPool (Pool.onRing f)) (onPool (Pool.onRing f)) fun a a' => a' = a := by
  intro s s' h
  rw [meets_onRing]
  cases hf : f s.pool.ring with
  | error e r => trivial
  | ok a r =>
    refine ⟨a, { s' with pool := { s'.pool with ring := r } }, ?_, rfl, { h with ring := rfl }⟩
    simp only [onPool, Pool.onRing, h.ring, hf]

theorem lease : Follows A top (onPool (Pool.onLeases Leases.lease)) (onPool (Pool.onLeases Leases.lease))
    fun _ _ => True := by
  intro s s' h
  rw [meets_onLeases]
  unfold Leases.lease
  by_cases hleased : s.pool.leases.leased = true
  · rw [if_pos hleased]
    trivial
  · rw [if_neg hleased]
    refine ⟨(), { s' with pool := { s'.pool with leases := { s'.pool.leases with leased := true } } }, ?_,
      trivial, { h with leased := rfl }⟩
    rw [← h.leased] at hleased
    simp only [onPool, Pool.onLeases, if_neg hleased]

theorem unlease : Follows A top (onPool (Pool.onLeases Leases.unlease))
    (onPool (Pool.onLeases Leases.unlease)) fun _ _ => True := by
  intro s s' h
  rw [meets_onLeases]
  unfold Leases.unlease
  by_cases hleased : s.pool.leases.leased = true
  · rw [if_pos hleased]
    refine ⟨(), { s' with pool := { s'.pool with leases := { s'.pool.leases with leased := false } } }, ?_,
      trivial, { h with leased := rfl }⟩
    rw [← h.leased] at hleased
    simp only [onPool, Pool.onLeases, if_pos hleased]
  · rw [if_neg hleased]
    trivial

theorem borrow : Follows A top (onPool (Pool.borrow top.main)) (onPool (Pool.borrow top.main))
    (Option.Rel Renamed) := by
  intro s s' h
  rw [meets_borrow]
  refine ⟨fun _ => trivial, fun hheld => ⟨_, s', ?_, Descriptor.rel_renamed_iff.2 h.slot, h⟩⟩
  rw [← h.held] at hheld
  simp only [onPool, Pool.borrow, Leases.borrow, hheld]
  rfl

theorem active : Follows A top (onPool (Pool.active top.main)) (onPool (Pool.active top.main))
    (Option.Rel Renamed) :=
  fun _ s' h => ⟨_, s', rfl, Descriptor.rel_renamed_iff.2 h.slot, h⟩

theorem setActive {o o' : Option Descriptor} (ho : Option.Rel Renamed o o') :
    Follows A top (onPool (Pool.setActive top.main o)) (onPool (Pool.setActive top.main o'))
      fun _ _ => True :=
  fun _ _ h => ⟨(), _, rfl, trivial, h.setActive ho⟩

theorem openWriter : Follows A top (openWriter top.main) (Step.openWriter top.main) fun _ _ => True :=
  fun _ _ h => ⟨(), _, rfl, trivial, h.setHeld true⟩

theorem dropWriter : Follows A top (dropWriter top.main) (Step.dropWriter top.main) fun _ _ => True :=
  fun _ _ h => ⟨_, _, rfl, trivial, h.setHeld false⟩

/-- Where a descriptor comes from does not matter but for its place in the arena. -/
theorem takeDescriptor : Follows A top (onPool Pool.takeDescriptor) (onPool Pool.takeDescriptor) Renamed := by
  have hblank (a : Arena) : a.take.1.anonymous = .blank none := by
    unfold Arena.take
    repeat' split
    all_goals rfl
  intro s s' h
  refine ⟨_, { s' with pool := { s'.pool with arena := s'.pool.arena.take.2 } }, rfl, ?_, { h with }⟩
  rw [Descriptor.renamed_iff, hblank, hblank]

theorem giveDescriptor (d d' : Descriptor) :
    Follows A top (onPool (Pool.giveDescriptor d)) (onPool (Pool.giveDescriptor d')) fun _ _ => True :=
  fun _ s' h =>
    ⟨(), { s' with pool := { s'.pool with arena := s'.pool.arena.give d' } }, rfl, trivial, { h with }⟩

theorem tryAcquire (words : Nat) :
    Follows A top (onPool (Pool.tryAcquire words)) (onPool (Pool.tryAcquire words)) fun o o' => o' = o := by
  intro s s' h
  rw [meets_tryAcquire]
  cases hr : s.pool.ring.acquire words with
  | ok a r =>
    refine ⟨some a, { s' with pool := { s'.pool with ring := r } }, ?_, rfl, { h with ring := rfl }⟩
    simp only [onPool, Pool.tryAcquire, h.ring, hr]
  | error e r =>
    dsimp only
    split
    · subst e
      refine ⟨none, { s' with pool := { s'.pool with ring := r } }, ?_, rfl, { h with ring := rfl }⟩
      simp only [onPool, Pool.tryAcquire, h.ring, hr]
    · trivial

theorem tryDrained :
    Follows A top (onPool Pool.tryDrained) (onPool Pool.tryDrained) fun o o' => o' = o := by
  refine fun s s' h => ⟨_, s', rfl, ?_, h⟩
  simp only [h.ring]

/-- Writing into the buffer of the main core. -/
theorem onActive {f : OpenBuffer → Outcome OpenBuffer α} (hf : OpenBuffer.Even f) :
    Follows A top (onActive top.main f) (Step.onActive top.main f) fun a a' => a' = a := by
  intro s s' h
  rw [meets_onActive]
  have hslot := Descriptor.rel_renamed_iff.2 h.slot
  cases hd : s.pool.leases.active top.main with
  | none => trivial
  | some d =>
    rw [hd] at hslot
    generalize hd' : s'.pool.leases.active top.main = o' at hslot
    obtain ⟨hrenamed⟩ := hslot
    dsimp only
    cases hb : f ⟨d, s.console.memory⟩ with
    | error e b => trivial
    | ok a b =>
      obtain ⟨b', hb', htwin⟩ := hf A _ ⟨_, s'.console.memory⟩ b a ⟨hrenamed, h.memory⟩ hb
      refine ⟨a, stored top.main b' s', ?_, rfl, ?_⟩
      · simp only [Step.onActive, hd', hb']
        rfl
      · exact { h.setActive (.some htwin.buffer) with memory := htwin.memory }

end Follows

end Step

end CommandPool
