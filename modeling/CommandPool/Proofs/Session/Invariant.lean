import CommandPool.Proofs.Session.Ledger
import CommandPool.Proofs.Session.Logic
/-!
# The pool between its calls

Between calls (`AtRest`) the buffer of the ring that is open, if there is one, stands in the slot of
the main core and holds the lease; the other slots hold display lists only. Within a call the slot
of the main core may be vacant for a while: its buffer was submitted, or the next one is on its way
(`Vacant`). The ledger is balanced all the time.

The consumer is free to act in between. What it does leaves the slots alone (`Consuming`).
-/
namespace CommandPool

/-- What may stand in the slot of `c` when `k` is the main core. -/
def Descriptor.Seated (R : Region) (k c : Core) (d : Descriptor) : Prop :=
  match d.backing with
  | .ring => c = k
  | .displayList => d.used ≤ d.capacity ∧ R.Clear d.start d.capacity

/-- The buffer of the ring in the slot of the main core. -/
def Ledger.openRing (l : Ledger) : Option Descriptor :=
  (l.leases.active l.main).filter (·.backing = .ring)

structure AtRest (R : Region) (k : Core) (ws : List UInt32) (l : Ledger) : Prop where
  main : l.main = k
  seated : ∀ c d, l.leases.active c = some d → d.Seated R k c
  balanced : Balanced R l.openRing ws l
  leased : l.leases.leased = l.openRing.isSome

/-- `o` is on its way to the slot of the main core. -/
structure Vacant (R : Region) (k : Core) (o : Option Descriptor) (leased : Bool) (ws : List UInt32)
    (l : Ledger) : Prop where
  main : l.main = k
  seated : ∀ c d, l.leases.active c = some d → d.Seated R k c
  balanced : Balanced R o ws l
  vacant : l.leases.active k = none
  leased : l.leases.leased = leased

variable {R : Region} {k c : Core} {o : Option Descriptor} {ws : List UInt32} {l l' : Ledger} {b : Bool}

theorem Balanced.leases (h : Balanced R o ws l) (x : Leases) : Balanced R o ws { l with leases := x } :=
  ⟨h.ring, h.padAlign, h.layout, h.finished, h.opened, h.offers, h.words⟩

/-! ## The slots -/

theorem AtRest.openRing_eq (h : AtRest R k ws l) :
    l.openRing = (l.leases.active k).filter (·.backing = .ring) := by
  rw [Ledger.openRing, h.main]

/-- A buffer of the ring stands in the slot of the main core only. -/
theorem AtRest.ring_at (h : AtRest R k ws l) {d : Descriptor} (hd : l.leases.active c = some d)
    (hring : d.backing = .ring) : c = k ∧ l.openRing = some d := by
  have hc : c = k := by
    have := h.seated c d hd
    unfold Descriptor.Seated at this
    rw [hring] at this
    exact this
  refine ⟨hc, ?_⟩
  rw [h.openRing_eq, ← hc, hd]
  simp [hring]

/-- It holds the lease, and its words are accounted for. -/
theorem AtRest.ring_open (h : AtRest R k ws l) {d : Descriptor} (hd : l.leases.active c = some d)
    (hring : d.backing = .ring) : l.leases.leased = true ∧ Balanced R (some d) ws l := by
  have ho := (h.ring_at hd hring).2
  have hbal := h.balanced
  have hleased := h.leased
  rw [ho] at hbal hleased
  exact ⟨hleased, hbal⟩

theorem AtRest.list_at (h : AtRest R k ws l) {d : Descriptor} (hd : l.leases.active c = some d)
    (hlist : d.backing = .displayList) : d.used ≤ d.capacity ∧ R.Clear d.start d.capacity := by
  have := h.seated c d hd
  unfold Descriptor.Seated at this
  rw [hlist] at this
  exact this

theorem AtRest.used_le (h : AtRest R k ws l) {d : Descriptor} (hd : l.leases.active c = some d) :
    d.used ≤ d.capacity := by
  cases hb : d.backing with
  | ring => exact (h.balanced.opened d (h.ring_at hd hb).2).2
  | displayList => exact (h.list_at hd hb).1

theorem AtRest.remaining_eq (h : AtRest R k ws l) {d : Descriptor} (hd : l.leases.active c = some d) :
    d.remaining = .ok (d.capacity - d.used) := Counter.sub_eq_ok_iff.2 ⟨h.used_le hd, rfl⟩

theorem Vacant.atRest (h : Vacant R k none false ws l) : AtRest R k ws l := by
  have ho : l.openRing = none := by rw [Ledger.openRing, h.main, h.vacant]; rfl
  exact ⟨h.main, h.seated, ho ▸ h.balanced, by rw [ho]; exact h.leased⟩

theorem AtRest.vacant (h : AtRest R k ws l) (hk : l.leases.active k = none) :
    Vacant R k none false ws l := by
  have ho : l.openRing = none := by rw [h.openRing_eq, hk]; rfl
  exact ⟨h.main, h.seated, ho ▸ h.balanced, hk, by rw [h.leased, ho]; rfl⟩

/-- The slots after one of them was set. -/
theorem seated_setActive {x : Leases} (h : ∀ c d, x.active c = some d → d.Seated R k c)
    (ho : ∀ d, o = some d → d.Seated R k c) :
    ∀ c' d, (x.setActive c o).active c' = some d → d.Seated R k c' := by
  intro c' d hd
  by_cases hc : c' = c
  · subst hc
    rw [Leases.active_setActive_self] at hd
    exact ho d hd
  · rw [Leases.active_setActive_of_ne x o hc] at hd
    exact h c' d hd

/-- A ledger that is balanced for the buffer in the slot of the main core. -/
theorem atRest_seat (hmain : l.main = k) (hseated : ∀ c d, l.leases.active c = some d → d.Seated R k c)
    (hbal : Balanced R o ws l) (hleased : l.leases.leased = o.isSome) :
    AtRest R k ws { l with leases := l.leases.setActive k o } := by
  have hring : ∀ d, o = some d → d.backing = .ring := fun d hd => (hbal.opened d hd).1
  have ho : ({ l with leases := l.leases.setActive k o } : Ledger).openRing = o := by
    rw [Ledger.openRing, hmain, Leases.active_setActive_self]
    cases o with
    | none => rfl
    | some d => simp [hring d rfl]
  refine ⟨hmain, seated_setActive hseated ?_, ?_, ?_⟩
  · intro d hd
    unfold Descriptor.Seated
    rw [hring d hd]
  · rw [ho]
    exact hbal.leases _
  · rw [ho]
    exact hleased

/-- The buffer on its way arrives. -/
theorem Vacant.seat (h : Vacant R k o o.isSome ws l) :
    AtRest R k ws { l with leases := l.leases.setActive k o } :=
  atRest_seat h.main h.seated h.balanced h.leased

/-- A slot without a buffer of the ring is set to a display list, or emptied. -/
theorem AtRest.setList (h : AtRest R k ws l)
    (hc : ∀ d, l.leases.active c = some d → d.backing = .displayList)
    (ho : ∀ d, o = some d → d.backing = .displayList ∧ d.used ≤ d.capacity ∧ R.Clear d.start d.capacity) :
    AtRest R k ws { l with leases := l.leases.setActive c o } := by
  have hsame : ({ l with leases := l.leases.setActive c o } : Ledger).openRing = l.openRing := by
    rw [Ledger.openRing, h.openRing_eq, h.main]
    by_cases hk : k = c
    · subst hk
      rw [Leases.active_setActive_self]
      have hnone : ∀ x : Option Descriptor, (∀ d, x = some d → d.backing = .displayList) →
          x.filter (·.backing = .ring) = none := by
        rintro (_ | d) hx
        · rfl
        · simp [hx d rfl]
      rw [hnone o fun d hd => (ho d hd).1, hnone _ hc]
    · rw [Leases.active_setActive_of_ne l.leases o hk]
  refine ⟨h.main, seated_setActive h.seated ?_, ?_, ?_⟩
  · intro d hd
    unfold Descriptor.Seated
    rw [(ho d hd).1]
    exact (ho d hd).2
  · rw [hsame]
    exact h.balanced.leases _
  · rw [hsame]
    exact h.leased

/-- Writers come and go. -/
theorem AtRest.setHeld (h : AtRest R k ws l) (c : Core) (held : Bool) :
    AtRest R k ws { l with leases := l.leases.setHeld c held } := by
  have ho : ({ l with leases := l.leases.setHeld c held } : Ledger).openRing = l.openRing := by
    rw [Ledger.openRing, Leases.active_setHeld, Ledger.openRing]
  refine ⟨h.main, fun c' d hd => h.seated c' d ?_, ?_, ?_⟩
  · rw [← hd, Leases.active_setHeld]
  · rw [ho]
    exact h.balanced.leases _
  · rw [ho]
    exact h.leased

/-! ## The consumer -/

structure SameSlots (l l' : Ledger) : Prop where
  leases : l'.leases = l.leases
  main : l'.main = l.main

theorem SameSlots.refl (l : Ledger) : SameSlots l l := ⟨rfl, rfl⟩

theorem SameSlots.trans {l'' : Ledger} (h : SameSlots l l') (h' : SameSlots l' l'') : SameSlots l l'' :=
  ⟨h'.leases.trans h.leases, h'.main.trans h.main⟩

theorem AtRest.same (h : AtRest R k ws l) (hs : SameSlots l l') (hb : Balanced R l.openRing ws l') :
    AtRest R k ws l' := by
  have ho : l'.openRing = l.openRing := by rw [Ledger.openRing, hs.leases, hs.main, Ledger.openRing]
  refine ⟨hs.main.trans h.main, ?_, ho ▸ hb, ?_⟩
  · rw [hs.leases]
    exact h.seated
  · rw [hs.leases, ho]
    exact h.leased

theorem Vacant.same (h : Vacant R k o b ws l) (hs : SameSlots l l') (hb : Balanced R o ws l') :
    Vacant R k o b ws l' := by
  refine ⟨hs.main.trans h.main, ?_, hb, ?_, ?_⟩ <;> rw [hs.leases]
  · exact h.seated
  · exact h.vacant
  · exact h.leased

namespace Step

variable {α β : Type} {s : Session}

/-- A step that keeps the ledger balanced, in whatever state it is taken, and leaves the slots
alone. -/
def Consuming (x : Step α) : Prop := ∀ (R : Region) (o : Option Descriptor) (ws : List UInt32) (s : Session),
  Balanced R o ws s.ledger → Meets Stop.External x s fun _ t =>
    Balanced R o ws t.ledger ∧ SameSlots s.ledger t.ledger

theorem Consuming.bind {x : Step α} {f : α → Step β} (hx : Consuming x) (hf : ∀ a, Consuming (f a)) :
    Consuming (x >>= f) := by
  intro R o ws s h
  rw [meets_bind]
  refine Meets.imp (hx R o ws s h) ?_
  rintro a t ⟨ht, hs⟩
  exact (hf a R o ws t ht).imp fun _ u ⟨hu, hs'⟩ => ⟨hu, hs.trans hs'⟩

theorem consuming_pure (a : α) : Consuming (pure a) :=
  fun _ _ _ _ h => ⟨h, .refl _⟩

theorem consuming_get : Consuming get := fun _ _ _ _ h => ⟨h, .refl _⟩

theorem consuming_throw {e : Stop} (he : e.internal = false) : Consuming (throw e : Step α) :=
  fun _ _ _ _ _ => he

/-- What is not in the ledger does not matter. -/
theorem consuming_modify {f : Session → Session} (h : ∀ s, (f s).ledger = s.ledger) :
    Consuming (modify f) := by
  intro R o ws s hs
  rw [meets_modify, h]
  exact ⟨hs, .refl _⟩

theorem consuming_onConsole {f : Console → Console}
    (h : ∀ s : Session, ({ s with console := f s.console } : Session).ledger = s.ledger) :
    Consuming (onConsole f) := consuming_modify h

theorem consuming_advance : Consuming advance := fun _ _ _ _ h => ⟨h, .refl _⟩

theorem consuming_freeOldest : Consuming freeOldest := by
  intro R o ws s h
  unfold freeOldest
  rw [meets_bind, meets_get]
  cases hsub : s.console.submitted with
  | nil =>
    exact ⟨h, .refl _⟩
  | cons d rest =>
    have hfin := h.finished d (by rw [Session.ledger, hsub]; exact List.mem_cons_self)
    simp only [meets_bind, meets_onConsole, execute, meets_modify, Pool.free, ne_eq, hfin,
      not_true_eq_false, if_false]
    cases hd : d.backing with
    | ring =>
      obtain ⟨r, hr, hbal⟩ := h.free hsub hd
      simp only [Session.ledger] at hr
      simp only [if_true, meets_onPool_bind, meets_onRing, meets_giveDescriptor, meets_pure, hr]
      exact ⟨hbal, rfl, rfl⟩
    | displayList =>
      have hbal := h.free_list hsub hd
      simp only [reduceCtorEq, if_false, meets_giveDescriptor, meets_pure]
      exact ⟨hbal, rfl, rfl⟩

theorem consuming_retireOne : Consuming retireOne := by
  refine consuming_freeOldest.bind fun freed => ?_
  cases freed with
  | true => exact consuming_advance.bind fun _ => consuming_pure true
  | false => exact consuming_pure false

theorem consuming_freeSome (n : Nat) : Consuming (freeSome n) := by
  induction n with
  | zero => exact consuming_pure ()
  | succ n ih =>
    refine consuming_freeOldest.bind fun freed => ?_
    cases freed with
    | true => exact ih
    | false => exact consuming_pure ()

theorem consuming_freeAhead : Consuming freeAhead := by
  refine consuming_get.bind fun t => ?_
  cases t.console.ahead with
  | nil => exact consuming_pure ()
  | cons n rest =>
    refine .bind (consuming_onConsole ?_) fun _ => consuming_freeSome n
    exact fun _ => rfl

/-- **Waiting** lets the consumer do its work, as much of it as it likes. -/
theorem consuming_await : Consuming await := by
  refine consuming_get.bind fun t => .bind (consuming_modify ?_) fun _ =>
    consuming_freeAhead.bind fun _ => consuming_get.bind fun u => ?_
  · exact fun _ => rfl
  cases u.console.idle with
  | succ n =>
    refine .bind (consuming_onConsole ?_) fun _ => consuming_advance
    exact fun _ => rfl
  | zero =>
    refine consuming_retireOne.bind fun retired => ?_
    cases retired with
    | true => exact consuming_pure ()
    | false => exact consuming_throw rfl

/-! ### On a pool at rest, and in a call -/

theorem Consuming.atRest {x : Step α} (hx : Consuming x) (h : AtRest R k ws s.ledger) :
    Meets Stop.External x s fun _ t => AtRest R k ws t.ledger :=
  (hx _ _ _ s h.balanced).imp fun _ _ ⟨ht, hs⟩ => h.same hs ht

theorem Consuming.vacant {x : Step α} (hx : Consuming x) (h : Vacant R k o b ws s.ledger) :
    Meets Stop.External x s fun _ t => Vacant R k o b ws t.ledger :=
  (hx _ _ _ s h.balanced).imp fun _ _ ⟨ht, hs⟩ => h.same hs ht

end Step

end CommandPool
