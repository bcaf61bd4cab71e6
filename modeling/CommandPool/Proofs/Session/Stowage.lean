import CommandPool.Proofs.Arena
import CommandPool.Proofs.Session.Logic
/-!
# Where the descriptors are

A descriptor that the arena handed out is in the slot of a core, in the queue, or for a while in the
hands of a call; the slots of the arena that are not out are on its stack. `Stowed A hand` says so of a
pool, `hand` being what the call has in its hands, and says in passing that the storage of every list
that is recorded into, or may be, satisfies `A`.

Most of what a call does moves no descriptor (`Quiet`). The consumer takes one out of the queue and
gives it back, which is quiet as a whole.
-/
namespace CommandPool

variable {ds ds' hand : List Descriptor} {d d' : Descriptor} {c : Core}

/-! ## The arena and what is out -/

namespace Arena

variable {a : Arena}

/-- Each slot that was ever used is on the stack or belongs to one of `ds`, and only once. -/
def Shelved (a : Arena) (ds : List Descriptor) : Prop :=
  ∃ free, a.Linked a.top free ∧ (free ++ ds.filterMap Descriptor.slot).Perm (List.range a.created)

/-- Exactly the descriptors `ds` are out, in any order and whatever became of them but for their
slots. -/
def Lent (a : Arena) (ds : List Descriptor) : Prop :=
  ∃ (b : Borrower) (s : Shelf), b.Follows s ∧ b.arena = a ∧
    (b.out.map Descriptor.slot).Perm (ds.map Descriptor.slot)

theorem filterMap_slot (ds : List Descriptor) :
    ds.filterMap Descriptor.slot = (ds.map Descriptor.slot).reduceOption := by
  rw [List.reduceOption, List.filterMap_map]
  rfl

theorem Lent.shelved (h : a.Lent ds) : a.Shelved ds := by
  obtain ⟨b, s, hb, rfl, hout⟩ := h
  refine ⟨s.free, hb.linked, ?_⟩
  rw [hb.created, filterMap_slot]
  rw [hb.out] at hout
  exact ((hout.symm.filterMap id).append_left _).trans hb.slots

theorem lent_ofCapacity (n : Nat) : (ofCapacity n).Lent [] :=
  ⟨.ofCapacity n, .ofCapacity n, Borrower.follows_ofCapacity n, rfl, .refl _⟩

theorem Lent.of_perm (h : a.Lent ds) (hds : (ds.map Descriptor.slot).Perm (ds'.map Descriptor.slot)) :
    a.Lent ds' := by
  obtain ⟨b, s, hb, ha, hout⟩ := h
  exact ⟨b, s, hb, ha, hout.trans hds⟩

theorem Lent.take (h : a.Lent ds) : a.take.2.Lent (a.take.1 :: ds) := by
  obtain ⟨b, s, hb, rfl, hout⟩ := h
  refine ⟨_, _, hb.take, rfl, ?_⟩
  simp only [Borrower.ask, List.map_append, List.map_cons, List.map_nil]
  exact (List.perm_append_singleton _ _).trans (hout.cons _)

theorem Lent.give (h : a.Lent (d :: ds)) : (a.give d).Lent ds := by
  obtain ⟨b, s, hb, rfl, hout⟩ := h
  obtain ⟨taken, hmem, hslot⟩ := List.mem_map.1 (hout.mem_iff.2 List.mem_cons_self)
  obtain ⟨i, hi, hget⟩ := List.getElem_of_mem hmem
  have hgive := hb.give i d
  have hask : b.ask (.give i d) = { b with arena := b.arena.give d, out := b.out.eraseIdx i } := by
    simp only [Borrower.ask, List.getElem?_eq_getElem hi, hget, hslot]
  rw [hask] at hgive
  refine ⟨_, _, hgive, rfl, ?_⟩
  -- the one given back is the first of both lists, and what is left is the same
  have hback := (List.getElem_cons_eraseIdx_perm hi).map Descriptor.slot
  rw [hget, List.map_cons, hslot] at hback
  exact (hback.trans hout).cons_inv

end Arena

/-! ## The slots of the cores -/

namespace Leases

/-- The buffers in the slots of the cores. -/
def buffers (l : Leases) : List Descriptor := Core.all.filterMap l.active

/-- Those in the slots of the other cores. -/
def others (l : Leases) (c : Core) : List Descriptor := (Core.all.erase c).filterMap l.active

theorem buffers_perm (l : Leases) (c : Core) : l.buffers.Perm ((l.active c).toList ++ l.others c) := by
  refine ((List.perm_cons_erase c.mem_all).filterMap l.active).trans ?_
  rw [List.filterMap_cons, others]
  cases l.active c <;> exact .refl _

theorem buffers_setActive (l : Leases) (c : Core) (o : Option Descriptor) :
    (l.setActive c o).buffers.Perm (o.toList ++ l.others c) := by
  have h := (l.setActive c o).buffers_perm c
  have hrest : (l.setActive c o).others c = l.others c := by
    refine List.filterMap_congr fun k hk => active_setActive_of_ne l o ?_
    rintro rfl
    exact (List.Nodup.not_mem_erase (by decide) : k ∉ Core.all.erase k) hk
  rwa [active_setActive_self, hrest] at h

end Leases

/-! ## The pool -/

/-- The part of a session that says where its descriptors and its lists are. -/
structure Stowage where
  arena : Arena
  leases : Leases
  submitted : List Descriptor
  offers : List (Option Storage)

def Session.stowage (s : Session) : Stowage :=
  ⟨s.pool.arena, s.pool.leases, s.console.submitted, s.console.offers⟩

/-- What is in the slots and in the queue. -/
def Stowage.inUse (x : Stowage) : List Descriptor := x.leases.buffers ++ x.submitted

/-- Beside what is in use the call has `hand` in its hands. Lists lie where `A` says. -/
structure Stowed (A : Address → Nat → Prop) (hand : List Descriptor) (x : Stowage) : Prop where
  lent : x.arena.Lent (hand ++ x.inUse)
  lists : ∀ c d, x.leases.active c = some d → d.backing = .displayList → A d.start d.capacity
  offers : ∀ st, some st ∈ x.offers → A st.start (st.bytes / wordBytes)

variable {A : Address → Nat → Prop} {x : Stowage}

/-- The same slots of the arena, in another order. -/
theorem Stowed.rearrange {x' : Stowage} {hand' : List Descriptor} (h : Stowed A hand x)
    (harena : x'.arena = x.arena)
    (hperm : ((hand ++ x.inUse).map Descriptor.slot).Perm ((hand' ++ x'.inUse).map Descriptor.slot))
    (hlists : ∀ c d, x'.leases.active c = some d → d.backing = .displayList → A d.start d.capacity)
    (hoffers : ∀ st, some st ∈ x'.offers → some st ∈ x.offers) : Stowed A hand' x' :=
  ⟨harena ▸ h.lent.of_perm hperm, hlists, fun st hst => h.offers st (hoffers st hst)⟩

/-- Of the leases only the buffers count. -/
theorem Stowed.slots (h : Stowed A hand x) {l : Leases} (hl : l.active = x.leases.active) :
    Stowed A hand { x with leases := l } := by
  have hbuffers : l.buffers = x.leases.buffers := by rw [Leases.buffers, hl, Leases.buffers]
  refine h.rearrange rfl ?_ ?_ fun _ hst => hst
  · rw [Stowage.inUse, Stowage.inUse, hbuffers]
  · rw [hl]
    exact h.lists

/-- A descriptor is taken from the arena. -/
theorem Stowed.take (h : Stowed A hand x) :
    Stowed A (x.arena.take.1 :: hand) { x with arena := x.arena.take.2 } :=
  ⟨h.lent.take, h.lists, h.offers⟩

/-- Of a descriptor only the slot counts. -/
theorem Stowed.alter (h : Stowed A (d :: hand) x) (hslot : d'.slot = d.slot) : Stowed A (d' :: hand) x :=
  h.rearrange rfl (by simp [hslot]) h.lists fun _ hst => hst

/-- One is given back. -/
theorem Stowed.give (h : Stowed A (d :: hand) x) : Stowed A hand { x with arena := x.arena.give d } :=
  ⟨h.lent.give, h.lists, h.offers⟩

/-- One goes to the queue. -/
theorem Stowed.enqueue (h : Stowed A (d :: hand) x) :
    Stowed A hand { x with submitted := x.submitted ++ [d] } := by
  refine h.rearrange rfl (List.Perm.map _ ?_) h.lists fun _ hst => hst
  simp only [Stowage.inUse, ← List.append_assoc]
  exact (List.perm_append_singleton _ _).symm

/-- One is taken out of the queue. -/
theorem Stowed.dequeue (h : Stowed A hand x) {i : Nat} (hi : x.submitted[i]? = some d) :
    Stowed A (d :: hand) { x with submitted := x.submitted.eraseIdx i } := by
  obtain ⟨hlt, rfl⟩ := List.getElem?_eq_some_iff.1 hi
  refine h.rearrange rfl ?_ h.lists fun _ hst => hst
  have hback := (List.getElem_cons_eraseIdx_perm hlt).append_left (hand ++ x.leases.buffers)
  refine List.Perm.map _ ?_
  simp only [Stowage.inUse, ← List.append_assoc]
  exact hback.symm.trans List.perm_middle

/-- The slot of a core is set, and what was in it is in the hands of the call. -/
theorem Stowed.exchange {o : Option Descriptor} (h : Stowed A (o.toList ++ hand) x) (c : Core)
    (ho : ∀ d, o = some d → d.backing = .displayList → A d.start d.capacity) :
    Stowed A ((x.leases.active c).toList ++ hand) { x with leases := x.leases.setActive c o } := by
  refine h.rearrange rfl (List.Perm.map _ ?_) ?_ fun _ hst => hst
  · rw [List.perm_iff_count]
    intro e
    have hold := (x.leases.buffers_perm c).count_eq e
    have hnew := (x.leases.buffers_setActive c o).count_eq e
    simp only [Stowage.inUse, List.count_append] at hold hnew ⊢
    omega
  · intro k d hd hlist
    by_cases hk : k = c
    · subst hk
      exact ho d ((Leases.active_setActive_self ..).symm.trans hd) hlist
    · exact h.lists k d ((Leases.active_setActive_of_ne _ _ hk).symm.trans hd) hlist

/-- The slot of a core is emptied. -/
theorem Stowed.unseat (h : Stowed A hand x) (hd : x.leases.active c = some d) :
    Stowed A (d :: hand) { x with leases := x.leases.setActive c none } := by
  have h' := Stowed.exchange (o := none) h c (by simp)
  rwa [hd] at h'

/-- An empty slot is filled. -/
theorem Stowed.seat {o : Option Descriptor} (h : Stowed A (o.toList ++ hand) x) (hc : x.leases.active c = none)
    (ho : ∀ d, o = some d → d.backing = .displayList → A d.start d.capacity) :
    Stowed A hand { x with leases := x.leases.setActive c o } := by
  have h' := h.exchange c ho
  rwa [hc] at h'

/-- A buffer becomes another one in its slot, on the same slot of the arena. -/
theorem Stowed.rebind (h : Stowed A hand x) (hd : x.leases.active c = some d) (hslot : d'.slot = d.slot)
    (hlist : d'.backing = .displayList → A d'.start d'.capacity) :
    Stowed A hand { x with leases := x.leases.setActive c (some d') } := by
  have hnew : Stowed A ((some d').toList ++ hand) { x with leases := x.leases.setActive c none } :=
    (h.unseat hd).alter hslot
  have h' := hnew.seat (c := c) (Leases.active_setActive_self ..) fun e he => by cases he; exact hlist
  simpa only [Leases.setActive_setActive] using h'

namespace Step

variable {α β : Type} {s t : Session}

/-! ## Quiet steps -/

/-- What a step does that neither takes a buffer out of a slot nor puts one there. -/
structure Stows (A : Address → Nat → Prop) (hand : List Descriptor) (s t : Session) : Prop where
  stowed : Stowed A hand t.stowage
  active : t.pool.leases.active = s.pool.leases.active

/-- A step that does so whatever the call has in its hands. -/
def Quiet (x : Step α) : Prop := ∀ (A : Address → Nat → Prop) (hand : List Descriptor) (s : Session),
  Stowed A hand s.stowage → Meets Anyhow x s fun _ t => Stows A hand s t

theorem Quiet.bind {x : Step α} {f : α → Step β} (hx : Quiet x) (hf : ∀ a, Quiet (f a)) :
    Quiet (x >>= f) := by
  intro A hand s h
  rw [meets_bind]
  refine Meets.imp (hx A hand s h) ?_
  rintro a t ⟨ht, hactive⟩
  exact (hf a A hand t ht).imp fun _ u ⟨hu, hactive'⟩ => ⟨hu, hactive'.trans hactive⟩

theorem quiet_pure (a : α) : Quiet (pure a) := fun _ _ _ h => ⟨h, rfl⟩

theorem quiet_get : Quiet get := fun _ _ _ h => ⟨h, rfl⟩

theorem quiet_throw (e : Stop) : Quiet (throw e : Step α) := fun _ _ _ _ => trivial

/-- What is not stowed does not matter. -/
theorem quiet_modify {f : Session → Session} (h : ∀ s, (f s).stowage = s.stowage) : Quiet (modify f) := by
  intro A hand s hs
  rw [meets_modify]
  exact ⟨(h s).symm ▸ hs, congrArg (·.leases.active) (h s)⟩

theorem quiet_onConsole {f : Console → Console}
    (h : ∀ s : Session, ({ s with console := f s.console } : Session).stowage = s.stowage) :
    Quiet (onConsole f) := quiet_modify h

/-! ## The consumer -/

theorem quiet_advance : Quiet advance := fun _ _ _ h => ⟨h, rfl⟩

/-- A descriptor in the hands of the consumer is freed. -/
theorem free_stowed (h : Stowed A (d :: hand) s.stowage) :
    Meets Anyhow (onPool (Pool.free d)) s fun _ t => Stows A hand s t := by
  unfold Pool.free
  simp only [meets_onPool_ite, meets_onPool_bind, meets_onPool_fatal, meets_onRing, meets_giveDescriptor,
    anyhow, implies_true, true_and]
  refine fun _ => ⟨fun _ => ?_, fun _ => ⟨h.give, rfl⟩⟩
  split
  · exact ⟨h.give, rfl⟩
  · trivial

theorem quiet_execute (d : Descriptor) : Quiet (execute d) := by
  refine quiet_modify fun s => ?_
  split <;> rfl

theorem quiet_freeOldest : Quiet freeOldest := by
  intro A hand s h
  unfold freeOldest
  rw [meets_bind, meets_get]
  cases hsub : s.console.submitted with
  | nil => exact ⟨h, rfl⟩
  | cons d rest =>
    have hout := h.dequeue (i := 0) (d := d) (by simp [Session.stowage, hsub])
    simp only [Session.stowage, hsub, List.eraseIdx_cons_zero] at hout
    rw [meets_bind, meets_onConsole, meets_bind]
    refine Meets.imp (quiet_execute d A (d :: hand) _ hout) ?_
    rintro _ t ⟨ht, hactive⟩
    rw [meets_bind]
    refine Meets.imp (free_stowed ht) ?_
    rintro _ u ⟨hu, hactive'⟩
    exact ⟨hu, hactive'.trans hactive⟩

theorem quiet_freeSome (n : Nat) : Quiet (freeSome n) := by
  induction n with
  | zero => exact quiet_pure ()
  | succ n ih =>
    refine quiet_freeOldest.bind fun freed => ?_
    cases freed with
    | true => exact ih
    | false => exact quiet_pure ()

theorem quiet_freeAhead : Quiet freeAhead := by
  refine quiet_get.bind fun t => ?_
  cases t.console.ahead with
  | nil => exact quiet_pure ()
  | cons n rest =>
    refine .bind (quiet_onConsole ?_) fun _ => quiet_freeSome n
    exact fun _ => rfl

theorem quiet_retireOne : Quiet retireOne := by
  refine quiet_freeOldest.bind fun freed => ?_
  cases freed with
  | true => exact quiet_advance.bind fun _ => quiet_pure true
  | false => exact quiet_pure false

theorem quiet_await : Quiet await := by
  refine quiet_get.bind fun t => .bind (quiet_modify ?_) fun _ =>
    quiet_freeAhead.bind fun _ => quiet_get.bind fun u => ?_
  · exact fun _ => rfl
  cases u.console.idle with
  | succ n =>
    refine .bind (quiet_onConsole ?_) fun _ => quiet_advance
    exact fun _ => rfl
  | zero =>
    refine quiet_retireOne.bind fun retired => ?_
    cases retired with
    | true => exact quiet_pure ()
    | false => exact quiet_throw _

/-- What the pool does by itself, if it leaves the arena and the slots alone. -/
theorem quiet_onPool {f : Pool.Action α} (h : ∀ p a p', f p = .ok a p' →
    p'.arena = p.arena ∧ p'.leases.active = p.leases.active) : Quiet (onPool f) := by
  intro A hand s hs
  rw [meets_onPool]
  split
  · rename_i a p hp
    obtain ⟨harena, hactive⟩ := h _ _ _ hp
    refine ⟨?_, hactive⟩
    have hp := hs.slots (l := p.leases) hactive
    simp only [Session.stowage] at hp ⊢
    rw [harena]
    exact hp
  · trivial

/-- **Waiting.** If an attempt is quiet, so is the wait for it. -/
theorem quiet_waitFor {notice : Nat → List Record} {attempt : Pool.Action (Option α)}
    (h : Quiet (onPool attempt)) : Quiet (waitFor notice attempt) := by
  intro A hand s hs
  apply meets_waitFor (I := Stows A hand s) _ s ⟨hs, rfl⟩
  rintro t ⟨ht, hactive⟩
  refine Meets.imp (h A hand t ht) ?_
  rintro o u ⟨hu, hactive'⟩
  cases o with
  | some a => exact ⟨hu, hactive'.trans hactive⟩
  | none =>
    refine Meets.imp (quiet_await A hand _ hu) ?_
    rintro _ v ⟨hv, hactive''⟩
    exact ⟨hv, hactive''.trans (hactive'.trans hactive)⟩

end Step

end CommandPool
