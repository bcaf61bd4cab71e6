import CommandPool.Descriptor
/-!
# Leases

Each core has one slot for the buffer it is writing into. A slot that a writer holds cannot be
borrowed again until the writer is dropped. Beside the slots one flag says whether the ring's
single lease is out.

| here | there |
| --- | --- |
| `Leases` | `LeaseRegistry`; `leased` is `pool_leased` |
| `Slot` | the mutex of a core's slot; it is `held` while its guard lives |
| `Activity` | `LeaseState` |
| `borrow` | `LeaseRegistry::slot` |
| `lease`, `unlease` | `lease_pool`, `unlease_pool` |
-/
namespace CommandPool

structure Slot where
  active : Option Descriptor
  /-- A writer holds the slot. -/
  held : Bool
deriving DecidableEq, Repr

structure Leases where
  slots : PerCore Slot
  /-- The lease on the ring is out. -/
  leased : Bool
deriving DecidableEq, Repr

/-- What a core is writing into. -/
inductive Activity where
  | idle
  | ringBuffer
  | displayList
deriving DecidableEq, Repr

namespace Slot

def empty : Slot := ⟨none, false⟩

def activity (s : Slot) : Activity :=
  match s.active with
  | none => .idle
  | some d => match d.backing with
    | .ring => .ringBuffer
    | .displayList => .displayList

end Slot

namespace Leases

/-- No core has a buffer and the lease is not out. -/
def allIdle : Leases := ⟨.same .empty, false⟩

def active (l : Leases) (c : Core) : Option Descriptor := (l.slots.get c).active

def held (l : Leases) (c : Core) : Bool := (l.slots.get c).held

/-- The buffer in the slot of `c`, unless a writer holds the slot. -/
def borrow (l : Leases) (c : Core) : Except Refusal (Option Descriptor) :=
  if l.held c then .error (.slotBorrowed c) else .ok (l.active c)

def setActive (l : Leases) (c : Core) (d : Option Descriptor) : Leases :=
  { l with slots := l.slots.modify c fun s => { s with active := d } }

def setHeld (l : Leases) (c : Core) (held : Bool) : Leases :=
  { l with slots := l.slots.modify c fun s => { s with held := held } }

@[simp] theorem active_allIdle (c : Core) : allIdle.active c = none := by
  simp [active, allIdle, Slot.empty]

@[simp] theorem active_setActive_self (l : Leases) (c : Core) (d : Option Descriptor) :
    (l.setActive c d).active c = d := by
  simp [active, setActive, PerCore.modify]

theorem active_setActive_of_ne (l : Leases) {c k : Core} (d : Option Descriptor) (h : k ≠ c) :
    (l.setActive c d).active k = l.active k := by
  simp [active, setActive, PerCore.modify, PerCore.get_set_of_ne _ _ h]

@[simp] theorem setActive_setActive (l : Leases) (c : Core) (d e : Option Descriptor) :
    (l.setActive c d).setActive c e = l.setActive c e := by
  simp [setActive, PerCore.modify]

@[simp] theorem setActive_active (l : Leases) (c : Core) : l.setActive c (l.active c) = l := by
  show { l with slots := l.slots.set c (l.slots.get c) } = l
  rw [PerCore.set_get]

@[simp] theorem held_setActive (l : Leases) (c k : Core) (d : Option Descriptor) :
    (l.setActive c d).held k = l.held k := by
  by_cases h : k = c
  · simp [held, setActive, PerCore.modify, h]
  · simp [held, setActive, PerCore.modify, PerCore.get_set_of_ne _ _ h]

@[simp] theorem active_setHeld (l : Leases) (c k : Core) (held : Bool) :
    (l.setHeld c held).active k = l.active k := by
  by_cases h : k = c
  · simp [active, setHeld, PerCore.modify, h]
  · simp [active, setHeld, PerCore.modify, PerCore.get_set_of_ne _ _ h]

@[simp] theorem leased_setActive (l : Leases) (c : Core) (d : Option Descriptor) :
    (l.setActive c d).leased = l.leased := rfl

/-- Take the lease on the ring. -/
def lease (l : Leases) : Outcome Leases Unit :=
  if l.leased then .error (.refused .alreadyLeased) l else .ok () { l with leased := true }

/-- Give the lease on the ring back. -/
def unlease (l : Leases) : Outcome Leases Unit :=
  if l.leased then .ok () { l with leased := false } else .error (.refused .notLeased) l

end Leases

end CommandPool
