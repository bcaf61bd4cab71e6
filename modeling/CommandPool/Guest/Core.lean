/-!
# Cores

The console has three cores. One of them is the main core, which alone drives the graphics
command stream; a caller that was never bound to a core counts as running on the main one.

| here | there |
| --- | --- |
| `Core` | `CoreId`; `ofIndex?` is `CoreId::new` |
| `PerCore` | an array of `CORE_COUNT` entries |
| `Topology` | `HostCores` seen from one caller; `onMain` is `on_main_core` |
-/
namespace CommandPool

inductive Core where
  | zero
  | one
  | two
deriving DecidableEq, Repr

namespace Core

def index : Core → Nat
  | .zero => 0
  | .one => 1
  | .two => 2

def ofIndex? : Nat → Option Core
  | 0 => some .zero
  | 1 => some .one
  | 2 => some .two
  | _ => none

def all : List Core := [.zero, .one, .two]

/-- How messages name a core. -/
def text (c : Core) : String := "core " ++ toString c.index

theorem ofIndex?_index (c : Core) : ofIndex? c.index = some c := by cases c <;> rfl

theorem mem_all (c : Core) : c ∈ all := by cases c <;> decide

end Core

instance (P : Core → Prop) [DecidablePred P] : Decidable (∀ c, P c) :=
  decidable_of_iff (∀ c ∈ Core.all, P c) ⟨fun h c => h c c.mem_all, fun h c _ => h c⟩

/-! ## Tables with one entry for each core -/

structure PerCore (α : Type) where
  zero : α
  one : α
  two : α
deriving DecidableEq, Repr

namespace PerCore

variable {α : Type}

def same (a : α) : PerCore α := ⟨a, a, a⟩

def get (t : PerCore α) : Core → α
  | .zero => t.zero
  | .one => t.one
  | .two => t.two

def set (t : PerCore α) (c : Core) (a : α) : PerCore α :=
  match c with
  | .zero => { t with zero := a }
  | .one => { t with one := a }
  | .two => { t with two := a }

def modify (t : PerCore α) (c : Core) (f : α → α) : PerCore α := t.set c (f (t.get c))

@[simp] theorem get_same (a : α) (c : Core) : (same a).get c = a := by cases c <;> rfl

@[simp] theorem get_set_self (t : PerCore α) (c : Core) (a : α) : (t.set c a).get c = a := by
  cases c <;> rfl

theorem get_set_of_ne (t : PerCore α) {c d : Core} (a : α) (h : d ≠ c) :
    (t.set c a).get d = t.get d := by
  cases c <;> cases d <;> simp_all [get, set]

@[simp] theorem set_set (t : PerCore α) (c : Core) (a b : α) : (t.set c a).set c b = t.set c b := by
  cases c <;> rfl

@[simp] theorem set_get (t : PerCore α) (c : Core) : t.set c (t.get c) = t := by
  cases c <;> rfl

end PerCore

/-! ## Who is running, and who drives graphics -/

structure Topology where
  main : Core
  /-- The core the caller was bound to, if any. -/
  bound : Option Core
deriving DecidableEq, Repr

namespace Topology

/-- Graphics run on core 1 unless the console says otherwise. -/
def standard : Topology := ⟨.one, none⟩

def current (t : Topology) : Core := t.bound.getD t.main

def onMain (t : Topology) : Bool := t.current == t.main

def enter (t : Topology) (c : Core) : Topology := { t with bound := some c }

end Topology

end CommandPool
