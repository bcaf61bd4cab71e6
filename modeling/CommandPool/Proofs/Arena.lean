import CommandPool.Arena
import Mathlib
/-!
# The arena is a stack

Who takes descriptors from an arena and gives back only those that are out (`Borrower`) sees a
stack: the slot that came back last goes out first, then the slots that were never used, in their
order, and when all are out there are descriptors without a slot (`Shelf`). The table of links is
no more than that stack (`Arena.Linked`); what it holds for the slots that are out does not matter.

Main statement: `Borrower.stacked_run`, over every sequence of loans.
-/
namespace CommandPool

/-- What a borrower asks for. -/
inductive Loan where
  | take
  /-- Give back the `i`-th descriptor that is out. Its fields may have become those of `d`, but not
  its slot. -/
  | give (i : Nat) (d : Descriptor)
deriving DecidableEq, Repr

/-! ## The stack -/

/-- What an arena stands for. -/
structure Shelf where
  capacity : Nat
  /-- The slots that came back, the last one on top. -/
  free : List Nat
  /-- The first slot that was never used. -/
  fresh : Nat
  /-- The slots of the descriptors that are out, in the order they were taken. -/
  out : List (Option Nat)
deriving DecidableEq, Repr

namespace Shelf

def ofCapacity (n : Nat) : Shelf := ⟨n, [], 0, []⟩

/-- The slot that goes out next, if there is one. -/
def next (s : Shelf) : Option Nat :=
  match s.free with
  | slot :: _ => some slot
  | [] => if s.fresh < s.capacity then some s.fresh else none

def ask (s : Shelf) : Loan → Shelf
  | .take =>
    { s with
      free := s.free.tail
      fresh := if s.free = [] ∧ s.fresh < s.capacity then s.fresh + 1 else s.fresh
      out := s.out ++ [s.next] }
  | .give i _ =>
    match s.out[i]? with
    | none => s
    | some slot => { s with free := slot.toList ++ s.free, out := s.out.eraseIdx i }

def run (s : Shelf) (loans : List Loan) : Shelf := loans.foldl ask s

end Shelf

/-! ## The borrower -/

structure Borrower where
  arena : Arena
  /-- The descriptors that are out, in the order they were taken. -/
  out : List Descriptor
  /-- How many were taken. -/
  takes : Nat
deriving DecidableEq, Repr

namespace Borrower

def ofCapacity (n : Nat) : Borrower := ⟨.ofCapacity n, [], 0⟩

/-- Only what is out can be given back. -/
def ask (b : Borrower) : Loan → Borrower
  | .take => ⟨b.arena.take.2, b.out ++ [b.arena.take.1], b.takes + 1⟩
  | .give i d =>
    match b.out[i]? with
    | none => b
    | some taken =>
      { b with arena := b.arena.give { d with slot := taken.slot }, out := b.out.eraseIdx i }

def run (b : Borrower) (loans : List Loan) : Borrower := loans.foldl ask b

end Borrower

/-! ## The links -/

namespace Arena

/-- The links lead from `top` through these slots, in this order, and end there. -/
def Linked (a : Arena) : Option Nat → List Nat → Prop
  | top, [] => top = none
  | top, s :: rest => top = some s ∧ a.Linked (a.below s) rest

variable {a : Arena} {s t : Nat} {top : Option Nat} {slots : List Nat}

theorem below_push_self (h : s < a.capacity) : (a.push s).below s = a.top := by
  simp only [capacity] at h
  simp [push, below, Array.getD, h]

theorem below_push_of_ne (h : t ≠ s) : (a.push s).below t = a.below t := by
  simp only [push, below, Array.getD, Array.size_setIfInBounds]
  by_cases ht : t < a.links.size
  · simp [ht, Ne.symm h]
  · simp [ht]

/-- A push changes the link of its own slot only. -/
theorem Linked.push (h : a.Linked top slots) (hs : s ∉ slots) : (a.push s).Linked top slots := by
  induction slots generalizing top with
  | nil => exact h
  | cons t rest ih =>
    obtain ⟨rfl, hrest⟩ := h
    obtain ⟨hne, hs⟩ := List.ne_and_not_mem_of_not_mem_cons hs
    refine ⟨rfl, ?_⟩
    rw [below_push_of_ne (Ne.symm hne)]
    exact ih hrest hs

/-- Only the links matter. -/
theorem Linked.same {a' : Arena} (h : a.Linked top slots) (hlinks : a'.links = a.links) :
    a'.Linked top slots := by
  induction slots generalizing top with
  | nil => exact h
  | cons t rest ih =>
    obtain ⟨rfl, hrest⟩ := h
    refine ⟨rfl, ?_⟩
    rw [below, hlinks]
    exact ih hrest

end Arena

/-! ## The invariant -/

/-- The arena of a borrower is the stack `s`. -/
structure Borrower.Follows (b : Borrower) (s : Shelf) : Prop where
  capacity : b.arena.capacity = s.capacity
  linked : b.arena.Linked b.arena.top s.free
  fresh : b.arena.fresh = s.fresh
  fresh_le : s.fresh ≤ s.capacity
  out : b.out.map Descriptor.slot = s.out
  /-- Each slot that was ever used is either on the stack or out, and only once. -/
  slots : (s.free ++ s.out.reduceOption).Perm (List.range s.fresh)
  created : b.arena.created = s.fresh
  takes : b.arena.created + b.arena.reused + b.arena.unpooled = b.takes

namespace Borrower.Follows

variable {b : Borrower} {s : Shelf}

theorem nodup (h : b.Follows s) : (s.free ++ s.out.reduceOption).Nodup :=
  h.slots.nodup_iff.2 List.nodup_range

theorem mem_slots (h : b.Follows s) (slot : Nat) : slot ∈ s.free ∨ slot ∈ s.out.reduceOption ↔ slot < s.fresh := by
  rw [← List.mem_append, h.slots.mem_iff, List.mem_range]

/-- The arena hands out the slot that is next on the stack. -/
theorem slot_take (h : b.Follows s) : b.arena.take.1.slot = s.next := by
  have hlinked := h.linked
  unfold Arena.take Shelf.next
  cases hfree : s.free with
  | nil =>
    rw [hfree] at hlinked
    rw [show b.arena.top = none from hlinked, h.fresh, h.capacity]
    by_cases hlt : s.fresh < s.capacity <;> simp [hlt, Descriptor.blank]
  | cons slot rest =>
    rw [hfree] at hlinked
    rw [hlinked.1]
    rfl

/-- The slot that goes out leaves the stack, or is a new one. -/
theorem take (h : b.Follows s) : (b.ask .take).Follows (s.ask .take) := by
  have hout : (b.ask .take).out.map Descriptor.slot = (s.ask .take).out := by
    simp [Borrower.ask, Shelf.ask, h.out, h.slot_take]
  have hlinked := h.linked
  have hslots := h.slots
  have htakes := h.takes
  have hcreated := h.created
  have hle := h.fresh_le
  cases hfree : s.free with
  | cons slot rest =>
    rw [hfree] at hlinked hslots
    obtain ⟨htop, hrest⟩ := hlinked
    have harena : b.arena.take.2 =
        { b.arena with top := b.arena.below slot, reused := b.arena.reused + 1 } := by
      simp [Arena.take, htop]
    have hshelf : s.ask .take = { s with free := rest, out := s.out ++ [some slot] } := by
      simp [Shelf.ask, Shelf.next, hfree]
    rw [hshelf] at hout ⊢
    simp only [Borrower.ask, harena] at hout ⊢
    refine ⟨h.capacity, hrest.same rfl, h.fresh, hle, hout, ?_, hcreated, by simp only; omega⟩
    have hmoved : (rest ++ (s.out ++ [some slot]).reduceOption).Perm
        (slot :: rest ++ s.out.reduceOption) := by
      simp only [List.reduceOption_append, List.reduceOption_singleton, Option.toList_some,
        ← List.append_assoc]
      exact List.perm_append_singleton _ _
    exact hmoved.trans hslots
  | nil =>
    rw [hfree] at hlinked hslots
    have htop : b.arena.top = none := hlinked
    by_cases hlt : s.fresh < s.capacity
    · have harena : b.arena.take.2 =
          { b.arena with fresh := s.fresh + 1, created := s.fresh + 1 } := by
        simp [Arena.take, htop, h.fresh, h.capacity, hlt, hcreated]
      have hshelf : s.ask .take =
          { s with fresh := s.fresh + 1, out := s.out ++ [some s.fresh] } := by
        simp [Shelf.ask, Shelf.next, hfree, hlt]
      rw [hshelf] at hout ⊢
      simp only [Borrower.ask, harena] at hout ⊢
      refine ⟨h.capacity, ?_, rfl, hlt, hout, ?_, rfl, by simp only; omega⟩
      · rw [hfree]
        exact hlinked
      · simp only [hfree, List.reduceOption_append, List.reduceOption_singleton,
          Option.toList_some, List.nil_append, List.range_succ]
        exact hslots.append_right _
    · have harena : b.arena.take.2 = { b.arena with unpooled := b.arena.unpooled + 1 } := by
        simp [Arena.take, htop, h.fresh, h.capacity, hlt]
      have hshelf : s.ask .take = { s with out := s.out ++ [none] } := by
        simp [Shelf.ask, Shelf.next, hfree, hlt]
      rw [hshelf] at hout ⊢
      simp only [Borrower.ask, harena] at hout ⊢
      refine ⟨h.capacity, h.linked.same rfl, h.fresh, hle, hout, ?_, hcreated, by simp only; omega⟩
      simpa [hfree, List.reduceOption_append] using hslots

/-- The slot that comes back goes on top. -/
theorem give (h : b.Follows s) (i : Nat) (d : Descriptor) :
    (b.ask (.give i d)).Follows (s.ask (.give i d)) := by
  have hget : s.out[i]? = b.out[i]?.map Descriptor.slot := by rw [← h.out, List.getElem?_map]
  unfold Borrower.ask Shelf.ask
  cases hi : b.out[i]? with
  | none =>
    simp only [hget, hi, Option.map_none]
    exact h
  | some taken =>
    simp only [hget, hi, Option.map_some]
    rw [hi, Option.map_some] at hget
    have hout : (b.out.eraseIdx i).map Descriptor.slot = s.out.eraseIdx i := by
      rw [← h.out, List.eraseIdx_map]
    obtain ⟨hlt, hget⟩ := List.getElem?_eq_some_iff.1 hget
    have hback : (taken.slot :: s.out.eraseIdx i).reduceOption.Perm s.out.reduceOption :=
      hget ▸ (List.getElem_cons_eraseIdx_perm hlt).filterMap id
    cases hslot : taken.slot with
    | none =>
      rw [hslot, List.reduceOption_cons_of_none] at hback
      exact ⟨h.capacity, h.linked, h.fresh, h.fresh_le, hout, (hback.append_left _).trans h.slots,
        h.created, h.takes⟩
    | some slot =>
      rw [hslot, List.reduceOption_cons_of_some] at hback
      have hmem : slot ∈ s.out.reduceOption := hback.mem_iff.1 List.mem_cons_self
      have hfree : slot ∉ s.free := fun hf => (List.disjoint_of_nodup_append h.nodup) hf hmem
      have hbound : slot < b.arena.capacity := by
        rw [h.capacity]
        exact Nat.lt_of_lt_of_le ((h.mem_slots slot).1 (.inr hmem)) h.fresh_le
      simp only [Arena.give, hbound, if_true]
      refine ⟨?_, ?_, h.fresh, h.fresh_le, hout, ?_, h.created, h.takes⟩
      · rw [← h.capacity]
        simp [Arena.push, Arena.capacity]
      · refine ⟨rfl, ?_⟩
        rw [Arena.below_push_self hbound]
        exact h.linked.push hfree
      · exact (List.perm_middle.symm.trans (hback.append_left _)).trans h.slots

theorem ask (h : b.Follows s) (l : Loan) : (b.ask l).Follows (s.ask l) := by
  cases l with
  | take => exact h.take
  | give i d => exact h.give i d

theorem run (h : b.Follows s) (loans : List Loan) : (b.run loans).Follows (s.run loans) := by
  induction loans generalizing b s with
  | nil => exact h
  | cons l loans ih => exact ih (h.ask l)

/-- Nothing is next only when all slots are out. -/
theorem next_eq_none_iff (h : b.Follows s) :
    s.next = none ↔ ∀ slot < s.capacity, slot ∈ s.out.reduceOption := by
  have hle := h.fresh_le
  unfold Shelf.next
  cases hfree : s.free with
  | nil =>
    have hmem : ∀ slot, slot ∈ s.out.reduceOption ↔ slot < s.fresh := fun slot => by
      simpa [hfree] using h.mem_slots slot
    simp only [hmem, ite_eq_right_iff, reduceCtorEq, imp_false, Nat.not_lt]
    constructor
    · intro hge slot hslot
      omega
    · intro hall
      refine Nat.le_of_not_lt fun hlt => ?_
      exact Nat.lt_irrefl _ (hall s.fresh hlt)
  | cons slot rest =>
    have hin : slot ∈ s.free := by simp [hfree]
    have hlt : slot < s.fresh := (h.mem_slots slot).1 (.inl hin)
    simp only [reduceCtorEq, false_iff, not_forall]
    exact ⟨slot, by omega, List.disjoint_of_nodup_append h.nodup hin⟩

end Borrower.Follows

theorem Borrower.follows_ofCapacity (n : Nat) : (Borrower.ofCapacity n).Follows (.ofCapacity n) :=
  ⟨Arena.capacity_ofCapacity n, rfl, rfl, Nat.zero_le n, rfl, .refl _, rfl, rfl⟩

theorem Shelf.capacity_run (s : Shelf) (loans : List Loan) : (s.run loans).capacity = s.capacity := by
  induction loans generalizing s with
  | nil => rfl
  | cons l loans ih =>
    refine (ih _).trans ?_
    cases l with
    | take => rfl
    | give i d =>
      unfold Shelf.ask
      dsimp only
      split <;> rfl

/-! ## The stack discipline -/

/-- What a borrower of an arena with `n` slots sees, when `s` is the stack after the same loans. -/
structure Borrower.Stacked (n : Nat) (b : Borrower) (s : Shelf) : Prop where
  /-- Every take was answered with the slot that was next on the stack, … -/
  out : b.out.map Descriptor.slot = s.out
  /-- … and the next one will be. -/
  next : b.arena.take.1.slot = s.next
  /-- The links lead from the top through the slots of the stack, and end there … -/
  linked : b.arena.Linked b.arena.top s.free
  /-- … without a cycle. -/
  acyclic : s.free.Nodup
  /-- No two descriptors that are out share a slot. -/
  apart : (b.out.filterMap Descriptor.slot).Nodup
  /-- A descriptor without a slot goes out exactly when all slots are out. -/
  exhausted : b.arena.take.1.slot = none ↔ ∀ slot < n, ∃ d ∈ b.out, d.slot = some slot
  takes : b.arena.created + b.arena.reused + b.arena.unpooled = b.takes
  created_le : b.arena.created ≤ n

/-- **The arena is a stack** for whoever gives back only what is out, after any sequence of takes
and gives. -/
theorem Borrower.stacked_run (n : Nat) (loans : List Loan) :
    ((Borrower.ofCapacity n).run loans).Stacked n ((Shelf.ofCapacity n).run loans) := by
  have h := (Borrower.follows_ofCapacity n).run loans
  have hcapacity : ((Shelf.ofCapacity n).run loans).capacity = n := Shelf.capacity_run _ loans
  have hslots : ((Borrower.ofCapacity n).run loans).out.filterMap Descriptor.slot =
      ((Shelf.ofCapacity n).run loans).out.reduceOption := by
    rw [← h.out, List.reduceOption, List.filterMap_map]
    rfl
  refine ⟨h.out, h.slot_take, h.linked, h.nodup.of_append_left, ?_, ?_, h.takes, ?_⟩
  · rw [hslots]
    exact h.nodup.of_append_right
  · rw [h.slot_take, h.next_eq_none_iff, hcapacity, ← hslots]
    simp only [List.mem_filterMap]
  · rw [h.created]
    exact Nat.le_trans h.fresh_le (Nat.le_of_eq hcapacity)

/-- The arena has two slots. The one that comes back last goes out first. -/
example : ((Borrower.ofCapacity 2).run
    [.take, .take, .take, .give 0 (.blank none), .give 0 (.blank none), .take]).out.map Descriptor.slot =
      [none, some 1] := by decide

end CommandPool
