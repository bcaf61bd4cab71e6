import CommandPool.Arena
import Mathlib
/-!
# The table of links

The console keeps the links of an arena as counters, zero at the end of the stack and otherwise one
more than the slot, and reads and writes them by their index (`LinkTable`). An index outside of the
table is a fault, and so is a counter that overflows.

| here | there |
| --- | --- |
| `LinkTable` | `BufferRecycler`; `top` is the link in its `head` |
| `pop`, `push` | `BufferRecycler::pop`, `push` |
| `take`, `give`, `capacity` | `BufferRecycler::take`, `give`, `capacity` |

The `head` there has a version tag beside the link, and is exchanged for another one in a loop until
nobody else came in between. Exchanges do not overlap here, so there is no tag, and the loop goes
round once. The sum `fresh + 1` is formed before it is known whether there is a fresh slot, as it is
there. The statistics have no bound, as in `Arena`.

Anyone may give back anything: a descriptor of another arena, one without a slot, one that is on the
stack already. The links may then run in a circle, and slots may be on the stack that were never
used, so the table is no list any more (`Arena.Linked` is lost). What no exchange can break is a bound
on every single link (`Arena.Bounded`), and that is enough for every access to stay inside.

Main statement, over every sequence of exchanges: `Arena.guarded_run`.
-/
namespace CommandPool

/-- What anyone may ask of an arena. The descriptor that is given may come from anywhere. -/
inductive Exchange where
  | take
  | give (d : Descriptor)
deriving DecidableEq, Repr

namespace Arena

/-- The descriptor that is handed out, and the arena afterwards. -/
def exchange (a : Arena) : Exchange → Option Descriptor × Arena
  | .take => (some a.take.1, a.take.2)
  | .give d => (none, a.give d)

def run (a : Arena) (xs : List Exchange) : Arena := xs.foldl (fun a x => (a.exchange x).2) a

end Arena

/-! ## The table -/

inductive TableFault where
  | overflow (o : Overflow)
  /-- The table has no link for the slot. -/
  | outside (slot : Nat)
deriving DecidableEq, Repr

structure LinkTable where
  links : Array Nat
  /-- The link to the slot on top of the stack. -/
  top : Nat
  fresh : Nat
  created : Nat
  reused : Nat
  unpooled : Nat
deriving DecidableEq, Repr

namespace LinkTable

def ofCapacity (n : Nat) : LinkTable := ⟨.replicate n 0, 0, 0, 0, 0, 0⟩

/-- The number of links as a counter holds it. -/
def capacity (t : LinkTable) : Nat := t.links.size % Counter.bound

/-- A counter that overflows is a fault. -/
def count (x : Except Overflow Nat) : Except TableFault Nat := x.mapError .overflow

def readLink (t : LinkTable) (slot : Nat) : Except TableFault Nat :=
  if h : slot < t.links.size then .ok t.links[slot] else .error (.outside slot)

def writeLink (t : LinkTable) (slot link : Nat) : Except TableFault LinkTable :=
  if h : slot < t.links.size then .ok { t with links := t.links.set slot link }
  else .error (.outside slot)

/-- A counter up to a number of slots that leaves room can be raised. -/
theorem count_add_one {n value : Nat} (hvalue : value ≤ n) (hn : n < Counter.largest) :
    count (Counter.add value 1) = .ok (value + 1) := by
  rw [Counter.add_eq_ok_iff.2 ⟨by unfold Counter.largest at hn; omega, rfl⟩]
  rfl

/-- Take the slot on top off the stack, if there is one. -/
def pop (t : LinkTable) : Except TableFault (Option Nat × LinkTable) := do
  if t.top = 0 then return (none, t)
  let slot ← count (Counter.sub t.top 1)
  let link ← t.readLink slot
  return (some slot, { t with top := link })

def push (t : LinkTable) (slot : Nat) : Except TableFault LinkTable := do
  let t ← t.writeLink slot t.top
  let link ← count (Counter.add slot 1)
  return { t with top := link }

def take (t : LinkTable) : Except TableFault (Descriptor × LinkTable) := do
  match ← t.pop with
  | (some slot, t) => return (.blank (some slot), { t with reused := t.reused + 1 })
  | (none, t) =>
    let next ← count (Counter.add t.fresh 1)
    if t.fresh < t.capacity then
      return (.blank (some t.fresh), { t with fresh := next, created := t.created + 1 })
    return (.blank none, { t with unpooled := t.unpooled + 1 })

def give (t : LinkTable) (d : Descriptor) : Except TableFault LinkTable :=
  match d.slot with
  | some slot => if slot < t.capacity then t.push slot else .ok t
  | none => .ok t

def exchange (t : LinkTable) : Exchange → Except TableFault (Option Descriptor × LinkTable)
  | .take => do
    let (d, t) ← t.take
    return (some d, t)
  | .give d => do
    let t ← t.give d
    return (none, t)

/-- The table after a sequence of exchanges, up to the first fault. -/
def run (t : LinkTable) (xs : List Exchange) : Except TableFault LinkTable :=
  xs.foldlM (fun t x => return (← t.exchange x).2) t

/-- A table is not safe by itself: here the link below slot 0 leads out of it. -/
example : (LinkTable.mk #[3] 1 0 0 0 0).run [.take, .take] = .error (.outside 2) := rfl

end LinkTable

/-! ## The table of an arena -/

namespace Arena

/-- A link as a counter. -/
def code : Option Nat → Nat
  | none => 0
  | some slot => slot + 1

/-- How the console keeps an arena. -/
def table (a : Arena) : LinkTable :=
  ⟨a.links.map code, code a.top, a.fresh, a.created, a.reused, a.unpooled⟩

/-- No link leads out of an arena of `n` slots. Where the links lead inside does not matter. -/
structure Bounded (n : Nat) (a : Arena) : Prop where
  capacity : a.capacity = n
  fresh : a.fresh ≤ n
  top : code a.top ≤ n
  links : ∀ link ∈ a.links, code link ≤ n

variable {n : Nat} {a : Arena}

theorem table_ofCapacity (n : Nat) : (ofCapacity n).table = .ofCapacity n := by
  simp [table, ofCapacity, LinkTable.ofCapacity, code]

theorem bounded_ofCapacity (n : Nat) : (ofCapacity n).Bounded n := by
  refine ⟨capacity_ofCapacity n, Nat.zero_le n, Nat.zero_le n, ?_⟩
  intro link hlink
  rw [Array.eq_of_mem_replicate hlink]
  exact Nat.zero_le n

namespace Bounded

/-! ### What an exchange keeps -/

theorem top_lt (h : a.Bounded n) {slot : Nat} (htop : a.top = some slot) : slot < n := by
  have := h.top
  rwa [htop] at this

theorem below (h : a.Bounded n) (slot : Nat) : code (a.below slot) ≤ n := by
  unfold Arena.below Array.getD
  split
  · exact h.links _ (Array.getElem_mem _)
  · exact Nat.zero_le n

theorem push (h : a.Bounded n) {slot : Nat} (hslot : slot < n) : (a.push slot).Bounded n := by
  refine ⟨?_, h.fresh, hslot, ?_⟩
  · rw [← h.capacity]
    simp [Arena.push, Arena.capacity]
  · intro link hlink
    -- the link that is written is the old top, which was in bounds like all others
    rcases Array.mem_or_eq_of_mem_setIfInBounds hlink with hold | rfl
    · exact h.links link hold
    · exact h.top

theorem take (h : a.Bounded n) : a.take.2.Bounded n := by
  unfold Arena.take
  split
  · exact ⟨h.capacity, h.fresh, h.below _, h.links⟩
  · split
    · rename_i hlt
      exact ⟨h.capacity, h.capacity ▸ hlt, h.top, h.links⟩
    · exact ⟨h.capacity, h.fresh, h.top, h.links⟩

theorem give (h : a.Bounded n) (d : Descriptor) : (a.give d).Bounded n := by
  unfold Arena.give
  split
  · split
    · rename_i hlt
      exact h.push (h.capacity ▸ hlt)
    · exact h
  · exact h

theorem exchange (h : a.Bounded n) (x : Exchange) : (a.exchange x).2.Bounded n := by
  cases x with
  | take => exact h.take
  | give d => exact h.give d

theorem run (h : a.Bounded n) (xs : List Exchange) : (a.run xs).Bounded n := by
  induction xs generalizing a with
  | nil => exact h
  | cons x xs ih => exact ih (h.exchange x)

/-! ### No access is outside -/

theorem size_table (h : a.Bounded n) : a.table.links.size = n := by
  rw [← h.capacity]
  exact Array.size_map

theorem readLink (h : a.Bounded n) {slot : Nat} (hslot : slot < n) :
    a.table.readLink slot = .ok (code (a.below slot)) := by
  have hsize : slot < a.links.size := Nat.lt_of_lt_of_eq hslot h.capacity.symm
  simp [LinkTable.readLink, table, Arena.below, Array.getD, hsize]

theorem writeLink (h : a.Bounded n) {slot : Nat} (hslot : slot < n) (link : Option Nat) :
    a.table.writeLink slot (code link) =
      .ok { a with links := a.links.setIfInBounds slot link }.table := by
  have hsize : slot < a.links.size := Nat.lt_of_lt_of_eq hslot h.capacity.symm
  simp [LinkTable.writeLink, table, hsize, Array.setIfInBounds]

theorem pop_nil (htop : a.top = none) : a.table.pop = .ok (none, a.table) := by
  have hlink : a.table.top = 0 := congrArg code htop
  rw [LinkTable.pop, if_pos hlink]
  rfl

theorem pop_cons (h : a.Bounded n) {slot : Nat} (htop : a.top = some slot) :
    a.table.pop = .ok (some slot, { a with top := a.below slot }.table) := by
  have hlink : a.table.top = slot + 1 := congrArg code htop
  have hslot : LinkTable.count (Counter.sub (slot + 1) 1) = .ok slot := by
    rw [Counter.sub_eq_ok_iff.2 ⟨Nat.le_add_left 1 slot, rfl⟩]
    rfl
  rw [LinkTable.pop, hlink, if_neg (Nat.succ_ne_zero slot), hslot]
  simp only [bind, Except.bind, h.readLink (h.top_lt htop)]
  rfl

theorem push_table (h : a.Bounded n) (hn : n < Counter.largest) {slot : Nat} (hslot : slot < n) :
    a.table.push slot = .ok (a.push slot).table := by
  have hwrite : a.table.writeLink slot a.table.top = _ := h.writeLink hslot a.top
  rw [LinkTable.push, hwrite, LinkTable.count_add_one (Nat.le_of_lt hslot) hn]
  rfl

theorem capacity_table (h : a.Bounded n) (hn : n < Counter.largest) :
    a.table.capacity = a.capacity := by
  rw [LinkTable.capacity, h.size_table, h.capacity]
  exact Nat.mod_eq_of_lt (by unfold Counter.largest at hn; omega)

theorem take_table (h : a.Bounded n) (hn : n < Counter.largest) :
    a.table.take = .ok (a.take.1, a.take.2.table) := by
  unfold Arena.take
  cases htop : a.top with
  | some slot =>
    rw [LinkTable.take, h.pop_cons htop]
    rfl
  | none =>
    have hlink : a.table.top = 0 := congrArg code htop
    have hnext : LinkTable.count (Counter.add a.table.fresh 1) = .ok (a.fresh + 1) :=
      LinkTable.count_add_one h.fresh hn
    rw [LinkTable.take, pop_nil htop]
    by_cases hlt : a.fresh < a.capacity
    · have hfresh : a.table.fresh < a.table.capacity := h.capacity_table hn ▸ hlt
      rw [if_pos hlt]
      simp only [bind, Except.bind, if_pos hfresh, hnext, hlink]
      rfl
    · have hfresh : ¬ a.table.fresh < a.table.capacity := h.capacity_table hn ▸ hlt
      rw [if_neg hlt]
      simp only [bind, Except.bind, if_neg hfresh, hnext, hlink]
      rfl

theorem give_table (h : a.Bounded n) (hn : n < Counter.largest) (d : Descriptor) :
    a.table.give d = .ok (a.give d).table := by
  unfold LinkTable.give Arena.give
  cases d.slot with
  | none => rfl
  | some slot =>
    simp only [h.capacity_table hn]
    by_cases hlt : slot < a.capacity
    · rw [if_pos hlt, if_pos hlt]
      exact h.push_table hn (h.capacity ▸ hlt)
    · rw [if_neg hlt, if_neg hlt]

/-- The table goes through an exchange without a fault, and does what the arena does. -/
theorem exchange_table (h : a.Bounded n) (hn : n < Counter.largest) (x : Exchange) :
    a.table.exchange x = .ok ((a.exchange x).1, (a.exchange x).2.table) := by
  cases x with
  | take =>
    rw [LinkTable.exchange, h.take_table hn]
    rfl
  | give d =>
    rw [LinkTable.exchange, h.give_table hn d]
    rfl

theorem run_table (h : a.Bounded n) (hn : n < Counter.largest) (xs : List Exchange) :
    a.table.run xs = .ok (a.run xs).table := by
  induction xs generalizing a with
  | nil => rfl
  | cons x xs ih =>
    rw [LinkTable.run, List.foldlM_cons, h.exchange_table hn x]
    exact ih (h.exchange x)

/-! ### What goes out, and what is dropped -/

/-- A slot that goes out was on the stack, or is the next fresh one. -/
theorem slot_take_lt (h : a.Bounded n) {slot : Nat} (hslot : a.take.1.slot = some slot) :
    slot < n := by
  unfold Arena.take at hslot
  split at hslot
  · rename_i htop
    cases hslot
    exact h.top_lt htop
  · split at hslot
    · rename_i hlt
      cases hslot
      exact h.capacity ▸ hlt
    · cases hslot

theorem give_dropped (h : a.Bounded n) {d : Descriptor} (hd : ∀ slot, d.slot = some slot → n ≤ slot) :
    a.give d = a := by
  unfold Arena.give
  cases hslot : d.slot with
  | none => rfl
  | some slot => exact if_neg (Nat.not_lt.2 (h.capacity ▸ hd slot hslot))

end Bounded

/-! ## Every access is inside -/

/-- What holds of an arena of `n` slots after the exchanges `xs`, whatever was given. -/
structure Guarded (n : Nat) (xs : List Exchange) (a : Arena) : Prop where
  /-- The table went through all of them without a fault … -/
  reached : (LinkTable.ofCapacity n).run xs = .ok a.table
  /-- … and will go through any next one. -/
  guarded : ∀ x, a.table.exchange x = .ok ((a.exchange x).1, (a.exchange x).2.table)
  size : a.table.links.size = n
  top_le : a.table.top ≤ n
  links_le : ∀ link ∈ a.table.links, link ≤ n
  slot_lt : ∀ slot, a.take.1.slot = some slot → slot < n
  /-- What has no slot here leaves the arena as it is. -/
  dropped : ∀ d, (∀ slot, d.slot = some slot → n ≤ slot) → a.give d = a

/-- **No access is outside** the table of links. After every sequence of takes and gives, of whatever
descriptors, all links stay between zero and the number of slots, so the index of each access is one
of the table, and no counter overflows. -/
theorem guarded_run {n : Nat} (hn : n < Counter.largest) (xs : List Exchange) :
    ((ofCapacity n).run xs).Guarded n xs := by
  have hstart := bounded_ofCapacity n
  have h := hstart.run xs
  refine ⟨?_, h.exchange_table hn, h.size_table, h.top, ?_, fun _ => h.slot_take_lt,
    fun _ => h.give_dropped⟩
  · rw [← table_ofCapacity]
    exact hstart.run_table hn xs
  · intro link hlink
    obtain ⟨l, hl, rfl⟩ := Array.mem_map.1 hlink
    exact h.links l hl

/-- Slot 0 was given back twice, slot 1 came from elsewhere before it was ever used here, and slot 7
is of a larger arena. Slot 0 is below itself on the stack now, and goes out again and again. -/
theorem guarded_run_cyclic :
    let give (slot : Option Nat) : Exchange := .give (.blank slot)
    let xs := [.take, give (some 0), give (some 0), give (some 1), give (some 7), give none]
    let a := (ofCapacity 2).run xs
    let b := (ofCapacity 2).run (xs ++ [.take, .take, .take])
    2 < Counter.largest ∧ (a.top, a.links) = (some 1, #[some 0, some 0]) ∧
      (b.top, b.links) = (some 0, #[some 0, some 0]) ∧ a.Guarded 2 xs :=
  ⟨by decide, by decide, by decide, guarded_run (by decide) _⟩

end Arena

end CommandPool
