import CommandPool.Guest.Memory
import CommandPool.Proofs.Guest.Address
/-!
# Words in memory

A write changes the word at its own address and no other: two accessible addresses that differ
have different places in the window, wherever its base lies. Runs of words follow from that, one
word at a time.
-/
namespace CommandPool

namespace Memory

variable {m m' : Memory} {a b : Address} {w : UInt32}

/-- `a` is the address of a word, and not below the window. -/
def Aligned (m : Memory) (a : Address) : Prop := ¬ (a.raw < m.base.raw ∨ ¬ a.IsWord)

instance (m : Memory) (a : Address) : Decidable (m.Aligned a) := inferInstanceAs (Decidable (¬ _))

/-- An access at `a` is not a fault. -/
def Accessible (m : Memory) (a : Address) : Prop := m.Aligned a ∧ a.wordsSince m.base < m.words.size

instance (m : Memory) (a : Address) : Decidable (m.Accessible a) :=
  inferInstanceAs (Decidable (_ ∧ _))

theorem aligned_iff : m.Aligned a ↔ m.base.toNat ≤ a.toNat ∧ a.IsWord := by
  unfold Aligned
  rw [not_or, UInt32.lt_iff_toNat_lt, Nat.not_lt, Decidable.not_not]
  rfl

theorem index_of_accessible (h : m.Accessible a) : m.index a = .ok ⟨a.wordsSince m.base, h.2⟩ := by
  rw [index, if_neg h.1, dif_pos h.2]

/-- The fault of an access hangs on the place and the size of the window alone. -/
theorem index_of_not_accessible (h : ¬ m.Accessible a) :
    m.index a = .error (if m.Aligned a then .outsideWindow a else .badAccess a) := by
  unfold index
  by_cases ha : m.Aligned a
  · rw [if_neg ha, dif_neg fun hlt => h ⟨ha, hlt⟩, if_pos ha]
  · rw [if_pos (Decidable.not_not.1 ha), if_neg ha]

/-! ## One word -/

theorem write_of_accessible (h : m.Accessible a) (w : UInt32) :
    m.write a w = .ok { m with words := m.words.setIfInBounds (a.wordsSince m.base) w } := by
  simp only [write, index_of_accessible h, Except.map, Array.setIfInBounds, dif_pos h.2]

theorem accessible_of_write (h : m.write a w = .ok m') : m.Accessible a := by
  apply Decidable.byContradiction
  intro hn
  rw [write, index_of_not_accessible hn] at h
  cases h

/-- What a write leaves. -/
theorem eq_of_write (h : m.write a w = .ok m') :
    m' = { m with words := m.words.setIfInBounds (a.wordsSince m.base) w } := by
  rw [write_of_accessible (accessible_of_write h)] at h
  cases h
  rfl

theorem read_of_accessible (h : m.Accessible a) :
    m.read a = .ok m.words[(⟨a.wordsSince m.base, h.2⟩ : Fin m.words.size)] := by
  simp only [read, index_of_accessible h, Except.map]

theorem read_write_self (h : m.write a w = .ok m') : m'.read a = .ok w := by
  have ha := accessible_of_write h
  cases eq_of_write h
  have ha' : Accessible { m with words := m.words.setIfInBounds (a.wordsSince m.base) w } a :=
    ⟨ha.1, by simpa using ha.2⟩
  rw [read_of_accessible ha']
  simp

theorem accessible_write (h : m.write a w = .ok m') : m'.Accessible b ↔ m.Accessible b := by
  cases eq_of_write h
  unfold Accessible Aligned
  simp only [Array.size_setIfInBounds]

/-- Different words have different places in the window. -/
theorem wordsSince_ne (ha : m.Aligned a) (hb : m.Aligned b) (hne : b ≠ a) :
    a.wordsSince m.base ≠ b.wordsSince m.base := by
  obtain ⟨ha, ha'⟩ := aligned_iff.1 ha
  obtain ⟨hb, hb'⟩ := aligned_iff.1 hb
  unfold Address.IsWord wordBytes at ha' hb'
  have := a.toNat_lt
  have := b.toNat_lt
  have hab : a.toNat ≠ b.toNat := fun h => hne (Address.ext_toNat h.symm)
  unfold Address.wordsSince wordBytes
  rw [Address.bytesSince_eq, Address.bytesSince_eq]
  omega

theorem read_write_of_ne (h : m.write a w = .ok m') (hne : b ≠ a) : m'.read b = m.read b := by
  have ha := accessible_of_write h
  have hacc : m'.Accessible b ↔ m.Accessible b := accessible_write h
  by_cases hb : m.Accessible b
  · rw [read_of_accessible hb, read_of_accessible (hacc.2 hb)]
    cases eq_of_write h
    exact congrArg Except.ok (Array.getElem_setIfInBounds_ne hb.2 (wordsSince_ne ha.1 hb.1 hne))
  · rw [read, read, index_of_not_accessible hb, index_of_not_accessible fun h => hb (hacc.1 h)]
    cases eq_of_write h
    rfl

/-! ## Runs of words -/

theorem readWords_succ (m : Memory) (a : Address) (n : Nat) :
    m.readWords a (n + 1) = (do
      let ws ← m.readWords a n
      let w ← m.read (a.addWords n)
      return ws ++ [w]) := by
  unfold readWords
  rw [List.range_succ, List.mapM_append]
  simp

/-- A run of words is read if each of them is. -/
theorem readWords_eq_ok {ws : List UInt32} (h : ∀ i w, ws[i]? = some w → m.read (a.addWords i) = .ok w) :
    m.readWords a ws.length = .ok ws := by
  induction ws using List.reverseRecOn with
  | nil => rfl
  | append_singleton ws w ih =>
    have hrun := ih fun i v hv => h i v (by rw [List.getElem?_append_left (List.getElem?_eq_some_iff.1 hv).1, hv])
    have hlast := h ws.length w (by simp)
    rw [List.length_append, List.length_singleton, readWords_succ, hrun, hlast]
    rfl

/-- A write beside a run of words leaves what is read there. -/
theorem readWords_write_of_ne (h : m.write a w = .ok m') {n : Nat}
    (hne : ∀ i < n, b.addWords i ≠ a) : m'.readWords b n = m.readWords b n := by
  induction n with
  | zero => rfl
  | succ n ih =>
    have hlast := read_write_of_ne h (hne n (by omega))
    rw [readWords_succ, readWords_succ, ih fun i hi => hne i (by omega), hlast]

/-- A write at the end of a run of words appends to what is read there. -/
theorem readWords_write_end {ws : List UInt32} {n : Nat} (hn : n < 2 ^ 30)
    (hws : m.readWords b n = .ok ws) (h : m.write (b.addWords n) w = .ok m') :
    m'.readWords b (n + 1) = .ok (ws ++ [w]) := by
  have hrun : m'.readWords b n = .ok ws := by
    rw [readWords_write_of_ne h, hws]
    intro i hi heq
    have := (b.addWords_inj (by omega) hn).1 heq
    omega
  rw [readWords_succ, hrun, read_write_self h]
  rfl

/-! ## Windows -/

/-- The `n` words at `a` can all be accessed. -/
def Spans (m : Memory) (a : Address) (n : Nat) : Prop := ∀ i < n, m.Accessible (a.addWords i)

instance (m : Memory) (a : Address) (n : Nat) : Decidable (m.Spans a n) :=
  inferInstanceAs (Decidable (∀ i < n, _))

/-- The same addresses can be accessed. -/
structure SameWindow (m m' : Memory) : Prop where
  base : m'.base = m.base
  size : m'.words.size = m.words.size

theorem SameWindow.refl (m : Memory) : SameWindow m m := ⟨rfl, rfl⟩

theorem SameWindow.trans {m'' : Memory} (h : SameWindow m m') (h' : SameWindow m' m'') :
    SameWindow m m'' :=
  ⟨h'.base.trans h.base, h'.size.trans h.size⟩

theorem SameWindow.accessible (h : SameWindow m m') : m'.Accessible a ↔ m.Accessible a := by
  unfold Accessible Aligned
  rw [h.base, h.size]

theorem SameWindow.spans {n : Nat} (h : SameWindow m m') : m'.Spans a n ↔ m.Spans a n := by
  unfold Spans
  simp only [h.accessible]

theorem sameWindow_write (h : m.write a w = .ok m') : SameWindow m m' := by
  cases eq_of_write h
  exact ⟨rfl, Array.size_setIfInBounds⟩

/-- The `n` words at `a` can all be accessed and are all different, since they do not go around the top
of the address space. So it is for storage between the ends of the window (`stores_of_window`). -/
structure Stores (m : Memory) (a : Address) (n : Nat) : Prop where
  spans : m.Spans a n
  unwrapped : a.toNat + n * wordBytes ≤ 2 ^ 32

instance (m : Memory) (a : Address) (n : Nat) : Decidable (m.Stores a n) :=
  decidable_of_iff (m.Spans a n ∧ a.toNat + n * wordBytes ≤ 2 ^ 32)
    ⟨fun h => ⟨h.1, h.2⟩, fun h => ⟨h.spans, h.unwrapped⟩⟩

theorem Stores.le {n : Nat} (h : m.Stores a n) : n ≤ 2 ^ 30 := by
  have := h.unwrapped
  unfold wordBytes at this
  omega

/-- Storage that starts at a word and lies between the ends of the window. -/
theorem stores_of_window {n : Nat} (hword : a.IsWord) (hbase : m.base.toNat ≤ a.toNat)
    (hend : a.toNat + n * wordBytes ≤ m.base.toNat + m.words.size * wordBytes)
    (htop : a.toNat + n * wordBytes ≤ 2 ^ 32) : m.Stores a n := by
  refine ⟨fun i hi => ?_, htop⟩
  have := m.base.toNat_lt
  have := a.toNat_lt
  unfold Address.IsWord at hword
  unfold wordBytes at *
  have haddr : (a.addWords i).toNat = a.toNat + i * 4 := by
    rw [Address.toNat_addWords]
    omega
  refine ⟨aligned_iff.2 ⟨by omega, ?_⟩, ?_⟩
  · unfold Address.IsWord wordBytes
    omega
  · rw [Address.wordsSince, Address.bytesSince_eq, wordBytes, haddr]
    omega

/-! ## Storage that is filled from its start -/

/-- A word behind others leaves these where they are. -/
theorem words_write {ws : List UInt32} {w : UInt32}
    (h : ∀ i v, ws[i]? = some v → m.read (a.addWords i) = .ok v) (hlength : ws.length < 2 ^ 30)
    (hw : m.write (a.addWords ws.length) w = .ok m') :
    ∀ i v, (ws ++ [w])[i]? = some v → m'.read (a.addWords i) = .ok v := by
  intro i v hv
  rcases Nat.lt_trichotomy i ws.length with hi | rfl | hi
  · have hne : a.addWords i ≠ a.addWords ws.length := by
      rw [ne_eq, Address.addWords_inj a (by omega) hlength]
      omega
    rw [List.getElem?_append_left hi] at hv
    rw [read_write_of_ne hw hne]
    exact h i v hv
  · rw [List.getElem?_concat_length] at hv
    cases hv
    exact read_write_self hw
  · rw [List.getElem?_eq_none (by simpa using hi)] at hv
    cases hv

/-- The words `ws` stand at `a`, and those behind them, up to the `n`th, are as they were in `old`. -/
structure Holds (m : Memory) (a : Address) (n : Nat) (ws : List UInt32) (old : Memory) : Prop where
  words : ∀ i w, ws[i]? = some w → m.read (a.addWords i) = .ok w
  rest : ∀ i, ws.length ≤ i → i < n → m.read (a.addWords i) = old.read (a.addWords i)
  room : ws.length ≤ n

namespace Holds

variable {old : Memory} {n : Nat} {ws vs : List UInt32}

theorem start (m : Memory) (a : Address) (n : Nat) : m.Holds a n [] m := ⟨by simp, fun _ _ _ => rfl, Nat.zero_le n⟩

theorem same (h : m.Holds a n ws old) (hread : ∀ i < n, m'.read (a.addWords i) = m.read (a.addWords i)) :
    m'.Holds a n ws old := by
  refine ⟨fun i w hw => ?_, fun i hle hlt => ?_, h.room⟩
  · have hi := (List.getElem?_eq_some_iff.1 hw).1
    rw [hread i (Nat.lt_of_lt_of_le hi h.room)]
    exact h.words i w hw
  · rw [hread i hlt]
    exact h.rest i hle hlt

/-- The next word. -/
theorem write (h : m.Holds a n ws old) (hroom : ws.length < n) (hn : n ≤ 2 ^ 30) {w : UInt32}
    (hw : m.write (a.addWords ws.length) w = .ok m') : m'.Holds a n (ws ++ [w]) old := by
  refine ⟨words_write h.words (by omega) hw, fun i hle hlt => ?_, by simpa using hroom⟩
  rw [List.length_append, List.length_singleton] at hle
  have hne : a.addWords i ≠ a.addWords ws.length := by
    rw [ne_eq, Address.addWords_inj a (by omega) (by omega)]
    omega
  rw [read_write_of_ne hw hne]
  exact h.rest i (by omega) hlt

/-- The first words of a list can be read. -/
theorem readWords (h : m.Holds a n (ws ++ vs) old) : m.readWords a ws.length = .ok ws := by
  refine readWords_eq_ok fun i w hw => h.words i w ?_
  rw [List.getElem?_append_left (List.getElem?_eq_some_iff.1 hw).1, hw]

end Holds

end Memory

end CommandPool
