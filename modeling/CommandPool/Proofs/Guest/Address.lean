import CommandPool.Guest.Address
import Mathlib
/-!
# Distances and runs of words

Address arithmetic wraps around the 32-bit space, so an offset from a base is told by the address
only while it stays below 2^30 words. `Covers a n x` says that `x` is one of the bytes of the `n`
words at `a`; seen from a base below them, these are the bytes of an interval of offsets
(`covers_addWords_iff`), and intervals that do not meet have no byte in common
(`apart_addWords`).
-/
namespace CommandPool

namespace Address

theorem ext_toNat {a b : Address} (h : a.toNat = b.toNat) : a = b := by
  cases a; cases b
  exact congrArg mk (UInt32.toNat_inj.1 h)

theorem toNat_lt (a : Address) : a.toNat < 2 ^ 32 := a.raw.toNat_lt

theorem toNat_addBytes (a : Address) (n : Nat) : (a.addBytes n).toNat = (a.toNat + n) % 2 ^ 32 := by
  simp [addBytes, toNat]

theorem toNat_addWords (a : Address) (n : Nat) :
    (a.addWords n).toNat = (a.toNat + n * 4) % 2 ^ 32 := toNat_addBytes a _

theorem bytesSince_eq (a b : Address) : a.bytesSince b = (2 ^ 32 - b.toNat + a.toNat) % 2 ^ 32 := by
  simp [bytesSince, toNat, UInt32.toNat_sub]

theorem bytesSince_lt (a b : Address) : a.bytesSince b < 2 ^ 32 := (a.raw - b.raw).toNat_lt

theorem addWords_addWords (a : Address) (i j : Nat) : (a.addWords i).addWords j = a.addWords (i + j) := by
  apply ext_toNat
  simp only [toNat_addWords]
  omega

theorem wordsSince_addWords (a : Address) {n : Nat} (h : n < 2 ^ 30) : (a.addWords n).wordsSince a = n := by
  have := a.toNat_lt
  rw [wordsSince, bytesSince_eq, toNat_addWords, wordBytes]
  omega

theorem wordsSince_addWords_le (a : Address) (n : Nat) : (a.addWords n).wordsSince a ≤ n := by
  have := a.toNat_lt
  rw [wordsSince, bytesSince_eq, toNat_addWords, wordBytes]
  omega

/-- An address that is some words after another one is told by their distance. -/
theorem addWords_wordsSince_addWords (a : Address) (n : Nat) :
    a.addWords ((a.addWords n).wordsSince a) = a.addWords n := by
  have := a.toNat_lt
  apply ext_toNat
  rw [toNat_addWords, toNat_addWords, wordsSince, bytesSince_eq, toNat_addWords, wordBytes]
  omega

/-- From an address that is not above, the distance is that of plain numbers. -/
theorem wordsSince_of_le {a b : Address} (h : b.toNat ≤ a.toNat) :
    a.wordsSince b = (a.toNat - b.toNat) / wordBytes := by
  have := a.toNat_lt
  have := b.toNat_lt
  rw [wordsSince, bytesSince_eq]
  congr 1
  omega

theorem addWords_inj (a : Address) {i j : Nat} (hi : i < 2 ^ 30) (hj : j < 2 ^ 30) :
    a.addWords i = a.addWords j ↔ i = j := by
  constructor
  · intro h
    rw [← wordsSince_addWords a hi, h, wordsSince_addWords a hj]
  · intro h
    rw [h]

/-- Within less than a whole space no address comes twice. -/
theorem addWords_ne (a : Address) {i j : Nat} (hlt : i < j) (hnear : j < i + 2 ^ 30) :
    a.addWords i ≠ a.addWords j := by
  intro h
  have := congrArg toNat h
  rw [toNat_addWords, toNat_addWords] at this
  omega

@[simp] theorem addWords_zero (a : Address) : a.addWords 0 = a := by
  apply ext_toNat
  have := a.toNat_lt
  rw [toNat_addWords]
  omega

/-! ## The same way for both ends

Distances do not change when both ends go the same way, in whatever direction and around the top. -/

theorem addBytes_bytesSince (a b : Address) : b.addBytes (a.bytesSince b) = a := by
  have := a.toNat_lt
  have := b.toNat_lt
  apply ext_toNat
  rw [toNat_addBytes, bytesSince_eq]
  omega

theorem addBytes_addWords (a : Address) (d n : Nat) :
    (a.addBytes d).addWords n = (a.addWords n).addBytes d := by
  apply ext_toNat
  simp only [toNat_addWords, toNat_addBytes]
  omega

theorem wordsSince_addBytes (a b : Address) (d : Nat) :
    (a.addBytes d).wordsSince (b.addBytes d) = a.wordsSince b := by
  have := a.toNat_lt
  have := b.toNat_lt
  rw [wordsSince, wordsSince, bytesSince_eq, bytesSince_eq, toNat_addBytes, toNat_addBytes]
  congr 1
  omega

theorem addBytes_inj {a b : Address} {d : Nat} : a.addBytes d = b.addBytes d ↔ a = b := by
  have := a.toNat_lt
  have := b.toNat_lt
  constructor
  · intro h
    apply ext_toNat
    have := congrArg toNat h
    simp only [toNat_addBytes] at this
    omega
  · rintro rfl
    rfl

/-! ## Runs of words -/

/-- `x` is one of the bytes of the `n` words at `a`. -/
def Covers (a : Address) (n : Nat) (x : Address) : Prop := x.bytesSince a < n * wordBytes

/-- The `n` words at `a` and the `m` words at `b` have no byte in common. -/
def Apart (a : Address) (n : Nat) (b : Address) (m : Nat) : Prop := ∀ x, ¬ (a.Covers n x ∧ b.Covers m x)

theorem covers_addWords_iff (a x : Address) {o n : Nat} (h : o + n ≤ 2 ^ 30) :
    (a.addWords o).Covers n x ↔ o * 4 ≤ x.bytesSince a ∧ x.bytesSince a < (o + n) * 4 := by
  have := a.toNat_lt
  have := x.toNat_lt
  unfold Covers
  simp only [bytesSince_eq, toNat_addWords, wordBytes]
  omega

/-- The first byte of a word of a run. -/
theorem covers_word (a : Address) {i n : Nat} (h : i < n) : a.Covers n (a.addWords i) := by
  have := a.toNat_lt
  unfold Covers
  rw [bytesSince_eq, toNat_addWords, wordBytes]
  omega

theorem apart_addWords (a : Address) {o n p m : Nat} (hn : o + n ≤ 2 ^ 30) (hm : p + m ≤ 2 ^ 30)
    (h : o + n ≤ p ∨ p + m ≤ o) : Apart (a.addWords o) n (a.addWords p) m := by
  intro x hx
  rw [covers_addWords_iff a x hn, covers_addWords_iff a x hm] at hx
  omega

theorem Apart.word_ne {a b : Address} {n m i j : Nat} (h : Apart a n b m) (hi : i < n) (hj : j < m) :
    a.addWords i ≠ b.addWords j := fun e => h _ ⟨covers_word a hi, e ▸ covers_word b hj⟩

/-- A run that leaves room for another word somewhere is shorter than the whole space. -/
theorem Apart.lt {a b : Address} {n m : Nat} (h : Apart a n b m) (hn : 0 < n) : m < 2 ^ 30 := by
  refine Nat.lt_of_not_le fun hm => h (a.addWords 0) ⟨covers_word a hn, ?_⟩
  have := (a.addWords 0).bytesSince_lt b
  unfold Covers wordBytes
  omega

/-- A part of a run of words that is apart is apart. -/
theorem Apart.part {a b : Address} {n m o k : Nat} (h : Apart a n b m) (hk : o + k ≤ n)
    (hn : n ≤ 2 ^ 30) : Apart (a.addWords o) k b m := by
  rintro y ⟨hy, hy'⟩
  rw [covers_addWords_iff a y (by omega)] at hy
  refine h y ⟨?_, hy'⟩
  unfold Covers wordBytes
  omega

/-- Two runs that are not empty are apart if neither starts within the other one. -/
theorem apart_iff (a b : Address) (n m : Nat) : Apart a n b m ↔
    n = 0 ∨ m = 0 ∨ n * wordBytes ≤ b.bytesSince a ∧ m * wordBytes ≤ a.bytesSince b := by
  have ha := a.toNat_lt
  have hb := b.toNat_lt
  unfold Apart Covers wordBytes
  constructor
  · intro h
    have h1 := h a
    have h2 := h b
    simp only [bytesSince_eq] at h1 h2 ⊢
    omega
  · rintro h x ⟨hx, hx'⟩
    have := x.toNat_lt
    simp only [bytesSince_eq] at h hx hx'
    omega

instance (a b : Address) (n m : Nat) : Decidable (Apart a n b m) := decidable_of_iff' _ (apart_iff a b n m)

end Address

end CommandPool
