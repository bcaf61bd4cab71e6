import CommandPool.Config
import Mathlib
/-!
# Rounding up

`Counter.alignUp` adds the alignment and masks the low bits off. For an alignment that is a power of two,
as usable configurations have it, the mask gives the least multiple that is not below the value
(`alignUp_isLeast`). There is no answer when the sum leaves the counter, even if the value is such a
multiple already (`alignUp_overflow`).
-/
namespace CommandPool

/-- A mask of high bits cuts a counter down to a multiple. -/
theorem and_highMask {n k : Nat} (hn : n < 2 ^ 32) (hk : k ≤ 32) :
    n &&& (2 ^ 32 - 2 ^ k) = n / 2 ^ k * 2 ^ k := by
  have hmask : 2 ^ 32 - 2 ^ k = (2 ^ (32 - k) - 1) * 2 ^ k := by
    rw [Nat.sub_mul, ← Nat.pow_add, Nat.sub_add_cancel hk, Nat.one_mul]
  refine Nat.eq_of_testBit_eq fun i => ?_
  rw [Nat.testBit_and, hmask, Nat.testBit_mul_two_pow, Nat.testBit_mul_two_pow, Nat.testBit_div_two_pow,
    Nat.testBit_two_pow_sub_one]
  by_cases hi : k ≤ i
  · rw [Nat.sub_add_cancel hi]
    by_cases htop : i < 32
    · have : i - k < 32 - k := by omega
      simp [hi, this]
    · have hzero : n.testBit i = false :=
        Nat.testBit_lt_two_pow (Nat.lt_of_lt_of_le hn (Nat.pow_le_pow_right (by omega) (Nat.le_of_not_lt htop)))
      simp [hzero]
  · simp [hi]

theorem Config.isPowerOfTwo_iff {n : Nat} : isPowerOfTwo n = true ↔ ∃ k, n = 2 ^ k := by
  rw [← Nat.isPowerOfTwo, ← Nat.ne_zero_and_sub_one_eq_zero_iff_isPowerOfTwo]
  simp [isPowerOfTwo]

theorem Config.isPowerOfTwo_pos {n : Nat} (h : isPowerOfTwo n = true) : 0 < n := by
  obtain ⟨k, rfl⟩ := Config.isPowerOfTwo_iff.1 h
  exact Nat.two_pow_pos k

/-- A power of two that fits a counter is at most half its space. -/
theorem Config.isPowerOfTwo_le {n : Nat} (h : isPowerOfTwo n = true) (hn : n < Counter.bound) :
    0 < n ∧ n ≤ 2 ^ 31 := by
  obtain ⟨k, rfl⟩ := Config.isPowerOfTwo_iff.1 h
  have hk : k < 32 := (Nat.pow_lt_pow_iff_right (by omega : 1 < 2)).1 hn
  exact ⟨Config.isPowerOfTwo_pos h, Nat.pow_le_pow_right (by omega) (by omega)⟩

/-- Beside a size that finds room in the address space such an alignment fits a counter. -/
theorem Config.isPowerOfTwo_add_lt {n align : Nat} (hn : n ≤ 2 ^ 30) (hpow : isPowerOfTwo align = true)
    (halign : align < Counter.bound) : n + align < Counter.bound := by
  obtain ⟨-, hle⟩ := isPowerOfTwo_le hpow halign
  unfold Counter.bound
  omega

theorem alignUp_ok {value align aligned : Nat} (h : Counter.alignUp value align = .ok aligned) :
    value + align < Counter.bound ∧ 0 < align ∧
      (value + align - 1) &&& (Counter.largest - (align - 1)) = aligned := by
  unfold Counter.alignUp at h
  cases hpast : Counter.add value align with
  | error o => simp [hpast, bind, Except.bind] at h
  | ok past =>
    cases hlast : Counter.sub past 1 with
    | error o => simp [hpast, hlast, bind, Except.bind] at h
    | ok last =>
      cases hlow : Counter.sub align 1 with
      | error o => simp [hpast, hlast, hlow, bind, Except.bind] at h
      | ok low =>
        obtain ⟨hbound, rfl⟩ := Counter.add_eq_ok_iff.1 hpast
        obtain ⟨-, rfl⟩ := Counter.sub_eq_ok_iff.1 hlast
        obtain ⟨hpos, rfl⟩ := Counter.sub_eq_ok_iff.1 hlow
        simp only [hpast, hlast, hlow, bind, Except.bind, pure, Except.pure, Except.ok.injEq] at h
        exact ⟨hbound, hpos, h⟩

theorem alignUp_returns {value align : Nat} (hpos : 0 < align) (hsum : value + align < Counter.bound) :
    ∃ aligned, Counter.alignUp value align = .ok aligned := by
  have hadd := Counter.add_eq_ok_iff.2 ⟨hsum, rfl⟩
  have hlast := Counter.sub_eq_ok_iff.2 ⟨show 1 ≤ value + align by omega, rfl⟩
  have hlow := Counter.sub_eq_ok_iff.2 ⟨hpos, rfl⟩
  rw [Counter.alignUp, hadd]
  simp only [bind, Except.bind, hlast, hlow]
  exact ⟨_, rfl⟩

theorem alignUp_overflow {value align : Nat} (hsum : Counter.bound ≤ value + align) :
    Counter.alignUp value align = .error .add := by
  rw [Counter.alignUp, Counter.add, if_neg (Nat.not_lt.2 hsum)]
  rfl

/-- Rounding up gives the least multiple of the alignment that is not below. -/
theorem alignUp_isLeast {value align aligned : Nat} (hpow : Config.isPowerOfTwo align = true)
    (h : Counter.alignUp value align = .ok aligned) : IsLeast {n | align ∣ n ∧ value ≤ n} aligned := by
  obtain ⟨k, rfl⟩ := Config.isPowerOfTwo_iff.1 hpow
  obtain ⟨hbound, hpos, rfl⟩ := alignUp_ok h
  have hsum : value + 2 ^ k < 2 ^ 32 := hbound
  have hk : k ≤ 32 := (Nat.pow_le_pow_iff_right (by omega : 1 < 2)).1 (by omega)
  have hmask : Counter.largest - (2 ^ k - 1) = 2 ^ 32 - 2 ^ k := by
    unfold Counter.largest Counter.bound
    omega
  rw [hmask, and_highMask (by omega) hk]
  have hdiv := Nat.div_add_mod (value + 2 ^ k - 1) (2 ^ k)
  have hmod := Nat.mod_lt (value + 2 ^ k - 1) hpos
  rw [Nat.mul_comm] at hdiv
  refine ⟨⟨Nat.dvd_mul_left _ _, by omega⟩, ?_⟩
  rintro n ⟨⟨m, rfl⟩, hle⟩
  rw [Nat.mul_comm (2 ^ k) m]
  refine Nat.mul_le_mul_right _ (Nat.le_of_lt_succ ((Nat.div_lt_iff_lt_mul hpos).2 ?_))
  rw [Nat.succ_mul, Nat.mul_comm m]
  omega

end CommandPool
