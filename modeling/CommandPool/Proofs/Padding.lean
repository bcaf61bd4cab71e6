import CommandPool.Proofs.OpenBuffer
/-!
# Padding

Padding rounds the size of a buffer up to the alignment and fills the difference. It does so exactly when
the rounded size finds room, and what it leaves behind is padded already; otherwise it changes nothing
(`pad_least`).
-/
namespace CommandPool

namespace OpenBuffer

variable {b b' : OpenBuffer} {align : Nat}

/-- What padding does where it succeeds. -/
theorem pad_ok (h : b.pad align = .ok () b') :
    ∃ aligned, Counter.alignUp b.buffer.used align = .ok aligned ∧ aligned ≤ b.buffer.capacity ∧
      b.fill (aligned - b.buffer.used) = .ok () b' := by
  unfold pad at h
  split at h
  · cases h
  · split at h
    · cases h
    · exact ⟨_, ‹_›, Nat.le_of_not_lt ‹_›, h⟩

/-- Padding appends filler, as many words as are missing. -/
theorem pad_writes (h : b.pad align = .ok () b') :
    ∃ aligned, Counter.alignUp b.buffer.used align = .ok aligned ∧ aligned ≤ b.buffer.capacity ∧
      b.Writes (.replicate (aligned - b.buffer.used) padWord) (b.pad align) := by
  obtain ⟨aligned, hup, hle, hfill⟩ := pad_ok h
  refine ⟨aligned, hup, hle, ?_⟩
  rw [h, ← hfill]
  rcases Nat.le_total aligned b.buffer.used with hlt | hge
  · rw [Nat.sub_eq_zero_of_le hlt]
    exact writes_nil
  · exact writes_fill _ b (by omega)

/-- What padding comes to once the size is rounded up. -/
theorem pad_eq {aligned : Nat} (hup : Counter.alignUp b.buffer.used align = .ok aligned) :
    b.pad align = if b.buffer.capacity < aligned then
      .error (.refused (.padOverflow aligned b.buffer.capacity)) b
    else b.fill (aligned - b.buffer.used) := by
  rw [pad, hup]

/-- Where the rounded size finds room the filler is written. -/
theorem pad_fits {aligned : Nat} (hup : Counter.alignUp b.buffer.used align = .ok aligned)
    (hge : b.buffer.used ≤ aligned) (hle : aligned ≤ b.buffer.capacity) (hw : b.Writable) :
    ∃ m, b.pad align = .ok () ⟨{ b.buffer with used := aligned }, m⟩ := by
  have hroom : b.buffer.used + (aligned - b.buffer.used) = aligned := by omega
  obtain ⟨m, hpush, -⟩ := pushEach_fits (.replicate (aligned - b.buffer.used) padWord)
    (by rw [List.length_replicate, hroom]; exact hle) hw
  rw [pad_eq hup, if_neg (Nat.not_lt.2 hle), fill_eq_pushEach (by omega), hpush,
    List.length_replicate, hroom]
  exact ⟨m, rfl⟩

/-- A buffer whose size is aligned is left as it is. -/
theorem pad_of_dvd (hused : b.buffer.used ≤ b.buffer.capacity)
    (hpow : Config.isPowerOfTwo align = true) (hsum : b.buffer.used + align < Counter.bound)
    (hdvd : align ∣ b.buffer.used) : b.pad align = .ok () b := by
  obtain ⟨aligned, hup⟩ := alignUp_returns (Config.isPowerOfTwo_pos hpow) hsum
  obtain ⟨⟨-, hge⟩, hleast⟩ := alignUp_isLeast hpow hup
  have hsame : aligned = b.buffer.used := Nat.le_antisymm (hleast ⟨hdvd, Nat.le_refl _⟩) hge
  rw [pad_eq hup, hsame, if_neg (Nat.not_lt.2 hused), Nat.sub_self, fill]

/-! ## What padding does -/

/-- `b'` is `b` with filler up to the size `n`, and nothing else is different. -/
structure Filled (b : OpenBuffer) (n : Nat) (b' : OpenBuffer) : Prop where
  buffer : b'.buffer = { b.buffer with used := n }
  window : b.memory.SameWindow b'.memory
  filler : ∀ i, b.buffer.used ≤ i → i < n → b'.memory.read (b.buffer.start.addWords i) = .ok padWord
  others : ∀ a, (∀ i, b.buffer.used ≤ i → i < n → a ≠ b.buffer.start.addWords i) →
    b'.memory.read a = b.memory.read a

theorem Appended.filled {n : Nat} (hge : b.buffer.used ≤ n)
    (h : b.Appended (.replicate (n - b.buffer.used) padWord) b') : b.Filled n b' := by
  obtain ⟨hbuffer, hwindow, hwords, hothers⟩ := h
  rw [List.length_replicate] at hbuffer hothers
  refine ⟨?_, hwindow, ?_, ?_⟩
  · rw [hbuffer, Nat.add_sub_cancel' hge]
  · intro i hi hlt
    have hword := hwords (i - b.buffer.used) padWord (by rw [List.getElem?_replicate, if_pos (by omega)])
    rwa [Nat.add_sub_cancel' hi] at hword
  · intro a ha
    exact hothers a fun k hk => ha _ (by omega) (by omega)

/-- Where padding succeeds the rounded size found room, and there is filler up to it. -/
theorem pad_filled {n : Nat} (hshort : b.buffer.capacity ≤ 2 ^ 30) (hge : b.buffer.used ≤ n)
    (hup : Counter.alignUp b.buffer.used align = .ok n) (h : b.pad align = .ok () b') :
    n ≤ b.buffer.capacity ∧ b.Filled n b' := by
  obtain ⟨aligned, hup', hle, hwrites⟩ := pad_writes h
  obtain rfl : n = aligned := Except.ok.inj (hup.symm.trans hup')
  exact ⟨hle, (hwrites.appended hshort h).filled hge⟩

/-- What is filled up to a multiple is padded. -/
theorem Filled.padded {n : Nat} (h : b.Filled n b') (hle : n ≤ b.buffer.capacity)
    (hshort : b.buffer.capacity ≤ 2 ^ 30) (hpow : Config.isPowerOfTwo align = true)
    (halign : align < Counter.bound) (hdvd : align ∣ n) : b'.pad align = .ok () b' := by
  apply pad_of_dvd
  · rw [h.buffer]
    exact hle
  · exact hpow
  · rw [h.buffer]
    exact Config.isPowerOfTwo_add_lt (Nat.le_trans hle hshort) hpow halign
  · rw [h.buffer]
    exact hdvd

/-- Padding comes to the size `n` or, where that finds no room, to nothing. -/
structure PadsTo (b : OpenBuffer) (align n : Nat) : Prop where
  ok_iff : (∃ b', b.pad align = .ok () b') ↔ n ≤ b.buffer.capacity
  filled : ∀ b', b.pad align = .ok () b' → b.Filled n b'
  again : ∀ b', b.pad align = .ok () b' → b'.pad align = .ok () b'
  refused : b.buffer.capacity < n →
    b.pad align = .error (.refused (.padOverflow n b.buffer.capacity)) b

/-- **Padding** comes to the least multiple of the alignment that is not below the size, and to that
only once. -/
theorem pad_least (hstores : b.memory.Stores b.buffer.start b.buffer.capacity)
    (hpow : Config.isPowerOfTwo align = true) (hsum : b.buffer.used + align < Counter.bound) :
    ∃ n, IsLeast {n | align ∣ n ∧ b.buffer.used ≤ n} n ∧ b.PadsTo align n := by
  obtain ⟨n, hup⟩ := alignUp_returns (Config.isPowerOfTwo_pos hpow) hsum
  have hleast := alignUp_isLeast hpow hup
  obtain ⟨hdvd, hge⟩ := hleast.1
  have hfilled : ∀ b', b.pad align = .ok () b' → n ≤ b.buffer.capacity ∧ b.Filled n b' :=
    fun b' hb' => pad_filled hstores.le hge hup hb'
  refine ⟨n, hleast, ⟨?_, ?_⟩, fun b' hb' => (hfilled b' hb').2, ?_, ?_⟩
  · rintro ⟨b', hb'⟩
    exact (hfilled b' hb').1
  · intro hle
    obtain ⟨m, hm⟩ := pad_fits hup hge hle (writable_of_spans hstores.spans)
    exact ⟨_, hm⟩
  · intro b' hb'
    obtain ⟨hle, hfill⟩ := hfilled b' hb'
    exact hfill.padded hle hstores.le hpow (by omega) hdvd
  · intro hlt
    rw [pad_eq hup, if_pos hlt]

/-- Five words are written. With storage for nine they are padded to eight, with storage for seven not
at all. -/
theorem pad_least_of_five :
    let roomy : OpenBuffer := ⟨⟨some 0, .ring, 0, 5, 9, ⟨0x1004⟩⟩, .zeroed ⟨0x1000⟩ 12⟩
    let tight : OpenBuffer := ⟨⟨some 0, .ring, 0, 5, 7, ⟨0x1004⟩⟩, .zeroed ⟨0x1000⟩ 12⟩
    (roomy.memory.Stores ⟨0x1004⟩ 9 ∧ tight.memory.Stores ⟨0x1004⟩ 7 ∧
        Config.isPowerOfTwo 8 = true ∧ 5 + 8 < Counter.bound) ∧
      roomy.pad 8 = .ok () ⟨{ roomy.buffer with used := 8 },
        ⟨⟨0x1000⟩, #[0, 0, 0, 0, 0, 0, padWord, padWord, padWord, 0, 0, 0]⟩⟩ ∧
      tight.pad 8 = .error (.refused (.padOverflow 8 7)) tight ∧
      (∃ n, IsLeast {n | 8 ∣ n ∧ 5 ≤ n} n ∧ roomy.PadsTo 8 n) ∧
      ∃ n, IsLeast {n | 8 ∣ n ∧ 5 ≤ n} n ∧ tight.PadsTo 8 n := by
  intro roomy tight
  have hroomy : roomy.memory.Stores ⟨0x1004⟩ 9 :=
    Memory.stores_of_window (by decide) (by decide) (by decide) (by decide)
  have htight : tight.memory.Stores ⟨0x1004⟩ 7 :=
    Memory.stores_of_window (by decide) (by decide) (by decide) (by decide)
  have hsum : 5 + 8 < Counter.bound := by decide
  exact ⟨⟨hroomy, htight, rfl, hsum⟩, by cbv, by cbv, pad_least (b := roomy) hroomy rfl hsum,
    pad_least (b := tight) htight rfl hsum⟩

end OpenBuffer

end CommandPool
