import CommandPool.Proofs.Padding
import CommandPool.Proofs.Ring.Misuse
import CommandPool.Proofs.Ring.Recognition
/-!
# Sums that have no value

The ring and its buffers count in 32 bits. While a client keeps the order, no sum of the ring's own
offsets leaves the counter, so a call ends in an overflow only through words that the caller names.
Attaching, detaching, acquiring and releasing compare such words before they compute with them. Two
operations do not: a shrink adds the words it is told of to an offset, and takes what is given back from
the outstanding words without asking for as many; padding adds the alignment to the size. With these
in range every call returns, and with one of them out of range it ends in the overflow
(`returns_unless_overflow`), even where the words are far from the region or the size needs no padding
(`shrink_and_pad_overflow`).
-/
namespace CommandPool

/-- A call comes back, with an answer or a refusal. -/
def Returns {σ α : Type} (x : Outcome σ α) : Prop :=
  (∃ a s, x = .ok a s) ∨ ∃ e s, x = .error (.refused e) s

theorem Returns.map {σ α β : Type} {g : α → β} {x : σ → Outcome σ α} {s : σ} (h : Returns (x s)) :
    Returns (EStateM.map g x s) := by
  unfold EStateM.map
  rcases h with ⟨a, t, h⟩ | ⟨e, t, h⟩
  · rw [h]
    exact .inl ⟨_, _, rfl⟩
  · rw [h]
    exact .inr ⟨_, _, rfl⟩

namespace Ring

/-- The overflow that a shrink ends in. It computes only with words that are to be given back. -/
def shrinkOverflow? (region : Address) (used granted : Nat) (r : Ring) : Option Overflow :=
  if granted ≤ used then none
  else if Counter.bound ≤ r.offset region + granted then some .add
  else if r.head = r.offset region + granted ∧ r.outstanding < granted - used then some .subtract
  else none

/-- The overflow that a call ends in, in a ring whose own offsets are in order. -/
def overflow? (r : Ring) : Call → Option Overflow
  | .shrink region used granted => r.shrinkOverflow? region used granted
  | .attach .. | .detach | .acquire .. | .release .. => none

variable {r : Ring}

theorem attach_returns (base : Address) (size : Nat) : Returns (r.attach base size) := by
  unfold attach
  split
  · exact .inr ⟨_, _, rfl⟩
  split
  · exact .inr ⟨_, _, rfl⟩
  · exact .inl ⟨_, _, rfl⟩

theorem detach_returns : Returns r.detach := by
  unfold detach
  split
  · exact .inr ⟨_, _, rfl⟩
  split
  · exact .inr ⟨_, _, rfl⟩
  · exact .inl ⟨_, _, rfl⟩

theorem shrink_returns {region : Address} {used granted : Nat}
    (h : r.shrinkOverflow? region used granted = none) : Returns (r.shrink region used granted) := by
  rcases Nat.lt_trichotomy granted used with hlt | rfl | hgt
  · rw [shrink, if_pos hlt]
    exact .inr ⟨_, _, rfl⟩
  · rw [shrink, if_neg (Nat.lt_irrefl _), if_pos rfl]
    exact .inl ⟨_, _, rfl⟩
  rw [shrinkOverflow?, if_neg (Nat.not_le.2 hgt)] at h
  split at h
  · cases h
  split at h
  · cases h
  rename_i hsum hleft
  have hstop : Counter.add (r.offset region) granted = .ok (r.offset region + granted) :=
    Counter.add_eq_ok_iff.2 ⟨Nat.not_le.1 hsum, rfl⟩
  simp only [shrink, if_neg (Nat.not_lt.2 hgt.le), if_neg hgt.ne, hstop]
  by_cases hhead : r.head = r.offset region + granted
  · have hle : granted - used ≤ r.outstanding := Nat.not_lt.1 fun hlt => hleft ⟨hhead, hlt⟩
    have hsub : Counter.sub r.outstanding (granted - used) = .ok (r.outstanding - (granted - used)) :=
      Counter.sub_eq_ok_iff.2 ⟨hle, rfl⟩
    rw [if_neg (not_not_intro hhead), hsub]
    exact .inl ⟨_, _, rfl⟩
  · rw [if_pos hhead]
    exact .inr ⟨_, _, rfl⟩

theorem shrink_overflows {region : Address} {used granted : Nat} {o : Overflow}
    (h : r.shrinkOverflow? region used granted = some o) :
    r.shrink region used granted = .error (.fault (.overflow o)) r := by
  unfold shrinkOverflow? at h
  split at h
  · cases h
  rename_i hgt
  have hgt := Nat.not_le.1 hgt
  simp only [shrink, if_neg (Nat.not_lt.2 hgt.le), if_neg hgt.ne]
  split at h
  · rename_i hsum
    cases h
    rw [Counter.add, if_neg (Nat.not_lt.2 hsum)]
    rfl
  split at h
  · rename_i hsum hleft
    cases h
    rw [Counter.add, if_pos (Nat.not_le.1 hsum)]
    simp only [if_neg (not_not_intro hleft.1)]
    rw [Counter.sub, if_neg (Nat.not_le.2 hleft.2)]
    rfl
  · cases h

end Ring

namespace Client

/-- What the calls of any caller come to, on the ring of this client. -/
structure ReturnsUnlessOverflow (s : Client) : Prop where
  returns : ∀ q, s.ring.overflow? q = none → Returns (s.ring.answer q)
  overflows : ∀ q o, s.ring.overflow? q = some o →
    ∃ r, s.ring.answer q = .error (.fault (.overflow o)) r
  /-- A live grant, as it is at present, may be named in any shrink. -/
  live : ∀ g ∈ s.live, ∀ used, s.ring.overflow? (.shrink g.start used g.words) = none

variable {base : Address} {size : Nat} {s : Client}

theorem Sound.acquire_returns (h : Sound base size s) (hs : size ≤ 2 ^ 30) (wanted : Nat) :
    Returns (s.ring.acquire wanted) := by
  have hbound : s.ring.size < Counter.bound := by
    rw [h.size_eq]
    unfold Counter.bound
    omega
  have hpost := acquire_spec h.layout h.minGrant_pos h.maxGrant_pos hbound wanted
  cases hr : s.ring.acquire wanted with
  | ok a r => exact .inl ⟨_, _, rfl⟩
  | error e r =>
    rw [hr] at hpost
    rcases hpost.2.2 with rfl | rfl | ⟨_, rfl⟩ <;> exact .inr ⟨_, _, rfl⟩

theorem Sound.release_returns (h : Sound base size s) (hs : size ≤ 2 ^ 30) (region : Address)
    (words : Nat) : Returns (s.ring.release region words) := by
  by_cases hok : ∃ r, s.ring.release region words = .ok () r
  · obtain ⟨r, hr⟩ := hok
    exact .inl ⟨_, _, hr⟩
  · obtain ⟨_, _, hr⟩ := (h.releasesRecognised hs).refused region words hok
    exact .inr ⟨_, _, hr⟩

/-- A live grant lies inside the region, and its words are outstanding. -/
theorem Sound.shrinkOverflow?_live (h : Sound base size s) (hs : size ≤ 2 ^ 30) {g : Grant}
    (hg : g ∈ s.live) (used : Nat) : s.ring.shrinkOverflow? g.start used g.words = none := by
  obtain ⟨o, ho, hle⟩ := h.layout.inside hg
  have hsize : s.ring.size ≤ 2 ^ 30 := h.size_eq ▸ hs
  have hpos := ho.2
  have hoff : s.ring.offset g.start = o := ho.offset_eq (by omega)
  have hwords : g.words ≤ s.ring.outstanding := by
    rw [h.layout.outstanding]
    exact List.single_le_sum (by simp) _ (List.mem_map_of_mem hg)
  have hsum : ¬ Counter.bound ≤ s.ring.offset g.start + g.words := by
    unfold Counter.bound
    omega
  have hleft : ¬ s.ring.outstanding < g.words - used := by omega
  rw [Ring.shrinkOverflow?, if_neg hsum, if_neg (mt And.right hleft), ite_self]

theorem Sound.returnsUnlessOverflow (h : Sound base size s) (hs : size ≤ 2 ^ 30) :
    ReturnsUnlessOverflow s := by
  refine ⟨?_, ?_, fun g hg => h.shrinkOverflow?_live hs hg⟩
  · intro q hq
    cases q with
    | attach base size => exact (Ring.attach_returns base size).map
    | detach => exact Ring.detach_returns.map
    | acquire wanted => exact (h.acquire_returns hs wanted).map
    | shrink region used granted => exact (Ring.shrink_returns hq).map
    | release region words => exact (h.release_returns hs region words).map
  · intro q o hq
    cases q with
    | shrink region used granted => exact ⟨_, Ring.map_eq_error.2 (Ring.shrink_overflows hq)⟩
    | attach | detach | acquire | release => cases hq

end Client

/-! ## Padding -/

namespace OpenBuffer

/-- What padding comes to, by whether the sum of the size and the alignment has a value. -/
structure PadsUnlessOverflow (b : OpenBuffer) (align : Nat) : Prop where
  returns : b.buffer.used + align < Counter.bound → (∃ b', b.pad align = .ok () b') ∨
    ∃ n, b.pad align = .error (.refused (.padOverflow n b.buffer.capacity)) b
  aligned : b.buffer.used + align < Counter.bound → align ∣ b.buffer.used → b.pad align = .ok () b
  overflows : Counter.bound ≤ b.buffer.used + align →
    b.pad align = .error (.fault (.overflow .add)) b
  /-- Storage that lies in memory is too short for that. -/
  stores : b.memory.Stores b.buffer.start b.buffer.capacity → align < Counter.bound →
    b.buffer.used + align < Counter.bound

variable {b : OpenBuffer} {align : Nat}

theorem pad_returns (hw : b.Writable) (hpow : Config.isPowerOfTwo align = true)
    (hsum : b.buffer.used + align < Counter.bound) : (∃ b', b.pad align = .ok () b') ∨
      ∃ n, b.pad align = .error (.refused (.padOverflow n b.buffer.capacity)) b := by
  obtain ⟨n, hup⟩ := alignUp_returns (Config.isPowerOfTwo_pos hpow) hsum
  obtain ⟨-, hge⟩ := (alignUp_isLeast hpow hup).1
  rcases Nat.lt_or_ge b.buffer.capacity n with hlt | hle
  · refine .inr ⟨n, ?_⟩
    rw [pad_eq hup, if_pos hlt]
  · obtain ⟨m, hm⟩ := pad_fits hup hge hle hw
    exact .inl ⟨_, hm⟩

theorem padsUnlessOverflow (hused : b.buffer.used ≤ b.buffer.capacity) (hw : b.Writable)
    (hpow : Config.isPowerOfTwo align = true) : b.PadsUnlessOverflow align := by
  refine ⟨pad_returns hw hpow, pad_of_dvd hused hpow, fun hsum => ?_, fun hstores halign => ?_⟩
  · rw [pad, alignUp_overflow hsum]
  · exact Config.isPowerOfTwo_add_lt (Nat.le_trans hused hstores.le) hpow halign

end OpenBuffer

/-! ## Both -/

/-- **No overflow but of a caller's words.** In every state of every run each call of the ring returns,
whatever its arguments, except the shrinks that `overflow?` tells; and padding a buffer returns, unless
its size and the alignment have no sum. -/
theorem returns_unless_overflow {c : Config} (hc : c.validate = .ok ()) (base : Address) {size : Nat}
    (hs : size ≤ 2 ^ 30) (reqs : List Request) :
    ((Client.start c base size).run reqs).ReturnsUnlessOverflow ∧
      ∀ (b : OpenBuffer) (align : Nat), b.buffer.used ≤ b.buffer.capacity → b.Writable →
        Config.isPowerOfTwo align = true → b.PadsUnlessOverflow align := by
  refine ⟨?_, fun b align hused hw hpow => OpenBuffer.padsUnlessOverflow hused hw hpow⟩
  exact (Client.sound_run hs reqs (Client.sound_start hc base size)).returnsUnlessOverflow hs

/-- The oldest of two grants is released, so that three words are live of a region of eight. Every shrink
that names these returns, in order or not. -/
theorem returns_unless_overflow_released :
    let s := (Client.start ⟨2, 5, 2, 4⟩ ⟨0x1000⟩ 8).run [.acquire 4, .acquire 3, .release]
    let b : OpenBuffer := ⟨⟨some 0, .ring, 0, 5, 9, ⟨0x1004⟩⟩, .zeroed ⟨0x1000⟩ 12⟩
    ((Config.validate ⟨2, 5, 2, 4⟩ = .ok () ∧ 8 ≤ 2 ^ 30) ∧
        b.buffer.used ≤ b.buffer.capacity ∧ b.Writable ∧ Config.isPowerOfTwo 8 = true) ∧
      (s.live, s.ring.head, s.ring.outstanding) = ([⟨⟨0x1014⟩, 3⟩], 8, 3) ∧
      (∀ used, Returns (s.ring.answer (.shrink ⟨0x1014⟩ used 3))) ∧
      s.ReturnsUnlessOverflow ∧ b.PadsUnlessOverflow 8 := by
  intro s b
  have hw : b.Writable := OpenBuffer.writable_of_spans (by decide)
  obtain ⟨hring, hpad⟩ := returns_unless_overflow (c := ⟨2, 5, 2, 4⟩) rfl ⟨0x1000⟩ (by decide : 8 ≤ 2 ^ 30)
    [.acquire 4, .acquire 3, .release]
  refine ⟨⟨⟨rfl, by decide⟩, by decide, hw, rfl⟩, by decide, fun used => ?_, hring,
    hpad b 8 (by decide) hw rfl⟩
  exact hring.returns _ (hring.live ⟨⟨0x1014⟩, 3⟩ (by decide) used)

/-- In the same state a shrink that names words up to the largest counter has no end to compare, and one
that names the whole region would give back more words than are outstanding. Nor has padding a sum for a
size that is aligned already, so close to the largest counter. -/
theorem shrink_and_pad_overflow :
    let s := (Client.start ⟨2, 5, 2, 4⟩ ⟨0x1000⟩ 8).run [.acquire 4, .acquire 3, .release]
    let b : OpenBuffer := ⟨⟨some 0, .ring, 0, 0xfffffff8, 0xfffffff8, .null⟩, .zeroed .null 0⟩
    (Config.validate ⟨2, 5, 2, 4⟩ = .ok () ∧ 8 ≤ 2 ^ 30) ∧
      (∃ r, s.ring.shrink ⟨0x1004⟩ 0 0xffffffff = .error (.fault (.overflow .add)) r) ∧
      (∃ r, s.ring.shrink ⟨0x1000⟩ 0 8 = .error (.fault (.overflow .subtract)) r) ∧
      (b.buffer.used ≤ b.buffer.capacity ∧ b.Writable ∧ 8 ∣ b.buffer.used) ∧
      b.pad 8 = .error (.fault (.overflow .add)) b := by
  intro s b
  have hfull : b.Writable := fun i hi hlt => absurd hlt (Nat.not_lt.2 hi)
  exact ⟨⟨rfl, by decide⟩, ⟨_, Ring.shrink_overflows (by decide)⟩,
    ⟨_, Ring.shrink_overflows (by decide)⟩, ⟨Nat.le_refl _, hfull, by decide⟩, rfl⟩

end CommandPool
