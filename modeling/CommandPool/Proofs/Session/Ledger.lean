import CommandPool.Proofs.Guest.Memory
import CommandPool.Proofs.Session.Account
import CommandPool.Proofs.Session.Script
/-!
# The ledger of a session

What a session owes to the writers of the ring can be read off a part of it, its `Ledger`. The
buffers of the ring are out: those that are submitted, and perhaps one that is still open.
`Balanced R o ws l` says that they are the live grants of a ring in `R`, in their order, where `o`
is the open one, and that `ws` is what the consumer has read followed by what stands in them.

Below is what each operation of the pool does to a balanced ledger; it stays balanced, and no call
that the pool makes to its ring is refused, except for a lack of room.
-/
namespace CommandPool

/-- All blocks one after another; `none` if one of them could not be read. -/
def joined : List (Option (List UInt32)) → Option (List UInt32)
  | [] => some []
  | b :: bs => do return (← b) ++ (← joined bs)

theorem joined_cons_eq_some {b : Option (List UInt32)} {bs : List (Option (List UInt32))}
    {ws : List UInt32} :
    joined (b :: bs) = some ws ↔ ∃ us vs, b = some us ∧ joined bs = some vs ∧ us ++ vs = ws := by
  cases b <;> cases h : joined bs <;> simp [joined, h]

theorem joined_append_eq_some {bs cs : List (Option (List UInt32))} {ws : List UInt32} :
    joined (bs ++ cs) = some ws ↔
      ∃ us vs, joined bs = some us ∧ joined cs = some vs ∧ us ++ vs = ws := by
  induction bs generalizing ws with
  | nil => simp [joined]
  | cons b bs ih =>
    simp only [List.cons_append, joined_cons_eq_some, ih]
    constructor
    · rintro ⟨us, _, hb, ⟨vs, xs, hbs, hcs, rfl⟩, rfl⟩
      exact ⟨us ++ vs, xs, ⟨us, vs, hb, hbs, rfl⟩, hcs, by simp⟩
    · rintro ⟨_, xs, ⟨us, vs, hb, hbs, rfl⟩, hcs, rfl⟩
      exact ⟨us, vs ++ xs, hb, ⟨vs, xs, hbs, hcs, rfl⟩, by simp⟩

theorem joined_concat_eq_some {bs : List (Option (List UInt32))} {b : Option (List UInt32)}
    {ws : List UInt32} :
    joined (bs ++ [b]) = some ws ↔ ∃ us vs, joined bs = some us ∧ b = some vs ∧ us ++ vs = ws := by
  simp [joined_append_eq_some, joined]

/-! ## The ledger -/

structure Ledger where
  config : Config
  ring : Ring
  leases : Leases
  main : Core
  submitted : List Descriptor
  offers : List (Option Storage)
  memory : Memory
  executed : List (Option (List UInt32))

def Session.ledger (s : Session) : Ledger :=
  ⟨s.pool.config, s.pool.ring, s.pool.leases, s.console.topology.main, s.console.submitted,
    s.console.offers, s.console.memory, s.journal.executed⟩

namespace Ledger

/-- The buffers that are out, the oldest first. -/
def out (l : Ledger) (o : Option Descriptor) : List Descriptor := ringBacked l.submitted ++ o.toList

/-- Their storage. -/
def live (l : Ledger) (o : Option Descriptor) : List Grant := (l.out o).map Descriptor.grant

/-- What the consumer has read, then what stands in the buffers that are out. -/
def blocks (l : Ledger) (o : Option Descriptor) : List (Option (List UInt32)) :=
  l.executed ++ (l.out o).map (·.contents l.memory)

theorem live_some (l : Ledger) (d : Descriptor) : l.live (some d) = l.live none ++ [d.grant] := by
  simp [live, out]

theorem blocks_some (l : Ledger) (d : Descriptor) :
    l.blocks (some d) = l.blocks none ++ [d.contents l.memory] := by
  simp [blocks, out]

end Ledger

/-- The ring has usable limits, and its region, if it has one, is `R`. -/
structure Region.Hosts (R : Region) (r : Ring) : Prop where
  minGrant : 0 < r.minGrant
  maxGrant : 0 < r.maxGrant
  region : r.size ≠ 0 → r.base = R.start ∧ r.size = R.words

structure Balanced (R : Region) (o : Option Descriptor) (ws : List UInt32) (l : Ledger) : Prop where
  ring : R.Hosts l.ring
  /-- Half the space of a counter is above any alignment. -/
  padAlign : 0 < l.config.padAlign ∧ l.config.padAlign ≤ 2 ^ 31
  layout : Layout l.ring (l.live o) o.isSome
  /-- The consumer gets buffers that were cut to what is written in them. -/
  finished : ∀ d ∈ l.submitted, d.used = d.capacity
  opened : ∀ d, o = some d → d.backing = .ring ∧ d.used ≤ d.capacity
  offers : ∀ st, some st ∈ l.offers → R.Clear st.start (st.bytes / wordBytes)
  words : joined (l.blocks o) = some ws

variable {R : Region} {o : Option Descriptor} {ws : List UInt32} {l : Ledger}

theorem Region.Hosts.same {r r' : Ring} (h : R.Hosts r) (hs : SameRegion r r') : R.Hosts r' := by
  refine ⟨hs.minGrant ▸ h.minGrant, hs.maxGrant ▸ h.maxGrant, ?_⟩
  rw [hs.base, hs.size]
  exact h.region

theorem Region.Hosts.size_le {r : Ring} (h : R.Hosts r) : r.size ≤ 2 ^ 30 := by
  by_cases hs : r.size = 0
  · omega
  · rw [(h.region hs).2]
    exact R.short

/-- A write beside what is written in a buffer leaves it as it is. -/
theorem Descriptor.contents_write {m m' : Memory} {a : Address} {w : UInt32} {d : Descriptor}
    (hw : m.write a w = .ok m') (h : ∀ i < d.used, d.start.addWords i ≠ a) :
    d.contents m' = d.contents m := by
  rw [Descriptor.contents, Memory.readWords_write_of_ne hw h, Descriptor.contents]

/-- A write at the cursor of a buffer appends to what is written in it. -/
theorem Descriptor.contents_append {m m' : Memory} {w : UInt32} {d : Descriptor} {ws : List UInt32}
    (hd : d.used < 2 ^ 30) (hw : m.write d.cursor w = .ok m') (h : d.contents m = some ws) :
    ({ d with used := d.used + 1 } : Descriptor).contents m' = some (ws ++ [w]) := by
  unfold Descriptor.contents at h ⊢
  cases hread : m.readWords d.start d.used with
  | error f => simp [hread, Except.toOption] at h
  | ok vs =>
    simp only [hread, Except.toOption, Option.some.injEq] at h
    subst h
    simp only [Memory.readWords_write_end hd hread hw, Except.toOption]

theorem Descriptor.contents_of_used_eq_zero {m : Memory} {d : Descriptor} (h : d.used = 0) :
    d.contents m = some [] := by
  rw [Descriptor.contents, h]
  rfl

namespace Balanced

/-- Every buffer that is out lies in the region. -/
theorem inside (h : Balanced R o ws l) {d : Descriptor} (hd : d ∈ l.out o) :
    ∃ i, d.start = R.start.addWords i ∧ i + d.capacity ≤ R.words := by
  obtain ⟨i, ⟨ha, hw⟩, hle⟩ := h.layout.inside (List.mem_map_of_mem hd)
  obtain ⟨hbase, hsize⟩ := h.ring.region (by omega)
  rw [hbase] at ha
  rw [hsize] at hle
  exact ⟨i, ha, hle⟩

theorem used_le (h : Balanced R o ws l) {d : Descriptor} (hd : d ∈ l.out o) : d.used ≤ d.capacity := by
  rcases List.mem_append.1 hd with hd | hd
  · exact Nat.le_of_eq (h.finished d (List.mem_filter.1 hd).1)
  · exact (h.opened d (Option.mem_toList.1 hd)).2

theorem accounted (h : Balanced R o ws l) : Accounted o l.submitted l.ring :=
  ⟨h.ring.minGrant, h.ring.maxGrant, h.ring.size_le, h.layout, fun d hd => (h.opened d hd).1⟩

/-! ## Writing -/

/-- A write to storage clear of the region. -/
theorem write_clear (h : Balanced R o ws l) {a : Address} {n i : Nat} (ha : R.Clear a n) (hi : i < n)
    {w : UInt32} {m : Memory} (hw : l.memory.write (a.addWords i) w = .ok m) :
    Balanced R o ws { l with memory := m } := by
  refine { h with words := ?_ }
  rw [← h.words]
  apply congrArg fun cs => joined (l.executed ++ cs)
  apply List.map_congr_left
  intro d hd
  obtain ⟨k, hk, hle⟩ := h.inside hd
  have hused := h.used_le hd
  apply Descriptor.contents_write hw
  intro j hj
  rw [hk, Address.addWords_addWords]
  exact ha.word_ne (by omega) hi

/-- A buffer that is submitted shares no word with the open one. -/
theorem apart_open {d : Descriptor} (h : Balanced R (some d) ws l) {k : Descriptor}
    (hk : k ∈ l.out none) : k.start.Apart k.capacity d.start d.capacity := by
  have hsep := h.layout.separate
  rw [Ledger.live_some] at hsep
  have hkd := (List.pairwise_append.1 hsep).2.2 k.grant (List.mem_map_of_mem hk) d.grant (by simp)
  exact (hkd.apart h.ring.size_le).bytes

/-- A word through the writer of the ring. -/
theorem push {d : Descriptor} (h : Balanced R (some d) ws l) (hroom : d.used < d.capacity) {w : UInt32}
    {m : Memory} (hw : l.memory.write d.cursor w = .ok m) :
    Balanced R (some { d with used := d.used + 1 }) (ws ++ [w]) { l with memory := m } := by
  have hshort : d.capacity ≤ 2 ^ 30 := by
    obtain ⟨i, _, hle⟩ := h.inside (d := d) (by simp [Ledger.out])
    have := R.short
    omega
  have hwords := h.words
  rw [Ledger.blocks_some] at hwords
  obtain ⟨us, vs, hus, hvs, rfl⟩ := joined_concat_eq_some.1 hwords
  have hold : ({ l with memory := m } : Ledger).blocks none = l.blocks none := by
    apply congrArg (l.executed ++ ·)
    apply List.map_congr_left
    intro k hk
    apply Descriptor.contents_write hw
    intro i hi
    have := h.used_le (d := k) (by simp_all [Ledger.out])
    exact (h.apart_open hk).word_ne (by omega) hroom
  have hnew := Descriptor.contents_append (by omega) hw hvs
  refine ⟨h.ring, h.padAlign, ?_, h.finished, ?_, h.offers, ?_⟩
  · have hlay := h.layout
    rw [Ledger.live_some] at hlay ⊢
    exact hlay
  · rintro _ ⟨⟩
    exact ⟨(h.opened d rfl).1, hroom⟩
  · rw [Ledger.blocks_some, hold]
    exact joined_concat_eq_some.2 ⟨us, vs ++ [w], hus, hnew, (List.append_assoc ..).symm⟩

/-! ## The ring -/

/-- A buffer is cut to the words in it; without any it is no longer out. -/
theorem shrink {d : Descriptor} (h : Balanced R (some d) ws l) :
    ∃ r, l.ring.shrink d.start d.used d.capacity = .ok () r ∧
      (d.used = 0 → Balanced R none ws { l with ring := r }) ∧
      (d.used ≠ 0 → Balanced R (some { d with capacity := d.used }) ws { l with ring := r }) := by
  obtain ⟨hring, hused⟩ := h.opened d rfl
  obtain ⟨r, hr, hsame, hdropped, hcut⟩ := h.accounted.shrink hused
  have hwords := h.words
  rw [Ledger.blocks_some] at hwords
  refine ⟨r, hr, ?_, ?_⟩
  · intro h0
    refine ⟨h.ring.same hsame, h.padAlign, (hdropped h0).layout, h.finished, by simp, h.offers, ?_⟩
    obtain ⟨us, vs, hus, hvs, rfl⟩ := joined_concat_eq_some.1 hwords
    rw [Descriptor.contents_of_used_eq_zero h0] at hvs
    cases hvs
    rw [List.append_nil]
    exact hus
  · intro h0
    refine ⟨h.ring.same hsame, h.padAlign, (hcut h0).layout, h.finished, ?_, h.offers, ?_⟩
    · rintro _ ⟨⟩
      exact ⟨hring, Nat.le_refl _⟩
    · rw [Ledger.blocks_some]
      exact hwords

/-- A buffer that is cut to its words goes to the queue. -/
theorem submit {d : Descriptor} (h : Balanced R (some d) ws l) (hd : d.used = d.capacity) (stamp : Nat) :
    Balanced R none ws { l with submitted := l.submitted ++ [{ d with stamp := stamp }] } := by
  have hring := (h.opened d rfl).1
  have hout : ({ l with submitted := l.submitted ++ [{ d with stamp := stamp }] } : Ledger).out none =
      l.out (some { d with stamp := stamp }) := by
    simp [Ledger.out, ringBacked, hring]
  refine ⟨h.ring, h.padAlign, (h.accounted.submit stamp).layout, ?_, by simp, h.offers, ?_⟩
  · intro k hk
    rcases List.mem_append.1 hk with hk | hk
    · exact h.finished k hk
    · rw [List.mem_singleton.1 hk]
      exact hd
  · have hwords := h.words
    rw [Ledger.blocks_some] at hwords
    rw [Ledger.blocks, hout]
    simpa [Ledger.blocks, Ledger.out, Descriptor.contents] using hwords

/-- What the ledger is like after the ring was asked for a grant. -/
def AcquirePost (R : Region) (ws : List UInt32) (l : Ledger) : Outcome Ring Acquired → Prop
  | .ok a r => ∀ d : Descriptor, d.backing = .ring → d.used = 0 → d.grant = a.grant →
    Balanced R (some d) ws { l with ring := r }
  | .error e r => Balanced R none ws { l with ring := r } ∧ (e = .refused .insufficient ∨
    e = .refused .notInitialized ∨ ∃ wanted, e = .refused (.requestTooLarge wanted l.ring.size))

theorem acquire (h : Balanced R none ws l) (wanted : Nat) :
    AcquirePost R ws l (l.ring.acquire wanted) := by
  have hpost := h.accounted.acquire wanted
  match hr : l.ring.acquire wanted with
  | .ok a r =>
    rw [hr] at hpost
    intro d hring hused hgrant
    refine ⟨h.ring.same hpost.1, h.padAlign, (hpost.2 d hring hgrant).layout, h.finished, ?_,
      h.offers, ?_⟩
    · rintro _ ⟨⟩
      exact ⟨hring, by omega⟩
    · rw [Ledger.blocks_some]
      exact joined_concat_eq_some.2
        ⟨ws, [], h.words, Descriptor.contents_of_used_eq_zero hused, List.append_nil _⟩
  | .error e r =>
    rw [hr] at hpost
    obtain ⟨hsame, hacc, he⟩ := hpost
    exact ⟨⟨h.ring.same hsame, h.padAlign, hacc.layout, h.finished, by simp, h.offers, h.words⟩, he⟩

/-- The consumer reads the oldest buffer and frees it; its words go back to the ring. -/
theorem free (h : Balanced R o ws l) {d : Descriptor} {rest : List Descriptor}
    (hsub : l.submitted = d :: rest) (hd : d.backing = .ring) :
    ∃ r, l.ring.release d.start d.capacity = .ok () r ∧ Balanced R o ws
      { l with
        ring := r
        submitted := rest
        executed := l.executed ++ [d.contents l.memory] } := by
  have hout : l.out o = d :: (ringBacked rest ++ o.toList) := by
    rw [Ledger.out, hsub, ringBacked_cons_ring rest hd, List.cons_append]
  have hacc := h.accounted
  rw [hsub] at hacc
  obtain ⟨r, hr, hsame, hacc⟩ := hacc.free hd
  refine ⟨r, hr, h.ring.same hsame, h.padAlign, hacc.layout, ?_, h.opened, h.offers, ?_⟩
  · intro k hk
    exact h.finished k (hsub ▸ List.mem_cons_of_mem d hk)
  · rw [← h.words, Ledger.blocks, Ledger.blocks, hout]
    simp [Ledger.out]

/-- A buffer that is a display list goes from the queue without a trace. -/
theorem free_list (h : Balanced R o ws l) {d : Descriptor} {rest : List Descriptor}
    (hsub : l.submitted = d :: rest) (hd : d.backing = .displayList) :
    Balanced R o ws { l with submitted := rest } := by
  have hout : ({ l with submitted := rest } : Ledger).out o = l.out o := by
    rw [Ledger.out, Ledger.out, hsub, ringBacked_cons_list rest hd]
  have hacc := h.accounted
  rw [hsub] at hacc
  refine ⟨h.ring, h.padAlign, (hacc.free_list hd).layout, ?_, h.opened, h.offers, ?_⟩
  · intro k hk
    exact h.finished k (hsub ▸ List.mem_cons_of_mem d hk)
  · rw [Ledger.blocks, hout]
    exact h.words

theorem submit_list (h : Balanced R o ws l) {d : Descriptor} (hd : d.backing = .displayList)
    (hused : d.used = d.capacity) : Balanced R o ws { l with submitted := l.submitted ++ [d] } := by
  have hout : ({ l with submitted := l.submitted ++ [d] } : Ledger).out o = l.out o := by
    rw [Ledger.out, ringBacked_concat_list l.submitted hd, Ledger.out]
  refine ⟨h.ring, h.padAlign, (h.accounted.submit_list hd).layout, ?_, h.opened, h.offers, ?_⟩
  · intro k hk
    rcases List.mem_append.1 hk with hk | hk
    · exact h.finished k hk
    · rw [List.mem_singleton.1 hk, hused]
  · rw [Ledger.blocks, hout]
    exact h.words

/-! ## The region -/

/-- A region can be attached only while nothing is out. -/
theorem attach (h : Balanced R o ws l) {base : Address} {size : Nat} {r : Ring}
    (hfit : size ≠ 0 → base = R.start ∧ size = R.words) (hr : l.ring.attach base size = .ok () r) :
    o = none ∧ Balanced R none ws { l with ring := r } := by
  have hsize : size ≤ 2 ^ 30 := by
    by_cases h0 : size = 0
    · omega
    · rw [(hfit h0).2]
      exact R.short
  obtain ⟨rfl, -, hacc⟩ := h.accounted.attach hsize hr
  have hlay := hacc.layout
  obtain ⟨rfl, -⟩ := attach_spec hr
  exact ⟨rfl, ⟨h.ring.minGrant, h.ring.maxGrant, hfit⟩, h.padAlign, hlay, h.finished, by simp,
    h.offers, h.words⟩

/-- A ring that is drained can be detached. -/
theorem detach (h : Balanced R none ws l) (hout : l.ring.outstanding = 0) :
    Balanced R none ws { l with ring := .detached l.ring.minGrant l.ring.maxGrant } := by
  exact ⟨⟨h.ring.minGrant, h.ring.maxGrant, fun h0 => absurd rfl h0⟩, h.padAlign,
    (h.accounted.detach hout).layout, h.finished, by simp, h.offers, h.words⟩

end Balanced

end CommandPool
