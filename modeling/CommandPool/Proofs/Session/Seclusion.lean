import CommandPool.Proofs.Session.Conservation
/-!
# Secluded lists

A core records into a list while other cores write, the ring moves on and the consumer frees buffers.
A list is `Secluded` when nobody else has a word of it: not the ring, and no other core that records.
Then only its own core touches it. Moves leave every list and all of guest memory alone
(`Moves.kept`), and words of another core go elsewhere (`Words.kept`), since a buffer that is no list
lies in the region of the ring.
-/
namespace CommandPool

/-- The list that a core records into. -/
def Leases.list? (l : Leases) (k : Core) : Option Descriptor := (l.active k).filter (·.backing = .displayList)

theorem Leases.list?_eq_some {l : Leases} {k : Core} {d : Descriptor} :
    l.list? k = some d ↔ l.active k = some d ∧ d.backing = .displayList := by
  simp [Leases.list?, Option.filter_eq_some_iff]

theorem Leases.list?_eq_none {l : Leases} {k : Core} :
    l.list? k = none ↔ ∀ d, l.active k = some d → d.backing = .ring := by
  rw [Leases.list?, Option.filter_eq_none_iff]
  refine forall₂_congr fun d _ => ?_
  cases d.backing <;> simp

theorem Leases.list?_setActive_of_ne (l : Leases) {c k : Core} (o : Option Descriptor) (h : k ≠ c) :
    (l.setActive c o).list? k = l.list? k := by
  rw [Leases.list?, Leases.active_setActive_of_ne l o h, Leases.list?]

theorem Leases.list?_setActive_list (l : Leases) (c : Core) {d : Descriptor} (hlist : d.backing = .displayList) :
    (l.setActive c (some d)).list? c = some d :=
  Leases.list?_eq_some.2 ⟨Leases.active_setActive_self l c (some d), hlist⟩

theorem Leases.list?_setActive_none (l : Leases) (c : Core) : (l.setActive c none).list? c = none := by
  rw [Leases.list?, Leases.active_setActive_self, Option.filter_none]

theorem Leases.list?_setHeld (l : Leases) (c k : Core) (held : Bool) : (l.setHeld c held).list? k = l.list? k := by
  rw [Leases.list?, Leases.active_setHeld, Leases.list?]

/-- Where a buffer of the ring, or none, takes the place of another one, no list comes or goes. -/
theorem Leases.list?_setActive_of_ring {l : Leases} {c : Core} {o : Option Descriptor}
    (hslot : ∀ d, l.active c = some d → d.backing = .ring) (ho : ∀ d, o = some d → d.backing = .ring) (k : Core) :
    (l.setActive c o).list? k = l.list? k := by
  by_cases hk : k = c
  · subst hk
    rw [Leases.list?_eq_none.2 hslot, Leases.list?_eq_none, Leases.active_setActive_self]
    exact ho
  · exact l.list?_setActive_of_ne o hk

/-- No word of the list `d` of `k` belongs to the ring or to the list of another core. -/
structure Descriptor.Secluded (d : Descriptor) (k : Core) (l : Leases) (r : Ring) : Prop where
  /-- Its words have different addresses. -/
  short : d.capacity ≤ 2 ^ 30
  ring : r.base.Apart r.size d.start d.capacity
  lists : ∀ c, c ≠ k → ∀ e ∈ l.list? c, e.start.Apart e.capacity d.start d.capacity

instance (d : Descriptor) (k : Core) (l : Leases) (r : Ring) : Decidable (d.Secluded k l r) :=
  decidable_of_iff (d.capacity ≤ 2 ^ 30 ∧ r.base.Apart r.size d.start d.capacity ∧
    ∀ c, c ≠ k → ∀ e ∈ l.list? c, e.start.Apart e.capacity d.start d.capacity)
    ⟨fun ⟨hshort, hring, hlists⟩ => ⟨hshort, hring, hlists⟩, fun h => ⟨h.short, h.ring, h.lists⟩⟩

/-- The list of `k` and the words of its storage are left alone. -/
structure Kept (k : Core) (b b' : Bench) : Prop where
  list : b'.leases.list? k = b.leases.list? k
  memory : ∀ d ∈ b.leases.list? k, ∀ i < d.capacity,
    b'.memory.read (d.start.addWords i) = b.memory.read (d.start.addWords i)

variable {b b' b'' : Bench} {c k : Core} {d : Descriptor} {ws : List UInt32}

theorem Kept.of_memory (hlist : b'.leases.list? k = b.leases.list? k) (hmemory : b'.memory = b.memory) :
    Kept k b b' := ⟨hlist, fun _ _ _ _ => by rw [hmemory]⟩

theorem Kept.refl (k : Core) (b : Bench) : Kept k b b := .of_memory rfl rfl

theorem Kept.trans (h : Kept k b b') (h' : Kept k b' b'') : Kept k b b'' := by
  refine ⟨h'.list.trans h.list, fun d hd i hi => ?_⟩
  rw [h'.memory d (h.list ▸ hd) i hi, h.memory d hd i hi]

/-- **One move** leaves every list alone. -/
theorem Move.kept (hb : Disciplined b) (hmove : Move b b') (k : Core) : Kept k b b' := by
  refine .of_memory ?_ hmove.onCore.memory
  cases hmove with
  | close hphase hslot hring hleased hshrink =>
    refine Leases.list?_setActive_of_ring (fun e he => ?_) (by simp) k
    cases hslot.symm.trans he
    exact hring
  | @seat d hphase =>
    have hleasing := hb.leasing
    rw [Bench.Leasing, hphase] at hleasing
    obtain ⟨hempty, hring, -⟩ := hleasing
    refine Leases.list?_setActive_of_ring (fun e he => ?_) ?_ k
    · rw [hempty.main, hempty.slot] at he
      cases he
    · rintro _ ⟨⟩
      exact hring
  | hold => exact Leases.list?_setHeld ..
  | _ => rfl

theorem Moves.kept (hb : Disciplined b) (hmoves : Moves b b') (k : Core) : Kept k b b' := by
  induction hmoves with
  | refl => exact .refl k b
  | tail hmoves hmove ih => exact ih.trans (hmove.kept (Moves.disciplined hb hmoves) k)

/-- The slot of another core is set. -/
theorem Bench.kept_setSlot (b : Bench) (p : Phase) (o : Option Descriptor) (hk : b.current ≠ k) :
    Kept k b (b.setSlot p o) := .of_memory (Leases.list?_setActive_of_ne _ _ (Ne.symm hk)) rfl

theorem Bench.kept_replaced (b : Bench) (x next : Descriptor) (words : Nat) (hk : b.current ≠ k) :
    Kept k b (b.replaced x next words) := by
  refine .of_memory ?_ rfl
  exact (Leases.list?_setHeld ..).trans (Leases.list?_setActive_of_ne _ _ (Ne.symm hk))

/-- Words of another core go to storage that is apart. -/
theorem Words.kept (hwords : Words c ws b b') (hk : k ≠ c)
    (hapart : ∀ e, b.leases.active c = some e → ∀ d ∈ b.leases.list? k, e.start.Apart e.capacity d.start d.capacity) :
    Kept k b b' := by
  induction hwords with
  | nil => exact .refl k _
  | concat hwords hword ih =>
    refine (ih hapart).trans ?_
    have hlist := (ih hapart).list
    obtain ⟨hslot, hroom, hwrite⟩ := hword
    obtain ⟨e, he, rfl⟩ := hwords.slot_of hslot
    refine ⟨Leases.list?_setActive_of_ne _ _ hk, fun d hd i hi => ?_⟩
    refine Memory.read_write_of_ne hwrite (Ne.symm ?_)
    exact (hapart e he d (hlist ▸ hd)).word_ne hroom hi

/-- Whatever stands in the slot of another core is apart from a secluded list. -/
theorem Conserving.apart {config : Config} (hc : config.validate = .ok ()) (hb : Disciplined b)
    (h : Conserving config b) (hphase : b.phase = .rest) (hd : d.Secluded k b.leases b.ring) (hk : k ≠ c)
    {e : Descriptor} (he : b.leases.active c = some e) : e.start.Apart e.capacity d.start d.capacity := by
  cases hbacking : e.backing with
  | displayList => exact hd.lists c (Ne.symm hk) e (Leases.list?_eq_some.2 ⟨he, hbacking⟩)
  | ring =>
    have hmain : c = b.main := hb.ringAtMain c e he hbacking
    have hopen : b.open? = some e := by
      rw [Bench.open?, hphase]
      simp [← hmain, he, hbacking]
    have hout : e.grant ∈ b.live := by simp [Bench.live, hopen]
    obtain ⟨o, ⟨hstart, -⟩, hle⟩ := (h.traced.sound hc).1.inside hout
    have hpart := hd.ring.part hle h.traced.size_le
    rwa [← hstart] at hpart

end CommandPool
