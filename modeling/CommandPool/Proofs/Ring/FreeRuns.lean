import CommandPool.Proofs.Ring.Misuse
import CommandPool.Proofs.Ring.Progress
/-!
# The room a request finds

How many words are free at a place is a fact about the live grants, which the ring does not keep.
`Client.freeRun s o` counts the words from offset `o` up to the first that belongs to a live grant or
to the end of the region. The ring works its room out from the cursors, and `measured_run` compares
the two in every state of every run:

* as long as the tail does not rest on the skipped words, a request is refused only when neither the
  words at the head nor those at the base suffice, and a grant takes all the free words at its place,
  up to the maximum (`Measured` by `freeRun`);
* while the tail does rest on them, the skipped words are free and the ring counts them as taken:
  everything is measured as if the region ended at the tail. A request that only fits together with
  the skipped words is refused (`not_measured_on_skip`).
-/
namespace CommandPool

/-! ## Words of grants -/

/-- Word `i` of a region at `base` is one of the grant. -/
def Grant.Has (base : Address) (g : Grant) (i : Nat) : Prop :=
  g.offset base ≤ i ∧ i < g.offset base + g.words

instance (base : Address) (g : Grant) (i : Nat) : Decidable (g.Has base i) :=
  inferInstanceAs (Decidable (_ ∧ _))

/-- The grants of a chain are the words between its ends. -/
theorem Chain.has {base : Address} {i : Nat} : ∀ {lo hi : Nat} {gs : List Grant}, Chain base lo gs hi →
    hi ≤ 2 ^ 30 → ((∃ g ∈ gs, g.Has base i) ↔ lo ≤ i ∧ i < hi)
  | lo, hi, [], h, _ => by
    cases h
    simp
  | lo, hi, g :: gs, ⟨hstart, hpos, h⟩, hle => by
    have hlen := h.totalWords
    have hoff : g.offset base = lo := Grant.At.offset_eq ⟨hstart, hpos⟩ (by omega)
    rw [List.exists_mem_cons_iff, h.has hle, Grant.Has, hoff]
    omega

/-! ## The free words at a place -/

namespace Client

variable {base : Address} {size : Nat} {s : Client} {c : Config}

/-- Word `i` of the region belongs to a live grant. -/
def Taken (s : Client) (i : Nat) : Prop := ∃ g ∈ s.live, g.Has s.ring.base i

instance (s : Client) (i : Nat) : Decidable (s.Taken i) :=
  inferInstanceAs (Decidable (∃ g ∈ s.live, _))

/-- How many words from offset `o` on belong to no live grant, up to the end of the region. -/
def freeRun (s : Client) (o : Nat) : Nat :=
  ((List.range' o (s.ring.size - o)).takeWhile fun i => ¬ s.Taken i).length

/-- The free words end where the first taken word stands, or with the region. -/
theorem freeRun_eq {o stop : Nat} (hle : o ≤ stop) (hstop : stop ≤ s.ring.size)
    (hfree : ∀ i, o ≤ i → i < stop → ¬ s.Taken i) (hend : stop < s.ring.size → s.Taken stop) :
    s.freeRun o = stop - o := by
  have hsplit : List.range' o (s.ring.size - o) =
      List.range' o (stop - o) ++ List.range' stop (s.ring.size - stop) := by
    rw [show s.ring.size - o = (stop - o) + (s.ring.size - stop) by omega, ← List.range'_append_1,
      show o + (stop - o) = stop by omega]
  have hrest : (List.range' stop (s.ring.size - stop)).takeWhile (fun i => ¬ s.Taken i) = [] := by
    by_cases hlt : stop < s.ring.size
    · rw [show s.ring.size - stop = (s.ring.size - stop - 1) + 1 by omega, List.range'_succ,
        List.takeWhile_cons_of_neg (by simpa using hend hlt)]
    · rw [show s.ring.size - stop = 0 by omega]
      rfl
  have hall : ∀ i ∈ List.range' o (stop - o), decide (¬ s.Taken i) = true := by
    intro i hi
    obtain ⟨h1, h2⟩ := List.mem_range'_1.1 hi
    exact decide_eq_true (hfree i h1 (by omega))
  rw [freeRun, hsplit, List.takeWhile_append_of_pos hall, hrest, List.append_nil, List.length_range']

/-- The words at a place where the whole region is free behind it. -/
theorem freeRun_rest {o : Nat} (hle : o ≤ s.ring.size) (hfree : ∀ i, o ≤ i → ¬ s.Taken i) :
    s.freeRun o = s.ring.size - o :=
  freeRun_eq hle (Nat.le_refl _) (fun i h _ => hfree i h) fun h => absurd h (Nat.lt_irrefl _)

theorem freeRun_taken {o : Nat} (h : s.Taken o) : s.freeRun o = 0 := by
  by_cases hle : o ≤ s.ring.size
  · exact (freeRun_eq (Nat.le_refl o) hle (fun i h1 h2 => absurd h1 (Nat.not_le.2 h2))
      fun _ => h).trans (Nat.sub_self o)
  · rw [freeRun, Nat.sub_eq_zero_of_le (by omega)]
    rfl

/-! ## What the ring makes of them -/

/-- The answer to a request of `wanted` words, when `room o` words are free at offset `o`. -/
structure Measured (c : Config) (room : Nat → Nat) (wanted : Nat) (s : Client) : Prop where
  /-- Refused just when there is too little room both at the head and at the base. -/
  refused : (∃ r, s.ring.acquire wanted = .error (.refused .insufficient) r) ↔
    room s.ring.head < max wanted c.minGrant ∧ room 0 < max wanted c.minGrant
  /-- A grant takes all the room at its place, up to the maximum. -/
  granted : ∀ a r, s.ring.acquire wanted = .ok a r →
    a.grant.words = min c.maxGrant (room (a.grant.offset s.ring.base))
  /-- There is no other answer. -/
  answered : (∃ a r, s.ring.acquire wanted = .ok a r) ∨
    ∃ r, s.ring.acquire wanted = .error (.refused .insufficient) r

/-- What is found for a request of `n` words: all the room at the head or at the base, or too little at
both. -/
def Placed (room : Nat → Nat) (n : Nat) (r : Ring) : Except Failure Ring.Place → Prop
  | .ok p => p.room = room p.ring.head ∧ (p.ring.head = r.head ∨ p.ring.head = 0)
  | .error _ => room r.head < n ∧ room 0 < n

/-- The place that is found decides the answer. -/
theorem Sound.measured {room : Nat → Nat} {wanted : Nat} (h : Sound base size s) (hs : size ≤ 2 ^ 30)
    (hmin : s.ring.minGrant = c.minGrant) (hmax : s.ring.maxGrant = c.maxGrant)
    (hle : max wanted c.minGrant ≤ size)
    (hplace : Placed room (max wanted c.minGrant) s.ring (s.ring.place (max wanted c.minGrant))) :
    Measured c room wanted s := by
  have hpos := h.minGrant_pos
  rw [← h.size_eq] at hs hle
  rw [← hmin] at hle hplace
  have hbound : s.ring.size < Counter.bound := by
    unfold Counter.bound
    omega
  have hpost := place_spec h.layout _ hle
  cases hp : s.ring.place (max wanted s.ring.minGrant) with
  | ok p =>
    rw [hp] at hplace hpost
    obtain ⟨hroom, hhead⟩ := hplace
    obtain ⟨hsame, henough, hready⟩ := hpost
    obtain ⟨a, r', ha, hwords⟩ :=
      acquire_of_place h.layout h.minGrant_pos h.maxGrant_pos hbound hle hp
    -- the grant stands at the head of the place
    have hstart : a.grant.offset s.ring.base = p.ring.head := by
      obtain ⟨-, q, hq, hg⟩ := acquire_ok ha
      rw [h.layout.settled_eq, hp] at hq
      cases hq
      rw [(grant_ok hg).1, Grant.offset, Ring.address, hsame.base]
      have hend := hready.head_le
      rw [hsame.size] at hend
      exact Address.wordsSince_addWords _ (by omega)
    refine ⟨⟨?_, ?_⟩, ?_, .inl ⟨a, r', ha⟩⟩
    · rintro ⟨r, hr⟩
      rw [ha] at hr
      cases hr
    · rintro ⟨h1, h2⟩
      rw [← hmin] at h1 h2
      rcases hhead with hhead | hhead <;> rw [hhead] at hroom <;> omega
    · intro b r hb
      rw [ha] at hb
      cases hb
      rw [hwords, hstart, hroom, hmax, Nat.min_comm]
  | error e =>
    rw [hp] at hplace hpost
    cases hpost
    have hattached : s.ring.IsAttached := Nat.ne_of_gt (by omega)
    have hacq : s.ring.acquire wanted = .error (.refused .insufficient) s.ring.stalled := by
      simp only [Ring.acquire, not_not_intro hattached, Nat.not_lt.2 hle, if_false,
        h.layout.settled_eq, hp]
      rfl
    exact ⟨⟨fun _ => hmin ▸ hplace, fun _ => ⟨_, hacq⟩⟩, by simp [hacq], .inr ⟨_, hacq⟩⟩

/-! ## One shape after the other -/

/-- Nothing is live: the whole region is free. -/
theorem placed_empty {n : Nat} (hlive : s.live = []) (hhead : s.ring.head = 0)
    (htail : s.ring.tail = none) : Placed s.freeRun n s.ring (s.ring.place n) := by
  have hfree : s.freeRun 0 = s.ring.size :=
    freeRun_rest (Nat.zero_le _) fun i _ => by simp [Taken, hlive]
  simp only [Ring.place, htail, Placed, hhead, hfree, true_or, and_self]

/-- In front of the tail the free words are those up to the end, and those before the tail. -/
theorem placed_straight {tail n : Nat} (hs : s.ring.size ≤ 2 ^ 30) (htail : s.ring.tail = some tail)
    (hchain : Chain s.ring.base tail s.live s.ring.head) (hlt : tail < s.ring.head)
    (hhead : s.ring.head ≤ s.ring.size) : Placed s.freeRun n s.ring (s.ring.place n) := by
  have htaken (i : Nat) : s.Taken i ↔ tail ≤ i ∧ i < s.ring.head := hchain.has (by omega)
  have hbehind : s.freeRun s.ring.head = s.ring.size - s.ring.head :=
    freeRun_rest hhead fun i hi => by rw [htaken]; omega
  have hfront : s.freeRun 0 = tail :=
    freeRun_eq (Nat.zero_le _) (by omega) (fun i _ hi => by rw [htaken]; omega)
      fun _ => (htaken _).2 ⟨Nat.le_refl _, hlt⟩
  rw [place_straight htail hlt hhead]
  by_cases hfit : n ≤ s.ring.size - s.ring.head
  · rw [if_pos hfit]
    exact ⟨hbehind.symm, .inl rfl⟩
  rw [if_neg hfit]
  by_cases hroom : tail < n
  · rw [if_pos hroom]
    exact ⟨by omega, by omega⟩
  · rw [if_neg hroom]
    exact ⟨hfront.symm, .inr rfl⟩

/-- Behind the tail the free words at the head are those up to it, and there are no more at the base. -/
theorem placed_wrapped {room : Nat → Nat} {tail n : Nat} (htail : s.ring.tail = some tail)
    (hle : s.ring.head ≤ tail) (hout : 0 < s.ring.outstanding)
    (hhead : room s.ring.head = tail - s.ring.head) (hbase : room 0 ≤ tail - s.ring.head) :
    Placed room n s.ring (s.ring.place n) := by
  rw [place_wrapped htail hle hout]
  by_cases hroom : tail - s.ring.head < n
  · rw [if_pos hroom]
    exact ⟨by omega, by omega⟩
  · rw [if_neg hroom]
    exact ⟨hhead.symm, .inl rfl⟩

theorem taken_wrapped {tail stop : Nat} {old young : List Grant} (hs : s.ring.size ≤ 2 ^ 30)
    (hlive : s.live = old ++ young) (hold : Chain s.ring.base tail old stop) (hstop : stop ≤ s.ring.size)
    (hyoung : Chain s.ring.base 0 young s.ring.head) (hhead : s.ring.head ≤ tail) (i : Nat) :
    s.Taken i ↔ (tail ≤ i ∧ i < stop) ∨ i < s.ring.head := by
  have hlen := hold.totalWords
  have ho := hold.has (i := i) (by omega)
  have hy := hyoung.has (i := i) (by omega)
  simp only [Taken, hlive, List.mem_append, or_and_right, exists_or, ho, hy, Nat.zero_le, true_and]

/-- The words at the base, once the ring has wrapped: none, unless the head is back there. -/
theorem freeRun_base (h : ∀ i, i < s.ring.head → s.Taken i) :
    s.freeRun 0 ≤ s.freeRun s.ring.head := by
  by_cases h0 : s.ring.head = 0
  · rw [h0]
  · rw [freeRun_taken (h 0 (by omega))]
    exact Nat.zero_le _

/-- **The room**, in a state of a client: the free words at the head and at the base, which are cut at
the tail while this one rests on the skipped words. -/
theorem Sound.placed (h : Sound base size s) (hs : size ≤ 2 ^ 30) (n : Nat) :
    (¬ s.ring.OnSkip → Placed s.freeRun n s.ring (s.ring.place n)) ∧
      (s.ring.OnSkip → Placed (fun o => s.freeRun o - s.ring.skipped) n s.ring (s.ring.place n)) := by
  have hlay := h.layout
  rw [← h.size_eq] at hs
  unfold Ring.OnSkip
  generalize hl : s.live = live at hlay
  generalize s.newest = newest at hlay
  cases hlay with
  | empty hhead htail hskip hout => exact ⟨fun _ => placed_empty hl hhead htail, by simp [htail]⟩
  | filled hne hshape =>
    have hpos := hshape.outstanding_pos hne
    cases hshape with
    | straight htail hchain hhead hskip hout =>
      have hlen := hchain.totalWords
      refine ⟨fun _ => placed_straight hs htail (hl ▸ hchain) (by omega) hhead, ?_⟩
      simp only [htail, Option.some.injEq, exists_eq_left', hskip]
      omega
    | @wrapped tail stop old young _ htail hold hstop hyoung hhead hnewest hout =>
      have hlen := hold.totalWords
      have htaken := taken_wrapped hs hl hold (by omega) hyoung hhead
      have hbase := freeRun_base fun i hi => (htaken i).2 (.inr hi)
      simp only [htail, Option.some.injEq, exists_eq_left']
      constructor
      · -- the oldest grant stands at the tail, and the free words end there
        intro hoff
        have hrun : s.freeRun s.ring.head = tail - s.ring.head :=
          freeRun_eq hhead (by omega) (fun i h1 h2 => by rw [htaken]; omega)
            fun _ => (htaken tail).2 (.inl ⟨Nat.le_refl _, by omega⟩)
        exact placed_wrapped htail hhead hpos hrun (hrun ▸ hbase)
      · -- nothing is left at the tail, and the free words go on to the end of the region
        intro hon
        have hrun : s.freeRun s.ring.head = s.ring.size - s.ring.head :=
          freeRun_rest (by omega) fun i h1 => by rw [htaken]; omega
        exact placed_wrapped htail hhead hpos (by simp only [hrun]; omega) (by omega)

/-- **The room.** In every state of every run a request that the region could hold is measured by the
free words, and while the tail rests on the skipped words by the free words less these. -/
theorem measured_run {c : Config} (hc : c.validate = .ok ()) (base : Address) {size wanted : Nat}
    (hs : size ≤ 2 ^ 30) (hle : max wanted c.minGrant ≤ size) (reqs : List Request) :
    let s := (start c base size).run reqs
    (¬ s.ring.OnSkip → Measured c s.freeRun wanted s) ∧
      (s.ring.OnSkip → Measured c (fun o => s.freeRun o - s.ring.skipped) wanted s) := by
  intro s
  have h0 := sound_start hc base size
  have hregion := sameRegion_run hs reqs h0
  obtain ⟨hmin, hmax⟩ := start_limits c base size
  have h := sound_run hs reqs h0
  obtain ⟨hoff, hon⟩ := h.placed hs (max wanted c.minGrant)
  have hmin := hregion.minGrant.trans hmin
  have hmax := hregion.maxGrant.trans hmax
  exact ⟨fun hskip => h.measured hs hmin hmax hle (hoff hskip), fun hskip => h.measured hs hmin hmax hle (hon hskip)⟩

/-- The ring has wrapped and left one word behind. A request of two words is measured while the old
grant is live, and once it is released, so that the tail rests on the skipped word. -/
theorem measured_run_on_skip :
    let c : Config := ⟨2, 5, 2, 4⟩
    let reqs : List Request := [.acquire 4, .acquire 2, .shrink 2, .release, .acquire 3]
    let s := (start c ⟨0x1000⟩ 8).run reqs
    let t := (start c ⟨0x1000⟩ 8).run (reqs ++ [.release])
    (c.validate = .ok () ∧ 8 ≤ 2 ^ 30 ∧ max 2 c.minGrant ≤ 8) ∧
      ¬ s.ring.OnSkip ∧ s.freeRun s.ring.head = 0 ∧ Measured c s.freeRun 2 s ∧
      t.ring.OnSkip ∧ t.freeRun t.ring.head = 3 ∧ t.ring.skipped = 1 ∧
      Measured c (fun o => t.freeRun o - t.ring.skipped) 2 t := by
  have hoff : ¬ ((start ⟨2, 5, 2, 4⟩ ⟨0x1000⟩ 8).run
      [.acquire 4, .acquire 2, .shrink 2, .release, .acquire 3]).ring.OnSkip := by
    rintro ⟨tail, htail, hreach⟩
    cases htail
    exact absurd hreach (by decide)
  exact ⟨⟨rfl, by decide, by decide⟩, hoff, by decide,
    (measured_run rfl _ (by decide) (by decide) _).1 hoff, ⟨7, rfl, rfl⟩, by decide, rfl,
    (measured_run rfl _ (by decide) (by decide) _).2 ⟨7, rfl, rfl⟩⟩

/-- Three words are free behind the head, the skipped one among them, and a request of three words is
refused all the same. -/
theorem not_measured_on_skip :
    let c : Config := ⟨2, 5, 2, 4⟩
    let s := (start c ⟨0x1000⟩ 8).run
      [.acquire 4, .acquire 2, .shrink 2, .release, .acquire 3, .release]
    (c.validate = .ok () ∧ 8 ≤ 2 ^ 30 ∧ max 3 c.minGrant ≤ 8) ∧
      s.freeRun s.ring.head = 3 ∧ (∃ r, s.ring.acquire 3 = .error (.refused .insufficient) r) ∧
      ¬ Measured c s.freeRun 3 s := by
  refine ⟨⟨rfl, by decide, by decide⟩, by decide, ⟨_, rfl⟩, fun h => ?_⟩
  exact absurd (h.refused.1 ⟨_, rfl⟩).1 (by decide)

end Client

end CommandPool
