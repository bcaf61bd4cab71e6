import CommandPool.Proofs.Ring.Layout
/-!
# What the ring does to the layout

One statement for each call. An acquire appends its grant to the live ones or leaves them as they
are; shrinking the newest grant and releasing the oldest one always succeed.
-/
namespace CommandPool

variable {r : Ring} {live : List Grant} {newest : Bool}

/-! ## Acquire -/

/-- A grant of up to `room` words may be made at `head`. -/
structure Ready (r : Ring) (live : List Grant) (room : Nat) : Prop where
  head_le : r.head + room ≤ r.size
  outstanding_le : r.outstanding + room ≤ r.size
  layout : ∀ n, 0 < n → n ≤ room → ∀ stats, Layout
    { r with head := r.head + n, outstanding := r.outstanding + n, stats := stats }
    (live ++ [⟨r.address r.head, n⟩]) true

/-- What `place` finds for a request that the region could hold. -/
def PlacePost (r : Ring) (live : List Grant) (wanted : Nat) : Except Failure Ring.Place → Prop
  | .ok p => SameRegion r p.ring ∧ wanted ≤ p.room ∧ Ready p.ring live p.room
  | .error e => e = .refused .insufficient

/-- The whole region, when nothing is live. -/
theorem ready_empty (h : Layout r [] newest) : Ready { r with tail := some r.head } [] r.size := by
  obtain ⟨hhead, _, hskip, hout⟩ := h.cursors
  refine ⟨by simp [hhead], by simp [hout], fun n hn hle stats => .filled (by simp) ?_⟩
  refine .straight rfl ⟨rfl, hn, rfl⟩ ?_ hskip ?_
  · simpa [hhead] using hle
  · simp [hout]

/-- Up to the end of the region, behind grants that did not wrap. -/
theorem ready_behind {tail : Nat} (htail : r.tail = some tail) (hchain : Chain r.base tail live r.head)
    (hhead : r.head ≤ r.size) (hskip : r.skipped = 0) (hout : r.outstanding = totalWords live) :
    Ready r live (r.size - r.head) := by
  have hlen := hchain.totalWords
  refine ⟨by omega, by omega, ?_⟩
  intro n hn hle stats
  have hnew : Chain r.base tail (live ++ [⟨r.address r.head, n⟩]) (r.head + n) :=
    chain_concat.2 ⟨r.head, hchain, rfl, hn, rfl⟩
  refine .filled (by simp) (.straight htail hnew ?_ hskip ?_)
  · simp only; omega
  · simp [hout]

/-- From the base up to the tail, once the ring has wrapped: all live grants are old now. -/
theorem ready_wrapped {tail : Nat} (htail : r.tail = some tail) (hchain : Chain r.base tail live r.head)
    (hhead : r.head ≤ r.size) (hout : r.outstanding = totalWords live) : Ready r.wrapped live tail := by
  have hlen := hchain.totalWords
  refine ⟨?_, ?_, ?_⟩
  · simp only [Ring.wrapped]; omega
  · simp only [Ring.wrapped]; omega
  intro n hn hle stats
  have hyoung : Chain r.base 0 [⟨r.wrapped.address r.wrapped.head, n⟩] (r.wrapped.head + n) :=
    ⟨rfl, hn, rfl⟩
  refine .filled (by simp) (.wrapped htail hchain ?_ hyoung ?_ (by simp) ?_)
  · simp only [Ring.wrapped]; omega
  · simpa [Ring.wrapped] using hle
  · simp [Ring.wrapped, hout]

/-- Up to the tail, behind the grants that were made since the ring wrapped. -/
theorem ready_between {tail stop : Nat} {old young : List Grant} (htail : r.tail = some tail)
    (hold : Chain r.base tail old stop) (hstop : stop + r.skipped = r.size)
    (hyoung : Chain r.base 0 young r.head) (hhead : r.head ≤ tail)
    (hout : r.outstanding = totalWords (old ++ young)) : Ready r (old ++ young) (tail - r.head) := by
  have hlen := hold.totalWords
  have hlen' := hyoung.totalWords
  rw [totalWords_append] at hout
  refine ⟨by omega, by omega, ?_⟩
  intro n hn hle stats
  have hnew : Chain r.base 0 (young ++ [⟨r.address r.head, n⟩]) (r.head + n) :=
    chain_concat.2 ⟨r.head, hyoung, rfl, hn, rfl⟩
  rw [List.append_assoc]
  refine .filled (by simp) (.wrapped htail hold hstop hnew ?_ (by simp) ?_)
  · simp only; omega
  · simp [hout]
    omega

/-- In front of the tail there is the rest of the region, and then what lies before the tail. -/
theorem place_straight {tail : Nat} (htail : r.tail = some tail) (hlt : tail < r.head)
    (hhead : r.head ≤ r.size) (wanted : Nat) :
    r.place wanted =
      if wanted ≤ r.size - r.head then .ok ⟨r, r.size - r.head, none⟩
      else if tail < wanted then .error (.refused .insufficient)
      else .ok ⟨r.wrapped, tail, some ⟨r.address r.head, r.size - r.head⟩⟩ := by
  simp only [Ring.place, htail]
  rw [if_neg (by omega), if_neg (by omega)]

/-- Behind the tail there are the words up to it. -/
theorem place_wrapped {tail : Nat} (htail : r.tail = some tail) (hle : r.head ≤ tail)
    (hout : 0 < r.outstanding) (wanted : Nat) :
    r.place wanted =
      if tail - r.head < wanted then .error (.refused .insufficient)
      else .ok ⟨r, tail - r.head, none⟩ := by
  simp only [Ring.place, htail]
  rw [if_pos (by omega)]

theorem place_spec (h : Layout r live newest) (wanted : Nat)
    (hle : wanted ≤ r.size) : PlacePost r live wanted (r.place wanted) := by
  cases h with
  | empty hhead htail hskip hout =>
    simp only [Ring.place, htail, PlacePost]
    exact ⟨⟨rfl, rfl, rfl, rfl⟩, hle, ready_empty (.empty hhead htail hskip hout)⟩
  | filled hne h =>
    have hpos := h.outstanding_pos hne
    cases h with
    | @straight tail _ _ htail hchain hhead hskip hout =>
      have hlen := hchain.totalWords
      rw [place_straight htail (by omega) hhead]
      by_cases hfit : wanted ≤ r.size - r.head
      · rw [if_pos hfit]
        exact ⟨.refl r, hfit, ready_behind htail hchain hhead hskip hout⟩
      rw [if_neg hfit]
      by_cases hroom : tail < wanted
      · rw [if_pos hroom]
        rfl
      · rw [if_neg hroom]
        exact ⟨⟨rfl, rfl, rfl, rfl⟩, Nat.not_lt.1 hroom, ready_wrapped htail hchain hhead hout⟩
    | @wrapped tail stop old young _ htail hold hstop hyoung hhead hnewest hout =>
      rw [place_wrapped htail hhead hpos]
      by_cases hroom : tail - r.head < wanted
      · rw [if_pos hroom]
        rfl
      · rw [if_neg hroom]
        exact ⟨.refl r, Nat.not_lt.1 hroom, ready_between htail hold hstop hyoung hhead hout⟩

/-- After an acquire: the grant is the newest of the live ones, or nothing has changed. -/
def AcquirePost (r : Ring) (live : List Grant) (newest : Bool) : Outcome Ring Acquired → Prop
  | .ok a r' => SameRegion r r' ∧ Layout r' (live ++ [a.grant]) true
  | .error e r' => SameRegion r r' ∧ Layout r' live newest ∧
    (e = .refused .insufficient ∨ e = .refused .notInitialized ∨
      ∃ wanted, e = .refused (.requestTooLarge wanted r.size))

theorem layout_stats (h : Layout r live newest) (stats : RingStats) :
    Layout { r with stats := stats } live newest := by
  cases h with
  | empty hhead htail hskip hout => exact .empty hhead htail hskip hout
  | filled hne h =>
    refine .filled hne ?_
    cases h with
    | straight htail hchain hhead hskip hout => exact .straight htail hchain hhead hskip hout
    | wrapped htail hold hstop hyoung hhead hnewest hout =>
      exact .wrapped htail hold hstop hyoung hhead hnewest hout

theorem grant_spec {room n : Nat} (skip : Option Skip) (hr : r.size < Counter.bound)
    (h : Ready r live room) (hn : 0 < n) (hle : n ≤ room) :
    ∃ r', r.grant n skip = .ok ⟨⟨r.address r.head, n⟩, skip⟩ r' ∧ SameRegion r r' ∧
      Layout r' (live ++ [⟨r.address r.head, n⟩]) true := by
  have h1 := h.head_le
  have h2 := h.outstanding_le
  have ha : Counter.add r.head n = .ok (r.head + n) := Counter.add_eq_ok_iff.2 ⟨by omega, rfl⟩
  have hb : Counter.add r.outstanding n = .ok (r.outstanding + n) :=
    Counter.add_eq_ok_iff.2 ⟨by omega, rfl⟩
  unfold Ring.grant
  rw [ha, hb]
  exact ⟨_, rfl, ⟨rfl, rfl, rfl, rfl⟩, h.layout n hn hle _⟩

/-- **Acquire** keeps the layout, whatever is wanted. -/
theorem acquire_spec (h : Layout r live newest) (hmin : 0 < r.minGrant) (hmax : 0 < r.maxGrant)
    (hr : r.size < Counter.bound) (wanted : Nat) : AcquirePost r live newest (r.acquire wanted) := by
  unfold Ring.acquire
  simp only
  split
  · exact ⟨.refl r, h, .inr (.inl rfl)⟩
  split
  · exact ⟨.refl r, h, .inr (.inr ⟨_, rfl⟩)⟩
  rename_i hle
  rw [h.settled_eq]
  have hp := place_spec h (max wanted r.minGrant) (by omega)
  generalize r.place (max wanted r.minGrant) = found at hp ⊢
  match found, hp with
  | .ok p, ⟨hsame, hroom, hready⟩ =>
    have hsize : p.ring.size < Counter.bound := hsame.size ▸ hr
    obtain ⟨r', hg, hsame', hlay⟩ := grant_spec p.skip hsize hready
      (n := min p.room r.maxGrant) (by omega) (by omega)
    simp only [hg]
    exact ⟨hsame.trans hsame', hlay⟩
  | .error _, rfl => exact ⟨⟨rfl, rfl, rfl, rfl⟩, layout_stats h _, .inl rfl⟩

/-- A grant takes its words at the head. -/
theorem grant_ok {r' : Ring} {words : Nat} {skip : Option Skip} {a : Acquired}
    (h : r.grant words skip = .ok a r') :
    a.grant = ⟨r.address r.head, words⟩ ∧ ∃ stats,
      r' = { r with head := r.head + words, outstanding := r.outstanding + words, stats := stats } := by
  unfold Ring.grant at h
  split at h
  · rename_i hhead hout
    cases h
    rw [← (Counter.add_eq_ok_iff.1 hhead).2, ← (Counter.add_eq_ok_iff.1 hout).2]
    exact ⟨rfl, _, rfl⟩
  · cases h
  · cases h

/-- A grant is made at the place found for it, with all the room there, up to the maximum. -/
theorem acquire_ok {r' : Ring} {wanted : Nat} {a : Acquired} (h : r.acquire wanted = .ok a r') :
    max wanted r.minGrant ≤ r.size ∧ ∃ p, r.settled.place (max wanted r.minGrant) = .ok p ∧
      p.ring.grant (min p.room r.settled.maxGrant) p.skip = .ok a r' := by
  unfold Ring.acquire at h
  simp only at h
  split at h
  · cases h
  split at h
  · cases h
  rename_i hle
  split at h
  · exact ⟨Nat.not_lt.1 hle, _, ‹_›, h⟩
  · cases h
  · cases h

/-- Where there is a place for a request, the request is granted. -/
theorem acquire_of_place {wanted : Nat} {p : Ring.Place} (h : Layout r live newest)
    (hmin : 0 < r.minGrant) (hmax : 0 < r.maxGrant) (hr : r.size < Counter.bound)
    (hle : max wanted r.minGrant ≤ r.size) (hp : r.place (max wanted r.minGrant) = .ok p) :
    ∃ a r', r.acquire wanted = .ok a r' ∧ a.grant.words = min p.room r.maxGrant := by
  have hpost := place_spec h _ hle
  rw [hp] at hpost
  obtain ⟨hsame, hroom, hready⟩ := hpost
  obtain ⟨r', hg, _⟩ := grant_spec p.skip (hsame.size ▸ hr) hready
    (n := min p.room r.maxGrant) (by omega) (by omega)
  refine ⟨⟨⟨p.ring.address p.ring.head, min p.room r.maxGrant⟩, p.skip⟩, r', ?_, rfl⟩
  have hattached : r.IsAttached := Nat.ne_of_gt (by omega)
  simp only [Ring.acquire, not_not_intro hattached, Nat.not_lt.2 hle, if_false, h.settled_eq, hp]
  exact hg

/-- A ring without live grants has room for whatever the region can hold. -/
theorem acquire_of_empty {wanted : Nat} (h : Layout r [] newest) (hmin : 0 < r.minGrant)
    (hmax : 0 < r.maxGrant) (hr : r.size < Counter.bound) (hle : max wanted r.minGrant ≤ r.size) :
    ∃ a r', r.acquire wanted = .ok a r' := by
  obtain ⟨-, htail, -⟩ := h.cursors
  have hp : r.place (max wanted r.minGrant) =
      .ok ⟨{ r with tail := some r.head }, r.size, none⟩ := by
    simp only [Ring.place, htail]
  obtain ⟨a, r', ha, -⟩ := acquire_of_place h hmin hmax hr hle hp
  exact ⟨a, r', ha⟩

/-! ## Shrink -/

/-- What is left of a grant of which `used` words are kept. -/
def Grant.keep (g : Grant) (used : Nat) : List Grant := if used = 0 then [] else [⟨g.start, used⟩]

theorem totalWords_keep (g : Grant) (used : Nat) : totalWords (g.keep used) = used := by
  unfold Grant.keep
  split <;> simp_all

theorem chain_keep {base : Address} {lo o : Nat} {gs : List Grant} {g : Grant} (used : Nat)
    (h : Chain base lo gs o) (hg : g.start = base.addWords o) :
    Chain base lo (gs ++ g.keep used) (o + used) := by
  unfold Grant.keep
  split
  · simp_all
  · exact chain_concat.2 ⟨o, h, hg, by simp only; omega, rfl⟩

/-- The newest grant ends at `head`, and may be cut anywhere. -/
theorem Shape.cut {g : Grant} (h : Shape r (live ++ [g]) true) :
    ∃ o, g.At r.base o ∧ o + g.words = r.head ∧
      ∀ used, used ≤ g.words → Shape { r with head := o + used, outstanding := totalWords live + used }
        (live ++ g.keep used) (decide (used ≠ 0)) := by
  generalize hl : live ++ [g] = all at h
  generalize hn : true = fresh at h
  cases h with
  | straight htail hchain hhead hskip hout =>
    subst hl
    obtain ⟨o, hrest, ha, hw, hend⟩ := chain_concat.1 hchain
    refine ⟨o, ⟨ha, hw⟩, hend, ?_⟩
    intro used hle
    exact .straight htail (chain_keep used hrest ha) (by simp only; omega) hskip
      (by simp [totalWords_keep])
  | @wrapped tail stop old young _ htail hold hstop hyoung hhead hnewest hout =>
    -- the newest grant is a young one, since there are such
    obtain ⟨young, k, rfl⟩ := List.eq_nil_or_concat young |>.resolve_left (hnewest hn.symm)
    rw [List.concat_eq_append, ← List.append_assoc] at hl
    obtain ⟨rfl, hk⟩ := List.append_inj' hl rfl
    cases hk
    rw [List.concat_eq_append] at hyoung
    obtain ⟨o, hrest, ha, hw, hend⟩ := chain_concat.1 hyoung
    refine ⟨o, ⟨ha, hw⟩, hend, ?_⟩
    intro used hle
    rw [List.append_assoc]
    refine .wrapped htail hold hstop (chain_keep used hrest ha) (by simp only; omega) ?_ ?_
    · simp +contextual [Grant.keep]
    · simp [totalWords_keep]
      omega

/-- **Shrink** of the newest grant: accepted, and what is left of it stays the newest. -/
theorem shrink_spec {g : Grant} (h : Layout r (live ++ [g]) true) (hr : r.size ≤ 2 ^ 30) {used : Nat}
    (hused : used ≤ g.words) :
    ∃ r', r.shrink g.start used g.words = .ok () r' ∧ SameRegion r r' ∧
      Layout r' (live ++ g.keep used) (decide (used ≠ 0)) := by
  obtain ⟨o, ⟨ha, hw⟩, hend, hcut⟩ := h.shape.cut
  have hout := h.outstanding
  have hle := h.outstanding_le
  rw [totalWords_append, totalWords_cons, totalWords_nil] at hout
  unfold Ring.shrink
  rw [if_neg (by omega)]
  by_cases hall : used = g.words
  · rw [if_pos hall, hall, Grant.keep, if_neg (by omega), decide_eq_true (by omega)]
    exact ⟨r, rfl, .refl r, h⟩
  · have hsize := h.shape.head_le
    have hoff : r.offset g.start = o := ha ▸ Address.wordsSince_addWords r.base (by omega)
    have hstop : Counter.add o g.words = .ok r.head := Counter.add_eq_ok_iff.2 ⟨by
      unfold Counter.bound; omega, hend⟩
    have hrest : Counter.sub r.outstanding (g.words - used) = .ok (totalWords live + used) :=
      Counter.sub_eq_ok_iff.2 ⟨by omega, by omega⟩
    simp only [if_neg hall, hoff, hstop, hrest, ne_eq, not_true_eq_false, if_false]
    refine ⟨_, rfl, .settled ⟨rfl, rfl, rfl, rfl⟩, (hcut used hused).settled ?_⟩
    intro hnil
    have := congrArg totalWords hnil
    rw [totalWords_append, totalWords_keep, totalWords_nil] at this
    exact decide_eq_false (by omega)

/-! ## Release -/

/-- The tail for a release: at the base once it rests on the skipped fragment. -/
def repaidTail (r : Ring) (tail : Nat) : Nat := if tail + r.skipped = r.size then 0 else tail

/-- The ring whose skipped fragment is repaid once `tail` rests on it. -/
def repaid (r : Ring) (tail : Nat) : Ring :=
  if tail + r.skipped = r.size then { r with skipped := 0 } else r

/-- A release that names no more words than are outstanding looks at the repaid ring. -/
theorem release_eq {tail n : Nat} (htail : r.tail = some tail) (hn : n ≤ r.outstanding)
    (hreach : tail + r.skipped < Counter.bound) (region : Address) :
    r.release region n =
      if (repaid r tail).address (repaidTail r tail) ≠ region then
        (repaid r tail).refuse
          (.outOfOrderRelease region ((repaid r tail).address (repaidTail r tail)))
      else (repaid r tail).retreat (repaidTail r tail) n := by
  have hadd : Counter.add tail r.skipped = .ok (tail + r.skipped) :=
    Counter.add_eq_ok_iff.2 ⟨hreach, rfl⟩
  simp only [Ring.release, htail, if_neg (Nat.not_lt.2 hn), hadd, repaid, repaidTail]

/-- The oldest grant starts at the tail of the repaid ring, and may be passed. -/
theorem Shape.pass {g : Grant} (h : Shape r (g :: live) newest) :
    ∃ tail, r.tail = some tail ∧ tail + r.skipped ≤ r.size ∧ SameRegion r (repaid r tail) ∧
      g.At r.base (repaidTail r tail) ∧ repaidTail r tail + g.words ≤ r.size ∧ ∀ stats, Shape
        { repaid r tail with
          tail := some (repaidTail r tail + g.words), outstanding := totalWords live, stats := stats }
        live newest := by
  generalize hl : g :: live = all at h
  cases h with
  | @straight tail _ _ htail hchain hhead hskip hout =>
    subst hl
    obtain ⟨ha, hw, hrest⟩ := hchain
    have := hrest.totalWords
    have hne : ¬ tail + r.skipped = r.size := by omega
    refine ⟨tail, htail, by omega, ?_⟩
    simp only [repaid, repaidTail, if_neg hne]
    exact ⟨.refl r, ⟨ha, hw⟩, by omega, fun stats => .straight rfl hrest hhead hskip rfl⟩
  | @wrapped tail stop old young _ htail hold hstop hyoung hhead hnewest hout =>
    cases old with
    | nil =>
      -- the tail rests on the skipped fragment and goes back to the base
      cases hold
      rw [List.nil_append] at hl
      subst hl
      obtain ⟨ha, hw, hrest⟩ := hyoung
      have := hrest.totalWords
      refine ⟨tail, htail, by omega, ?_⟩
      simp only [repaid, repaidTail, if_pos hstop]
      exact ⟨⟨rfl, rfl, rfl, rfl⟩, ⟨ha, hw⟩, by omega,
        fun stats => .straight rfl hrest (by simp only; omega) rfl rfl⟩
    | cons k old =>
      cases hl
      obtain ⟨ha, hw, hrest⟩ := hold
      have := hrest.totalWords
      have hne : ¬ tail + r.skipped = r.size := by omega
      refine ⟨tail, htail, by omega, ?_⟩
      simp only [repaid, repaidTail, if_neg hne]
      exact ⟨.refl r, ⟨ha, hw⟩, by omega,
        fun stats => .wrapped rfl hrest hstop hyoung (by simp only; omega) hnewest rfl⟩

/-- The oldest grant is released: the tail of the repaid ring passes it. -/
theorem release_oldest {g : Grant} (h : Shape r (g :: live) newest) (hr : r.size < Counter.bound) :
    ∃ tail stats, r.tail = some tail ∧ r.release g.start g.words = .ok () ({ repaid r tail with
      tail := some (repaidTail r tail + g.words), outstanding := totalWords live, stats := stats } :
        Ring).settled := by
  have hout := h.outstanding
  rw [totalWords_cons] at hout
  obtain ⟨tail, htail, hreach, hsame, ⟨ha, hw⟩, hend, -⟩ := h.pass
  have hnext : Counter.add (repaidTail r tail) g.words = .ok (repaidTail r tail + g.words) :=
    Counter.add_eq_ok_iff.2 ⟨by omega, rfl⟩
  have hat : (repaid r tail).address (repaidTail r tail) = g.start := by
    rw [ha, Ring.address, hsame.base]
  have hrest : (repaid r tail).outstanding - g.words = totalWords live := by
    have : (repaid r tail).outstanding = r.outstanding := by unfold repaid; split <;> rfl
    omega
  refine ⟨tail, { (repaid r tail).stats with releases := (repaid r tail).stats.releases + 1 }, htail, ?_⟩
  rw [release_eq htail (by omega) (by omega), if_neg (not_not_intro hat), Ring.retreat, hnext, hrest]

/-- **Release** of the oldest grant: accepted, wherever `tail` rests. -/
theorem release_spec {g : Grant} (h : Layout r (g :: live) newest) (hr : r.size < Counter.bound) :
    ∃ r', r.release g.start g.words = .ok () r' ∧ SameRegion r r' ∧
      Layout r' live (newest && !live.isEmpty) := by
  cases h with
  | filled _ h =>
    obtain ⟨tail, stats, htail, hrel⟩ := release_oldest h hr
    obtain ⟨_, htail', -, hsame, -, -, hpass⟩ := h.pass
    cases htail.symm.trans htail'
    refine ⟨_, hrel, .settled ⟨hsame.base, hsame.size, hsame.minGrant, hsame.maxGrant⟩, ?_⟩
    refine ((hpass _).weaken fun hn => (Bool.and_eq_true_iff.1 hn).1).settled ?_
    intro hnil
    rw [hnil, List.isEmpty_nil, Bool.not_true, Bool.and_false]

/-! ## The region -/

theorem attach_spec {base : Address} {size : Nat} {r' : Ring} (h : r.attach base size = .ok () r') :
    r' = { r.restarted with base := base, size := size, outstanding := 0 } ∧ size ≠ 0 := by
  unfold Ring.attach at h
  split at h
  · cases h
  split at h
  · cases h
  · cases h
    exact ⟨rfl, by assumption⟩

theorem layout_attach {base : Address} {size : Nat} {r' : Ring} (h : r.attach base size = .ok () r') :
    Layout r' [] false := by
  obtain ⟨rfl, _⟩ := attach_spec h
  exact .empty rfl rfl rfl rfl

end CommandPool
