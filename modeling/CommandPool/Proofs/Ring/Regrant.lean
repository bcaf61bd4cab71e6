import CommandPool.Proofs.Ring.Recognition
/-!
# A grant that is given back can be had again

The newest grant is shrunk to nothing, and the minimum is asked for at once. Since the grant was made
older ones may have been released, so the ring may start over at the base, the head may be back at zero
behind a wrap, or the wrap may be undone. In each of these shapes the request finds at least the words
that were just given back, at once and without another wrap (`Layout.regrant`).
-/
namespace CommandPool

variable {r : Ring} {live : List Grant} {newest : Bool} {g : Grant}

/-- What an acquire counts is the grant: no stall, and no wrap beyond what its place counted. -/
theorem grant_counts {r' : Ring} {words : Nat} {skip : Option Skip} {a : Acquired}
    (h : r.grant words skip = .ok a r') :
    a.skip = skip ∧ r'.stats.wraps = r.stats.wraps ∧ r'.stats.stalls = r.stats.stalls := by
  unfold Ring.grant at h
  split at h
  · cases h
    exact ⟨rfl, rfl, rfl⟩
  · cases h
  · cases h

/-- An acquire that found its words where the ring stands. -/
structure InPlace (r r' : Ring) (a : Acquired) : Prop where
  skip : a.skip = none
  wraps : r'.stats.wraps = r.stats.wraps
  stalls : r'.stats.stalls = r.stats.stalls

/-- Where there is a place without a wrap, all of its room is granted, up to the maximum. -/
theorem acquire_in_place {wanted room : Nat} {q : Ring} (h : Layout r live newest)
    (hmin : 0 < r.minGrant) (hmax : 0 < r.maxGrant) (hr : r.size < Counter.bound)
    (hle : max wanted r.minGrant ≤ r.size)
    (hp : r.place (max wanted r.minGrant) = .ok ⟨q, room, none⟩) (hstats : q.stats = r.stats) :
    ∃ a r', r.acquire wanted = .ok a r' ∧ a.grant.words = min room r.maxGrant ∧ InPlace r r' a := by
  obtain ⟨a, r', ha, hwords⟩ := acquire_of_place h hmin hmax hr hle hp
  obtain ⟨-, p, hp', hg⟩ := acquire_ok ha
  rw [h.settled_eq] at hp'
  cases hp.symm.trans hp'
  obtain ⟨hskip, hwraps, hstalls⟩ := grant_counts hg
  exact ⟨a, r', ha, hwords, hskip, by rw [hwraps, hstats], by rw [hstalls, hstats]⟩

/-- The newest grant is behind the tail, or in front of it with all the older ones in between. -/
theorem Shape.newest_beside_tail (h : Shape r (live ++ [g]) true) {o : Nat}
    (hend : o + g.words = r.head) :
    ∃ tail, r.tail = some tail ∧ (r.head ≤ tail ∨ tail + totalWords live = o) := by
  generalize hl : live ++ [g] = all at h
  cases h with
  | straight htail hchain hhead hskip hout =>
    subst hl
    obtain ⟨o', hrest, -, -, hend'⟩ := chain_concat.1 hchain
    have := hrest.totalWords
    exact ⟨_, htail, .inr (by omega)⟩
  | wrapped htail hold hstop hyoung hhead hnewest hout => exact ⟨_, htail, .inl hhead⟩

/-- The ring once the newest grant, which starts at `o`, was given back whole. -/
def givenBack (r : Ring) (live : List Grant) (o : Nat) : Ring :=
  Ring.settled { r with head := o, outstanding := totalWords live }

theorem Layout.shrink_whole (h : Layout r (live ++ [g]) true) (hr : r.size ≤ 2 ^ 30) :
    ∃ o, 0 < g.words ∧ o + g.words = r.head ∧
      r.shrink g.start 0 g.words = .ok () (givenBack r live o) ∧
      SameRegion r (givenBack r live o) ∧ Layout (givenBack r live o) live false := by
  obtain ⟨o, ⟨-, hpos⟩, hend, -⟩ := h.shape.cut
  obtain ⟨r₁, hshrink, hsame, hlay⟩ := shrink_spec h hr (Nat.zero_le g.words)
  rw [Grant.keep, if_pos rfl, List.append_nil] at hlay
  have hout := h.outstanding
  rw [totalWords_append, totalWords_cons, totalWords_nil, Nat.add_zero] at hout
  obtain ⟨hstart, -, hr₁⟩ := shrink_eq_ok hpos hshrink
  have hcursor : r.offset g.start + 0 = o := by omega
  have hleft : r.outstanding - (g.words - 0) = totalWords live := by omega
  rw [hcursor, hleft] at hr₁
  subst hr₁
  exact ⟨o, hpos, hend, hshrink, hsame, hlay⟩

/-- There is a place for the minimum then, with room for all the words that were given back. -/
theorem Layout.place_givenBack (h : Layout r (live ++ [g]) true) {o : Nat} (hend : o + g.words = r.head)
    (hpos : 0 < g.words) (hleast : r.minGrant ≤ g.words) :
    ∃ q room, (givenBack r live o).place r.minGrant = .ok ⟨q, room, none⟩ ∧ g.words ≤ room ∧
      q.stats = r.stats := by
  have hhead := h.shape.head_le
  obtain ⟨tail, htail, hside⟩ := h.shape.newest_beside_tail hend
  unfold givenBack Ring.settled
  by_cases h0 : totalWords live = 0
  · -- nothing is left: the whole region
    rw [if_pos h0]
    exact ⟨_, r.size, rfl, by omega, rfl⟩
  rw [if_neg h0]
  set q : Ring := { r with head := o, outstanding := totalWords live }
  have hqtail : q.tail = some tail := htail
  have hqhead : q.head = o := rfl
  have hqsize : q.size = r.size := rfl
  rcases hside with hbehind | hfront
  · -- the words up to the tail, among them those of the grant
    have hqout : 0 < q.outstanding := Nat.pos_of_ne_zero h0
    rw [place_wrapped hqtail (by omega) hqout, if_neg (by omega)]
    exact ⟨q, tail - o, rfl, by omega, rfl⟩
  · -- the words up to the end of the region
    rw [place_straight hqtail (by omega) (by omega), if_pos (by omega)]
    exact ⟨q, r.size - o, rfl, by omega, rfl⟩

/-- **Regrant.** The newest grant is given back whole, and the minimum is granted at once: no fewer
words than before, without a wrap or a stall. -/
theorem Layout.regrant (h : Layout r (live ++ [g]) true) (hr : r.size ≤ 2 ^ 30) (hmin : 0 < r.minGrant)
    (hleast : r.minGrant ≤ g.words) (hmost : g.words ≤ r.maxGrant) :
    ∃ r₁ a r₂, r.shrink g.start 0 g.words = .ok () r₁ ∧ r₁.acquire r.minGrant = .ok a r₂ ∧
      g.words ≤ a.grant.words ∧ InPlace r r₂ a := by
  obtain ⟨o, hpos, hend, hshrink, hsame, hlay⟩ := h.shrink_whole hr
  obtain ⟨q, room, hp, hroom, hstats⟩ := h.place_givenBack hend hpos hleast
  have hhead := h.shape.head_le
  have hwanted : max r.minGrant (givenBack r live o).minGrant = r.minGrant := by
    rw [hsame.minGrant, Nat.max_self]
  have hkept : (givenBack r live o).stats = r.stats := by
    unfold givenBack Ring.settled
    split <;> rfl
  have hle : max r.minGrant (givenBack r live o).minGrant ≤ (givenBack r live o).size := by
    rw [hwanted, hsame.size]
    omega
  obtain ⟨a, r₂, ha, hwords, hplace⟩ := acquire_in_place hlay (by rw [hsame.minGrant]; exact hmin)
    (by rw [hsame.maxGrant]; omega) (by rw [hsame.size]; unfold Counter.bound; omega) hle
    (by rw [hwanted]; exact hp) (hstats.trans hkept.symm)
  refine ⟨_, a, r₂, hshrink, ha, ?_, hplace.skip, ?_, ?_⟩
  · rw [hwords, hsame.maxGrant]
    omega
  · rw [hplace.wraps, hkept]
  · rw [hplace.stalls, hkept]

end CommandPool
