import CommandPool.Proofs.Ring.Client
/-!
# What the ring recognises

A grant is told by its address only: the oldest one by where the tail is, the newest one by where
the head is. The states are those of a client that keeps the order; the call that is judged may
name any region and any number of words.

The address of the oldest grant is enough for a release: no other live grant starts there, wherever
the tail rests (`recognised_release`). For a shrink only the end of the named words is compared, and
the number of words is the caller's. So every accepted shrink names words that end with the last
live grant (`recognised_shrink`), but they may begin in an older one (`shrink_of_older`).
-/
namespace CommandPool

variable {r : Ring} {live : List Grant} {newest : Bool}

/-- Two grants that share no word start at different addresses. -/
theorem Separate.start_ne {base : Address} {size : Nat} {g k : Grant} (h : Separate base size g k)
    (hs : size ≤ 2 ^ 30) : g.start ≠ k.start := by
  obtain ⟨o, p, ⟨hg, hgpos⟩, ⟨hk, hkpos⟩, ho, hp, hd⟩ := h
  rw [hg, hk, ne_eq, Address.addWords_inj base (by omega) (by omega)]
  omega

/-! ## Release -/

/-- What a release is answered while `g` is the oldest live grant: whether its words are outstanding
is looked at first, and where the oldest grant starts after that. -/
structure ReleaseAnswered (r : Ring) (g : Grant) (region : Address) (words : Nat) : Prop where
  accepted : words ≤ r.outstanding → region = g.start → ∃ r', r.release region words = .ok () r'
  elsewhere : words ≤ r.outstanding → region ≠ g.start →
    ∃ r', r.release region words = .error (.refused (.outOfOrderRelease region g.start)) r'
  tooMany : r.outstanding < words → ∃ expected,
    r.release region words = .error (.refused (.outOfOrderRelease region expected)) r

theorem Shape.release_answered {g : Grant} (h : Shape r (g :: live) newest) (hr : r.size ≤ 2 ^ 30)
    (region : Address) (words : Nat) : ReleaseAnswered r g region words := by
  have hout := h.totalWords_le
  rw [← h.outstanding] at hout
  obtain ⟨tail, htail, hreach, hsame, ⟨hstart, -⟩, hend, -⟩ := h.pass
  -- the repaid tail is where the oldest grant starts, also from the skipped fragment
  have hat : (repaid r tail).address (repaidTail r tail) = g.start := by
    rw [hstart, Ring.address, hsame.base]
  have hfits : tail + r.skipped < Counter.bound := by unfold Counter.bound; omega
  refine ⟨?_, ?_, ?_⟩
  · rintro hwords rfl
    have hnext : Counter.add (repaidTail r tail) words = .ok (repaidTail r tail + words) :=
      Counter.add_eq_ok_iff.2 ⟨by unfold Counter.bound; omega, rfl⟩
    rw [release_eq htail hwords hfits, if_neg (not_not_intro hat), Ring.retreat, hnext]
    exact ⟨_, rfl⟩
  · intro hwords hne
    rw [release_eq htail hwords hfits, hat, if_pos hne.symm]
    exact ⟨_, rfl⟩
  · intro hwords
    simp only [Ring.release, htail, if_pos hwords]
    exact ⟨_, rfl⟩

/-- A ring without live grants releases nothing. -/
theorem Layout.release_nothing (h : Layout r [] newest) (region : Address) (words : Nat) :
    ∃ expected,
      r.release region words = .error (.refused (.outOfOrderRelease region expected)) r := by
  obtain ⟨-, htail, -⟩ := h.cursors
  simp only [Ring.release, htail]
  exact ⟨_, rfl⟩

/-! ## Shrink -/

/-- Past the base the head is where the last live grant ends. -/
theorem Layout.last_ends (h : Layout r live newest) (hpos : 0 < r.head) :
    ∃ older g o, live = older ++ [g] ∧ g.At r.base o ∧ o + g.words = r.head := by
  cases h with
  | empty hhead htail hskip hout => omega
  | filled hne h =>
    cases h with
    | straight htail hchain hhead hskip hout =>
      obtain ⟨older, g, rfl⟩ := List.eq_nil_or_concat live |>.resolve_left hne
      rw [List.concat_eq_append] at hchain ⊢
      obtain ⟨o, -, hstart, hw, hend⟩ := chain_concat.1 hchain
      exact ⟨older, g, o, rfl, ⟨hstart, hw⟩, hend⟩
    | @wrapped tail stop old young _ htail hold hstop hyoung hhead hnewest hout =>
      -- with the head past the base there are young grants
      rcases List.eq_nil_or_concat young with rfl | ⟨older, g, rfl⟩
      · have hbase : 0 = r.head := hyoung
        omega
      · rw [List.concat_eq_append] at hyoung ⊢
        obtain ⟨o, -, hstart, hw, hend⟩ := chain_concat.1 hyoung
        exact ⟨old ++ older, g, o, (List.append_assoc ..).symm, ⟨hstart, hw⟩, hend⟩

theorem Layout.head_le (h : Layout r live newest) : r.head ≤ r.size := by
  cases h with
  | empty hhead htail hskip hout => omega
  | filled hne h => exact h.head_le

/-- A shrink that gives words back compares the end of the words it names with the head. -/
theorem shrink_eq_ok {region : Address} {used granted : Nat} {r' : Ring} (hlt : used < granted)
    (h : r.shrink region used granted = .ok () r') :
    r.offset region + granted = r.head ∧ granted - used ≤ r.outstanding ∧
      r' = Ring.settled
        { r with head := r.offset region + used, outstanding := r.outstanding - (granted - used) } := by
  simp only [Ring.shrink, if_neg (Nat.not_lt.2 hlt.le), if_neg hlt.ne] at h
  split at h
  · cases h
  rename_i stop hstop
  obtain ⟨-, rfl⟩ := Counter.add_eq_ok_iff.1 hstop
  split at h
  · cases h
  rename_i hhead
  split at h
  · cases h
  rename_i left hleft
  obtain ⟨hle, rfl⟩ := Counter.sub_eq_ok_iff.1 hleft
  cases h
  exact ⟨(not_not.1 hhead).symm, hle, rfl⟩

/-- A shrink that is not accepted changes nothing. -/
theorem shrink_eq_error {region : Address} {used granted : Nat} {f : Failure} {r' : Ring}
    (hlt : used < granted) (h : r.shrink region used granted = .error f r') :
    r' = r ∧ ((∃ o, f = .fault (.overflow o)) ∨ f = .refused (.outOfOrderShrink region)) := by
  simp only [Ring.shrink, if_neg (Nat.not_lt.2 hlt.le), if_neg hlt.ne] at h
  split at h
  · cases h
    exact ⟨rfl, .inl ⟨_, rfl⟩⟩
  split at h
  · cases h
    exact ⟨rfl, .inr rfl⟩
  split at h <;> cases h
  exact ⟨rfl, .inl ⟨_, rfl⟩⟩

namespace Client

/-! ## What a client's calls are answered -/

/-- The releases that the ring of a client accepts, and what it says of the others. -/
structure ReleasesRecognised (s : Client) : Prop where
  accepted_iff : ∀ region words, (∃ r, s.ring.release region words = .ok () r) ↔
    ∃ g live, s.live = g :: live ∧ region = g.start ∧ words ≤ s.ring.outstanding
  /-- Whatever is not accepted is told to be out of order. -/
  refused : ∀ region words, (¬ ∃ r, s.ring.release region words = .ok () r) → ∃ expected r,
    s.ring.release region words = .error (.refused (.outOfOrderRelease region expected)) r
  /-- The words of a younger grant cannot be released; the answer names the oldest one. -/
  younger : ∀ g live, s.live = g :: live → ∀ k ∈ live, ∃ r,
    s.ring.release k.start k.words = .error (.refused (.outOfOrderRelease k.start g.start)) r

variable {base : Address} {size : Nat} {s : Client}

theorem Sound.releasesRecognised (h : Sound base size s) (hs : size ≤ 2 ^ 30) :
    ReleasesRecognised s := by
  have hr : s.ring.size ≤ 2 ^ 30 := h.size_eq ▸ hs
  have hlay := h.layout
  cases hl : s.live with
  | nil =>
    rw [hl] at hlay
    have hnone := hlay.release_nothing
    refine ⟨?_, ?_, by simp [hl]⟩
    · intro region words
      obtain ⟨_, hno⟩ := hnone region words
      simp [hno, hl]
    · intro region words _
      obtain ⟨expected, hno⟩ := hnone region words
      exact ⟨expected, _, hno⟩
  | cons g live =>
    rw [hl] at hlay
    cases hlay with
    | filled _ hshape =>
      have hans := hshape.release_answered hr
      have hiff : ∀ region words, (∃ r, s.ring.release region words = .ok () r) ↔
          region = g.start ∧ words ≤ s.ring.outstanding := by
        intro region words
        constructor
        · rintro ⟨r, hok⟩
          by_contra hnot
          rcases Nat.lt_or_ge s.ring.outstanding words with hmany | hwords
          · obtain ⟨_, hno⟩ := (hans region words).tooMany hmany
            cases hok.symm.trans hno
          · obtain ⟨_, hno⟩ := (hans region words).elsewhere hwords fun he => hnot ⟨he, hwords⟩
            cases hok.symm.trans hno
        · rintro ⟨he, hwords⟩
          exact (hans region words).accepted hwords he
      refine ⟨?_, ?_, ?_⟩
      · intro region words
        rw [hiff, hl]
        constructor
        · intro hok
          exact ⟨g, live, rfl, hok⟩
        · rintro ⟨_, _, heq, hok⟩
          cases heq
          exact hok
      · intro region words hnot
        rw [hiff] at hnot
        rcases Nat.lt_or_ge s.ring.outstanding words with hmany | hwords
        · obtain ⟨expected, hno⟩ := (hans region words).tooMany hmany
          exact ⟨expected, _, hno⟩
        · obtain ⟨r, hno⟩ := (hans region words).elsewhere hwords fun he => hnot ⟨he, hwords⟩
          exact ⟨g.start, r, hno⟩
      · rw [hl]
        rintro _ _ ⟨⟩ k hk
        have hsep := (List.pairwise_cons.1 hshape.separate).1 k hk
        refine (hans k.start k.words).elsewhere ?_ (hsep.start_ne hr).symm
        rw [hshape.outstanding, totalWords_cons]
        exact le_add_left (List.single_le_sum (by simp) _ (List.mem_map_of_mem hk))

/-- **Release** recognises exactly the oldest grant. In every state of every run a release is
accepted if and only if it names the address of the oldest live grant and no more words than are
outstanding. -/
theorem recognised_release {c : Config} (hc : c.validate = .ok ()) (base : Address) {size : Nat}
    (hs : size ≤ 2 ^ 30) (reqs : List Request) :
    ReleasesRecognised ((start c base size).run reqs) :=
  (sound_run hs reqs (sound_start hc base size)).releasesRecognised hs

/-- The tail rests on a skipped word and the oldest of two live grants is at the base. More words
than it has are accepted, the other grant is not. -/
theorem recognised_release_on_skip :
    let s := (start ⟨2, 5, 2, 4⟩ ⟨0x1000⟩ 8).run
      [.acquire 4, .acquire 2, .shrink 2, .release, .acquire 3, .shrink 2, .acquire 3, .release]
    (Config.validate ⟨2, 5, 2, 4⟩ = .ok () ∧ 8 ≤ 2 ^ 30) ∧
      (s.live, s.ring.tail, s.ring.skipped) = ([⟨⟨0x1000⟩, 2⟩, ⟨⟨0x1008⟩, 3⟩], some 7, 1) ∧
      (∃ r, s.ring.release ⟨0x1000⟩ 4 = .ok () r) ∧ ReleasesRecognised s :=
  ⟨⟨rfl, by decide⟩, by decide, ⟨_, rfl⟩, recognised_release rfl _ (by decide) _⟩

/-- An accepted shrink that gives words back, `g` being the last live grant. -/
structure ShrinkAccepted (s : Client) (region : Address) (used granted : Nat) (g : Grant) (r : Ring) :
    Prop where
  last : s.live.getLast? = some g
  /-- While the grant of the latest acquire is live it is `g`. -/
  newest : ∀ n, s.newestGrant? = some n → n = g
  /-- The words named end with `g`; `region` may be anywhere in the first of them. -/
  ends : s.ring.offset region + granted = g.offset s.ring.base + g.words
  /-- A live grant that is named as it is at present is `g`. -/
  itself : ∀ k ∈ s.live, region = k.start → granted = k.words → k = g
  /-- The words given back are the last ones of those named. -/
  left : r = Ring.settled { s.ring with
    head := s.ring.offset region + used, outstanding := s.ring.outstanding - (granted - used) }
  /-- Unless more words are named than `g` has, none of another live grant is given back. -/
  apart : granted ≤ g.words → ∀ k ∈ s.live, k ≠ g →
    k.Apart s.ring.base ⟨s.ring.address (s.ring.offset region + used), granted - used⟩

/-- The shrinks that the ring of a client accepts, and what it says of the others. -/
structure ShrinksRecognised (s : Client) : Prop where
  accepted : ∀ region used granted, used < granted →
    ∀ r, s.ring.shrink region used granted = .ok () r → ∃ g, ShrinkAccepted s region used granted g r
  /-- What is refused is told to be out of order, and leaves the ring as it was. -/
  refused : ∀ region used granted, used < granted →
    ∀ e r, s.ring.shrink region used granted = .error (.refused e) r →
      e = .outOfOrderShrink region ∧ r = s.ring

theorem Sound.shrinkAccepted (h : Sound base size s) (hs : size ≤ 2 ^ 30) {region : Address}
    {used granted : Nat} (hlt : used < granted) {r : Ring}
    (hr : s.ring.shrink region used granted = .ok () r) :
    ∃ g, ShrinkAccepted s region used granted g r := by
  have hsize : s.ring.size ≤ 2 ^ 30 := h.size_eq ▸ hs
  have hin := h.layout.head_le
  obtain ⟨hends, -, hleft⟩ := shrink_eq_ok hlt hr
  obtain ⟨older, g, o, hl, hg, hend⟩ := h.layout.last_ends (by omega)
  have hpos := hg.2
  -- every other live grant lies on one side of the last one
  have hothers : ∀ k ∈ older, ∃ p, k.At s.ring.base p ∧ p + k.words ≤ s.ring.size ∧
      (p + k.words ≤ o ∨ o + g.words ≤ p) := by
    intro k hk
    have hsep := h.layout.separate
    rw [hl] at hsep
    obtain ⟨p, q, hkp, hgq, hple, hqle, hd⟩ := (List.pairwise_append.1 hsep).2.2 k hk g (by simp)
    obtain rfl : q = o := by
      rw [← hgq.offset_eq (by omega), hg.offset_eq (by omega)]
    exact ⟨p, hkp, hple, hd⟩
  refine ⟨g, by simp [hl], ?_, ?_, ?_, hleft, ?_⟩
  · intro n hn
    unfold newestGrant? at hn
    split at hn
    · simpa [hl] using hn.symm
    · cases hn
  · rw [hends, hg.offset_eq (by omega), hend]
  · rintro k hk rfl rfl
    rw [hl] at hk
    rcases List.mem_append.1 hk with hk | hk
    · obtain ⟨p, hkp, hple, hd⟩ := hothers k hk
      have hoff : s.ring.offset k.start = p := hkp.offset_eq (by have := hkp.2; omega)
      have := hkp.2
      omega
    · exact List.mem_singleton.1 hk
  · intro hle k hk hne
    rw [hl] at hk
    rcases List.mem_append.1 hk with hk | hk
    · obtain ⟨p, hkp, hple, hd⟩ := hothers k hk
      refine Separate.apart ⟨p, _, hkp, ⟨rfl, Nat.sub_pos_of_lt hlt⟩, hple, ?_, ?_⟩ hsize
      · simp only
        omega
      · simp only
        omega
    · exact absurd (List.mem_singleton.1 hk) hne

/-- **Shrink** takes words back from the end only. In every state of every run the words that an
accepted shrink names end where the last live grant does; every other call that gets an answer is
refused and changes nothing. -/
theorem recognised_shrink {c : Config} (hc : c.validate = .ok ()) (base : Address) {size : Nat}
    (hs : size ≤ 2 ^ 30) (reqs : List Request) :
    ShrinksRecognised ((start c base size).run reqs) := by
  have h := sound_run hs reqs (sound_start hc base size)
  refine ⟨fun region used granted hlt r hr => h.shrinkAccepted hs hlt hr, ?_⟩
  intro region used granted hlt e r hr
  obtain ⟨rfl, ⟨o, hf⟩ | hf⟩ := shrink_eq_error hlt hr
  · cases hf
  · cases hf
    exact ⟨rfl, rfl⟩

/-- The grant of the latest acquire was shrunk away, so the head is at the end of an older one. That
one is the last live grant now, and may be shrunk. -/
theorem recognised_shrink_of_last :
    let s := (start ⟨2, 5, 2, 4⟩ ⟨0x1000⟩ 8).run [.acquire 4, .acquire 3, .shrink 0]
    (Config.validate ⟨2, 5, 2, 4⟩ = .ok () ∧ 8 ≤ 2 ^ 30) ∧
      (s.live, s.newestGrant?) = ([⟨⟨0x1000⟩, 5⟩], none) ∧
      (∃ r, s.ring.shrink ⟨0x1000⟩ 2 5 = .ok () r) ∧ ShrinksRecognised s :=
  ⟨⟨rfl, by decide⟩, by decide, ⟨_, rfl⟩, recognised_shrink rfl _ (by decide) _⟩

/-- Three and five words are live. A shrink that names all eight from the start of the older grant on
is accepted: it takes back the newest grant and two words of the older one. -/
theorem shrink_of_older :
    let c : Config := ⟨2, 5, 2, 4⟩
    let s := (start c ⟨0x1000⟩ 8).run [.acquire 4, .shrink 3, .acquire 2]
    c.validate = .ok () ∧ s.live = [⟨⟨0x1000⟩, 3⟩, ⟨⟨0x100c⟩, 5⟩] ∧
      s.newestGrant? = some ⟨⟨0x100c⟩, 5⟩ ∧
      ∃ r, s.ring.shrink ⟨0x1000⟩ 1 8 = .ok () r ∧ (r.head, r.outstanding) = (1, 1) :=
  ⟨rfl, by decide, by decide, _, rfl, by decide⟩

end Client

end CommandPool
