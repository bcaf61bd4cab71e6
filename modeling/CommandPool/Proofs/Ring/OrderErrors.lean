import CommandPool.Proofs.Ring.Recognition
/-!
# What a refused release is told

The error of a release out of order names two regions: the one that was to be released and the one
that was expected in its place. The second is read off a cursor, but not always off the same one.
Whether the words of the call are outstanding is looked at before anything else, and a call that
fails there is told where the head is; all others are told where the oldest grant is, after the
skipped words are repaid.

Main statement, over every run of a client that keeps the order: `told_run`. The head is the start of
no live grant while a word of the region is free (`Shape.head_astray`), so a call with too many words
is told to release a region that is not out (`told_past_newest`).
-/
namespace CommandPool

/-- A release is refused as out of order, and told that `expected` should be released, not `named`. -/
def Ring.Told (r : Ring) (region : Address) (words : Nat) (named expected : Address) : Prop :=
  ∃ r', r.release region words = .error (.refused (.outOfOrderRelease named expected)) r'

variable {r : Ring} {live : List Grant} {newest : Bool}

/-- Words that are not outstanding are refused wherever the tail is. -/
theorem release_of_lt {words : Nat} (h : r.outstanding < words) (region : Address) :
    r.release region words =
      .error (.refused (.outOfOrderRelease region (r.address r.head))) r := by
  unfold Ring.release
  cases r.tail with
  | none => rfl
  | some tail => exact if_pos h

/-- While a word of the region is free no live grant starts at the head. -/
theorem Shape.head_astray (h : Shape r live newest) (hr : r.size ≤ 2 ^ 30)
    (hfree : r.outstanding + r.skipped < r.size) {k : Grant} (hk : k ∈ live) :
    k.start ≠ r.address r.head := by
  cases h with
  | straight htail hchain hhead hskip hout =>
    have hwords := hchain.totalWords
    obtain ⟨o, ⟨hstart, hpos⟩, hle, hend⟩ := hchain.mem hk
    -- the grant ends at the head or before, and is not a whole space away from it
    rw [hstart]
    exact r.base.addWords_ne (by omega) (by omega)
  | wrapped htail hold hstop hyoung hhead hnewest hout =>
    have hwords := hold.totalWords
    have hwords' := hyoung.totalWords
    rw [totalWords_append] at hout
    rcases List.mem_append.1 hk with hk | hk
    · obtain ⟨o, ⟨hstart, hpos⟩, hle, hend⟩ := hold.mem hk
      -- the free words are those between the head and the tail
      rw [hstart]
      exact (r.base.addWords_ne (by omega) (by omega)).symm
    · obtain ⟨o, ⟨hstart, hpos⟩, hle, hend⟩ := hyoung.mem hk
      rw [hstart]
      exact r.base.addWords_ne (by omega) (by omega)

/-! ## The errors of a client's releases -/

namespace Client

/-- What the releases are told that the ring of a client refuses, `g` being the oldest live grant. -/
structure ReleasesTold (s : Client) (g : Grant) : Prop where
  /-- A call whose words are outstanding is refused if it names another region than `g`, and told of
  both. -/
  counted : ∀ region words, words ≤ s.ring.outstanding → ∀ named expected,
    s.ring.Told region words named expected ↔
      region ≠ g.start ∧ named = region ∧ expected = g.start
  /-- A call with more words is refused whatever it names, and told of the head. -/
  uncounted : ∀ region words, s.ring.outstanding < words → ∀ named expected,
    s.ring.Told region words named expected ↔
      named = region ∧ expected = s.ring.address s.ring.head
  /-- While a word of the region is free that is the start of no live grant. -/
  astray : s.ring.outstanding + s.ring.skipped < s.ring.size →
    ∀ k ∈ s.live, k.start ≠ s.ring.address s.ring.head

variable {base : Address} {size : Nat} {s : Client}

theorem Sound.releasesTold (h : Sound base size s) (hs : size ≤ 2 ^ 30) {g : Grant}
    {live : List Grant} (hl : s.live = g :: live) : ReleasesTold s g := by
  have hr : s.ring.size ≤ 2 ^ 30 := h.size_eq ▸ hs
  have hlay := h.layout
  rw [hl] at hlay
  cases hlay with
  | filled _ hshape =>
    refine ⟨?_, ?_, fun hfree k hk => hshape.head_astray hr hfree (hl ▸ hk)⟩
    · intro region words hwords named expected
      have hans := hshape.release_answered hr region words
      constructor
      · rintro ⟨r, htold⟩
        by_cases he : region = g.start
        · obtain ⟨_, hok⟩ := hans.accepted hwords he
          cases hok.symm.trans htold
        · obtain ⟨_, hno⟩ := hans.elsewhere hwords he
          cases hno.symm.trans htold
          exact ⟨he, rfl, rfl⟩
      · rintro ⟨he, rfl, rfl⟩
        exact hans.elsewhere hwords he
    · intro region words hmany named expected
      have hno := release_of_lt hmany region
      constructor
      · rintro ⟨r, htold⟩
        cases hno.symm.trans htold
        exact ⟨rfl, rfl⟩
      · rintro ⟨rfl, rfl⟩
        exact ⟨_, hno⟩

/-- **Errors of release.** In every state of every run with live grants, a release that is refused is
told the region it named, and the oldest live grant as the one expected, provided its words are
outstanding. -/
theorem told_run {c : Config} (hc : c.validate = .ok ()) (base : Address) {size : Nat}
    (hs : size ≤ 2 ^ 30) (reqs : List Request) {g : Grant}
    (hg : ((start c base size).run reqs).live.head? = some g) :
    ReleasesTold ((start c base size).run reqs) g := by
  obtain ⟨live, hl⟩ := List.head?_eq_some_iff.1 hg
  exact (sound_run hs reqs (sound_start hc base size)).releasesTold hs hl

/-- The tail rests on a skipped word, the oldest grant is at the base and so are the words that the
error expects. -/
theorem told_run_on_skip :
    let s := (start ⟨2, 5, 2, 4⟩ ⟨0x1000⟩ 8).run
      [.acquire 4, .acquire 2, .shrink 2, .release, .acquire 3, .shrink 2, .acquire 3, .release]
    (Config.validate ⟨2, 5, 2, 4⟩ = .ok () ∧ 8 ≤ 2 ^ 30 ∧ s.live.head? = some ⟨⟨0x1000⟩, 2⟩) ∧
      (s.live, s.ring.tail, s.ring.skipped) = ([⟨⟨0x1000⟩, 2⟩, ⟨⟨0x1008⟩, 3⟩], some 7, 1) ∧
      s.ring.Told ⟨0x1008⟩ 3 ⟨0x1008⟩ ⟨0x1000⟩ ∧ ReleasesTold s ⟨⟨0x1000⟩, 2⟩ :=
  ⟨⟨rfl, by decide, by decide⟩, by decide, ⟨_, rfl⟩,
    told_run rfl _ (by decide) _ (by decide)⟩

/-- Two grants were shrunk to a word each. The release of the younger one with the words it had at
first is told that the oldest is behind both, at words that are free. -/
theorem told_past_newest :
    let c : Config := ⟨2, 5, 2, 4⟩
    let s := (start c ⟨0x1000⟩ 8).run [.acquire 4, .shrink 1, .acquire 2, .shrink 1]
    c.validate = .ok () ∧ 8 ≤ 2 ^ 30 ∧ s.live = [⟨⟨0x1000⟩, 1⟩, ⟨⟨0x1004⟩, 1⟩] ∧
      s.ring.release ⟨0x1004⟩ 5 =
        .error (.refused (.outOfOrderRelease ⟨0x1004⟩ ⟨0x1008⟩)) s.ring :=
  ⟨rfl, by decide, by decide, rfl⟩

end Client

end CommandPool
