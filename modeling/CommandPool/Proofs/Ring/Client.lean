import CommandPool.Proofs.Ring.Grants
/-!
# Clients that keep the order

A client of the ring remembers its live grants. It shrinks only the grant of its latest acquire,
while that one is live, and releases only the oldest of its live grants, each as it is at present.

Main statements, over every run of such a client: live grants share no word with each other or
with the next grant (`isolated_run`), and no shrink and no release is ever refused, while a ring
without live grants is as good as new (`accepted_run`).
-/
namespace CommandPool

structure Client where
  ring : Ring
  /-- The grants that are live, the oldest first. -/
  live : List Grant
  /-- The last of them came from the latest acquire that succeeded. -/
  newest : Bool
deriving DecidableEq, Repr

inductive Request where
  | acquire (wanted : Nat)
  /-- Keep `used` words of the newest grant. -/
  | shrink (used : Nat)
  /-- Release the oldest grant. -/
  | release
deriving DecidableEq, Repr

namespace Client

/-- A new ring of configuration `c`, on which a region was attached. -/
def start (c : Config) (base : Address) (size : Nat) : Client :=
  match (Ring.ofConfig c).attach base size with
  | .ok _ r | .error _ r => ⟨r, [], false⟩

/-- The grant of the latest acquire, while it is live. -/
def newestGrant? (s : Client) : Option Grant := if s.newest then s.live.getLast? else none

/-- The client after a request. It makes no call for a request that is not in order, and a call
that the ring turns down leaves it the grants it had. -/
def ask (s : Client) : Request → Client
  | .acquire wanted =>
    match s.ring.acquire wanted with
    | .ok a r => ⟨r, s.live ++ [a.grant], true⟩
    | .error _ r => { s with ring := r }
  | .shrink used =>
    match s.newestGrant? with
    | none => s
    | some g =>
      if g.words < used then s
      else match s.ring.shrink g.start used g.words with
        | .ok _ r => ⟨r, s.live.dropLast ++ g.keep used, decide (used ≠ 0)⟩
        | .error _ r => { s with ring := r }
  | .release =>
    match s.live with
    | [] => s
    | g :: live =>
      match s.ring.release g.start g.words with
      | .ok _ r => ⟨r, live, s.newest && !live.isEmpty⟩
      | .error _ r => { s with ring := r }

def run (s : Client) (reqs : List Request) : Client := reqs.foldl ask s

/-! ## The invariant -/

/-- The client knows where its grants lie, in a region `base`, `size` with usable limits. -/
structure Sound (base : Address) (size : Nat) (s : Client) : Prop where
  layout : Layout s.ring s.live s.newest
  base_eq : s.ring.base = base
  size_eq : s.ring.size = size
  minGrant_pos : 0 < s.ring.minGrant
  maxGrant_pos : 0 < s.ring.maxGrant

variable {base : Address} {size : Nat} {s : Client}

theorem Sound.next (h : Sound base size s) {r : Ring} {live : List Grant} {newest : Bool}
    (hsame : SameRegion s.ring r) (hlay : Layout r live newest) : Sound base size ⟨r, live, newest⟩ :=
  ⟨hlay, hsame.base.trans h.base_eq, hsame.size.trans h.size_eq, hsame.minGrant ▸ h.minGrant_pos,
    hsame.maxGrant ▸ h.maxGrant_pos⟩

theorem newestGrant?_eq_some {g : Grant} (h : s.newestGrant? = some g) :
    s.newest = true ∧ s.live = s.live.dropLast ++ [g] := by
  unfold newestGrant? at h
  split at h
  · rename_i hn
    obtain ⟨live, hl⟩ := List.getLast?_eq_some_iff.1 h
    exact ⟨hn, by rw [hl, List.dropLast_concat]⟩
  · cases h

theorem Sound.shrink (h : Sound base size s) (hs : size ≤ 2 ^ 30) {g : Grant}
    (hg : s.newestGrant? = some g) {used : Nat} (hused : used ≤ g.words) :
    ∃ r, s.ring.shrink g.start used g.words = .ok () r ∧ SameRegion s.ring r ∧
      Layout r (s.live.dropLast ++ g.keep used) (decide (used ≠ 0)) := by
  obtain ⟨hn, hl⟩ := newestGrant?_eq_some hg
  have hlay := h.layout
  rw [hn, hl] at hlay
  exact shrink_spec hlay (h.size_eq ▸ hs) hused

theorem Sound.release (h : Sound base size s) (hs : size < Counter.bound) {g : Grant} {live : List Grant}
    (hl : s.live = g :: live) :
    ∃ r, s.ring.release g.start g.words = .ok () r ∧ SameRegion s.ring r ∧
      Layout r live (s.newest && !live.isEmpty) := by
  have hlay := h.layout
  rw [hl] at hlay
  exact release_spec hlay (h.size_eq ▸ hs)

/-- One request keeps the region, and the client knows where its grants lie then. -/
theorem Sound.ask (hs : size ≤ 2 ^ 30) (h : Sound base size s) (q : Request) :
    SameRegion s.ring (s.ask q).ring ∧ Layout (s.ask q).ring (s.ask q).live (s.ask q).newest := by
  have hbound : size < Counter.bound := by
    unfold Counter.bound
    omega
  cases q with
  | acquire wanted =>
    have hpost := acquire_spec h.layout h.minGrant_pos h.maxGrant_pos (h.size_eq ▸ hbound) wanted
    simp only [Client.ask]
    split
    · rename_i hr
      rw [hr] at hpost
      exact hpost
    · rename_i hr
      rw [hr] at hpost
      exact ⟨hpost.1, hpost.2.1⟩
  | shrink used =>
    simp only [Client.ask]
    split
    · exact ⟨.refl _, h.layout⟩
    rename_i hg
    split
    · exact ⟨.refl _, h.layout⟩
    obtain ⟨r, hr, hsame, hlay⟩ := h.shrink hs hg (Nat.not_lt.1 ‹_›)
    rw [hr]
    exact ⟨hsame, hlay⟩
  | release =>
    simp only [Client.ask]
    split
    · exact ⟨.refl _, h.layout⟩
    rename_i hl
    obtain ⟨r, hr, hsame, hlay⟩ := h.release hbound hl
    rw [hr]
    exact ⟨hsame, hlay⟩

/-- One request keeps the invariant. -/
theorem sound_ask (hs : size ≤ 2 ^ 30) (h : Sound base size s) (q : Request) :
    Sound base size (s.ask q) :=
  h.next (h.ask hs q).1 (h.ask hs q).2

theorem sound_run (hs : size ≤ 2 ^ 30) (reqs : List Request) (h : Sound base size s) :
    Sound base size (s.run reqs) := by
  induction reqs generalizing s with
  | nil => exact h
  | cons q reqs ih => exact ih (sound_ask hs h q)

/-- The region is attached unless it is empty; the ring then stays without one. -/
theorem sound_start {c : Config} (hc : c.validate = .ok ()) (base : Address) (size : Nat) :
    Sound (if size = 0 then .null else base) size (start c base size) := by
  obtain ⟨hmin, hmax, _⟩ := c.validate_eq_ok_iff.1 hc
  have hlimits : 0 < c.maxGrant := Nat.lt_of_lt_of_le hmin hmax
  simp only [start, Ring.attach, Ring.ofConfig, Ring.detached, Ring.IsAttached, ne_eq,
    not_true_eq_false, if_false]
  by_cases hs : size = 0
  · simp only [hs, if_true, Ring.refuse]
    exact ⟨.empty rfl rfl rfl rfl, rfl, rfl, hmin, hlimits⟩
  · simp only [hs, if_false]
    exact ⟨.empty rfl rfl rfl rfl, rfl, rfl, hmin, hlimits⟩

/-! ## Isolation -/

/-- What the live grants of a client have to do with each other and with the region. -/
structure Isolated (base : Address) (size : Nat) (s : Client) : Prop where
  nonempty : ∀ g ∈ s.live, 0 < g.words
  /-- A grant is a range of words of the region, told by its address. -/
  inside : ∀ g ∈ s.live, g.start = base.addWords (g.offset base) ∧ g.offset base + g.words ≤ size
  apart : s.live.Pairwise (Grant.Apart base)
  outstanding : s.ring.outstanding = (s.live.map Grant.words).sum
  outstanding_le : s.ring.outstanding ≤ size
  /-- The next grant is apart from all that are still live. -/
  granted : ∀ wanted a r, s.ring.acquire wanted = .ok a r → ∀ g ∈ s.live, g.Apart base a.grant

theorem Sound.isolated {base : Address} {size : Nat} {s : Client} (h : Sound base size s)
    (hs : size ≤ 2 ^ 30) : Isolated base size s := by
  obtain ⟨hlay, rfl, rfl, hmin, hmax⟩ := h
  refine ⟨?_, ?_, ?_, hlay.outstanding, hlay.outstanding_le, ?_⟩
  · intro g hg
    obtain ⟨_, ho, _⟩ := hlay.inside hg
    exact ho.2
  · intro g hg
    obtain ⟨o, ho, hle⟩ := hlay.inside hg
    have := ho.2
    rw [ho.offset_eq (by omega)]
    exact ⟨ho.1, hle⟩
  · exact hlay.separate.imp fun hd => hd.apart hs
  · intro wanted a r hr g hg
    have hpost := acquire_spec hlay hmin hmax (by unfold Counter.bound; omega) wanted
    rw [hr] at hpost
    -- the grant stands at the end of the new layout, whose grants are separate
    have hd := (List.pairwise_append.1 hpost.2.separate).2.2 g hg a.grant (by simp)
    rw [hpost.1.base, hpost.1.size] at hd
    exact hd.apart hs

/-- **Isolation.** In every state of every run the live grants are non-empty ranges of words
inside the region that share no word, whatever was acquired, shrunk and released before. -/
theorem isolated_run {c : Config} (hc : c.validate = .ok ()) (base : Address) {size : Nat}
    (hpos : 1 ≤ size) (hs : size ≤ 2 ^ 30) (reqs : List Request) :
    Isolated base size ((start c base size).run reqs) := by
  have h := sound_start hc base size
  rw [if_neg (by omega)] at h
  exact (sound_run hs reqs h).isolated hs

/-- Ten words across the top of the address space. The run wraps, leaving two words behind, and
the tail comes to rest on these. -/
theorem isolated_run_wrapped :
    let s := (start ⟨2, 5, 2, 4⟩ ⟨0xfffffff0⟩ 10).run
      [.acquire 4, .acquire 3, .shrink 3, .release, .acquire 5, .release, .acquire 2]
    (Config.validate ⟨2, 5, 2, 4⟩ = .ok () ∧ 1 ≤ 10 ∧ 10 ≤ 2 ^ 30) ∧
      (s.live, s.ring.tail, s.ring.skipped) = ([⟨⟨0xfffffff0⟩, 5⟩, ⟨⟨4⟩, 3⟩], some 8, 2) ∧
      Isolated ⟨0xfffffff0⟩ 10 s :=
  ⟨⟨rfl, by decide, by decide⟩, by decide, isolated_run rfl _ (by decide) (by decide) _⟩

/-! ## Acceptance -/

/-- What the ring does for a client that keeps the order. -/
structure Accepted (base : Address) (size : Nat) (s : Client) : Prop where
  shrink : ∀ g, s.newestGrant? = some g → ∀ used ≤ g.words,
    ∃ r, s.ring.shrink g.start used g.words = .ok () r
  release : ∀ g live, s.live = g :: live → ∃ r, s.ring.release g.start g.words = .ok () r
  /-- Without live grants the cursors are back at the base of the region, if there is one. -/
  drained : s.live = [] →
    s.ring.head = 0 ∧ s.ring.address s.ring.head = (if size = 0 then .null else base) ∧
      s.ring.tail = none ∧ s.ring.skipped = 0 ∧ s.ring.outstanding = 0

theorem Sound.drained {base : Address} {size : Nat} {s : Client} (h : Sound base size s)
    (hnil : s.live = []) : s.ring.head = 0 ∧ s.ring.address s.ring.head = base ∧
      s.ring.tail = none ∧ s.ring.skipped = 0 ∧ s.ring.outstanding = 0 := by
  have hlay := h.layout
  rw [hnil] at hlay
  obtain ⟨hhead, htail, hskip, hout⟩ := hlay.cursors
  refine ⟨hhead, ?_, htail, hskip, hout⟩
  rw [hhead, Ring.address, Address.addWords_zero, h.base_eq]

/-- **Acceptance.** In every state of every run the ring accepts any shrink of the newest grant
and the release of the oldest one, and without live grants it is as good as new. -/
theorem accepted_run {c : Config} (hc : c.validate = .ok ()) (base : Address) {size : Nat}
    (hs : size ≤ 2 ^ 30) (reqs : List Request) :
    Accepted base size ((start c base size).run reqs) := by
  have h := sound_run hs reqs (sound_start hc base size)
  refine ⟨?_, ?_, h.drained⟩
  · intro g hg used hused
    obtain ⟨r, hr, _⟩ := h.shrink hs hg hused
    exact ⟨r, hr⟩
  · intro g live hl
    obtain ⟨r, hr, _⟩ := h.release (by unfold Counter.bound; omega) hl
    exact ⟨r, hr⟩

/-- A grant that wrapped, leaving a word behind, is the only one left; it may be released, and
shrinking it away while the skip is not repaid yet drains the ring. -/
theorem accepted_run_shrunk_away :
    let reqs : List Request :=
      [.acquire 4, .acquire 2, .shrink 2, .release, .acquire 3, .release]
    let s := (start ⟨2, 5, 2, 4⟩ ⟨0x1000⟩ 8).run reqs
    let t := (start ⟨2, 5, 2, 4⟩ ⟨0x1000⟩ 8).run (reqs ++ [.shrink 0])
    (Config.validate ⟨2, 5, 2, 4⟩ = .ok () ∧ 8 ≤ 2 ^ 30) ∧
      (s.live, s.ring.tail, s.ring.skipped) = ([⟨⟨0x1000⟩, 5⟩], some 7, 1) ∧ t.live = [] ∧
      Accepted ⟨0x1000⟩ 8 s ∧ Accepted ⟨0x1000⟩ 8 t :=
  ⟨⟨rfl, by decide⟩, by decide, by decide, accepted_run rfl _ (by decide) _,
    accepted_run rfl _ (by decide) _⟩

end Client

end CommandPool
