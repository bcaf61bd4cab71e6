import CommandPool.Proofs.Ring.Client
/-!
# Requests that have to wait

A request that finds no room is told to wait until grants come back. The room a ring can offer lies
in one piece, before or behind the tail, and a release may move the tail back to the base or start
the ring over. It never makes that piece smaller (`release_roomier`), and an empty ring has room for
whatever the region can hold.

Main statement, for a client in order: waiting for the live grants is enough, no release harms a
request, and a grant is never shorter than what was asked for, up to the maximum (`served_run`).
-/
namespace CommandPool

/-- `r'` has a place for whatever `r` has one for, with at least the same room. -/
def Roomier (r r' : Ring) : Prop :=
  ∀ wanted ≤ r.size, ∀ p, r.place wanted = .ok p → ∃ q, r'.place wanted = .ok q ∧ p.room ≤ q.room

variable {r : Ring} {live : List Grant} {newest : Bool}

/-! ## A release leaves no less room -/

/-- The whole region is the most room there is. -/
theorem roomier_restarted (h : Layout r live newest) {r' : Ring} (hsize : r'.size = r.size) :
    Roomier r r'.restarted := by
  intro wanted hle p hp
  have hpost := place_spec h wanted hle
  rw [hp] at hpost
  obtain ⟨hsame, -, hready⟩ := hpost
  have := hready.head_le
  rw [hsame.size] at this
  exact ⟨_, rfl, by simp only [Ring.restarted]; omega⟩

/-- The tail of a ring that did not wrap moves on: as much up to the end of the region, and more
before the tail. -/
theorem roomier_straight {r r' : Ring} {tail tail' : Nat} (htail : r.tail = some tail)
    (htail' : r'.tail = some tail') (hhead : r'.head = r.head) (hsize : r'.size = r.size)
    (hle : tail ≤ tail') (hlt : tail' < r.head) (hfit : r.head ≤ r.size) : Roomier r r' := by
  intro wanted _ p hp
  rw [place_straight htail (by omega) hfit] at hp
  rw [place_straight htail' (by omega) (by omega), hhead, hsize]
  by_cases hend : wanted ≤ r.size - r.head
  · rw [if_pos hend] at hp ⊢
    cases hp
    exact ⟨_, rfl, Nat.le_refl _⟩
  rw [if_neg hend] at hp ⊢
  by_cases hroom : tail < wanted
  · rw [if_pos hroom] at hp
    cases hp
  · rw [if_neg hroom] at hp
    cases hp
    rw [if_neg (by omega)]
    exact ⟨_, rfl, hle⟩

/-- The tail of a ring that wrapped moves on. -/
theorem roomier_wrapped {r r' : Ring} {tail tail' : Nat} (htail : r.tail = some tail)
    (htail' : r'.tail = some tail') (hhead : r'.head = r.head) (hle : tail ≤ tail')
    (hbehind : r.head ≤ tail) (hout : 0 < r.outstanding) (hout' : 0 < r'.outstanding) :
    Roomier r r' := by
  intro wanted _ p hp
  rw [place_wrapped htail hbehind hout] at hp
  rw [place_wrapped htail' (by omega) hout', hhead]
  by_cases hroom : tail - r.head < wanted
  · rw [if_pos hroom] at hp
    cases hp
  · rw [if_neg hroom] at hp
    cases hp
    rw [if_neg (by omega)]
    exact ⟨_, rfl, by simp only; omega⟩

/-- The tail goes back to the base and passes the first grant there: what was free up to the tail is
free up to the end of the region. -/
theorem roomier_unwrapped {r r' : Ring} {tail tail' : Nat} (htail : r.tail = some tail)
    (htail' : r'.tail = some tail') (hhead : r'.head = r.head) (hsize : r'.size = r.size)
    (hbehind : r.head ≤ tail) (hout : 0 < r.outstanding) (hend : tail ≤ r.size)
    (hlt : tail' < r.head) : Roomier r r' := by
  intro wanted _ p hp
  rw [place_wrapped htail hbehind hout] at hp
  rw [place_straight htail' (by omega) (by omega), hhead, hsize]
  by_cases hroom : tail - r.head < wanted
  · rw [if_pos hroom] at hp
    cases hp
  · rw [if_neg hroom] at hp
    cases hp
    rw [if_pos (by omega)]
    exact ⟨_, rfl, by simp only; omega⟩

/-- The tail passes the oldest grant, and something is still live. -/
theorem Shape.roomier {g : Grant} (h : Shape r (g :: live) newest) (hrest : 0 < totalWords live)
    {tail : Nat} (htail : r.tail = some tail) (stats : RingStats) : Roomier r { repaid r tail with
      tail := some (repaidTail r tail + g.words), outstanding := totalWords live, stats := stats } := by
  have hpos := h.outstanding_pos (List.cons_ne_nil g live)
  generalize hl : g :: live = all at h
  cases h with
  | straight ht hchain hhead hskip hout =>
    cases htail.symm.trans ht
    subst hl
    obtain ⟨-, -, hchain⟩ := hchain
    have := hchain.totalWords
    have hoff : ¬ tail + r.skipped = r.size := by omega
    simp only [repaid, repaidTail, if_neg hoff]
    exact roomier_straight htail rfl rfl rfl (Nat.le_add_right _ _) (by omega) hhead
  | @wrapped t stop old young _ ht hold hstop hyoung hhead hnewest hout =>
    cases htail.symm.trans ht
    have hlen := hold.totalWords
    cases old with
    | nil =>
      cases hold
      rw [List.nil_append] at hl
      subst hl
      obtain ⟨-, -, hyoung⟩ := hyoung
      have := hyoung.totalWords
      simp only [repaid, repaidTail, if_pos hstop]
      exact roomier_unwrapped htail rfl rfl rfl hhead hpos (by omega) (by omega)
    | cons k old =>
      cases hl
      obtain ⟨-, hw, -⟩ := hold
      rw [totalWords_cons] at hlen
      have hoff : ¬ tail + r.skipped = r.size := by omega
      simp only [repaid, repaidTail, if_neg hoff]
      exact roomier_wrapped htail rfl rfl (Nat.le_add_right _ _) hhead hpos hrest

/-- **Releases only help.** Once the oldest grant is released there is no less room than before. -/
theorem release_roomier {g : Grant} (h : Layout r (g :: live) newest) (hr : r.size < Counter.bound)
    {r' : Ring} (hrel : r.release g.start g.words = .ok () r') : Roomier r r' := by
  cases h with
  | filled hne h =>
    obtain ⟨tail, stats, htail, heq⟩ := release_oldest h hr
    obtain ⟨_, htail', -, hsame, -⟩ := h.pass
    cases htail.symm.trans htail'
    rw [heq] at hrel
    cases hrel
    unfold Ring.settled
    by_cases hnil : live = []
    · rw [if_pos (by simp [hnil])]
      exact roomier_restarted (.filled hne h) hsame.size
    · have hrest := totalWords_pos hnil fun k hk => by
        obtain ⟨_, ho, _⟩ := h.inside (List.mem_cons_of_mem g hk)
        exact ho.2
      rw [if_neg (Nat.ne_of_gt hrest)]
      exact h.roomier hrest htail stats

namespace Client

variable {base : Address} {size : Nat} {s : Client} {c : Config}

/-! ## Runs -/

theorem ask_release (h : Sound base size s) (hs : size < Counter.bound) :
    (s.ask .release).live = s.live.tail := by
  simp only [ask]
  split
  · rename_i hl
    rw [hl]
    rfl
  · rename_i hl
    obtain ⟨r, hr, -⟩ := h.release hs hl
    rw [hr, hl]
    rfl

theorem run_release (hs : size ≤ 2 ^ 30) (n : Nat) (h : Sound base size s) :
    (s.run (List.replicate n .release)).live = s.live.drop n := by
  induction n generalizing s with
  | zero => rfl
  | succ n ih =>
    rw [List.replicate_succ]
    refine (ih (sound_ask hs h .release)).trans ?_
    rw [ask_release h (by unfold Counter.bound; omega), List.drop_tail]

theorem sameRegion_run (hs : size ≤ 2 ^ 30) (reqs : List Request) (h : Sound base size s) :
    SameRegion s.ring (s.run reqs).ring := by
  induction reqs generalizing s with
  | nil => exact .refl _
  | cons q reqs ih => exact (h.ask hs q).1.trans (ih (sound_ask hs h q))

theorem start_limits (c : Config) (base : Address) (size : Nat) :
    (start c base size).ring.minGrant = c.minGrant ∧ (start c base size).ring.maxGrant = c.maxGrant := by
  unfold start
  split
  · rename_i ha
    obtain ⟨rfl, -⟩ := attach_spec ha
    exact ⟨rfl, rfl⟩
  · rename_i ha
    simp only [Ring.attach] at ha
    split at ha
    · cases ha
      exact ⟨rfl, rfl⟩
    · split at ha <;> cases ha
      exact ⟨rfl, rfl⟩

/-! ## What a request can count on -/

/-- What the ring does for a request of `wanted` words that the region could hold. -/
structure Served (c : Config) (wanted : Nat) (s : Client) : Prop where
  /-- Where there is no room, grants are live, and once the oldest `n` of them are released the same
  request is granted. -/
  resumed : ∀ r, s.ring.acquire wanted = .error (.refused .insufficient) r → s.live ≠ [] ∧
    ∃ n, 0 < n ∧ n ≤ s.live.length ∧
      let t := (s.ask (.acquire wanted)).run (List.replicate n .release)
      t.live = s.live.drop n ∧ ∃ a r', t.ring.acquire wanted = .ok a r'
  /-- What is granted now is granted too, and with no fewer words, after the oldest grant is
  released. -/
  helped : ∀ a r, s.ring.acquire wanted = .ok a r → ∀ g live, s.live = g :: live →
    ∃ r₁, s.ring.release g.start g.words = .ok () r₁ ∧
      ∃ b r₂, r₁.acquire wanted = .ok b r₂ ∧ a.grant.words ≤ b.grant.words
  enough : ∀ a r, s.ring.acquire wanted = .ok a r →
    min (max wanted c.minGrant) c.maxGrant ≤ a.grant.words

/-- A client without live grants gets whatever the region can hold. -/
theorem Sound.acquire_of_empty (h : Sound base size s) (hs : size < Counter.bound) (hnil : s.live = [])
    {wanted : Nat} (hle : max wanted s.ring.minGrant ≤ size) :
    ∃ a r, s.ring.acquire wanted = .ok a r := by
  have hlay := h.layout
  rw [hnil] at hlay
  rw [← h.size_eq] at hs hle
  exact CommandPool.acquire_of_empty hlay h.minGrant_pos h.maxGrant_pos hs hle

/-- The words of a grant, told by the room at its place. -/
theorem Sound.granted (h : Sound base size s) {wanted : Nat} {a : Acquired} {r : Ring}
    (ha : s.ring.acquire wanted = .ok a r) :
    ∃ p, s.ring.place (max wanted s.ring.minGrant) = .ok p ∧ max wanted s.ring.minGrant ≤ p.room ∧
      a.grant.words = min p.room s.ring.maxGrant := by
  obtain ⟨hle, p, hp, hg⟩ := acquire_ok ha
  rw [h.layout.settled_eq] at hp hg
  have hpost := place_spec h.layout _ hle
  rw [hp] at hpost
  exact ⟨p, hp, hpost.2.1, by rw [(grant_ok hg).1]⟩

theorem Sound.served (h : Sound base size s) (hs : size ≤ 2 ^ 30) (hmin : s.ring.minGrant = c.minGrant)
    (hmax : s.ring.maxGrant = c.maxGrant) {wanted : Nat} (hle : max wanted c.minGrant ≤ size) :
    Served c wanted s := by
  have hbound : size < Counter.bound := by
    unfold Counter.bound
    omega
  refine ⟨?_, ?_, ?_⟩
  · intro r hr
    have hne : s.live ≠ [] := by
      intro hnil
      obtain ⟨a, r', ha⟩ := h.acquire_of_empty hbound hnil (hmin ▸ hle)
      rw [hr] at ha
      cases ha
    refine ⟨hne, s.live.length, List.length_pos_iff.2 hne, Nat.le_refl _, ?_⟩
    have hask : (s.ask (.acquire wanted)).live = s.live := by
      simp only [Client.ask, hr]
    have h1 := sound_ask hs h (.acquire wanted)
    have hlive := run_release hs s.live.length h1
    have hregion := (h.ask hs (.acquire wanted)).1.trans
      (sameRegion_run hs (List.replicate s.live.length .release) h1)
    rw [hask] at hlive
    refine ⟨hlive, (sound_run hs _ h1).acquire_of_empty hbound ?_ ?_⟩
    · rw [hlive, List.drop_length]
    · rw [hregion.minGrant, hmin]
      exact hle
  · intro a r ha g live hl
    obtain ⟨r₁, hrel, hsame, hlay⟩ := h.release hbound hl
    obtain ⟨p, hp, -, hwords⟩ := h.granted ha
    have hold := h.layout
    rw [hl] at hold
    obtain ⟨q, hq, hroom⟩ := release_roomier hold (h.size_eq ▸ hbound) hrel _
      (by rw [h.size_eq, hmin]; exact hle) p hp
    have h₁ := h.next hsame hlay
    rw [← hsame.minGrant] at hq
    obtain ⟨b, r₂, hb, hwords'⟩ := acquire_of_place hlay h₁.minGrant_pos h₁.maxGrant_pos
      (by rw [h₁.size_eq]; exact hbound) (by rw [h₁.size_eq, hsame.minGrant, hmin]; exact hle) hq
    refine ⟨r₁, hrel, b, r₂, hb, ?_⟩
    rw [hwords, hwords', hsame.maxGrant]
    omega
  · intro a r ha
    obtain ⟨p, -, hroom, hwords⟩ := h.granted ha
    rw [hmin] at hroom
    rw [hmax] at hwords
    omega

/-- **Progress.** In every state of every run a request that the region could hold waits for live
grants only, no release makes it worse off, and what it is granted is as long as it asked for, up to
the maximum. -/
theorem served_run {c : Config} (hc : c.validate = .ok ()) (base : Address) {size wanted : Nat}
    (hs : size ≤ 2 ^ 30) (hle : max wanted c.minGrant ≤ size) (reqs : List Request) :
    Served c wanted ((start c base size).run reqs) := by
  have h := sound_start hc base size
  have hregion := sameRegion_run hs reqs h
  obtain ⟨hmin, hmax⟩ := start_limits c base size
  exact (sound_run hs reqs h).served hs (hregion.minGrant.trans hmin) (hregion.maxGrant.trans hmax) hle

/-- The tail rests on the skipped word. Two words are left before it, so that three have to wait; and
they are granted once the young grant is released, which starts the ring over. -/
theorem served_run_on_skip :
    let s := (start ⟨2, 5, 2, 4⟩ ⟨0x1000⟩ 8).run
      [.acquire 4, .acquire 2, .shrink 2, .release, .acquire 3, .release]
    (Config.validate ⟨2, 5, 2, 4⟩ = .ok () ∧ 8 ≤ 2 ^ 30 ∧ max 3 2 ≤ 8) ∧
      (s.live, s.ring.tail, s.ring.skipped) = ([⟨⟨0x1000⟩, 5⟩], some 7, 1) ∧
      (∃ r, s.ring.acquire 3 = .error (.refused .insufficient) r) ∧ Served ⟨2, 5, 2, 4⟩ 3 s :=
  ⟨⟨rfl, by decide, by decide⟩, by decide, ⟨_, rfl⟩, served_run rfl _ (by decide) (by decide) _⟩

end Client

end CommandPool
