import CommandPool.Proofs.Guest.Address
import CommandPool.Ring.Grants
/-!
# Where the live grants lie

The ring keeps cursors, not grants. `Layout r live newest` puts the list of the grants that are
still live, the oldest first, beside the cursors; `newest` says that the last of them came from
the latest acquire, so that it may still be shrunk. There are three shapes:

* `empty`: nothing is live and the cursors are back at the base;
* `straight`: the grants fill the words from `tail` to `head`;
* `wrapped`: the older ones fill the words from `tail` to the skipped fragment, the younger ones
  those from the base to `head`. Either part may be empty: the old one when `tail` rests on the
  skipped fragment, the young one when the grant that wrapped was shrunk away.

`Layout.inside`, `Layout.separate` and `Layout.outstanding` read off what a layout says about the
grants themselves.
-/
namespace CommandPool

/-! ## Chains of grants -/

/-- The words of all grants of a list. -/
def totalWords (gs : List Grant) : Nat := (gs.map Grant.words).sum

@[simp] theorem totalWords_nil : totalWords [] = 0 := rfl

@[simp] theorem totalWords_cons (g : Grant) (gs : List Grant) :
    totalWords (g :: gs) = g.words + totalWords gs := by
  simp [totalWords]

@[simp] theorem totalWords_append (gs hs : List Grant) :
    totalWords (gs ++ hs) = totalWords gs + totalWords hs := by
  simp [totalWords]

/-- Each grant starts where the one before it ends, the first at offset `lo` from the base, the
last ending at `hi`. None of them is empty. -/
def Chain (base : Address) : Nat → List Grant → Nat → Prop
  | lo, [], hi => lo = hi
  | lo, g :: gs, hi => g.start = base.addWords lo ∧ 0 < g.words ∧ Chain base (lo + g.words) gs hi

variable {base : Address}

theorem Chain.totalWords : ∀ {lo hi : Nat} {gs : List Grant},
    Chain base lo gs hi → lo + totalWords gs = hi
  | _, _, [], h => h
  | _, _, _ :: _, ⟨_, _, h⟩ => by
    have := h.totalWords
    simp only [totalWords_cons]
    omega

theorem chain_append {lo hi : Nat} {gs hs : List Grant} :
    Chain base lo (gs ++ hs) hi ↔ ∃ mid, Chain base lo gs mid ∧ Chain base mid hs hi := by
  induction gs generalizing lo with
  | nil => simp [Chain]
  | cons g gs ih =>
    simp only [List.cons_append, Chain, ih]
    constructor
    · rintro ⟨ha, hw, mid, h1, h2⟩
      exact ⟨mid, ⟨ha, hw, h1⟩, h2⟩
    · rintro ⟨mid, ⟨ha, hw, h1⟩, h2⟩
      exact ⟨ha, hw, mid, h1, h2⟩

theorem chain_concat {lo hi : Nat} {gs : List Grant} {g : Grant} :
    Chain base lo (gs ++ [g]) hi ↔
      ∃ o, Chain base lo gs o ∧ g.start = base.addWords o ∧ 0 < g.words ∧ o + g.words = hi := by
  simp [chain_append, Chain]

/-- `g` is the words from offset `o` on. -/
def Grant.At (base : Address) (g : Grant) (o : Nat) : Prop := g.start = base.addWords o ∧ 0 < g.words

theorem Chain.mem : ∀ {lo hi : Nat} {gs : List Grant} {g : Grant}, Chain base lo gs hi → g ∈ gs →
    ∃ o, g.At base o ∧ lo ≤ o ∧ o + g.words ≤ hi
  | lo, hi, k :: gs, g, ⟨ha, hw, h⟩, hg => by
    have hk := h.totalWords
    rcases List.mem_cons.1 hg with rfl | hg
    · exact ⟨lo, ⟨ha, hw⟩, by omega, by omega⟩
    · obtain ⟨o, ho, h1, h2⟩ := h.mem hg
      exact ⟨o, ho, by omega, h2⟩

/-- Two grants of a region of `size` words that share none of them. -/
def Separate (base : Address) (size : Nat) (g k : Grant) : Prop :=
  ∃ o p, g.At base o ∧ k.At base p ∧ o + g.words ≤ size ∧ p + k.words ≤ size ∧
    (o + g.words ≤ p ∨ p + k.words ≤ o)

theorem Chain.separate : ∀ {lo hi size : Nat} {gs : List Grant}, Chain base lo gs hi → hi ≤ size →
    gs.Pairwise (Separate base size)
  | _, _, _, [], _, _ => .nil
  | lo, hi, size, g :: gs, ⟨ha, hw, h⟩, hs => by
    refine .cons ?_ (h.separate hs)
    intro k hk
    obtain ⟨p, hp, h1, h2⟩ := h.mem hk
    exact ⟨lo, p, ⟨ha, hw⟩, hp, by omega, by omega, .inl h1⟩

/-! ## Grants that share no word -/

/-- Where a grant starts in a region at `base`, in words. -/
def Grant.offset (base : Address) (g : Grant) : Nat := g.start.wordsSince base

/-- Two grants of a region at `base` share no word: neither by their offsets nor by the addresses
of their bytes. -/
structure Grant.Apart (base : Address) (g k : Grant) : Prop where
  offsets : g.offset base + g.words ≤ k.offset base ∨ k.offset base + k.words ≤ g.offset base
  bytes : g.start.Apart g.words k.start k.words

theorem Grant.At.offset_eq {base : Address} {g : Grant} {o : Nat} (h : g.At base o)
    (ho : o < 2 ^ 30) : g.offset base = o := by
  rw [Grant.offset, h.1, Address.wordsSince_addWords base ho]

theorem Separate.apart {base : Address} {size : Nat} {g k : Grant} (h : Separate base size g k)
    (hs : size ≤ 2 ^ 30) : g.Apart base k := by
  obtain ⟨o, p, hg, hk, ho, hp, hd⟩ := h
  have := hg.2
  have := hk.2
  refine ⟨?_, ?_⟩
  · rw [hg.offset_eq (by omega), hk.offset_eq (by omega)]
    exact hd
  · rw [hg.1, hk.1]
    exact Address.apart_addWords base (by omega) (by omega) hd

/-! ## The layout -/

/-- The words between the cursors, on the way from `tail` to `head`. -/
inductive Shape (r : Ring) : List Grant → Bool → Prop where
  | straight {tail : Nat} {live : List Grant} {newest : Bool}
      (htail : r.tail = some tail) (hchain : Chain r.base tail live r.head) (hhead : r.head ≤ r.size)
      (hskip : r.skipped = 0) (hout : r.outstanding = totalWords live) : Shape r live newest
  | wrapped {tail stop : Nat} {old young : List Grant} {newest : Bool}
      (htail : r.tail = some tail) (hold : Chain r.base tail old stop)
      (hstop : stop + r.skipped = r.size) (hyoung : Chain r.base 0 young r.head)
      (hhead : r.head ≤ tail) (hnewest : newest = true → young ≠ [])
      (hout : r.outstanding = totalWords (old ++ young)) : Shape r (old ++ young) newest

/-- The live grants, the oldest first, and whether the last one came from the latest acquire. -/
inductive Layout (r : Ring) : List Grant → Bool → Prop where
  | empty (hhead : r.head = 0) (htail : r.tail = none) (hskip : r.skipped = 0)
      (hout : r.outstanding = 0) : Layout r [] false
  | filled {live : List Grant} {newest : Bool} (hne : live ≠ []) (h : Shape r live newest) :
      Layout r live newest

/-- What no grant and no return changes. -/
structure SameRegion (r r' : Ring) : Prop where
  base : r'.base = r.base
  size : r'.size = r.size
  minGrant : r'.minGrant = r.minGrant
  maxGrant : r'.maxGrant = r.maxGrant

theorem SameRegion.refl (r : Ring) : SameRegion r r := ⟨rfl, rfl, rfl, rfl⟩

theorem SameRegion.trans {r s t : Ring} (h : SameRegion r s) (k : SameRegion s t) : SameRegion r t :=
  ⟨k.base.trans h.base, k.size.trans h.size, k.minGrant.trans h.minGrant, k.maxGrant.trans h.maxGrant⟩

theorem SameRegion.settled {r s : Ring} (h : SameRegion r s) : SameRegion r s.settled := by
  unfold Ring.settled
  split
  · exact ⟨h.base, h.size, h.minGrant, h.maxGrant⟩
  · exact h

variable {r : Ring} {live : List Grant} {newest : Bool}

/-! ## What a layout says about the grants -/

theorem Shape.outstanding (h : Shape r live newest) : r.outstanding = totalWords live := by
  cases h <;> assumption

theorem Shape.totalWords_le (h : Shape r live newest) : totalWords live ≤ r.size := by
  cases h with
  | straight htail hchain hhead hskip hout =>
    have := hchain.totalWords
    omega
  | wrapped htail hold hstop hyoung hhead hnewest hout =>
    have := hold.totalWords
    have := hyoung.totalWords
    rw [totalWords_append]
    omega

theorem Shape.head_le (h : Shape r live newest) : r.head ≤ r.size := by
  cases h with
  | straight htail hchain hhead hskip hout => exact hhead
  | wrapped htail hold hstop hyoung hhead hnewest hout =>
    have := hold.totalWords
    omega

/-- Every live grant lies inside the region and is not empty. -/
theorem Shape.inside (h : Shape r live newest) {g : Grant} (hg : g ∈ live) :
    ∃ o, g.At r.base o ∧ o + g.words ≤ r.size := by
  cases h with
  | straight htail hchain hhead hskip hout =>
    obtain ⟨o, ho, _, h2⟩ := hchain.mem hg
    exact ⟨o, ho, by omega⟩
  | wrapped htail hold hstop hyoung hhead hnewest hout =>
    have := hold.totalWords
    rcases List.mem_append.1 hg with hg | hg
    · obtain ⟨o, ho, _, h2⟩ := hold.mem hg
      exact ⟨o, ho, by omega⟩
    · obtain ⟨o, ho, _, h2⟩ := hyoung.mem hg
      exact ⟨o, ho, by omega⟩

theorem Shape.separate (h : Shape r live newest) : live.Pairwise (Separate r.base r.size) := by
  cases h with
  | straight htail hchain hhead hskip hout => exact hchain.separate hhead
  | wrapped htail hold hstop hyoung hhead hnewest hout =>
    have := hold.totalWords
    refine List.pairwise_append.2 ⟨hold.separate (by omega), hyoung.separate (by omega), ?_⟩
    -- the old grants start at the tail, where the young ones have to stop
    intro g hg k hk
    obtain ⟨o, ho, h1, h2⟩ := hold.mem hg
    obtain ⟨p, hp, h3, h4⟩ := hyoung.mem hk
    exact ⟨o, p, ho, hp, by omega, by omega, .inr (by omega)⟩

theorem Layout.outstanding (h : Layout r live newest) : r.outstanding = totalWords live := by
  cases h with
  | empty hhead htail hskip hout => exact hout
  | filled hne h => exact h.outstanding

theorem Layout.outstanding_le (h : Layout r live newest) : r.outstanding ≤ r.size := by
  cases h with
  | empty hhead htail hskip hout => omega
  | filled hne h => exact h.outstanding ▸ h.totalWords_le

theorem Layout.inside (h : Layout r live newest) {g : Grant} (hg : g ∈ live) :
    ∃ o, g.At r.base o ∧ o + g.words ≤ r.size := by
  cases h with
  | empty hhead htail hskip hout => cases hg
  | filled hne h => exact h.inside hg

theorem Layout.separate (h : Layout r live newest) : live.Pairwise (Separate r.base r.size) := by
  cases h with
  | empty hhead htail hskip hout => exact .nil
  | filled hne h => exact h.separate

theorem totalWords_pos (hne : live ≠ []) (h : ∀ g ∈ live, 0 < g.words) : 0 < totalWords live := by
  cases live with
  | nil => exact absurd rfl hne
  | cons g gs =>
    have := h g List.mem_cons_self
    rw [totalWords_cons]
    omega

theorem Shape.outstanding_pos (hne : live ≠ []) (h : Shape r live newest) : 0 < r.outstanding := by
  rw [h.outstanding]
  apply totalWords_pos hne
  intro g hg
  obtain ⟨_, ho, _⟩ := h.inside hg
  exact ho.2

theorem Layout.eq_nil (h : Layout r live newest) (hout : r.outstanding = 0) : live = [] := by
  cases h with
  | empty hhead htail hskip hout => rfl
  | filled hne h =>
    have := h.outstanding_pos hne
    omega

/-- The cursors of a ring that became empty go back to the base. -/
theorem Shape.settled (h : Shape r live newest) (hn : live = [] → newest = false) :
    Layout r.settled live newest := by
  unfold Ring.settled
  by_cases hne : live = []
  · subst hne
    have h0 : r.outstanding = 0 := h.outstanding
    rw [hn rfl, if_pos h0]
    exact .empty rfl rfl rfl h0
  · rw [if_neg (by have := h.outstanding_pos hne; omega)]
    exact .filled hne h

/-- In a layout the cursors of an empty ring are back already. -/
theorem Layout.settled_eq (h : Layout r live newest) : r.settled = r := by
  unfold Ring.settled
  cases h with
  | empty hhead htail hskip hout =>
    rw [if_pos hout]
    cases r
    cases hhead; cases htail; cases hskip
    rfl
  | filled hne h => rw [if_neg (by have := h.outstanding_pos hne; omega)]

/-- Where the newest grant is known something is live. -/
theorem Layout.shape (h : Layout r live true) : Shape r live true := by
  cases h with
  | filled hne h => exact h

/-- That a grant is the newest one may be forgotten. -/
theorem Shape.weaken (h : Shape r live newest) {n : Bool} (hn : n = true → newest = true) :
    Shape r live n := by
  cases h with
  | straight htail hchain hhead hskip hout => exact .straight htail hchain hhead hskip hout
  | wrapped htail hold hstop hyoung hhead hnewest hout =>
    exact .wrapped htail hold hstop hyoung hhead (fun h => hnewest (hn h)) hout

theorem Layout.forget (h : Layout r live newest) : Layout r live false := by
  cases h with
  | empty hhead htail hskip hout => exact .empty hhead htail hskip hout
  | filled hne h => exact .filled hne (h.weaken (by simp))

/-- A ring without live grants is as good as new. -/
theorem Layout.cursors (h : Layout r [] newest) :
    r.head = 0 ∧ r.tail = none ∧ r.skipped = 0 ∧ r.outstanding = 0 := by
  cases h with
  | empty hhead htail hskip hout => exact ⟨hhead, htail, hskip, hout⟩
  | filled hne h => exact absurd rfl hne

end CommandPool
