import CommandPool.Proofs.Ring.Client
/-!
# Callers that keep no order

A caller may name any region and any number of words, in any order. The ring keeps cursors, not
grants, so it cannot tell all such calls from the right ones. What it does promise is here.

A refused call leaves the ring as it was and a lack of room is counted, except that a refused
release may forget the skipped words (`refused_call`); after that the oldest grant cannot be
released any more (`release_after_refusal`).

A grant lies inside the region as long as no accepted release carries the tail out of it
(`granted_inside`), which one with too many words does (`granted_outside`).
-/
namespace CommandPool

namespace Ring

/-- Whatever a caller can ask of a ring. -/
inductive Call where
  | attach (base : Address) (size : Nat)
  | detach
  | acquire (wanted : Nat)
  | shrink (region : Address) (used granted : Nat)
  | release (region : Address) (words : Nat)
deriving DecidableEq, Repr

/-- An acquire is answered with its grant, the other calls with nothing. -/
def answer : Call → Ring → Outcome Ring (Option Grant)
  | .attach base size => EStateM.map (fun _ => none) (attach base size)
  | .detach => EStateM.map (fun _ => none) detach
  | .acquire wanted => EStateM.map (fun a => some a.grant) (acquire wanted)
  | .shrink region used granted => EStateM.map (fun _ => none) (shrink region used granted)
  | .release region words => EStateM.map (fun _ => none) (release region words)

/-- A call that found no room is counted. -/
def stalled (r : Ring) : Ring := { r with stats := { r.stats with stalls := r.stats.stalls + 1 } }

/-- The skipped words are forgotten. -/
def unskipped (r : Ring) : Ring := { r with skipped := 0 }

/-- The tail rests on the words that were skipped. -/
def OnSkip (r : Ring) : Prop := ∃ tail, r.tail = some tail ∧ tail + r.skipped = r.size

/-- A release of words that are outstanding, at a moment when the tail rests on the skipped ones:
these are repaid before the region is looked at. -/
def Call.RepaysSkip (q : Call) (r : Ring) : Prop :=
  ∃ region words, q = .release region words ∧ words ≤ r.outstanding ∧ r.OnSkip

variable {r r' : Ring} {e : Refusal}

/-! ## Refusals, call by call -/

theorem map_eq_error {α β : Type} {g : α → β} {x : Ring → Outcome Ring α} {f : Failure} :
    EStateM.map g x r = .error f r' ↔ x r = .error f r' := by
  unfold EStateM.map
  cases x r <;> simp

theorem attach_refused {base : Address} {size : Nat} (h : r.attach base size = .error (.refused e) r') :
    e ≠ .insufficient ∧ r' = r := by
  unfold attach at h
  split at h
  · cases h
    exact ⟨by simp, rfl⟩
  split at h <;> cases h
  exact ⟨by simp [ConfigDefect.refusal], rfl⟩

theorem detach_refused (h : r.detach = .error (.refused e) r') : e ≠ .insufficient ∧ r' = r := by
  unfold detach at h
  split at h
  · cases h
    exact ⟨by simp, rfl⟩
  split at h <;> cases h
  exact ⟨by simp, rfl⟩

theorem shrink_refused {region : Address} {used granted : Nat}
    (h : r.shrink region used granted = .error (.refused e) r') : e ≠ .insufficient ∧ r' = r := by
  unfold shrink at h
  split at h
  · cases h
    exact ⟨by simp, rfl⟩
  split at h
  · cases h
  simp only at h
  split at h
  · cases h
  split at h
  · cases h
    exact ⟨by simp, rfl⟩
  split at h <;> cases h

/-- An empty ring has a place for every grant. -/
theorem settled_eq_of_place_error {wanted : Nat} {f : Failure} (h : r.settled.place wanted = .error f) :
    r.settled = r := by
  unfold settled at h ⊢
  split
  · rw [if_pos ‹_›, place, restarted] at h
    cases h
  · rfl

theorem place_refused {wanted : Nat} (h : r.place wanted = .error (.refused e)) :
    e = .insufficient := by
  unfold place at h
  split at h
  · cases h
  split at h
  · split at h <;> cases h
    rfl
  split at h
  · cases h
  split at h
  · cases h
  split at h <;> cases h
  rfl

theorem grant_not_refused {words : Nat} {skip : Option Skip} :
    r.grant words skip ≠ .error (.refused e) r' := by
  unfold grant
  split <;> simp [overflow]

theorem acquire_refused {wanted : Nat} (h : r.acquire wanted = .error (.refused e) r') :
    r' = if e = .insufficient then r.stalled else r := by
  unfold acquire at h
  simp only at h
  split at h
  · cases h
    rfl
  split at h
  · cases h
    rfl
  split at h
  · exact absurd h grant_not_refused
  · rename_i hp
    rw [settled_eq_of_place_error hp] at h
    cases h
    rw [if_pos (place_refused hp)]
    rfl
  · cases h

theorem place_stalled {wanted : Nat} {f : Failure} (h : r.place wanted = .error f) :
    r.stalled.place wanted = .error f := by
  unfold place at h ⊢
  cases htail : r.tail with
  | none =>
    rw [htail] at h
    cases h
  | some tail =>
    simp only [htail, stalled] at h ⊢
    by_cases hbehind : r.head < tail ∨ r.head = tail ∧ 0 < r.outstanding
    · rw [if_pos hbehind] at h ⊢
      split at h
      · rw [if_pos ‹_›]
        exact h
      · cases h
    rw [if_neg hbehind] at h ⊢
    split at h
    · rw [if_pos ‹_›]
      exact h
    rw [if_neg ‹_›]
    split at h
    · cases h
    rw [if_neg ‹_›]
    split at h
    · rw [if_pos ‹_›]
      exact h
    · cases h

/-- What found no room finds none again. -/
theorem acquire_again {wanted : Nat} (h : r.acquire wanted = .error (.refused .insufficient) r') :
    ∃ r'', r'.acquire wanted = .error (.refused .insufficient) r'' := by
  obtain rfl := acquire_refused h
  have hsettled : r.stalled.settled = r.settled.stalled := by
    unfold settled
    by_cases hout : r.outstanding = 0
    · rw [if_pos hout, if_pos (by exact hout)]
      rfl
    · rw [if_neg hout, if_neg (by exact hout)]
  unfold acquire at h
  simp only at h
  split at h
  · cases h
  rename_i hattached
  split at h
  · cases h
  rename_i hfits
  split at h
  · exact absurd h grant_not_refused
  · rename_i hp
    obtain rfl := place_refused hp
    have hagain : r.settled.stalled.place (max wanted r.stalled.minGrant) =
        .error (.refused .insufficient) := place_stalled hp
    simp only [if_true, acquire]
    rw [if_neg (by exact hattached), if_neg (by exact hfits), hsettled, hagain]
    exact ⟨_, rfl⟩
  · cases h

theorem retreat_not_refused {tail words : Nat} :
    r.retreat tail words ≠ .error (.refused e) r' := by
  unfold retreat
  split <;> simp [overflow]

theorem release_refused {region : Address} {words : Nat}
    (h : r.release region words = .error (.refused e) r') :
    e ≠ .insufficient ∧ (words ≤ r.outstanding → r.OnSkip → r' = r.unskipped) ∧
      (¬ (words ≤ r.outstanding ∧ r.OnSkip) → r' = r) := by
  cases htail : r.tail with
  | none =>
    simp only [release, htail, refuse] at h
    cases h
    exact ⟨by simp, by simp [OnSkip, htail], fun _ => rfl⟩
  | some tail =>
    have hskip : r.OnSkip ↔ tail + r.skipped = r.size := by simp [OnSkip, htail]
    by_cases hle : words ≤ r.outstanding
    · by_cases hreach : tail + r.skipped < Counter.bound
      · rw [release_eq htail hle hreach] at h
        split at h
        · cases h
          rw [hskip, repaid]
          exact ⟨by simp, fun _ hon => if_pos hon, fun hoff => if_neg fun hon => hoff ⟨hle, hon⟩⟩
        · exact absurd h retreat_not_refused
      · simp [release, htail, Nat.not_lt.2 hle, Counter.add, hreach, overflow] at h
    · simp only [release, htail, if_pos (Nat.lt_of_not_le hle), refuse] at h
      cases h
      exact ⟨by simp, fun hle' => absurd hle' hle, fun _ => rfl⟩

/-- A release that is accepted moves the tail of the repaid ring. -/
theorem retreat_of_release {region : Address} {words : Nat} (h : r.release region words = .ok () r') :
    ∃ tail, (repaid r tail).retreat (repaidTail r tail) words = .ok () r' := by
  cases htail : r.tail with
  | none => simp [release, htail, refuse] at h
  | some tail =>
    by_cases hle : words ≤ r.outstanding
    · by_cases hreach : tail + r.skipped < Counter.bound
      · rw [release_eq htail hle hreach] at h
        split at h
        · cases h
        · exact ⟨tail, h⟩
      · simp [release, htail, Nat.not_lt.2 hle, Counter.add, hreach, overflow] at h
    · simp [release, htail, Nat.lt_of_not_le hle, refuse] at h

/-! ## What a refused call leaves -/

/-- **Refusals.** A refused call leaves the ring as it was, but for two things: a lack of room is
counted, and a release forgets the skipped words if the tail rests on them. -/
theorem refused_call {q : Call} (h : r.answer q = .error (.refused e) r') :
    (e = .insufficient → (∃ wanted, q = .acquire wanted) ∧ r' = r.stalled) ∧
      (q.RepaysSkip r → r' = r.unskipped) ∧ (e ≠ .insufficient → ¬ q.RepaysSkip r → r' = r) := by
  cases q with
  | attach base size =>
    obtain ⟨he, rfl⟩ := attach_refused (map_eq_error.1 h)
    exact ⟨fun h0 => absurd h0 he, by simp [Call.RepaysSkip], fun _ _ => rfl⟩
  | detach =>
    obtain ⟨he, rfl⟩ := detach_refused (map_eq_error.1 h)
    exact ⟨fun h0 => absurd h0 he, by simp [Call.RepaysSkip], fun _ _ => rfl⟩
  | acquire wanted =>
    obtain rfl := acquire_refused (map_eq_error.1 h)
    exact ⟨fun he => ⟨⟨wanted, rfl⟩, if_pos he⟩, by simp [Call.RepaysSkip], fun he _ => if_neg he⟩
  | shrink region used granted =>
    obtain ⟨he, rfl⟩ := shrink_refused (map_eq_error.1 h)
    exact ⟨fun h0 => absurd h0 he, by simp [Call.RepaysSkip], fun _ _ => rfl⟩
  | release region words =>
    obtain ⟨he, hon, hoff⟩ := release_refused (map_eq_error.1 h)
    refine ⟨fun h0 => absurd h0 he, ?_, fun _ hq => hoff fun hskip => hq ⟨_, _, rfl, hskip⟩⟩
    rintro ⟨_, _, hq, hle, hskip⟩
    cases hq
    exact hon hle hskip

/-- The tail rests on one skipped word when a release of the wrong region is refused: the skip is
forgotten. -/
theorem refused_call_on_skip :
    let r : Ring := ⟨2, 5, ⟨0x1000⟩, 8, 5, some 7, 1, 5, ⟨3, 1, 0, 2, 8⟩⟩
    let q : Call := .release ⟨0x1010⟩ 1
    ∃ r', r.answer q = .error (.refused (.outOfOrderRelease ⟨0x1010⟩ ⟨0x1000⟩)) r' ∧
      q.RepaysSkip r ∧ r' = r.unskipped ∧ r' ≠ r := by
  intro r q
  have hq : q.RepaysSkip r := ⟨_, _, rfl, by decide, 7, rfl, rfl⟩
  exact ⟨_, rfl, hq, (refused_call rfl).2.1 hq, by decide⟩

/-- A caller in order gets to such a state, with one live grant. Its release would have been
accepted; after the refused release of another region it is refused too. -/
theorem release_after_refusal :
    let c : Config := ⟨2, 5, 2, 4⟩
    let s := (Client.start c ⟨0x1000⟩ 8).run
      [.acquire 4, .acquire 2, .shrink 2, .release, .acquire 3, .release]
    c.validate = .ok () ∧ s.live = [⟨⟨0x1000⟩, 5⟩] ∧
      (∃ r, s.ring.release ⟨0x1000⟩ 5 = .ok () r) ∧
      ∃ r, s.ring.release ⟨0x1010⟩ 1 = .error (.refused (.outOfOrderRelease ⟨0x1010⟩ ⟨0x1000⟩)) r ∧
        r ≠ s.ring ∧
        r.release ⟨0x1000⟩ 5 = .error (.refused (.outOfOrderRelease ⟨0x1000⟩ ⟨0x101c⟩)) r :=
  ⟨rfl, by decide, ⟨_, rfl⟩, _, rfl, by decide, rfl⟩

/-! ## Grants to callers that keep no order -/

/-- The tail is not past the end of the region. -/
def TailInside (r : Ring) : Prop := ∀ tail, r.tail = some tail → tail ≤ r.size

/-- The rings that any sequence of calls leads to once `base`, `size` is attached, as long as no call
panics and no release that is accepted carries the tail out of the region. -/
inductive Handled (c : Config) (base : Address) (size : Nat) : Ring → Prop where
  | attach {r : Ring} (h : (ofConfig c).attach base size = .ok () r) : Handled c base size r
  | acquire {r r' : Ring} {a : Acquired} (hr : Handled c base size r) (wanted : Nat)
      (h : r.acquire wanted = .ok a r') : Handled c base size r'
  | shrink {r r' : Ring} (hr : Handled c base size r) (region : Address) (used granted : Nat)
      (h : r.shrink region used granted = .ok () r') : Handled c base size r'
  | release {r r' : Ring} (hr : Handled c base size r) (region : Address) (words : Nat)
      (h : r.release region words = .ok () r') (htail : r'.TailInside) : Handled c base size r'
  | refused {r r' : Ring} {e : Refusal} (hr : Handled c base size r) (q : Call)
      (h : r.answer q = .error (.refused e) r') : Handled c base size r'

/-- Both cursors are in the region `base`, `size`. -/
structure Inside (base : Address) (size : Nat) (r : Ring) : Prop where
  base_eq : r.base = base
  size_eq : r.size = size
  head_le : r.head ≤ size
  tail : r.TailInside
  head_eq : r.tail = none → r.head = 0

variable {base : Address} {size : Nat}

theorem Inside.settled (h : Inside base size r) : Inside base size r.settled := by
  unfold Ring.settled
  split
  · exact ⟨h.base_eq, h.size_eq, Nat.zero_le _, by simp [TailInside, restarted], fun _ => rfl⟩
  · exact h

/-- Wherever a place is found, its room is in the region. -/
theorem Inside.place {wanted : Nat} {p : Place} (h : Inside base size r)
    (hp : r.place wanted = .ok p) :
    Inside base size p.ring ∧ p.ring.tail ≠ none ∧ p.ring.head + p.room ≤ size := by
  obtain ⟨rfl, rfl, hhead, htail, hnone⟩ := h
  cases ht : r.tail with
  | none =>
    simp only [Ring.place, ht] at hp
    cases hp
    refine ⟨⟨rfl, rfl, hhead, ?_, by simp⟩, by simp, by simp [hnone ht]⟩
    rintro tail ⟨⟩
    exact hhead
  | some tail =>
    have hle := htail tail ht
    have hne : r.tail ≠ none := by simp [ht]
    simp only [Ring.place, ht] at hp
    split at hp
    · split at hp <;> cases hp
      exact ⟨⟨rfl, rfl, hhead, htail, hnone⟩, hne, by simp only; omega⟩
    split at hp
    · cases hp
    split at hp
    · cases hp
      exact ⟨⟨rfl, rfl, hhead, htail, hnone⟩, hne, by simp only; omega⟩
    · split at hp <;> cases hp
      refine ⟨⟨rfl, rfl, Nat.zero_le _, htail, fun _ => rfl⟩, hne, ?_⟩
      simp only [wrapped]
      omega

theorem Inside.acquire {wanted : Nat} {a : Acquired} (h : Inside base size r)
    (ha : r.acquire wanted = .ok a r') : Inside base size r' ∧
      ∃ o, a.grant.start = base.addWords o ∧ o + a.grant.words ≤ size := by
  obtain ⟨-, p, hp, hg⟩ := acquire_ok ha
  obtain ⟨⟨hbase, hsize, hhead, htail, _⟩, hne, hroom⟩ := h.settled.place hp
  obtain ⟨hgrant, stats, rfl⟩ := grant_ok hg
  have hend : p.ring.head + min p.room r.settled.maxGrant ≤ size := by omega
  refine ⟨⟨hbase, hsize, hend, htail, fun hnone => absurd hnone hne⟩, p.ring.head, ?_, ?_⟩
  · rw [hgrant, ← hbase]
    rfl
  · rw [hgrant]
    exact hend

theorem Inside.shrink {region : Address} {used granted : Nat} (h : Inside base size r)
    (hr : r.shrink region used granted = .ok () r') : Inside base size r' := by
  unfold Ring.shrink at hr
  split at hr
  · cases hr
  rename_i hlt
  split at hr
  · cases hr
    exact h
  simp only at hr
  split at hr
  · cases hr
  rename_i stop hstop
  split at hr
  · cases hr
  rename_i hhead
  split at hr
  · cases hr
  · cases hr
    -- the head goes back, to the words that are kept
    have hback : r.offset region + used ≤ r.head := by
      have := (Counter.add_eq_ok_iff.1 hstop).2
      omega
    refine Inside.settled ⟨h.base_eq, h.size_eq, Nat.le_trans hback h.head_le, h.tail, ?_⟩
    intro hnone
    exact Nat.le_zero.1 (h.head_eq hnone ▸ hback)

theorem Inside.repaid (h : Inside base size r) (tail : Nat) : Inside base size (repaid r tail) := by
  unfold CommandPool.repaid
  split
  · exact ⟨h.base_eq, h.size_eq, h.head_le, h.tail, h.head_eq⟩
  · exact h

theorem Inside.retreat {tail words : Nat} (h : Inside base size r)
    (hr : r.retreat tail words = .ok () r') (htail : r'.TailInside) : Inside base size r' := by
  unfold Ring.retreat at hr
  split at hr <;> cases hr
  unfold Ring.settled at htail ⊢
  split at htail
  · rw [if_pos ‹_›]
    exact ⟨h.base_eq, h.size_eq, Nat.zero_le _, htail, fun _ => rfl⟩
  · rw [if_neg ‹_›]
    exact ⟨h.base_eq, h.size_eq, h.head_le, htail, by simp⟩

theorem Inside.release {region : Address} {words : Nat} (h : Inside base size r)
    (hr : r.release region words = .ok () r') (htail : r'.TailInside) : Inside base size r' := by
  obtain ⟨tail, hrest⟩ := retreat_of_release hr
  exact (h.repaid tail).retreat hrest htail

theorem Inside.refused {q : Call} (h : Inside base size r) (hr : r.answer q = .error (.refused e) r') :
    Inside base size r' := by
  cases q with
  | attach _ _ => exact (attach_refused (map_eq_error.1 hr)).2 ▸ h
  | detach => exact (detach_refused (map_eq_error.1 hr)).2 ▸ h
  | shrink _ _ _ => exact (shrink_refused (map_eq_error.1 hr)).2 ▸ h
  | acquire _ =>
    obtain rfl := acquire_refused (map_eq_error.1 hr)
    split
    · exact ⟨h.base_eq, h.size_eq, h.head_le, h.tail, h.head_eq⟩
    · exact h
  | release region words =>
    obtain ⟨_, hon, hoff⟩ := release_refused (map_eq_error.1 hr)
    by_cases hskip : words ≤ r.outstanding ∧ r.OnSkip
    · obtain rfl := hon hskip.1 hskip.2
      exact ⟨h.base_eq, h.size_eq, h.head_le, h.tail, h.head_eq⟩
    · obtain rfl := hoff hskip
      exact h

theorem Handled.inside {c : Config} (h : Handled c base size r) : Inside base size r := by
  induction h with
  | attach h =>
    obtain ⟨rfl, _⟩ := attach_spec h
    exact ⟨rfl, rfl, Nat.zero_le _, by simp [TailInside, restarted], fun _ => rfl⟩
  | acquire _ _ h ih => exact (ih.acquire h).1
  | shrink _ _ _ _ h ih => exact ih.shrink h
  | release _ _ _ h htail ih => exact ih.release h htail
  | refused _ _ h ih => exact ih.refused h

/-- **Confinement.** Whatever was called before, with whatever arguments, a grant is a range of words
inside the region. -/
theorem granted_inside {c : Config} (hr : Handled c base size r) {wanted : Nat} {a : Acquired}
    (h : r.acquire wanted = .ok a r') :
    a.grant.start = base.addWords (a.grant.offset base) ∧
      a.grant.offset base + a.grant.words ≤ size := by
  obtain ⟨-, o, hstart, hle⟩ := hr.inside.acquire h
  have hoff := Address.wordsSince_addWords_le base o
  rw [Grant.offset, hstart, Address.addWords_wordsSince_addWords]
  exact ⟨rfl, by omega⟩

/-- A shrink of the wrong region is refused. Releases of too few and of too many words are accepted,
and move the tail into the middle of a grant. The grant asked for then takes in words of a live one,
but none past the end. -/
theorem granted_inside_overlapping :
    let r : Ring := ⟨2, 6, ⟨0x1000⟩, 10, 3, some 8, 0, 5, ⟨3, 1, 0, 2, 10⟩⟩
    Handled ⟨2, 6, 2, 4⟩ ⟨0x1000⟩ 10 r ∧ ∃ a r', r.acquire 4 = .ok a r' ∧ a.grant = ⟨⟨0x100c⟩, 5⟩ ∧
      a.grant.start = Address.addWords ⟨0x1000⟩ (a.grant.offset ⟨0x1000⟩) ∧
        a.grant.offset ⟨0x1000⟩ + a.grant.words ≤ 10 := by
  intro r
  have h1 : Handled ⟨2, 6, 2, 4⟩ ⟨0x1000⟩ 10 ⟨2, 6, ⟨0x1000⟩, 10, 0, none, 0, 0, ⟨0, 0, 0, 0, 0⟩⟩ :=
    .attach rfl
  have h2 : Handled ⟨2, 6, 2, 4⟩ ⟨0x1000⟩ 10 ⟨2, 6, ⟨0x1000⟩, 10, 6, some 0, 0, 6, ⟨1, 0, 0, 0, 6⟩⟩ :=
    h1.acquire 6 rfl
  have h3 : Handled ⟨2, 6, 2, 4⟩ ⟨0x1000⟩ 10 ⟨2, 6, ⟨0x1000⟩, 10, 6, some 0, 0, 6, ⟨1, 0, 0, 0, 6⟩⟩ :=
    h2.refused (.shrink ⟨0x1004⟩ 1 6) rfl
  have h4 : Handled ⟨2, 6, 2, 4⟩ ⟨0x1000⟩ 10 ⟨2, 6, ⟨0x1000⟩, 10, 6, some 3, 0, 3, ⟨1, 0, 0, 1, 6⟩⟩ :=
    h3.release ⟨0x1000⟩ 3 rfl (by simp [TailInside])
  have h5 : Handled ⟨2, 6, 2, 4⟩ ⟨0x1000⟩ 10 ⟨2, 6, ⟨0x1000⟩, 10, 10, some 3, 0, 7, ⟨2, 0, 0, 1, 7⟩⟩ :=
    h4.acquire 4 rfl
  have h6 : Handled ⟨2, 6, 2, 4⟩ ⟨0x1000⟩ 10 ⟨2, 6, ⟨0x1000⟩, 10, 3, some 3, 0, 10, ⟨3, 1, 0, 1, 10⟩⟩ :=
    h5.acquire 2 rfl
  have h7 : Handled ⟨2, 6, 2, 4⟩ ⟨0x1000⟩ 10 r :=
    h6.release ⟨0x100c⟩ 5 rfl (by simp [TailInside, r])
  have ha : r.acquire 4 = .ok ⟨⟨⟨0x100c⟩, 5⟩, none⟩
      ⟨2, 6, ⟨0x1000⟩, 10, 8, some 8, 0, 10, ⟨4, 1, 0, 2, 10⟩⟩ := rfl
  exact ⟨h7, _, _, ha, rfl, granted_inside h7 ha⟩

/-- A release of nine words where the oldest grant has four is accepted, since ten are outstanding.
It carries the tail five words past the end of the region, and the next grant two. -/
theorem granted_outside :
    let c : Config := ⟨2, 6, 2, 4⟩
    let calls : EStateM Failure Ring Acquired := do
      attach ⟨0x1000⟩ 10
      let _ ← acquire 6
      let _ ← acquire 4
      release ⟨0x1000⟩ 6
      let _ ← acquire 2
      release ⟨0x1018⟩ 9
      acquire 2
    c.validate = .ok () ∧ ∃ a r, calls (ofConfig c) = .ok a r ∧ r.size = 10 ∧
      10 < a.grant.offset ⟨0x1000⟩ + a.grant.words :=
  ⟨rfl, _, _, rfl, rfl, by decide⟩

end Ring

end CommandPool
