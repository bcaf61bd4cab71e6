import CommandPool.Proofs.Ring.Misuse
/-!
# A ring wherever it is mapped

The ring works on offsets; an address is taken apart where it comes in and put together where it goes
out. So where the region lies makes no difference. Take two rings whose bases are `d` bytes apart and ask
the second one for the same as the first, each address `d` bytes further: they answer the same, each
address `d` bytes further, and stay as far apart as they were (`answer_moved`). Runs of calls follow by
induction (`replies_moved`, `relocated_run`).

Addresses wrap around, so `d` is any distance: a region may go around the top of the address space, and
an address that is given need not be one of a word. Only giving the region up tells where it was, since
a ring without one has no base.
-/
namespace CommandPool

/-! ## What an address occurs in, moved -/

def Grant.moved (d : Nat) (g : Grant) : Grant := { g with start := g.start.addBytes d }

def Skip.moved (d : Nat) (s : Skip) : Skip := { s with start := s.start.addBytes d }

def Acquired.moved (d : Nat) (a : Acquired) : Acquired :=
  ⟨a.grant.moved d, a.skip.map (Skip.moved d)⟩

def Refusal.moved (d : Nat) : Refusal → Refusal
  | .outOfOrderRelease region expected =>
    .outOfOrderRelease (region.addBytes d) (expected.addBytes d)
  | .outOfOrderShrink region => .outOfOrderShrink (region.addBytes d)
  | .displayListMismatch supplied active =>
    .displayListMismatch (supplied.addBytes d) (active.addBytes d)
  | e => e

def Fault.moved (d : Nat) : Fault → Fault
  | .overflow o => .overflow o
  | .badAccess a => .badAccess (a.addBytes d)
  | .outsideWindow a => .outsideWindow (a.addBytes d)

def Failure.moved (d : Nat) : Failure → Failure
  | .refused e => .refused (e.moved d)
  | .fault f => .fault (f.moved d)

namespace Ring

/-- The same ring, its region mapped `d` bytes further. -/
def moved (d : Nat) (r : Ring) : Ring := { r with base := r.base.addBytes d }

def Place.moved (d : Nat) (p : Place) : Place :=
  ⟨p.ring.moved d, p.room, p.skip.map (Skip.moved d)⟩

def Call.moved (d : Nat) : Call → Call
  | .attach base size => .attach (base.addBytes d) size
  | .shrink region used granted => .shrink (region.addBytes d) used granted
  | .release region words => .release (region.addBytes d) words
  | q => q

/-- The outcome at a ring that is mapped `d` bytes further; `f` moves the answer. -/
def outcomeMoved {α : Type} (d : Nat) (f : α → α) : Outcome Ring α → Outcome Ring α
  | .ok a r => .ok (f a) (r.moved d)
  | .error e r => .error (e.moved d) (r.moved d)

variable {d : Nat} {r : Ring}

@[simp] theorem moved_minGrant (d : Nat) (r : Ring) : (r.moved d).minGrant = r.minGrant := rfl

@[simp] theorem moved_maxGrant (d : Nat) (r : Ring) : (r.moved d).maxGrant = r.maxGrant := rfl

@[simp] theorem moved_size (d : Nat) (r : Ring) : (r.moved d).size = r.size := rfl

@[simp] theorem moved_head (d : Nat) (r : Ring) : (r.moved d).head = r.head := rfl

@[simp] theorem moved_tail (d : Nat) (r : Ring) : (r.moved d).tail = r.tail := rfl

@[simp] theorem moved_skipped (d : Nat) (r : Ring) : (r.moved d).skipped = r.skipped := rfl

@[simp] theorem moved_outstanding (d : Nat) (r : Ring) : (r.moved d).outstanding = r.outstanding := rfl

@[simp] theorem isAttached_moved (d : Nat) (r : Ring) : (r.moved d).IsAttached ↔ r.IsAttached := Iff.rfl

/-- The address of an offset is `d` bytes further. -/
@[simp] theorem address_moved (d : Nat) (r : Ring) (o : Nat) :
    (r.moved d).address o = (r.address o).addBytes d :=
  Address.addBytes_addWords ..

/-- The address that is `d` bytes further has the same offset. -/
@[simp] theorem offset_moved (d : Nat) (r : Ring) (a : Address) :
    (r.moved d).offset (a.addBytes d) = r.offset a :=
  Address.wordsSince_addBytes ..

/-! ## Each call -/

theorem settled_moved (d : Nat) (r : Ring) : (r.moved d).settled = r.settled.moved d := by
  unfold settled
  rw [moved_outstanding, apply_ite (moved d)]
  rfl

theorem attach_moved (d : Nat) (r : Ring) (base : Address) (size : Nat) :
    (r.moved d).attach (base.addBytes d) size = outcomeMoved d id (r.attach base size) := by
  unfold attach
  simp only [isAttached_moved, apply_ite (outcomeMoved d id)]
  rfl

theorem place_moved (d : Nat) (r : Ring) (wanted : Nat) : (r.moved d).place wanted =
    match r.place wanted with
    | .ok p => .ok (p.moved d)
    | .error f => .error (f.moved d) := by
  cases htail : r.tail with
  | none =>
    simp only [place, moved_tail, htail]
    rfl
  | some tail =>
    simp only [place, moved_tail, htail, moved_head, moved_outstanding, moved_size, address_moved]
    by_cases hbehind : r.head < tail ∨ r.head = tail ∧ 0 < r.outstanding
    · by_cases hroom : tail - r.head < wanted
      · simp only [hbehind, hroom, if_true]
        rfl
      · simp only [hbehind, hroom, if_true, if_false]
        rfl
    by_cases hsize : r.size < r.head
    · simp only [if_neg hbehind, if_pos hsize]
      rfl
    by_cases hfits : wanted ≤ r.size - r.head
    · simp only [if_neg hbehind, if_neg hsize, if_pos hfits]
      rfl
    by_cases hbase : tail < wanted
    · simp only [if_neg hbehind, if_neg hsize, if_neg hfits, if_pos hbase]
      rfl
    · simp only [if_neg hbehind, if_neg hsize, if_neg hfits, if_neg hbase]
      rfl

theorem grant_moved (d : Nat) (r : Ring) (words : Nat) (skip : Option Skip) :
    (r.moved d).grant words (skip.map (Skip.moved d)) =
      outcomeMoved d (Acquired.moved d) (r.grant words skip) := by
  simp only [grant, moved_head, moved_outstanding, address_moved]
  cases Counter.add r.head words <;> cases Counter.add r.outstanding words <;> rfl

theorem acquire_moved (d : Nat) (r : Ring) (wanted : Nat) :
    (r.moved d).acquire wanted = outcomeMoved d (Acquired.moved d) (r.acquire wanted) := by
  simp only [acquire, isAttached_moved, moved_minGrant, moved_size, settled_moved, place_moved, moved_maxGrant]
  by_cases hattached : r.IsAttached
  · by_cases hlarge : r.size < max wanted r.minGrant
    · simp only [not_not_intro hattached, if_false, if_pos hlarge]
      rfl
    simp only [not_not_intro hattached, if_false, if_neg hlarge]
    cases r.settled.place (max wanted r.minGrant) with
    | ok p => exact grant_moved ..
    | error f => cases f <;> rfl
  · simp only [if_pos hattached]
    rfl

theorem shrink_moved (d : Nat) (r : Ring) (region : Address) (used granted : Nat) :
    (r.moved d).shrink (region.addBytes d) used granted =
      outcomeMoved d id (r.shrink region used granted) := by
  simp only [shrink, offset_moved, moved_head, moved_outstanding]
  by_cases hlarger : granted < used
  · simp only [if_pos hlarger]
    rfl
  by_cases hall : used = granted
  · simp only [if_neg hlarger, if_pos hall]
    rfl
  simp only [if_neg hlarger, if_neg hall]
  cases Counter.add (r.offset region) granted with
  | error o => rfl
  | ok stop =>
    by_cases hhead : r.head = stop
    · simp only [hhead, ne_eq, not_true_eq_false, if_false]
      cases Counter.sub r.outstanding (granted - used) with
      | error o => rfl
      | ok outstanding =>
        exact congrArg (EStateM.Result.ok ())
          (settled_moved d { r with head := r.offset region + used, outstanding := outstanding })
    · simp only [if_pos hhead, ne_eq]
      rfl

theorem repaid_moved (d : Nat) (r : Ring) (tail : Nat) :
    repaid (r.moved d) tail = (repaid r tail).moved d := by
  unfold repaid
  rw [moved_skipped, moved_size, apply_ite (moved d)]
  rfl

theorem retreat_moved (d : Nat) (r : Ring) (tail words : Nat) :
    (r.moved d).retreat tail words = outcomeMoved d id (r.retreat tail words) := by
  unfold retreat
  cases Counter.add tail words with
  | error o => rfl
  | ok tail =>
    exact congrArg (EStateM.Result.ok ()) (settled_moved d { r with
      tail := some tail
      outstanding := r.outstanding - words
      stats := { r.stats with releases := r.stats.releases + 1 } })

theorem release_moved (d : Nat) (r : Ring) (region : Address) (words : Nat) :
    (r.moved d).release (region.addBytes d) words = outcomeMoved d id (r.release region words) := by
  cases htail : r.tail with
  | none =>
    simp only [release, moved_tail, htail, moved_head, address_moved]
    rfl
  | some tail =>
    by_cases hmany : r.outstanding < words
    · simp only [release, moved_tail, htail, moved_head, moved_outstanding, address_moved, if_pos hmany]
      rfl
    cases hreach : Counter.add tail r.skipped with
    | error o =>
      simp only [release, moved_tail, htail, moved_outstanding, if_neg hmany, moved_skipped, hreach]
      rfl
    | ok reach =>
      obtain ⟨hbound, -⟩ := Counter.add_eq_ok_iff.1 hreach
      have htail' : (r.moved d).tail = some tail := htail
      have hrepaid : repaidTail (r.moved d) tail = repaidTail r tail := rfl
      rw [release_eq htail (Nat.not_lt.1 hmany) hbound, release_eq htail' (Nat.not_lt.1 hmany) hbound,
        repaid_moved, hrepaid, address_moved, retreat_moved, apply_ite (outcomeMoved d id)]
      -- both compare the tail with the region, each at its own place
      simp only [ne_eq, Address.addBytes_inj]
      rfl

theorem map_moved {α β : Type} {f : α → α} {x y : Ring → Outcome Ring α}
    (hx : y (r.moved d) = outcomeMoved d f (x r)) {g : α → β} {h : β → β} (hg : ∀ a, g (f a) = h (g a)) :
    EStateM.map g y (r.moved d) = outcomeMoved d h (EStateM.map g x r) := by
  unfold EStateM.map
  rw [hx]
  cases x r with
  | ok a r' => exact congrArg (EStateM.Result.ok · _) (hg a)
  | error e r' => rfl

/-- One call, at either place. -/
theorem answer_moved {q : Call} (hq : q ≠ .detach) (d : Nat) (r : Ring) :
    (r.moved d).answer (q.moved d) = outcomeMoved d (Option.map (Grant.moved d)) (r.answer q) := by
  cases q with
  | detach => exact absurd rfl hq
  | attach base size =>
    have h := attach_moved d r base size
    exact map_moved h fun _ => rfl
  | acquire wanted =>
    have h := acquire_moved d r wanted
    exact map_moved h fun _ => rfl
  | shrink region used granted =>
    have h := shrink_moved d r region used granted
    exact map_moved h fun _ => rfl
  | release region words =>
    have h := release_moved d r region words
    exact map_moved h fun _ => rfl

/-! ## Runs -/

/-- What a ring shows of itself: its cursors as addresses, and its counts. -/
structure View where
  capacity : Nat
  head : Address
  tail : Option Address
  skipped : Nat
  outstanding : Nat
  stats : RingStats
deriving DecidableEq, Repr

def view (r : Ring) : View :=
  ⟨r.size, r.address r.head, r.tail.map r.address, r.skipped, r.outstanding, r.stats⟩

def View.moved (d : Nat) (v : View) : View :=
  { v with head := v.head.addBytes d, tail := v.tail.map (Address.addBytes · d) }

theorem view_moved (d : Nat) (r : Ring) : (r.moved d).view = r.view.moved d := by
  have haddress : (r.moved d).address = (Address.addBytes · d) ∘ r.address :=
    funext (address_moved d r)
  simp only [view, View.moved, moved_tail, haddress, Option.map_map]
  rfl

/-- What comes back from a call. A ring that was asked for a sum without a value shows nothing more. -/
inductive Reply where
  | answered (g : Option Grant) (v : View)
  | refused (e : Refusal) (v : View)
  | panicked (f : Fault)
deriving DecidableEq, Repr

def Reply.moved (d : Nat) : Reply → Reply
  | .answered g v => .answered (g.map (Grant.moved d)) (v.moved d)
  | .refused e v => .refused (e.moved d) (v.moved d)
  | .panicked f => .panicked (f.moved d)

/-- What comes back from one call after another, up to the first that panics. -/
def replies : List Call → Ring → List Reply
  | [], _ => []
  | q :: qs, r =>
    match r.answer q with
    | .ok g r => .answered g r.view :: replies qs r
    | .error (.refused e) r => .refused e r.view :: replies qs r
    | .error (.fault f) _ => [.panicked f]

theorem replies_moved {qs : List Call} (hqs : .detach ∉ qs) (d : Nat) (r : Ring) :
    (r.moved d).replies (qs.map (Call.moved d)) = (r.replies qs).map (Reply.moved d) := by
  induction qs generalizing r with
  | nil => rfl
  | cons q qs ih =>
    obtain ⟨hq, hqs⟩ := not_or.1 (mt List.mem_cons.2 hqs)
    simp only [List.map_cons, replies, answer_moved (Ne.symm hq)]
    rcases r.answer q with ⟨g, r'⟩ | ⟨⟨e⟩ | ⟨f⟩, r'⟩
    · simp only [outcomeMoved, view_moved, ih hqs r', List.map_cons, Reply.moved]
    · simp only [outcomeMoved, Failure.moved, view_moved, ih hqs r', List.map_cons, Reply.moved]
    · rfl

/-- **Relocation.** A region is attached at `b₂` as it is at `b₁`, and from then on every run of calls with
any arguments gets the same replies at both places, each address as far from the other as `b₂` is from
`b₁`. A region that is refused at one place is refused at the other. -/
theorem relocated_run (c : Config) (size : Nat) (b₁ b₂ : Address) {qs : List Call} (hqs : .detach ∉ qs) :
    (∀ r₁, (ofConfig c).attach b₁ size = .ok () r₁ →
      ∃ r₂, (ofConfig c).attach b₂ size = .ok () r₂ ∧
        r₂.view = r₁.view.moved (b₂.bytesSince b₁) ∧
        r₂.replies (qs.map (Call.moved (b₂.bytesSince b₁))) =
          (r₁.replies qs).map (Reply.moved (b₂.bytesSince b₁))) ∧
    ∀ e r, (ofConfig c).attach b₁ size = .error e r → (ofConfig c).attach b₂ size = .error e r := by
  constructor
  · intro r₁ h₁
    obtain ⟨rfl, hsize⟩ := attach_spec h₁
    have h₂ : (ofConfig c).attach b₂ size =
        .ok () { (ofConfig c).restarted with base := b₂, size := size, outstanding := 0 } := by
      simp [attach, IsAttached, ofConfig, detached, hsize]
    refine ⟨_, h₂, ?_⟩
    rw [← view_moved, ← replies_moved hqs]
    simp only [moved, Address.addBytes_bytesSince, and_self]
  · intro e r h₁
    rw [← h₁]
    by_cases hsize : size = 0
    · simp [attach, hsize]
    · simp [attach, IsAttached, ofConfig, detached, hsize] at h₁

/-- Eight words at `0x1000`, and the same ones around the top of the address space, between two words.
The run wraps, is refused out of order, and ends in a sum that has no value. -/
theorem relocated_run_wrapped :
    let c : Config := ⟨2, 5, 2, 4⟩
    let qs : List Call := [.acquire 4, .acquire 2, .shrink ⟨0x1016⟩ 2 3, .release ⟨0x1000⟩ 5, .acquire 3,
      .release ⟨0x1010⟩ 1, .shrink ⟨0x1004⟩ 0 0xffffffff]
    let r₁ : Ring := ⟨2, 5, ⟨0x1000⟩, 8, 0, none, 0, 0, .zero⟩
    let d := Address.bytesSince ⟨0xfffffff2⟩ ⟨0x1000⟩
    (.detach ∉ qs ∧ (ofConfig c).attach ⟨0x1000⟩ 8 = .ok () r₁) ∧
      (r₁.replies qs).drop 4 =
        [.answered (some ⟨⟨0x1000⟩, 5⟩) ⟨8, ⟨0x1014⟩, some ⟨0x1014⟩, 1, 7, ⟨3, 1, 0, 1, 8⟩⟩,
          .refused (.outOfOrderRelease ⟨0x1010⟩ ⟨0x1014⟩)
            ⟨8, ⟨0x1014⟩, some ⟨0x1014⟩, 1, 7, ⟨3, 1, 0, 1, 8⟩⟩,
          .panicked (.overflow .add)] ∧
      ∃ r₂, (ofConfig c).attach ⟨0xfffffff2⟩ 8 = .ok () r₂ ∧ r₂.view = r₁.view.moved d ∧
        r₂.replies (qs.map (Call.moved d)) = (r₁.replies qs).map (Reply.moved d) :=
  ⟨⟨by decide, rfl⟩, by decide, (relocated_run _ _ _ _ (by decide)).1 _ rfl⟩

end Ring

end CommandPool
