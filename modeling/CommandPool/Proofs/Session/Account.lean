import CommandPool.Descriptor
import CommandPool.Proofs.Ring.Grants
/-!
# Whose words are outstanding

The pool takes words from the ring for one buffer at a time. A buffer of the ring is out from then
on: first it is open, in a slot or in the hands of a call, then it is in the queue, until the
consumer frees it. `Accounted o ds r` says that the grants that are live in `r` are the storage of
the buffers that are out, in their order: those of the queue `ds` that are of the ring, then `o`,
the open one. No word is outstanding that is not in one of them.

Nothing is asked of storage that is not of the ring. Below is what each way to move a buffer does.
-/
namespace CommandPool

/-- The storage of a buffer of the ring. -/
def Descriptor.grant (d : Descriptor) : Grant := ⟨d.start, d.capacity⟩

/-- The buffers of the ring among some of a queue. -/
def ringBacked (ds : List Descriptor) : List Descriptor := ds.filter (·.backing = .ring)

theorem ringBacked_cons_ring {d : Descriptor} (ds : List Descriptor) (h : d.backing = .ring) :
    ringBacked (d :: ds) = d :: ringBacked ds := List.filter_cons_of_pos (by simpa using h)

theorem ringBacked_cons_list {d : Descriptor} (ds : List Descriptor) (h : d.backing = .displayList) :
    ringBacked (d :: ds) = ringBacked ds := List.filter_cons_of_neg (by simp [h])

theorem ringBacked_concat_ring {d : Descriptor} (ds : List Descriptor) (h : d.backing = .ring) :
    ringBacked (ds ++ [d]) = ringBacked ds ++ [d] := by
  simp [ringBacked, h]

theorem ringBacked_concat_list {d : Descriptor} (ds : List Descriptor) (h : d.backing = .displayList) :
    ringBacked (ds ++ [d]) = ringBacked ds := by
  simp [ringBacked, h]

structure Accounted (o : Option Descriptor) (ds : List Descriptor) (r : Ring) : Prop where
  minGrant : 0 < r.minGrant
  maxGrant : 0 < r.maxGrant
  /-- Addresses have 32 bits. -/
  short : r.size ≤ 2 ^ 30
  layout : Layout r ((ringBacked ds ++ o.toList).map Descriptor.grant) o.isSome
  opened : ∀ d, o = some d → d.backing = .ring

variable {o : Option Descriptor} {ds : List Descriptor} {d : Descriptor} {r r' : Ring}

namespace Accounted

theorem size_lt (h : Accounted o ds r) : r.size < Counter.bound :=
  Nat.lt_of_le_of_lt h.short (by decide)

theorem layout_some (h : Accounted (some d) ds r) :
    Layout r ((ringBacked ds).map Descriptor.grant ++ [d.grant]) true := by
  have hlay := h.layout
  simpa using hlay

/-- The ring changes, but not its region. -/
theorem next (h : Accounted o ds r) (hsame : SameRegion r r') {o' : Option Descriptor}
    {ds' : List Descriptor} {gs : List Grant} {newest : Bool} (hlay : Layout r' gs newest)
    (hgs : gs = (ringBacked ds' ++ o'.toList).map Descriptor.grant) (hnew : newest = o'.isSome)
    (hopen : ∀ d, o' = some d → d.backing = .ring) : Accounted o' ds' r' :=
  ⟨hsame.minGrant ▸ h.minGrant, hsame.maxGrant ▸ h.maxGrant, hsame.size ▸ h.short,
    hnew ▸ hgs ▸ hlay, hopen⟩

/-- Words are outstanding only as long as a buffer is out. -/
theorem out_eq_nil (h : Accounted o ds r) (hout : r.outstanding = 0) :
    ringBacked ds ++ o.toList = [] := List.map_eq_nil_iff.1 (h.layout.eq_nil hout)

/-- The open buffer is cut to the words in it; without any it is no longer out. -/
theorem shrink (h : Accounted (some d) ds r) (hused : d.used ≤ d.capacity) :
    ∃ r', r.shrink d.start d.used d.capacity = .ok () r' ∧ SameRegion r r' ∧
      (d.used = 0 → Accounted none ds r') ∧
      (d.used ≠ 0 → Accounted (some { d with capacity := d.used }) ds r') := by
  obtain ⟨r', hr, hsame, hlay⟩ := shrink_spec h.layout_some h.short hused
  refine ⟨r', hr, hsame, ?_, ?_⟩
  · intro h0
    rw [Grant.keep, if_pos h0, List.append_nil] at hlay
    exact h.next hsame hlay.forget (by simp) rfl (by simp)
  · intro h0
    rw [Grant.keep, if_neg h0, decide_eq_true h0] at hlay
    refine h.next hsame hlay (by simp [Descriptor.grant]) rfl ?_
    rintro _ ⟨⟩
    exact h.opened d rfl

/-- The open buffer goes to the queue. -/
theorem submit (h : Accounted (some d) ds r) (stamp : Nat) :
    Accounted none (ds ++ [{ d with stamp := stamp }]) r := by
  have hring : ({ d with stamp := stamp } : Descriptor).backing = .ring := h.opened d rfl
  refine h.next (.refl r) h.layout_some.forget ?_ rfl (by simp)
  rw [ringBacked_concat_ring ds hring]
  simp [Descriptor.grant]

theorem submit_list (h : Accounted o ds r) (hd : d.backing = .displayList) :
    Accounted o (ds ++ [d]) r :=
  h.next (.refl r) h.layout (by rw [ringBacked_concat_list ds hd]) rfl h.opened

/-- The open buffer is full or partly written, wherever it is. -/
theorem reopen (h : Accounted (some d) ds r) {d' : Descriptor} (hstart : d'.start = d.start)
    (hcapacity : d'.capacity = d.capacity) (hbacking : d'.backing = d.backing) :
    Accounted (some d') ds r := by
  refine h.next (.refl r) h.layout_some (by simp [Descriptor.grant, hstart, hcapacity]) rfl ?_
  rintro _ ⟨⟩
  rw [hbacking]
  exact h.opened d rfl

/-- The ring was asked for a grant while no buffer was open. -/
def AcquirePost (ds : List Descriptor) (r : Ring) : Outcome Ring Acquired → Prop
  | .ok a r' => SameRegion r r' ∧
    ∀ d : Descriptor, d.backing = .ring → d.grant = a.grant → Accounted (some d) ds r'
  | .error e r' => SameRegion r r' ∧ Accounted none ds r' ∧ (e = .refused .insufficient ∨
    e = .refused .notInitialized ∨ ∃ wanted, e = .refused (.requestTooLarge wanted r.size))

theorem acquire (h : Accounted none ds r) (wanted : Nat) : AcquirePost ds r (r.acquire wanted) := by
  have hpost := acquire_spec h.layout h.minGrant h.maxGrant h.size_lt wanted
  match hr : r.acquire wanted with
  | .ok a r' =>
    rw [hr] at hpost
    refine ⟨hpost.1, fun d hring hgrant => ?_⟩
    refine h.next hpost.1 hpost.2 (by simp [hgrant]) rfl ?_
    rintro _ ⟨⟩
    exact hring
  | .error e r' =>
    rw [hr] at hpost
    obtain ⟨hsame, hlay, he⟩ := hpost
    exact ⟨hsame, h.next hsame hlay rfl rfl (by simp), he⟩

/-- An empty ring has room for whatever the region can hold. -/
theorem not_insufficient (h : Accounted none [] r) (wanted : Nat) :
    r.acquire wanted ≠ .error (.refused .insufficient) r' := by
  by_cases hle : max wanted r.minGrant ≤ r.size
  · obtain ⟨a, r'', ha⟩ := acquire_of_empty h.layout h.minGrant h.maxGrant h.size_lt hle
    simp [ha]
  · unfold Ring.acquire
    simp only
    split
    · simp [Ring.refuse]
    · rw [if_pos (Nat.lt_of_not_le hle)]
      simp [Ring.refuse]

/-- The oldest buffer of the queue is freed; its words go back to the ring. -/
theorem free (h : Accounted o (d :: ds) r) (hd : d.backing = .ring) :
    ∃ r', r.release d.start d.capacity = .ok () r' ∧ SameRegion r r' ∧ Accounted o ds r' := by
  have hlay := h.layout
  rw [ringBacked_cons_ring ds hd, List.cons_append, List.map_cons] at hlay
  obtain ⟨r', hr, hsame, hlay'⟩ := release_spec hlay h.size_lt
  refine ⟨r', hr, hsame, h.next hsame hlay' rfl ?_ h.opened⟩
  -- the open buffer, if there is one, is still out
  cases o <;> simp

theorem free_list (h : Accounted o (d :: ds) r) (hd : d.backing = .displayList) : Accounted o ds r :=
  h.next (.refl r) h.layout (by rw [ringBacked_cons_list ds hd]) rfl h.opened

/-- A region can be attached only while nothing is out. -/
theorem attach (h : Accounted o ds r) {base : Address} {size : Nat} (hsize : size ≤ 2 ^ 30)
    (hr : r.attach base size = .ok () r') : o = none ∧ ringBacked ds = [] ∧ Accounted none ds r' := by
  have hnil : ringBacked ds ++ o.toList = [] := by
    refine h.out_eq_nil (Nat.le_zero.1 (Nat.le_trans h.layout.outstanding_le ?_))
    unfold Ring.attach at hr
    split at hr
    · cases hr
    · exact Nat.le_of_eq (Decidable.not_not.1 ‹¬ r.IsAttached›)
  obtain ⟨hds, ho⟩ := List.append_eq_nil_iff.1 hnil
  have hlay := layout_attach hr
  obtain ⟨rfl, -⟩ := attach_spec hr
  refine ⟨by cases o <;> simp_all, hds, h.minGrant, h.maxGrant, hsize, ?_, by simp⟩
  rw [hds]
  exact hlay

/-- A ring that is drained can be detached. -/
theorem detach (h : Accounted none ds r) (hout : r.outstanding = 0) :
    Accounted none ds (.detached r.minGrant r.maxGrant) := by
  refine ⟨h.minGrant, h.maxGrant, Nat.zero_le _, ?_, by simp⟩
  rw [h.out_eq_nil hout]
  exact .empty rfl rfl rfl rfl

end Accounted

end CommandPool
