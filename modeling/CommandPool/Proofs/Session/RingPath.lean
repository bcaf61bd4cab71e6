import CommandPool.Proofs.Session.Backpressure
import CommandPool.Proofs.Session.Conservation
import CommandPool.Proofs.Session.Ledger
/-!
# Asking for room in a buffer of the ring

How a request for words ends on a buffer of the ring. As long as everything that is out is accounted for
and what is queued is full (`Flowing`), the consumer never stops a call, nor does handing in a buffer; a
wait can only hang, and a request is turned down only for its size. So a call for room comes to its end
unless it hangs or asks for more than a grant or the region can hold (`getBuffer_ring`).
-/
namespace CommandPool

/-! ## Limits of grants -/

/-- A grant has as many words as asked for, up to the maximum, and no more than the region. -/
structure Grant.Within (g : Grant) (wanted : Nat) (r : Ring) : Prop where
  enough : min (max wanted r.minGrant) r.maxGrant ≤ g.words
  most : g.words ≤ r.maxGrant
  region : g.words ≤ r.size
  wanted : max wanted r.minGrant ≤ r.size

theorem Grant.Within.of_same {g : Grant} {wanted : Nat} {r r' : Ring} (h : g.Within wanted r')
    (hsame : SameRegion r r') : g.Within wanted r := by
  obtain ⟨henough, hmost, hregion, hwanted⟩ := h
  rw [hsame.minGrant, hsame.maxGrant] at henough
  rw [hsame.maxGrant] at hmost
  rw [hsame.size] at hregion
  rw [hsame.minGrant, hsame.size] at hwanted
  exact ⟨henough, hmost, hregion, hwanted⟩

theorem acquire_most {r r' : Ring} {wanted : Nat} {a : Acquired} (ha : r.acquire wanted = .ok a r') :
    a.grant.words ≤ r.maxGrant ∧ max wanted r.minGrant ≤ r.size := by
  obtain ⟨hle, p, -, hg⟩ := acquire_ok ha
  have hmax : r.settled.maxGrant = r.maxGrant := ((SameRegion.refl r).settled).maxGrant
  refine ⟨?_, hle⟩
  rw [(grant_ok hg).1, ← hmax]
  exact Nat.min_le_right ..

theorem Accounted.granted {ds : List Descriptor} {r r' : Ring} (h : Accounted none ds r) {wanted : Nat}
    {a : Acquired} (ha : r.acquire wanted = .ok a r') : a.grant.Within wanted r := by
  obtain ⟨hle, p, hp, hg⟩ := acquire_ok ha
  rw [h.layout.settled_eq] at hp hg
  have hpost := place_spec h.layout _ hle
  rw [hp] at hpost
  obtain ⟨hsame, hroom, hready⟩ := hpost
  have hwords : a.grant.words = min p.room r.maxGrant := by rw [(grant_ok hg).1]
  have hend := hready.head_le
  rw [hsame.size] at hend
  exact ⟨by omega, by omega, by omega, hle⟩

/-- A request that the region can hold is turned down only for the moment. -/
theorem Accounted.turned_down {ds : List Descriptor} {r r' : Ring} (h : Accounted none ds r) {wanted : Nat}
    (hle : max wanted r.minGrant ≤ r.size) {e : Failure} (hr : r.acquire wanted = .error e r') :
    e = .refused .insufficient := by
  have hmin := h.minGrant
  have hpost := place_spec h.layout _ hle
  cases hp : r.place (max wanted r.minGrant) with
  | ok p =>
    obtain ⟨a, r'', ha, -⟩ := acquire_of_place h.layout h.minGrant h.maxGrant h.size_lt hle hp
    rw [hr] at ha
    cases ha
  | error f =>
    rw [hp] at hpost
    cases hpost
    have hattached : r.IsAttached := Nat.ne_of_gt (by omega)
    simp only [Ring.acquire, not_not_intro hattached, Nat.not_lt.2 hle, if_false, h.layout.settled_eq,
      hp, Ring.refuse] at hr
    cases hr
    rfl

namespace Client

/-- What the live grants of a client can be. -/
structure Bounded (s : Client) : Prop where
  most : ∀ g ∈ s.live, g.words ≤ s.ring.maxGrant
  least : s.live ≠ [] → s.ring.minGrant ≤ s.ring.size

theorem Bounded.next {s : Client} (h : Bounded s) {r : Ring} {live : List Grant} {newest : Bool}
    (hsame : SameRegion s.ring r) (hlive : ∀ g ∈ live, ∃ k ∈ s.live, g.words ≤ k.words) :
    Bounded ⟨r, live, newest⟩ := by
  refine ⟨fun g hg => ?_, fun hne => ?_⟩
  · obtain ⟨k, hk, hle⟩ := hlive g hg
    rw [hsame.maxGrant]
    exact Nat.le_trans hle (h.most k hk)
  · obtain ⟨g, hg⟩ := List.exists_mem_of_ne_nil _ hne
    obtain ⟨k, hk, -⟩ := hlive g hg
    rw [hsame.minGrant, hsame.size]
    exact h.least (List.ne_nil_of_mem hk)

theorem bounded_ask {s : Client} (h : Bounded s) (q : Request) : Bounded (s.ask q) := by
  have hsame {r : Ring} (hr : SameRegion s.ring r) : Bounded { s with ring := r } :=
    h.next hr fun g hg => ⟨g, hg, Nat.le_refl _⟩
  cases q with
  | acquire wanted =>
    have hkeeps := s.ring.keeps_acquire wanted
    simp only [Client.ask]
    split
    · rename_i a r hr
      have hregion := hkeeps.same hr
      obtain ⟨hmost, hwanted⟩ := acquire_most hr
      refine ⟨fun g hg => ?_, fun _ => ?_⟩
      · rw [hregion.maxGrant]
        rcases List.mem_append.1 hg with hg | hg
        · exact h.most g hg
        · cases List.mem_singleton.1 hg
          exact hmost
      · rw [hregion.minGrant, hregion.size]
        omega
    · exact hsame (hkeeps.same_of_error ‹_›)
  | shrink used =>
    simp only [Client.ask]
    split
    · exact h
    rename_i g hg
    split
    · exact h
    rename_i hused
    obtain ⟨-, hlive⟩ := newestGrant?_eq_some hg
    have hkeeps := s.ring.keeps_shrink g.start used g.words
    split
    · refine h.next (hkeeps.same ‹_›) fun k hk => ?_
      rcases List.mem_append.1 hk with hk | hk
      · exact ⟨k, List.mem_of_mem_dropLast hk, Nat.le_refl _⟩
      · refine ⟨g, by rw [hlive]; simp, ?_⟩
        unfold Grant.keep at hk
        split at hk <;> simp at hk
        rw [hk]
        exact Nat.not_lt.1 hused
    · exact hsame (hkeeps.same_of_error ‹_›)
  | release =>
    simp only [Client.ask]
    split
    · exact h
    rename_i g live hl
    have hkeeps := s.ring.keeps_release g.start g.words
    split
    · refine h.next (hkeeps.same ‹_›) fun k hk => ⟨k, ?_, Nat.le_refl _⟩
      rw [hl]
      exact List.mem_cons_of_mem g hk
    · exact hsame (hkeeps.same_of_error ‹_›)

theorem bounded_run {s : Client} (h : Bounded s) (reqs : List Request) : Bounded (s.run reqs) := by
  induction reqs generalizing s with
  | nil => exact h
  | cons q reqs ih => exact ih (bounded_ask h q)

theorem bounded_start (c : Config) (base : Address) (size : Nat) : Bounded (start c base size) := by
  have hnil : (start c base size).live = [] := by
    unfold start
    split <;> rfl
  exact ⟨by simp [hnil], fun hne => absurd hnil hne⟩

end Client

theorem Traced.bounded {c : Config} {r : Ring} {live : List Grant} {opened : Bool}
    (h : Traced c r live opened) : Client.Bounded ⟨r, live, opened⟩ := by
  cases h with
  | detached hring hlive hopened =>
    subst hlive
    exact ⟨by simp, by simp⟩
  | attached hattached hshort reqs newest hrun hnewest =>
    have hbounded := Client.bounded_run (Client.bounded_start c r.base r.size) reqs
    rw [hrun] at hbounded
    exact ⟨hbounded.most, hbounded.least⟩

/-! ## What the consumer leaves -/

/-- Whose words are outstanding is known, and the queue holds full buffers only. -/
structure Flowing (o : Option Descriptor) (s : Session) : Prop where
  accounted : Accounted o s.console.submitted s.pool.ring
  finished : ∀ d ∈ s.console.submitted, d.used = d.capacity

/-- The consumer worked off a part of the queue. -/
structure Worked (s t : Session) : Prop where
  topology : t.console.topology = s.console.topology
  memory : t.console.memory = s.console.memory
  leases : t.pool.leases = s.pool.leases
  region : SameRegion s.pool.ring t.pool.ring
  submitted : ∃ n, t.console.submitted = s.console.submitted.drop n
  /-- It read what stood in the buffers. -/
  blocks : t.ledger.blocks none = s.ledger.blocks none

variable {o : Option Descriptor} {s t u : Session} {d : Descriptor} {c : Core}

theorem Worked.refl (s : Session) : Worked s s := ⟨rfl, rfl, rfl, .refl _, ⟨0, rfl⟩, rfl⟩

theorem Worked.trans (h : Worked s t) (h' : Worked t u) : Worked s u := by
  obtain ⟨n, hn⟩ := h.submitted
  obtain ⟨m, hm⟩ := h'.submitted
  exact ⟨h'.topology.trans h.topology, h'.memory.trans h.memory, h'.leases.trans h.leases,
    h.region.trans h'.region, ⟨n + m, by rw [hm, hn, List.drop_drop]⟩, h'.blocks.trans h.blocks⟩

namespace Step

theorem freeOldest_flows (h : Flowing o s) :
    Meets Never freeOldest s fun _ t => Flowing o t ∧ Worked s t := by
  unfold freeOldest
  rw [meets_bind, meets_get]
  cases hsub : s.console.submitted with
  | nil => exact ⟨h, .refl s⟩
  | cons d rest =>
    have hacc := h.accounted
    have hfinished := h.finished
    rw [hsub] at hacc hfinished
    have hdrop : rest = s.console.submitted.drop 1 := by rw [hsub, List.drop_one, List.tail_cons]
    have hrest : ∀ e ∈ rest, e.used = e.capacity := fun e he => hfinished e (List.mem_cons_of_mem d he)
    rw [meets_bind, meets_onConsole, meets_bind, execute, meets_modify, meets_bind, meets_free]
    refine ⟨fun hne => absurd (hfinished d List.mem_cons_self) hne, fun _ => ?_⟩
    cases hd : d.backing with
    | ring =>
      obtain ⟨r, hr, hsame, hacc'⟩ := hacc.free hd
      simp only [if_true, hr, meets_pure]
      refine ⟨⟨hacc', hrest⟩, rfl, rfl, rfl, hsame, ⟨1, hdrop⟩, ?_⟩
      simp [Ledger.blocks, Ledger.out, Session.ledger, hsub, ringBacked_cons_ring rest hd]
    | displayList =>
      simp only [reduceCtorEq, if_false, meets_pure]
      refine ⟨⟨hacc.free_list hd, hrest⟩, rfl, rfl, rfl, .refl _, ⟨1, hdrop⟩, ?_⟩
      simp [Ledger.blocks, Ledger.out, Session.ledger, hsub, ringBacked_cons_list rest hd]

theorem freeSome_flows (n : Nat) (h : Flowing o s) :
    Meets Never (freeSome n) s fun _ t => Flowing o t ∧ Worked s t := by
  induction n generalizing s with
  | zero => exact ⟨h, .refl s⟩
  | succ n ih =>
    unfold freeSome
    rw [meets_bind]
    refine Meets.imp (freeOldest_flows h) ?_
    rintro freed t ⟨ht, hwork⟩
    cases freed with
    | true => exact Meets.imp (ih ht) fun _ u hu => ⟨hu.1, hwork.trans hu.2⟩
    | false => exact ⟨ht, hwork⟩

theorem freeAhead_flows (h : Flowing o s) :
    Meets Never freeAhead s fun _ t => Flowing o t ∧ Worked s t := by
  unfold freeAhead
  rw [meets_bind, meets_get]
  cases s.console.ahead with
  | nil => exact ⟨h, .refl s⟩
  | cons n rest =>
    rw [meets_bind, meets_onConsole]
    refine (freeSome_flows n (s := { s with console := { s.console with ahead := rest } })
      ⟨h.accounted, h.finished⟩).imp ?_
    rintro _ t ⟨ht, hwork⟩
    exact ⟨ht, { hwork with }⟩

/-- A hang. -/
def Hangs (e : Stop) (_ : Session) : Prop := ∃ n, e = .hang n

theorem await_flows (h : Flowing o s) :
    Meets Hangs await s fun _ t => Flowing o t ∧ Worked s t := by
  unfold await
  simp only [meets_bind, meets_get, meets_modify]
  have hstamped : Flowing o { s with journal := { s.journal with
      waits := s.journal.waits ++ [s.console.timeline.retired + 1] } } := ⟨h.accounted, h.finished⟩
  refine Meets.mono (freeAhead_flows hstamped) (fun _ _ he => he.elim) ?_
  rintro _ t ⟨ht, hwork⟩
  have hwork : Worked s t := { hwork with }
  cases t.console.idle with
  | succ n =>
    refine ⟨⟨ht.accounted, ht.finished⟩, ?_⟩
    exact hwork.trans ⟨rfl, rfl, rfl, .refl _, ⟨0, rfl⟩, rfl⟩
  | zero =>
    simp only [retireOne, meets_bind]
    refine Meets.mono (freeOldest_flows ht) (fun _ _ he => he.elim) ?_
    rintro freed u ⟨hu, hwork'⟩
    cases freed with
    | true =>
      refine ⟨⟨hu.accounted, hu.finished⟩, ?_⟩
      exact (hwork.trans hwork').trans ⟨rfl, rfl, rfl, .refl _, ⟨0, rfl⟩, rfl⟩
    | false => exact ⟨_, rfl⟩

/-! ## Handing in -/

/-- What is left of a buffer that is handed in: nothing, if there are no words in it. -/
def cut (d : Descriptor) (stamp : Nat) : List Descriptor :=
  if d.used = 0 then [] else [{ d with capacity := d.used, stamp := stamp }]

/-- The buffer `d` was taken out of the slot of `c`, and handed in if there were words in it. -/
structure HandedIn (c : Core) (d : Descriptor) (s t : Session) : Prop where
  topology : t.console.topology = s.console.topology
  memory : t.console.memory = s.console.memory
  region : SameRegion s.pool.ring t.pool.ring
  leases : t.pool.leases = { s.pool.leases.setActive c none with leased := false }
  /-- The consumer may have started on the queue at once. -/
  submitted : ∃ n, t.console.submitted =
    (s.console.submitted ++ cut d (s.console.lastStamp + 1)).drop n
  /-- Its words come after the ones that were handed in before. -/
  blocks : t.ledger.blocks none = s.ledger.blocks none ++
    (cut d (s.console.lastStamp + 1)).map (·.contents s.console.memory)

theorem submitActive_flows (h : Flowing (some d) s) (hd : s.pool.leases.active c = some d)
    (hused : d.used ≤ d.capacity) (hleased : s.pool.leases.leased = true) :
    Meets Never (submitActive c) s fun _ t => Flowing none t ∧ HandedIn c d s t := by
  have hring : d.backing = .ring := h.accounted.opened d rfl
  obtain ⟨r, hr, hsame, hdropped, hcut⟩ := h.accounted.shrink hused
  unfold submitActive Pool.close
  simp only [meets_bind, meets_onPool_bind, meets_active, hd, meets_onPool_ite, meets_onPool_fatal,
    meets_setActive, meets_onLeases, meets_onRing, meets_giveDescriptor, meets_onPool_pure]
  refine ⟨by simp [hring], fun _ => ?_⟩
  simp only [Leases.unlease, Leases.leased_setActive, hleased, if_true, hr]
  constructor
  · intro h0
    refine ⟨⟨hdropped h0, h.finished⟩, rfl, rfl, hsame, rfl, ⟨0, ?_⟩, ?_⟩
    · simp [cut, h0]
    · simp [cut, h0, Ledger.blocks, Ledger.out, Session.ledger]
  · intro h0
    unfold submit
    simp only [meets_bind, meets_onConsole]
    refine (freeAhead_flows (o := none) ⟨(hcut h0).submit _, ?_⟩).imp ?_
    · intro e he
      rcases List.mem_append.1 he with he | he
      · exact h.finished e he
      · cases List.mem_singleton.1 he
        rfl
    · rintro _ t ⟨ht, hwork⟩
      obtain ⟨n, hn⟩ := hwork.submitted
      refine ⟨ht, hwork.topology, hwork.memory, hsame.trans hwork.region, hwork.leases, ⟨n, ?_⟩, ?_⟩
      · rw [hn, cut, if_neg h0]
      · rw [hwork.blocks]
        simp [cut, h0, Ledger.blocks, Ledger.out, Session.ledger, ringBacked, hring]

/-! ## Allocating -/

/-- A wait for room either hangs or is turned down for the size of the region. -/
theorem acquire_flows (h : Flowing none s) (words : Nat) :
    Meets (fun e t => Hangs e t ∨ s.pool.ring.size < max words s.pool.ring.minGrant)
      (waitFor ringFull (Pool.tryAcquire words)) s fun a t =>
        a.grant.Within words s.pool.ring ∧ Worked s t ∧
          ∀ d : Descriptor, d.backing = .ring → d.grant = a.grant → Flowing (some d) t := by
  apply meets_waitFor (I := fun t => Flowing none t ∧ Worked s t) _ s ⟨h, .refl s⟩
  rintro t ⟨ht, hwork⟩
  have hpost := ht.accounted.acquire words
  rw [meets_tryAcquire]
  cases hr : t.pool.ring.acquire words with
  | ok a r =>
    rw [hr] at hpost
    refine ⟨(ht.accounted.granted hr).of_same hwork.region, ?_, fun d hring hgrant => ?_⟩
    · exact hwork.trans ⟨rfl, rfl, rfl, hpost.1, ⟨0, rfl⟩, rfl⟩
    · exact ⟨hpost.2 d hring hgrant, ht.finished⟩
  | error e r =>
    rw [hr] at hpost
    obtain ⟨hsame, hacc, -⟩ := hpost
    have hstalled : Worked s { t with pool := { t.pool with ring := r } } :=
      hwork.trans ⟨rfl, rfl, rfl, hsame, ⟨0, rfl⟩, rfl⟩
    dsimp only
    split
    · refine Meets.mono (await_flows (o := none) ⟨hacc, ht.finished⟩) (fun _ _ he => .inl he) ?_
      rintro _ u ⟨hu, hwork'⟩
      exact ⟨hu, hstalled.trans { hwork' with }⟩
    · rename_i hne
      refine .inr (Nat.lt_of_not_le fun hle => hne ?_)
      rw [← hwork.region.minGrant, ← hwork.region.size] at hle
      exact ht.accounted.turned_down hle hr

/-- The main core gets a buffer, unless its wait for room stops it. -/
theorem allocate_flows {H : Stop → Session → Prop} (h : Flowing none s) {words : Nat}
    (hmain : s.console.topology.current = s.console.topology.main) (hleased : s.pool.leases.leased = false)
    (hloop : Meets H (Loop.run (.room words)) s.leasing fun _ _ => True) :
    Meets (fun e t => Hangs e t ∧ H e t ∨ s.pool.ring.size < max words s.pool.ring.minGrant)
      (allocate words) s fun o t => ∃ d, o = some d ∧ d.backing = .ring ∧ d.used = 0 ∧
        d.grant.Within words s.pool.ring ∧ Flowing o t ∧ Worked s.leasing t := by
  unfold allocate
  simp only [meets_bind, meets_currentCore, meets_mainCore, meets_ite]
  refine ⟨fun hne => absurd hmain hne, fun _ => ?_⟩
  rw [meets_onLeases]
  simp only [Leases.lease, hleased, Bool.false_eq_true, if_false]
  have hleasing : Flowing none s.leasing := ⟨h.accounted, h.finished⟩
  apply meets_bind.2
  refine Meets.mono ((acquire_flows hleasing words).and hloop) ?_ ?_
  · rintro e t ⟨hhang | hsize, hH⟩
    · exact .inl ⟨hhang, hH⟩
    · exact .inr hsize
  · rintro a t ⟨⟨hwithin, hwork, hflow⟩, -⟩
    simp only [meets_bind, meets_report, meets_takeDescriptor, meets_pure]
    have hnext := hflow (t.pool.arena.take.1.bind a.grant.start 0 a.grant.words .ring) rfl rfl
    refine ⟨_, rfl, rfl, rfl, hwithin, ⟨hnext.accounted, hnext.finished⟩, ?_⟩
    exact hwork.trans ⟨rfl, rfl, rfl, .refl _, ⟨0, rfl⟩, rfl⟩

/-- A grant that is there at once is not waited for. -/
theorem allocate_at_once {words : Nat} {a : Acquired} {r : Ring}
    (hmain : s.console.topology.current = s.console.topology.main) (hleased : s.pool.leases.leased = false)
    (ha : s.pool.ring.acquire words = .ok a r) :
    Meets Never (allocate words) s fun o t =>
      o = some (s.pool.arena.take.1.bind a.grant.start 0 a.grant.words .ring) ∧
        t = ({ s with pool := { s.pool with
          ring := r
          arena := s.pool.arena.take.2
          leases := { s.pool.leases with leased := true } } } : Session).reported
            (a.skip.map Ring.skipRecord).toList := by
  unfold allocate
  simp only [meets_bind, meets_currentCore, meets_mainCore, meets_ite]
  refine ⟨fun hne => absurd hmain hne, fun _ => ?_⟩
  rw [meets_onLeases]
  simp only [Leases.lease, hleased, Bool.false_eq_true, if_false]
  apply meets_bind.2
  apply meets_waitFor (I := (· = s.leasing)) _ s.leasing rfl
  rintro _ rfl
  have ha : s.leasing.pool.ring.acquire words = .ok a r := ha
  rw [meets_tryAcquire, ha]
  simp only [meets_bind, meets_report, meets_takeDescriptor, meets_pure]
  exact ⟨rfl, rfl⟩

/-! ## Room -/

/-- The buffer `d` in the slot of `c` was handed in, if there were words in it, and an empty one with room
for `words` words took its place. -/
structure Reopened (c : Core) (d : Descriptor) (words : Nat) (s t : Session) : Prop where
  slot : ∃ d', t.pool.leases.active c = some d' ∧ d'.backing = .ring ∧ d'.used = 0 ∧
    words ≤ d'.capacity ∧ d'.capacity ≤ min s.pool.ring.maxGrant s.pool.ring.size
  memory : t.console.memory = s.console.memory
  /-- The consumer may have worked off the front of the queue. -/
  submitted : ∃ n, t.console.submitted =
    (s.console.submitted ++ cut d (s.console.lastStamp + 1)).drop n
  /-- What it has read, and then what stands in the queue, ends with the words of `d`. -/
  blocks : t.ledger.blocks none = s.ledger.blocks none ++
    (cut d (s.console.lastStamp + 1)).map (·.contents s.console.memory)

/-- **Room on the ring**: a request that the open buffer has no room for replaces it, unless the wait for
room stops the call or the request is larger than a grant or the region. -/
theorem getBuffer_ring {H : Stop → Session → Prop} (h : Flowing (some d) s) {words : Nat}
    (hmain : s.console.topology.current = s.console.topology.main)
    (hheld : s.pool.leases.held s.console.topology.current = false)
    (hd : s.pool.leases.active s.console.topology.current = some d) (hused : d.used ≤ d.capacity)
    (hleased : s.pool.leases.leased = true) (hmin : s.pool.ring.minGrant ≤ s.pool.ring.size)
    (hfull : ¬ d.Fits words)
    (hloop : ∀ t, submitActive s.console.topology.current s = .ok () t →
      Meets H (Loop.run (.room words)) t.leasing fun _ _ => True) :
    Meets (fun e t => Hangs e t ∧ H e t ∨ min s.pool.ring.maxGrant s.pool.ring.size < words)
      (getBuffer words) s fun _ t => Reopened s.console.topology.current d words s t := by
  have hring : d.backing = .ring := h.accounted.opened d rfl
  unfold getBuffer
  simp only [meets_bind, meets_currentCore, meets_borrow, hheld, hd, meets_ite, Bool.false_eq_true,
    false_implies, true_and, true_implies]
  refine ⟨fun _ => ?_, fun hfits => absurd hfull hfits⟩
  simp only [replaceActive, hring, replaceRingBuffer]
  apply meets_bind.2
  apply meets_bind.2
  refine Meets.mono (submitActive_flows h hd hused hleased).and_eq (fun _ _ he => he.elim) ?_
  rintro ⟨⟩ t ⟨hsub, ht, hin⟩
  rw [meets_bind]
  have hmain' : t.console.topology.current = t.console.topology.main := by rw [hin.topology, hmain]
  have hleased' : t.pool.leases.leased = false := by rw [hin.leases]
  refine Meets.mono (allocate_flows ht hmain' hleased' (hloop t hsub)) ?_ ?_
  · rintro e u (hhang | hsize)
    · exact .inl hhang
    · rw [hin.region.size, hin.region.minGrant] at hsize
      exact .inr (by omega)
  rintro _ u ⟨d', rfl, hring', hempty, hwithin, -, hwork⟩
  obtain ⟨henough, hmost, hregion, -⟩ := hwithin.of_same hin.region
  change _ ≤ d'.capacity at henough
  change d'.capacity ≤ _ at hmost hregion
  simp only [meets_bind, meets_setActive, meets_active, Leases.active_setActive_self, meets_ite,
    meets_checked, meets_fatal, meets_pure]
  constructor
  · intro hfull'
    simp only [Descriptor.Fits, hempty] at hfull'
    cases d'.remaining with
    | error o => exact .inr (by omega)
    | ok n => exact .inr (by omega)
  · intro hfits
    simp only [Descriptor.Fits, hempty] at hfits
    obtain ⟨n, hn⟩ := hin.submitted
    obtain ⟨m, hm⟩ := hwork.submitted
    refine ⟨⟨d', ?_, hring', hempty, by omega, by omega⟩, hwork.memory.trans hin.memory, ⟨n + m, ?_⟩,
      hwork.blocks.trans hin.blocks⟩
    · simp
    · rw [← List.drop_drop, ← hn]
      exact hm

end Step

end CommandPool
