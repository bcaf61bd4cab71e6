import CommandPool.Proofs.Ring.Progress
import CommandPool.Proofs.Session.Delivery
import CommandPool.Proofs.Session.Discipline
import CommandPool.Proofs.Session.StockCalls
/-!
# Conservation of ring words

The ring knows nothing of buffers, and buffers nothing of cursors. What keeps them in step is that the
pool is an orderly client of its ring: it shrinks only the buffer that was granted last, and the
consumer frees buffers in their order. So at every point of every call the ring is what a client made
of it whose live grants are the storage of the buffers that are out (`Conserving`): those of the queue,
and then the one that is open.

`conserved_play` reads off what this says between calls, about words, regions and the head of the ring.
-/
namespace CommandPool

/-! ## The ring of an orderly client -/

/-- A client of a ring with configuration `c` made `r` of it and has the grants `live` now. If one is
`opened`, the last of them came from the latest acquire. -/
inductive Traced (c : Config) (r : Ring) (live : List Grant) (opened : Bool) : Prop where
  | detached (hring : r = .ofConfig c) (hlive : live = []) (hopened : opened = false)
  | attached (hattached : r.IsAttached) (hshort : r.size ≤ 2 ^ 30) (reqs : List Request) (newest : Bool)
      (hrun : (Client.start c r.base r.size).run reqs = ⟨r, live, newest⟩)
      (hnewest : opened = true → newest = true)

namespace Traced

variable {c : Config} {r r' : Ring} {live : List Grant} {g : Grant} {opened : Bool}

theorem forget (h : Traced c r live opened) : Traced c r live false := by
  cases h with
  | detached hring hlive hopened => exact .detached hring hlive rfl
  | attached hattached hshort reqs newest hrun hnewest => exact .attached hattached hshort reqs newest hrun (by simp)

/-- One more request. -/
theorem ask (hattached : r.IsAttached) (hshort : r.size ≤ 2 ^ 30) {reqs : List Request} {newest : Bool}
    (hrun : (Client.start c r.base r.size).run reqs = ⟨r, live, newest⟩) (hsame : SameRegion r r')
    (q : Request) {live' : List Grant} {newest' : Bool}
    (hask : Client.ask ⟨r, live, newest⟩ q = ⟨r', live', newest'⟩) (hnewest : opened = true → newest' = true) :
    Traced c r' live' opened := by
  refine .attached ?_ ?_ (reqs ++ [q]) newest' ?_ hnewest
  · rw [Ring.IsAttached, hsame.size]
    exact hattached
  · rw [hsame.size]
    exact hshort
  · rw [Client.run] at hrun ⊢
    rw [hsame.base, hsame.size, List.foldl_append, hrun]
    exact hask

theorem not_acquire_detached {wanted : Nat} : (Ring.ofConfig c).acquire wanted =
    .error (.refused .notInitialized) (.ofConfig c) := rfl

theorem acquire (h : Traced c r live false) {wanted : Nat} {a : Acquired}
    (hr : r.acquire wanted = .ok a r') : Traced c r' (live ++ [a.grant]) true := by
  have hsame := (r.keeps_acquire wanted).same hr
  cases h with
  | detached hring hlive hopened =>
    subst hring
    cases not_acquire_detached.symm.trans hr
  | attached hattached hshort reqs newest hrun hnewest =>
    exact ask hattached hshort hrun hsame (.acquire wanted) (by simp only [Client.ask, hr]) fun _ => rfl

theorem stall (h : Traced c r live opened) {wanted : Nat}
    (hr : r.acquire wanted = .error (.refused .insufficient) r') : Traced c r' live opened := by
  have hsame := (r.keeps_acquire wanted).same_of_error hr
  cases h with
  | detached hring hlive hopened =>
    subst hring
    cases not_acquire_detached.symm.trans hr
  | attached hattached hshort reqs newest hrun hnewest =>
    exact ask hattached hshort hrun hsame (.acquire wanted) (by simp only [Client.ask, hr]) hnewest

theorem shrink (h : Traced c r (live ++ [g]) true) {used : Nat}
    (hr : r.shrink g.start used g.words = .ok () r') :
    Traced c r' (live ++ g.keep used) (decide (used ≠ 0)) := by
  have hsame := (r.keeps_shrink _ _ _).same hr
  have hused : ¬ g.words < used := by
    intro hlt
    rw [Ring.shrink, if_pos hlt] at hr
    cases hr
  cases h with
  | detached hring hlive hopened => cases hopened
  | attached hattached hshort reqs newest hrun hnewest =>
    have hn := hnewest rfl
    subst hn
    have hask : Client.ask ⟨r, live ++ [g], true⟩ (.shrink used) =
        ⟨r', live ++ g.keep used, decide (used ≠ 0)⟩ := by
      simp only [Client.ask, Client.newestGrant?, if_true, List.getLast?_concat, if_neg hused, hr,
        List.dropLast_concat]
    exact ask hattached hshort hrun hsame _ hask fun h => h

theorem release (h : Traced c r (g :: live) opened) (hopened : opened = true → live ≠ [])
    (hr : r.release g.start g.words = .ok () r') : Traced c r' live opened := by
  have hsame := (r.keeps_release _ _).same hr
  cases h with
  | detached hring hlive _ => cases hlive
  | attached hattached hshort reqs newest hrun hnewest =>
    have hask : Client.ask ⟨r, g :: live, newest⟩ .release = ⟨r', live, newest && !live.isEmpty⟩ := by
      simp only [Client.ask, hr]
    exact ask hattached hshort hrun hsame _ hask fun ho => by simp [hnewest ho, hopened ho]

theorem attach (h : Traced c r live opened) {base : Address} {size : Nat} (hsize : size ≤ 2 ^ 30)
    (hr : r.attach base size = .ok () r') : live = [] ∧ Traced c r' [] false := by
  cases h with
  | detached hring hlive hopened =>
    subst hring
    refine ⟨hlive, ?_⟩
    have hstart : Client.start c base size = ⟨r', [], false⟩ := by rw [Client.start, hr]
    obtain ⟨rfl, hne⟩ := attach_spec hr
    exact .attached hne hsize [] false hstart (by simp)
  | attached hattached hshort reqs newest hrun hnewest =>
    rw [Ring.attach, if_pos hattached] at hr
    cases hr

/-- Where the grants lie, and the limits of the ring. -/
theorem sound (h : Traced c r live opened) (hc : c.validate = .ok ()) :
    Layout r live opened ∧ r.minGrant = c.minGrant ∧ r.maxGrant = c.maxGrant := by
  cases h with
  | detached hring hlive hopened =>
    subst hring hlive hopened
    exact ⟨.empty rfl rfl rfl rfl, rfl, rfl⟩
  | attached hattached hshort reqs newest hrun hnewest =>
    have hstart := Client.sound_start hc r.base r.size
    have hlay := (Client.sound_run hshort reqs hstart).layout
    have hregion := Client.sameRegion_run hshort reqs hstart
    obtain ⟨hmin, hmax⟩ := Client.start_limits c r.base r.size
    rw [hrun] at hlay hregion
    refine ⟨?_, hregion.minGrant.trans hmin, hregion.maxGrant.trans hmax⟩
    cases opened with
    | true => exact hnewest rfl ▸ hlay
    | false => exact hlay.forget

theorem size_le (h : Traced c r live opened) : r.size ≤ 2 ^ 30 := by
  cases h with
  | detached hring hlive hopened =>
    rw [hring]
    exact Nat.zero_le _
  | attached hattached hshort reqs newest hrun hnewest => exact hshort

theorem detach (h : Traced c r live opened) (hc : c.validate = .ok ())
    (hr : r.detach = .ok () r') : live = [] ∧ Traced c r' [] false := by
  obtain ⟨hout, rfl⟩ := Ring.detach_ok hr
  obtain ⟨hlay, hmin, hmax⟩ := h.sound hc
  refine ⟨hlay.eq_nil hout, .detached ?_ rfl rfl⟩
  rw [hmin, hmax]
  rfl

end Traced

/-! ## The buffers that are out -/

/-- The buffer of the ring that is open: in the slot of the main core, or in the hands of a call. -/
def Bench.open? (b : Bench) : Option Descriptor :=
  match b.phase with
  | .rest => (b.leases.active b.main).filter (·.backing = .ring)
  | .closed d => some d
  | .vacant => none
  | .leased => none
  | .granted d => some d

/-- The storage of the buffers that are out, the oldest first. -/
def Bench.live (b : Bench) : List Grant :=
  (ringBacked b.submitted ++ b.open?.toList).map Descriptor.grant

structure Conserving (c : Config) (b : Bench) : Prop where
  finished : ∀ d ∈ b.submitted, d.used = d.capacity
  closed : ∀ d, b.phase = .closed d → d.used = d.capacity ∧ d.backing = .ring
  traced : Traced c b.ring b.live b.open?.isSome

variable {c : Config} {b b' : Bench}

/-- While no buffer is open, the grants are those of the queue. -/
theorem traced_none_iff (ho : b.open? = none) : Traced c b.ring b.live b.open?.isSome ↔
    Traced c b.ring ((ringBacked b.submitted).map Descriptor.grant) false := by
  simp [Bench.live, ho]

/-- The grant of the open buffer comes last. -/
theorem traced_some_iff {d : Descriptor} (ho : b.open? = some d) : Traced c b.ring b.live b.open?.isSome ↔
    Traced c b.ring ((ringBacked b.submitted).map Descriptor.grant ++ [d.grant]) true := by
  simp [Bench.live, ho]

/-- Between calls no buffer is open while that of the main core is a list, if there is one. -/
theorem open?_of_list (hphase : b.phase = .rest)
    (hlist : ∀ d, b.leases.active b.main = some d → d.backing = .displayList) : b.open? = none := by
  rw [Bench.open?, hphase]
  refine Option.filter_eq_none_iff.2 fun d hd hring => ?_
  rw [hlist d hd] at hring
  cases hring

/-- Lists come and go in their slots. -/
theorem open?_setActive {o : Option Descriptor} (hphase : b.phase = .rest)
    (hslot : ∀ d, b.leases.active b.current = some d → d.backing = .displayList)
    (ho : ∀ d, o = some d → d.backing = .displayList) :
    Bench.open? { b with leases := b.leases.setActive b.current o } = b.open? := by
  by_cases hmain : b.current = b.main
  · rw [open?_of_list hphase (hmain ▸ hslot)]
    refine open?_of_list hphase fun d hd => ho d ?_
    rw [← hd, ← hmain, Leases.active_setActive_self]
  · simp only [Bench.open?, hphase, Leases.active_setActive_of_ne _ _ (Ne.symm hmain)]

/-- The same buffers are out. -/
structure SameOut (b b' : Bench) : Prop where
  submitted : b'.submitted = b.submitted
  ring : b'.ring = b.ring
  opened : b'.open?.map Descriptor.grant = b.open?.map Descriptor.grant
  closed : ∀ d, b'.phase = .closed d → b.phase = .closed d

theorem Conserving.same (h : Conserving c b) (hsame : SameOut b b') : Conserving c b' := by
  refine ⟨hsame.submitted ▸ h.finished, fun d hd => h.closed d (hsame.closed d hd), ?_⟩
  have htraced := h.traced
  rw [Bench.live, List.map_append, ← Option.toList_map, ← Option.isSome_map] at htraced ⊢
  rw [hsame.submitted, hsame.ring, hsame.opened]
  exact htraced

/-- A list goes to the slot of the calling core, where no buffer of the ring is. -/
theorem Conserving.setList {d : Descriptor} (hb : Disciplined b) (h : Conserving c b)
    (hphase : b.phase = .rest ∨ b.phase = .vacant)
    (hslot : ∀ e, b.leases.active b.current = some e → e.backing = .displayList)
    (hlist : d.backing = .displayList) : Conserving c (b.setSlot .rest (some d)) := by
  have hset : ∀ e, some d = some e → e.backing = .displayList := by
    rintro _ ⟨⟩
    exact hlist
  rcases hphase with hphase | hphase
  · rw [← hphase]
    exact h.same ⟨rfl, rfl, congrArg _ (open?_setActive hphase hslot hset), fun _ => id⟩
  · have hleasing := hb.leasing
    rw [Bench.Leasing, hphase] at hleasing
    have ho : b.open? = none := by rw [Bench.open?, hphase]
    refine h.same ⟨rfl, rfl, ?_, by simp [Bench.setSlot]⟩
    rw [ho, open?_of_list rfl fun e he => hset e ?_]
    rw [← he, Bench.setSlot, ← hleasing.main, Leases.active_setActive_self]

/-- A list is taken out of the slot of the calling core. -/
theorem Conserving.discard {d : Descriptor} (h : Conserving c b) (hphase : b.phase = .rest)
    (hslot : b.leases.active b.current = some d) (hlist : d.backing = .displayList) :
    Conserving c b.cleared := by
  unfold Bench.cleared
  have hcurrent : ∀ e, b.leases.active b.current = some e → e.backing = .displayList := by
    intro e he
    cases hslot.symm.trans he
    exact hlist
  by_cases hmain : b.current = b.main
  · rw [if_pos hmain]
    exact h.same ⟨rfl, rfl, congrArg _ (open?_of_list hphase (hmain ▸ hcurrent)).symm, by simp [Bench.setSlot]⟩
  · rw [if_neg hmain, ← hphase]
    exact h.same ⟨rfl, rfl, congrArg _ (open?_setActive hphase hcurrent (by simp)), fun _ => id⟩

/-- **One move** keeps the words. -/
theorem Move.conserving (hb : Disciplined b) (h : Conserving c b) (hmove : Move b b') : Conserving c b' := by
  have hleasing := hb.leasing
  unfold Bench.Leasing at hleasing
  cases hmove with
  | @close d r hphase hslot hring hleased hshrink =>
    have hmain : b.current = b.main := hb.ringAtMain _ _ hslot hring
    have ho : b.open? = some d := by
      rw [Bench.open?, hphase, ← hmain]
      simp [hslot, hring]
    have hcut := ((traced_some_iff ho).1 h.traced).shrink hshrink
    by_cases h0 : d.used = 0
    · rw [if_pos h0]
      refine ⟨h.finished, by simp, (traced_none_iff rfl).2 ?_⟩
      simpa [Grant.keep, h0] using hcut
    · rw [if_neg h0]
      refine ⟨h.finished, ?_, (traced_some_iff rfl).2 ?_⟩
      · rintro _ ⟨⟩
        exact ⟨rfl, hring⟩
      · simpa [Grant.keep, h0, Descriptor.grant] using hcut
  | @submit d stamp hphase =>
    obtain ⟨hused, hring⟩ := h.closed d hphase
    have ho : b.open? = some d := by rw [Bench.open?, hphase]
    refine ⟨?_, by simp, (traced_none_iff rfl).2 ?_⟩
    · intro e he
      rcases List.mem_append.1 he with he | he
      · exact h.finished e he
      · cases List.mem_singleton.1 he
        exact hused
    · have hqueued := ((traced_some_iff ho).1 h.traced).forget
      have hring' : ({ d with stamp := stamp } : Descriptor).backing = .ring := hring
      simpa [ringBacked_concat_ring _ hring', Descriptor.grant] using hqueued
  | vacate hphase hmain hslot =>
    have ho := open?_of_list hphase fun d hd => by cases (hmain ▸ hslot).symm.trans hd
    exact ⟨h.finished, by simp, (traced_none_iff rfl).2 ((traced_none_iff ho).1 h.traced)⟩
  | lease hphase hleased =>
    have ho : b.open? = none := by rw [Bench.open?, hphase]
    exact ⟨h.finished, by simp, (traced_none_iff rfl).2 ((traced_none_iff ho).1 h.traced)⟩
  | @stall wanted r hphase hstall => exact ⟨h.finished, h.closed, h.traced.stall hstall⟩
  | grant hphase hgrant hring hused hd =>
    have ho : b.open? = none := by rw [Bench.open?, hphase]
    refine ⟨h.finished, by simp, (traced_some_iff rfl).2 ?_⟩
    rw [hd]
    exact ((traced_none_iff ho).1 h.traced).acquire hgrant
  | @seat d hphase =>
    rw [hphase] at hleasing
    obtain ⟨hempty, hring, -⟩ := hleasing
    have ho : b.open? = some d := by rw [Bench.open?, hphase]
    refine ⟨h.finished, by simp, (traced_some_iff ?_).2 ((traced_some_iff ho).1 h.traced)⟩
    simp [Bench.open?, hempty.main, hring]
  | hold =>
    refine h.same ⟨rfl, rfl, ?_, fun _ => id⟩
    simp [Bench.open?]
  | @queue d hlist hused =>
    refine ⟨?_, h.closed, ?_⟩
    · intro e he
      rcases List.mem_append.1 he with he | he
      · exact h.finished e he
      · cases List.mem_singleton.1 he
        exact hused
    · have hsame : Bench.live { b with submitted := b.submitted ++ [d] } = b.live := by
        rw [Bench.live, ringBacked_concat_list _ hlist]
        rfl
      rw [hsame]
      exact h.traced
  | @free d ds r hsub hring hused hrelease =>
    refine ⟨fun e he => h.finished e (hsub ▸ List.mem_cons_of_mem d he), h.closed, ?_⟩
    have hlive : b.live = d.grant :: Bench.live { b with submitted := ds, ring := r } := by
      rw [Bench.live, hsub, ringBacked_cons_ring _ hring]
      rfl
    have hfreed := h.traced
    rw [hlive] at hfreed
    refine hfreed.release ?_ hrelease
    -- the open buffer, if there is one, is still out
    intro ho hnil
    obtain ⟨e, he⟩ := Option.isSome_iff_exists.1 ho
    have hopen : Bench.open? { b with submitted := ds, ring := r } = some e := he
    simp [Bench.live, hopen] at hnil
  | @drop d ds hsub hlist =>
    refine ⟨fun e he => h.finished e (hsub ▸ List.mem_cons_of_mem d he), h.closed, ?_⟩
    have hlive : b.live = Bench.live { b with submitted := ds } := by
      rw [Bench.live, hsub, ringBacked_cons_list _ hlist]
      rfl
    rw [← hlive]
    exact h.traced

theorem Moves.conserving (hb : Disciplined b) (h : Conserving c b) (hmoves : Moves b b') :
    Conserving c b' := by
  induction hmoves with
  | refl => exact h
  | tail hmoves hmove ih => exact hmove.conserving (Moves.disciplined hb hmoves) ih

/-- A word stays within the storage of its buffer. -/
theorem Word.conserving {k : Core} {w : UInt32} (h : Conserving c b) (hphase : b.phase = .rest)
    (hword : Word k w b b') : Conserving c b' := by
  cases hword with
  | @intro d m hslot hroom hwrite =>
    refine h.same ⟨rfl, rfl, ?_, fun _ => id⟩
    unfold Bench.open?
    rw [hphase]
    by_cases hk : k = b.main
    · subst hk
      cases hb : d.backing <;> simp [hslot, hb, Option.filter, Descriptor.grant]
    · simp only [Leases.active_setActive_of_ne _ _ (Ne.symm hk)]

theorem Words.conserving {k : Core} {ws : List UInt32} (h : Conserving c b) (hphase : b.phase = .rest)
    (hwords : Words k ws b b') : Conserving c b' := by
  induction hwords with
  | nil => exact h
  | concat hwords hword ih => exact hword.conserving (ih h hphase) (hwords.beside.phase.trans hphase)

theorem Padded.conserving {u : Bench} {d x : Descriptor} (hpadded : Padded b u d x) (h : Conserving c b)
    (hphase : b.phase = .rest) : Conserving c u := by
  obtain ⟨aligned, -, -, hwords⟩ := hpadded.words
  exact hwords.conserving h hphase

/-- **One event** keeps the words. -/
theorem Turn.conserving {e : Event} (hc : c.validate = .ok ()) (he : e.Short) (hb : Disciplined b)
    (h : Conserving c b) (hphase : b.phase = .rest) (hturn : Turn e b b') : Conserving c b' := by
  cases hturn with
  | enter k => exact h.same ⟨rfl, rfl, rfl, fun _ => id⟩
  | poke hwrite => exact h.same ⟨rfl, rfl, rfl, fun _ => id⟩
  | shut hthrough hheld => exact h
  | write hthrough hheld hwords => exact hwords.conserving h hphase
  | init hmain hslot hattach hmoves =>
    have ho := open?_of_list hphase fun d hd => by cases (hmain ▸ hslot).symm.trans hd
    obtain ⟨hnil, htraced⟩ := ((traced_none_iff ho).1 h.traced).attach he hattach
    refine hmoves.conserving (hb.attach hphase hmain hslot _) ⟨h.finished, by simp, (traced_none_iff rfl).2 ?_⟩
    rw [hnil]
    exact htraced
  | shutdown hmoves hvacant hdetach =>
    have hu := hmoves.conserving hb h
    have hleasing := (hmoves.disciplined hb).leasing
    rw [Bench.Leasing, hvacant] at hleasing
    have ho := (traced_none_iff (by rw [Bench.open?, hvacant])).1 hu.traced
    obtain ⟨hnil, htraced⟩ := ho.detach hc hdetach
    refine ⟨hu.finished, by simp, (traced_none_iff ?_).2 ?_⟩
    · exact open?_of_list rfl fun d hd => by cases hleasing.slot.symm.trans hd
    · rw [hnil]
      exact htraced
  | record hmoves hrest hslot =>
    have hu := hmoves.conserving hb h
    exact hu.setList (hmoves.disciplined hb) hrest (fun e he => by cases hslot.symm.trans he) rfl
  | grow hpadded hfull hlist hused =>
    have hrest := hpadded.beside.phase.trans hphase
    have hnext := (hpadded.conserving h hphase).setList (hpadded.disciplined hb hphase) (.inl hrest)
      (fun e he => by cases hpadded.slot_current.symm.trans he; exact hpadded.backing) hlist
    rw [← hrest] at hnext
    refine hnext.same ⟨rfl, rfl, ?_, fun _ => id⟩
    simp [Bench.open?, Bench.replaced, Bench.setHeld, Bench.asked, Bench.setSlot]
  | finalize hpadded hstart hmoves =>
    have hrest := hpadded.beside.phase.trans hphase
    have hu := hpadded.conserving h hphase
    have hb' := hpadded.disciplined hb hphase
    exact hmoves.conserving (hb'.discard hrest hpadded.slot_current hpadded.backing)
      (hu.discard hrest hpadded.slot_current hpadded.backing)
  | plain hplain hmoves => exact hmoves.conserving hb h

/-! ## Scripts -/

variable {s t : Session}

/-- What scripts keep. -/
structure Steady (c : Config) (k : Core) (s : Session) : Prop where
  main : s.console.topology.main = k
  disciplined : Disciplined (s.bench .rest)
  conserving : Conserving c (s.bench .rest)

variable {k : Core}

theorem Step.perform_steady (hc : c.validate = .ok ()) {e : Event} (he : e.Short) (h : Steady c k s) {a : Unit}
    (hs : Step.perform e s = .ok a t) : Steady c k t := by
  obtain ⟨hturn, -⟩ := (Step.perform_turn h.disciplined.ringAtMain e).ok hs
  exact ⟨hturn.fixed.1.trans h.main, hturn.disciplined h.disciplined rfl,
    hturn.conserving hc he h.disciplined h.conserving rfl⟩

theorem Step.play_steady (hc : c.validate = .ok ()) {es : List Event} (hes : ∀ e ∈ es, e.Short)
    (h : Steady c k s) {ws : List UInt32} (hs : Step.play es s = .ok ws t) : Steady c k t := by
  exact Step.play_keeps (fun _ _ _ he hu hrun => Step.perform_steady hc he hu hrun) hes h hs

theorem steady_start {pool : Pool} (hpool : Pool.ofConfig c = .ok pool) (topology : Topology)
    (memory : Memory) : c.validate = .ok () ∧ Steady c topology.main (.start pool topology memory) := by
  have horder := inOrder_start hpool topology memory
  obtain ⟨hc, rfl⟩ := Pool.ofConfig_eq_ok hpool
  have ho (pool : Pool) (h : pool.leases = .allIdle) :
      ((Session.start pool topology memory).bench .rest).open? = none := by
    simp [Bench.open?, Session.bench, Session.start, h]
  refine ⟨hc, horder.main, horder.disciplined, ?_, by simp [Session.bench], (traced_none_iff (ho _ rfl)).2 ?_⟩
  · simp [Session.bench, Session.start, Console.atRest]
  · exact .detached rfl rfl rfl

/-- The words of the ring and the buffers that are out. -/
structure Conserved (c : Config) (s : Session) : Prop where
  outstanding : s.pool.ring.outstanding = (s.ringBuffers.map Descriptor.capacity).sum
  full : ∀ d ∈ s.console.submitted, d.backing = .ring → 0 < d.used ∧ d.used = d.capacity
  /-- The storage of the buffers that are out, in their order, is what a client of the ring was granted
  and did not release yet. -/
  live : Traced c s.pool.ring (s.ringBuffers.map Descriptor.grant) s.pool.leases.leased
  layout : Layout s.pool.ring (s.ringBuffers.map Descriptor.grant) s.pool.leases.leased
  /-- One buffer at most is open. -/
  single : (ringBacked (Core.all.filterMap s.pool.leases.active)).length ≤ 1
  /-- It ends where the next grant starts. -/
  ends : ∀ k d, s.pool.leases.active k = some d → d.backing = .ring →
    d.start = s.pool.ring.address (s.pool.ring.offset d.start) ∧
      s.pool.ring.offset d.start + d.capacity = s.pool.ring.head

theorem Steady.conserved (hc : c.validate = .ok ()) (h : Steady c k s) : Conserved c s := by
  have hplaced := h.disciplined.placed
  have hleasing := h.disciplined.leasing.1
  have hslot : ∀ k', (s.pool.leases.active k').filter (·.backing = .ring) =
      if k' = (s.bench .rest).main then (s.bench .rest).open? else none := by
    intro k'
    by_cases hk : k' = (s.bench .rest).main
    · rw [if_pos hk, hk]
      rfl
    · rw [if_neg hk, Option.filter_eq_none_iff]
      intro d hd hring
      rw [(hplaced k' d hd).2 hk] at hring
      cases hring
  have hlive : (s.bench .rest).live = s.ringBuffers.map Descriptor.grant := by
    rw [s.ringBuffers_eq, ringBacked_slots hslot]
    rfl
  have hleased : (s.bench .rest).open?.isSome = s.pool.leases.leased := by
    rw [Bool.eq_iff_iff, Option.isSome_iff_exists]
    constructor
    · rintro ⟨d, hd⟩
      obtain ⟨hslot, hring⟩ := Option.filter_eq_some_iff.1 hd
      exact hleasing.2 ⟨d, hslot, by simpa using hring⟩
    · intro hl
      obtain ⟨d, hslot, hring⟩ := hleasing.1 hl
      exact ⟨d, Option.filter_eq_some_iff.2 ⟨hslot, by simpa using hring⟩⟩
  have htraced : Traced c s.pool.ring (s.ringBuffers.map Descriptor.grant) s.pool.leases.leased := by
    rw [← hlive, ← hleased]
    exact h.conserving.traced
  have hlay := (htraced.sound hc).1
  refine ⟨?_, ?_, htraced, hlay, ?_, ?_⟩
  · rw [hlay.outstanding, totalWords, List.map_map]
    rfl
  · intro d hd hring
    have hfull : d.used = d.capacity := h.conserving.finished d hd
    have hmem : d ∈ s.ringBuffers := by simp [s.ringBuffers_eq, ringBacked, hd, hring]
    obtain ⟨o, ho, -⟩ := hlay.inside (List.mem_map_of_mem hmem)
    exact ⟨hfull ▸ ho.2, hfull⟩
  · rw [ringBacked_slots hslot]
    cases (s.bench .rest).open? <;> simp
  · intro k' d hd hring
    have hopen := hslot k'
    rw [hd, h.disciplined.ringAtMain k' d hd hring, if_pos rfl, Option.filter_some,
      if_pos (by simpa using hring)] at hopen
    have hnewest : Layout s.pool.ring ((ringBacked s.console.submitted).map Descriptor.grant ++ [d.grant]) true := by
      rw [← hlive, ← hleased, Bench.live, ← hopen] at hlay
      simpa [Session.bench] using hlay
    obtain ⟨o, ho, hend, -⟩ := hnewest.shape.cut
    have hoffset : s.pool.ring.offset d.start = o := by
      refine ho.offset_eq ?_
      have := hnewest.shape.head_le
      have := htraced.size_le
      have := ho.2
      omega
    rw [hoffset]
    exact ⟨ho.1, hend⟩

/-- **Conservation**, in every state of every script: of calls from any cores, and of a consumer that
frees the buffers of the queue in their order and as it got them. -/
theorem conserved_play {c : Config} {pool : Pool} (hpool : Pool.ofConfig c = .ok pool)
    (topology : Topology) (memory : Memory) {es : List Event} (hes : ∀ e ∈ es, e.Short)
    {ws : List UInt32} {s : Session} (hs : Step.play es (.start pool topology memory) = .ok ws s) :
    Conserved c s := by
  obtain ⟨hc, hstart⟩ := steady_start hpool topology memory
  exact (Step.play_steady hc hes hstart hs).conserved hc

/-- The first buffer is flushed empty, its successor is submitted to begin a list; one more of four words
goes to the queue behind another list, and the next wraps over the words that were freed. -/
theorem conserved_play_wrapped :
    let c : Config := ⟨2, 5, 2, 4⟩
    let pool : Pool := ⟨c, .ofConfig c, .ofCapacity 4, .allIdle⟩
    let es : List Event := [
      .init ⟨0x1000⟩ 8, .flush, .getBuffer 4, .writeAll .one [1, 2, 3, 4], .dropWriter .one,
      .beginDisplayList ⟨0x1020⟩ 2, .finalizeDisplayList ⟨0x1020⟩, .getBuffer 2, .write .one 5,
      .dropWriter .one, .queueDisplayList ⟨0x1020⟩ 2, .freeOldest, .getBuffer 3,
      .writeAll .one [7, 8, 9], .dropWriter .one, .flush, .getBuffer 1, .write .one 10]
    Pool.ofConfig c = .ok pool ∧ (∀ e ∈ es, e.Short) ∧
      ∃ s, Step.play es (.start pool .standard (.zeroed ⟨0x1000⟩ 12)) =
          .ok [1, 2, 3, 4, 5, 7, 8, 9, 10] s ∧
        (s.ringBuffers.map Descriptor.grant, s.pool.ring.outstanding, s.pool.ring.head) =
          ([⟨⟨0x1010⟩, 4⟩, ⟨⟨0x1000⟩, 4⟩], 8, 4) ∧
        Conserved c s := by
  refine ⟨rfl, by simp [Event.Short], Step.ok_of_seen (by decide +kernel) fun _ hs => ?_⟩
  exact conserved_play (c := ⟨2, 5, 2, 4⟩) rfl _ _ (by simp [Event.Short]) hs

end CommandPool
