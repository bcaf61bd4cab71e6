import CommandPool.Proofs.Session.Asides
import CommandPool.Proofs.Session.Shutdown
/-!
# A pool that was shut down is as good as new

After a shutdown the pool can be attached again, to whatever region. From then on the main core cannot tell
it from a pool that was just created on the same console (`SameRuns`): what goes through on the one goes
through on the other, with the same grants and the same waits, and leaves the same ring. They differ in
their arenas, so a buffer may have another descriptor, and in what other cores were recording.

This is `Alike` both ways. The new pool has no lists, so nothing is left out when the used one follows it;
when it follows the used one the storage of the lists is left out, but then it only matters that it follows.

`renewed_play` puts together what a shutdown is for.
-/
namespace CommandPool

/-- What the main core `k` does, or what happens beside the cores: no other core is entered, and no writer
of another core is used. -/
def Event.OnMain (k : Core) : Event → Prop
  | .enter c => c = k
  | .write c _ => c = k
  | .writeAll c _ => c = k
  | .remaining c => c = k
  | .dropWriter c => c = k
  | _ => True

/-- Either `es` goes through in both sessions, with the same words for the ring and the same end for the
main core `k`, or something stops it in both. Where that is so for every script it is the same event. -/
def SameRuns (k : Core) (es : List Event) (s s' : Session) : Prop :=
  match Step.play es s, Step.play es s' with
  | .ok ws t, .ok ws' t' => ws' = ws ∧ Undisturbed [] k t t'
  | .error _ _, .error _ _ => True
  | _, _ => False

variable {cfg : Config} {k : Core} {s s' t : Session} {d : Descriptor} {ws : List UInt32} {A : Storages}
  {top : Topology} {e : Event}

/-! ## Runs of the main core -/

theorem Event.OnMain.aside (he : e.OnMain top.main) (hmain : top.current = top.main) :
    e.aside top = false := by
  have hon : top.onMain = true := by simp [Topology.onMain, hmain]
  cases e <;> simp_all [Event.aside, Event.OnMain]

/-- The main core stays the one to call. -/
theorem Event.OnMain.stays (he : e.OnMain top.main) (hmain : top.current = top.main) :
    ((Operation.event e).topology top).main = top.main ∧
      ((Operation.event e).topology top).current = top.main := by
  cases e with
  | enter c => exact ⟨rfl, he⟩
  | _ => exact ⟨rfl, hmain⟩

theorem Alike.ringWriter (h : Alike A top s s') :
    (s'.ringWriter? top.main).isSome = (s.ringWriter? top.main).isSome := by
  have hslot := Descriptor.rel_renamed_iff.2 h.slot
  unfold Session.ringWriter?
  rw [h.held]
  generalize s.pool.leases.active top.main = o at hslot
  generalize s'.pool.leases.active top.main = o' at hslot
  obtain ⟨⟨slot⟩⟩ | _ := hslot
  · split
    · rw [Option.isSome_filter, Option.isSome_filter]
      rfl
    · rfl
  · rfl

theorem Alike.written (h : Alike A top s s') (he : e.OnMain top.main) : e.written s' = e.written s := by
  cases e with
  | write c w =>
    cases he
    simp only [Event.written, h.ringWriter]
  | writeAll c ws =>
    cases he
    simp only [Event.written, h.ringWriter]
  | _ => rfl

namespace Step

/-- A run of the main core follows in a session that is alike. -/
theorem play_alike {es : List Event} (h : Alike A top s s') (hmain : top.current = top.main)
    (hes : ∀ e ∈ es, e.OnMain top.main) : Meets Anyhow (play es) s fun ws t =>
      ∃ t' top', play es s' = .ok ws t' ∧ top'.main = top.main ∧ Alike A top' t t' := by
  induction es generalizing top s s' with
  | nil => exact ⟨s', top, rfl, rfl, h⟩
  | cons e es ih =>
    have he := hes e List.mem_cons_self
    obtain ⟨hmain', hcurrent'⟩ := he.stays hmain
    refine meets_bind.2 (meets_get.2 (meets_bind.2 ?_))
    refine Meets.imp (operate_follows (o := .event e) h (he.aside hmain) (.same _)) ?_
    rintro ⟨⟩ t ⟨t', hrun, ht⟩
    rw [meets_bind]
    refine Meets.imp (ih ht (hcurrent'.trans hmain'.symm) fun e' he' => ?_) ?_
    · rw [hmain']
      exact hes e' (List.mem_cons_of_mem _ he')
    rintro ws u ⟨u', top', hplay, htop, hu⟩
    refine ⟨u', top', play_cons_eq_ok_iff.2 ⟨t', ws, hrun, hplay, ?_⟩, htop.trans hmain', hu⟩
    rw [h.written he]

/-- If each of two sessions follows the other, and other cores have no lists in the first one, then runs of
the main core are the same in both. -/
theorem sameRuns_of_alike {es : List Event} (h : Alike [] top s s') (h' : Alike A top s' s)
    (hmain : top.current = top.main) (hes : ∀ e ∈ es, e.OnMain top.main) : SameRuns top.main es s s' := by
  have hto := play_alike h hmain hes
  have hfrom := play_alike h' hmain hes
  unfold SameRuns
  cases hs : play es s with
  | ok ws t =>
    obtain ⟨t', top', hs', htop, ht⟩ := hto.ok hs
    rw [hs']
    exact ⟨rfl, htop ▸ ht.toUndisturbed⟩
  | error e t =>
    cases hs' : play es s' with
    | ok ws t' =>
      obtain ⟨_, _, hback, -⟩ := hfrom.ok hs'
      cases hs.symm.trans hback
    | error e' t' => trivial

end Step

/-! ## Pools without a region -/

/-- Two pools that are as new are alike on the same console. -/
theorem AsNew.alike {pool : Pool} (h : AsNew cfg s) (h' : AsNew cfg { s with pool := pool })
    (hothers : ∀ c d, c ≠ s.console.topology.main → s.pool.leases.active c = some d →
      d.backing = .displayList ∧ (d.start, d.capacity) ∈ A) :
    Alike A s.console.topology s { s with pool := pool } := by
  refine ⟨⟨?_, ?_, ?_, ?_, rfl, rfl, rfl, rfl, .refl A _⟩, rfl, rfl, ?_, rfl, rfl, rfl, rfl, hothers⟩
  · exact h'.ring.trans h.ring.symm
  · exact h'.unleased.trans h.unleased.symm
  · exact congrArg _ (h'.slot.trans h.slot.symm)
  · exact h'.free.trans h.free.symm
  · exact h'.config.trans h.config.symm

/-- A pool that was just created is as new, on whatever console the main core is to call. -/
theorem asNew_ofConfig {pool : Pool} (hpool : Pool.ofConfig cfg = .ok pool) (t : Session)
    (hmain : t.console.topology.current = t.console.topology.main) : AsNew cfg { t with pool := pool } := by
  obtain ⟨-, rfl⟩ := Pool.ofConfig_eq_ok hpool
  exact ⟨rfl, rfl, rfl, Leases.active_allIdle _, by simp [Leases.held, Leases.allIdle, Slot.empty], hmain⟩

/-- The storage of the lists that are recorded into. -/
def Session.listStorages (s : Session) : Storages :=
  (Core.all.filterMap s.pool.leases.active).map fun d => (d.start, d.capacity)

/-- **A used pool is as good as a new one**, if other cores have nothing but lists. -/
theorem AsNew.sameRuns {pool : Pool} (h : AsNew cfg t) (hpool : Pool.ofConfig cfg = .ok pool)
    (hlists : ∀ {c d}, c ≠ t.console.topology.main → t.pool.leases.active c = some d →
      d.backing = .displayList) {es : List Event} (hes : ∀ e ∈ es, e.OnMain t.console.topology.main) :
    SameRuns t.console.topology.main es { t with pool := pool } t := by
  have hnew := asNew_ofConfig hpool t h.main
  have hidle : ∀ c, pool.leases.active c = none := by
    obtain ⟨-, rfl⟩ := Pool.ofConfig_eq_ok hpool
    exact Leases.active_allIdle
  have hfollows : Alike [] t.console.topology { t with pool := pool } t := hnew.alike h fun c d _ hd => by
    cases (hidle c).symm.trans hd
  have hfollowed : Alike t.listStorages t.console.topology t _ := h.alike hnew fun c d hc hd => by
    have hmem : d ∈ Core.all.filterMap t.pool.leases.active :=
      List.mem_filterMap.2 ⟨c, Core.mem_all c, hd⟩
    exact ⟨hlists hc hd, List.mem_map_of_mem hmem⟩
  exact Step.sameRuns_of_alike hfollows hfollowed h.main hes

/-- A region that holds the least grant can be attached to the ring of a new pool, and the grant is there
at once. -/
theorem attach_ofConfig (hc : cfg.validate = .ok ()) (base : Address) {size : Nat}
    (hmin : cfg.minGrant ≤ size) (hshort : size ≤ 2 ^ 30) :
    ∃ r a r', (Ring.ofConfig cfg).attach base size = .ok () r ∧ r.acquire cfg.minGrant = .ok a r' := by
  obtain ⟨hpos, hmax, -⟩ := cfg.validate_eq_ok_iff.1 hc
  obtain ⟨r, hattach⟩ : ∃ r, (Ring.ofConfig cfg).attach base size = .ok () r := by
    have hdetached : ¬ (Ring.ofConfig cfg).IsAttached := not_not_intro rfl
    have hsize : size ≠ 0 := Nat.ne_of_gt (Nat.lt_of_lt_of_le hpos hmin)
    exact ⟨_, by rw [Ring.attach, if_neg hdetached, if_neg hsize]⟩
  have hlayout := layout_attach hattach
  obtain ⟨hr, -⟩ := attach_spec hattach
  have hlimits : r.minGrant = cfg.minGrant ∧ r.maxGrant = cfg.maxGrant ∧ r.size = size := by
    rw [hr]
    exact ⟨rfl, rfl, rfl⟩
  have hlt : size < Counter.bound := Nat.lt_of_le_of_lt hshort (by decide)
  have hle : max cfg.minGrant r.minGrant ≤ r.size := by omega
  obtain ⟨a, r', ha⟩ := acquire_of_empty hlayout (by omega) (by omega) (by omega) hle
  exact ⟨r, a, r', hattach, ha⟩

open Step in
theorem AsNew.init_returns (h : AsNew cfg t) (hc : cfg.validate = .ok ()) (base : Address) {size : Nat}
    (hmin : cfg.minGrant ≤ size) (hshort : size ≤ 2 ^ 30) : ∃ u, init base size t = .ok () u := by
  obtain ⟨r, a, r', hattach, hacquire⟩ := attach_ofConfig hc base hmin hshort
  rw [← h.ring] at hattach
  rw [← h.config] at hacquire
  have hreturns : Meets Never (init base size) t fun _ _ => True := by
    unfold init
    simp only [meets_bind, meets_currentCore, meets_mainCore, meets_ite]
    refine ⟨fun hne => absurd h.main hne, fun _ => ?_⟩
    rw [meets_onRing, hattach]
    simp only [meets_report, meets_borrow]
    rw [h.main]
    refine ⟨fun hheld => ?_, fun _ => ⟨fun hsome => ?_, fun _ => ?_⟩⟩
    · cases h.free.symm.trans hheld
    · cases (congrArg Option.isSome h.slot).symm.trans hsome
    · have hnow := allocate_at_once
        (s := ({ t with pool := { t.pool with ring := r } } : Session).reported [Ring.attachRecord base size])
        h.main h.unleased hacquire
      refine meets_bind.2 (meets_config.2 ?_)
      exact hnow.imp fun _ _ _ => trivial
  obtain ⟨⟨⟩, u, hu, -⟩ := hreturns.returns
  exact ⟨u, hu⟩

/-! ## The life of a pool -/

/-- What a shutdown in `s` makes of a pool that was created as `pool`. The shutdown is the end of the script
`es`, which starts in `s₀`. -/
structure Renewed (cfg : Config) (pool : Pool) (es : List Event) (s₀ s t : Session) : Prop where
  shutDown : ShutDown cfg s t
  /-- Each buffer of the ring that was handed in had a stamp of its own, … -/
  once : (handedIn es s₀).Pairwise fun d e => d.stamp < e.stamp
  /-- … and was freed once, in this order. The journal says what stood in it at that moment. -/
  freed : List.Forall₂ (Step.Read (Step.play es) s₀) (handedIn es s₀) t.journal.executed
  /-- The ring can be attached to any region that holds the least grant. -/
  reopens : ∀ base size, cfg.minGrant ≤ size → size ≤ 2 ^ 30 → ∃ u, Step.init base size t = .ok () u
  /-- For the main core the rest is as if the pool had been created here. -/
  sameRuns : ∀ es, (∀ e ∈ es, e.OnMain s.console.topology.main) →
    SameRuns s.console.topology.main es { t with pool := pool } t

/-- **A shutdown renews the pool**, in every state of every script in which the main core is to call and
has a buffer of the ring. -/
theorem renewed_play {pool : Pool} (hpool : Pool.ofConfig cfg = .ok pool) (topology : Topology)
    (memory : Memory) {es : List Event} (hes : ∀ e ∈ es, e.Short)
    (hs : Step.play es (.start pool topology memory) = .ok ws s) (hd : s.OnRing d) (hdrains : s.Drains) :
    ∃ t, Step.shutdown s = .ok () t ∧
      Renewed cfg pool (es ++ [.shutdown]) (.start pool topology memory) s t := by
  obtain ⟨hc, hstart⟩ := upheld_start hpool topology memory
  have hupheld := Step.play_upheld hc hes hstart hs
  obtain ⟨⟨⟩, t, hrun, ht⟩ := (Step.shutdown_drains hc hupheld hd hdrains).returns
  obtain ⟨ws', hplay⟩ := Step.play_concat (e := .shutdown) hs hrun
  refine ⟨t, hrun, ht, ((Step.play_handsIn _ _).ok hplay).ordered, handedIn_worked_off hplay ht.queue, ?_,
    fun es' hes' => ?_⟩
  · intro base size hmin hshort
    exact ht.asNew.init_returns hc base hmin hshort
  · rw [← ht.topology] at hes' ⊢
    exact ht.asNew.sameRuns hpool (ht.lists hupheld) hes'

/-- Two full buffers are in the queue and behind them a list, and core two is recording another one, when
the pool is shut down. The open buffer has no words, so it is given back. After two waits the ring is
drained, and the list is still in the queue. -/
theorem renewed_play_list_left :
    let c : Config := ⟨2, 5, 2, 4⟩
    let pool : Pool := ⟨c, .ofConfig c, .ofCapacity 4, .allIdle⟩
    let d : Descriptor := ⟨some 2, .ring, 0, 0, 2, ⟨0x1018⟩⟩
    let list : Descriptor := ⟨none, .displayList, 3, 2, 2, ⟨0x1028⟩⟩
    let es : List Event := [
      .init ⟨0x1000⟩ 8, .getBuffer 4, .writeAll .one [1, 2, 3, 4], .dropWriter .one, .flush,
      .getBuffer 2, .writeAll .one [5, 6], .dropWriter .one, .flush, .enter .two,
      .beginDisplayList ⟨0x1020⟩ 2, .enter .one, .queueDisplayList ⟨0x1028⟩ 2]
    let handed : List Descriptor := [⟨some 0, .ring, 1, 4, 4, ⟨0x1000⟩⟩, ⟨some 1, .ring, 2, 2, 2, ⟨0x1010⟩⟩]
    Pool.ofConfig c = .ok pool ∧ (∀ e ∈ es, e.Short) ∧
      ∃ s, Step.play es (.start pool .standard (.zeroed ⟨0x1000⟩ 12)) = .ok [1, 2, 3, 4, 5, 6] s ∧
        s.OnRing d ∧ s.Drains ∧
        handedIn (es ++ [.shutdown]) (.start pool .standard (.zeroed ⟨0x1000⟩ 12)) = handed ∧
        Step.seen Step.shutdown s (fun t => (t.console.submitted, t.journal.waits, t.journal.executed)) =
          (.inl (), [list], [1, 2], [some [1, 2, 3, 4], some [5, 6]]) ∧
        ∃ t, Step.shutdown s = .ok () t ∧
          Renewed c pool (es ++ [.shutdown]) (.start pool .standard (.zeroed ⟨0x1000⟩ 12)) s t := by
  intro c pool d list es handed
  have hpool : Pool.ofConfig c = .ok pool := by
    rw [Pool.ofConfig, show c.validate = .ok () by decide]
  have hshort : ∀ e ∈ es, e.Short := by simp [es, Event.Short]
  have hhanded : handedIn (es ++ [.shutdown]) (.start pool .standard (.zeroed ⟨0x1000⟩ 12)) = handed := by
    decide +kernel
  refine ⟨hpool, hshort, ?_⟩
  obtain ⟨s, hs, hseen, -⟩ : ∃ s,
      Step.play es (.start pool .standard (.zeroed ⟨0x1000⟩ 12)) = .ok [1, 2, 3, 4, 5, 6] s ∧
      decide (s.OnRing d ∧ s.console.ahead = [] ∧
        Step.seen Step.shutdown s (fun t => (t.console.submitted, t.journal.waits, t.journal.executed)) =
          (.inl (), [list], [1, 2], [some [1, 2, 3, 4], some [5, 6]])) = true ∧ True :=
    Step.ok_of_seen (by decide +kernel) fun _ _ => trivial
  obtain ⟨hring, hahead, hrun⟩ := of_decide_eq_true hseen
  have hdrains := Session.drains_of_prompt hahead
  exact ⟨s, hs, hring, hdrains, hhanded, hrun,
    renewed_play hpool .standard (.zeroed ⟨0x1000⟩ 12) hshort hs hring hdrains⟩

end CommandPool
