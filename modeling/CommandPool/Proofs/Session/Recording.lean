import CommandPool.Proofs.Session.Observer
/-!
# Recording across overruns

The notes of an observer are faithful on every core, as long as the list that is recorded into is
secluded (`recorded_run`).

The invariant is `Recorded`: of the list in the slot, the words are those noted, and the rest of its
storage is as it was when the list was bound (`Tracks`). Events of the core itself are noted as they
happen, and whatever else happens leaves the list alone (`Turn.recorded`).
-/
namespace CommandPool

/-! ## The list in the slot -/

/-- What was noted of the list of `k` is what stands in it. -/
inductive Tracks (k : Core) (b : Bench) : Option Track → Prop
  | idle (hlist : b.leases.list? k = none) : Tracks k b none
  | recording {d : Descriptor} {t : Track} (hlist : b.leases.list? k = some d)
      (hused : d.used = t.words.length) (hholds : b.memory.Holds d.start d.capacity t.words t.before) :
      Tracks k b (some t)

variable {b b' u : Bench} {k : Core} {d x : Descriptor} {o : Option Track} {t : Track} {ws : List UInt32}

theorem Tracks.eq_some (h : Tracks k b o) (hlist : b.leases.list? k = some d) : ∃ t, o = some t := by
  cases h with
  | idle hnone => cases hnone.symm.trans hlist
  | recording => exact ⟨_, rfl⟩

theorem Tracks.isSome (h : Tracks k b o) : o.isSome = (b.leases.list? k).isSome := by
  cases h with
  | idle hlist => rw [hlist]; rfl
  | recording hlist => rw [hlist]; rfl

/-- The words of the list can be read. -/
theorem Tracks.contents (h : Tracks k b o) :
    (b.leases.list? k).map (·.contents b.memory) = o.map (some ·.words) := by
  cases h with
  | idle hlist => rw [hlist]; rfl
  | @recording d t hlist hused hholds =>
    rw [← List.append_nil t.words] at hholds
    rw [hlist, Option.map_some, Option.map_some, Descriptor.contents, hused, hholds.readWords]
    rfl

/-- A list was just bound. -/
theorem tracks_bound (hslot : b.leases.list? k = some d) (hused : d.used = 0) :
    Tracks k b (some ⟨b.memory, []⟩) :=
  .recording hslot hused (.start ..)

theorem Tracks.kept (h : Tracks k b o) (hkept : Kept k b b') : Tracks k b' o := by
  cases h with
  | idle hlist => exact .idle (hkept.list.trans hlist)
  | recording hlist hused hholds =>
    exact .recording (hkept.list.trans hlist) hused (hholds.same (hkept.memory _ hlist))

/-- **One word** is noted as it is written. -/
theorem Word.tracks {w : UInt32} (hword : Word k w b b') (h : Tracks k b o)
    (hshort : ∀ d ∈ b.leases.list? k, d.capacity ≤ 2 ^ 30) : Tracks k b' (o.map (·.wrote [w])) := by
  obtain ⟨hslot, hroom, hwrite⟩ := hword
  cases h with
  | idle hlist =>
    refine .idle (Leases.list?_eq_none.2 fun e he => ?_)
    rw [Leases.active_setActive_self] at he
    cases he
    have hring := Leases.list?_eq_none.1 hlist _ hslot
    exact hring
  | recording hlist hused hholds =>
    obtain ⟨hactive, hbacking⟩ := Leases.list?_eq_some.1 hlist
    cases hslot.symm.trans hactive
    refine .recording (Leases.list?_eq_some.2 ⟨Leases.active_setActive_self .., hbacking⟩) ?_ ?_
    · simp [Track.wrote, hused]
    · rw [Descriptor.cursor, hused] at hwrite
      exact hholds.write (hused ▸ hroom) (hshort _ hlist) hwrite

theorem Words.tracks (hwords : Words k ws b b') (h : Tracks k b o)
    (hshort : ∀ d ∈ b.leases.list? k, d.capacity ≤ 2 ^ 30) : Tracks k b' (o.map (·.wrote ws)) := by
  induction hwords with
  | nil => simpa [Track.wrote] using h
  | concat hwords hword ih =>
    have hstep := hword.tracks (ih h hshort) fun e he => ?_
    · simpa [Track.wrote, Function.comp_def] using hstep
    · obtain ⟨hslot, hbacking⟩ := Leases.list?_eq_some.1 he
      obtain ⟨d, hd, rfl⟩ := hwords.slot_of hslot
      exact hshort d (Leases.list?_eq_some.2 ⟨hd, hbacking⟩)

/-- What the storage of a list holds after more words. -/
theorem Tracks.of_words (h : Tracks k b (some t)) (hwords : Words k ws b u)
    (hshort : ∀ d ∈ b.leases.list? k, d.capacity ≤ 2 ^ 30) (hslot : b.leases.active k = some d) :
    d.used = t.words.length ∧ u.memory.Holds d.start d.capacity (t.words ++ ws) t.before := by
  have hpast := hwords.tracks h hshort
  have hslot' := hwords.slot hslot
  cases h with
  | recording hlist hused hholds =>
    cases hslot.symm.trans (Leases.list?_eq_some.1 hlist).1
    rw [Option.map_some] at hpast
    cases hpast with
    | recording hlist' hused' hholds' =>
      cases hslot'.symm.trans (Leases.list?_eq_some.1 hlist').1
      exact ⟨hused, hholds'⟩

/-! ## Events -/

/-- What is asked of the bench that an event finds, so that only `k` touches the list of `k`. -/
structure Sheltered (c : Config) (k : Core) (e : Event) (b : Bench) : Prop where
  valid : c.validate = .ok ()
  padAlign : b.padAlign = c.padAlign
  phase : b.phase = .rest
  disciplined : Disciplined b
  conserving : Conserving c b
  spares : ∀ d ∈ b.leases.list? k, d.Secluded k b.leases b.ring ∧ ∀ a ∈ e.poked?, a.Apart 1 d.start d.capacity

namespace Sheltered

variable {c : Config} {e : Event}

theorem short (h : Sheltered c k e b) : ∀ d ∈ b.leases.list? k, d.capacity ≤ 2 ^ 30 :=
  fun d hd => (h.spares d hd).1.short

theorem isPowerOfTwo (h : Sheltered c k e b) : Config.isPowerOfTwo c.padAlign = true :=
  (c.validate_eq_ok_iff.1 h.valid).2.2.1

/-- Words of another core go elsewhere. -/
theorem words (h : Sheltered c k e b) {k' : Core} (hwords : Words k' ws b u) (hne : k' ≠ k) : Kept k b u :=
  hwords.kept (Ne.symm hne) fun _ hslot d hd =>
    h.conserving.apart h.valid h.disciplined h.phase (h.spares d hd).1 (Ne.symm hne) hslot

theorem padded (h : Sheltered c k e b) (hpadded : Padded b u d x) (hne : b.current ≠ k) : Kept k b u := by
  obtain ⟨aligned, -, -, hwords⟩ := hpadded.words
  exact h.words hwords hne

/-- What is stored beside the pool goes elsewhere. -/
theorem poke {a : Address} {w : UInt32} {m : Memory} (h : Sheltered c k (.poke a w) b)
    (hwrite : b.memory.write a w = .ok m) : Kept k b { b with memory := m } := by
  refine ⟨rfl, fun d hd i hi => Memory.read_write_of_ne hwrite fun he => ?_⟩
  have hne := ((h.spares d hd).2 a rfl).word_ne Nat.zero_lt_one hi
  rw [Address.addWords_zero] at hne
  exact hne he.symm

/-- Once it is padded, a list is as it has to be to be handed over. -/
theorem handover (h : Sheltered c b.current e b) (hpadded : Padded b u d x) (htracks : Tracks b.current b (some t))
    {how : Handing} (htold : how.Tells d.start (4 * x.used)) :
    Handover.Faithful c.padAlign ⟨t, d, u.memory, how⟩ ∧ d.contents u.memory = some t.words := by
  have hpow := h.isPowerOfTwo
  rw [← h.padAlign] at hpow ⊢
  obtain ⟨hleast, hle, hwords⟩ := hpadded.aligned hpow
  obtain ⟨hused, hholds⟩ := htracks.of_words hwords h.short hpadded.slot
  rw [hused] at hleast hholds
  have hlength : (t.words ++ .replicate (x.used - t.words.length) padWord).length = x.used := by
    rw [List.length_append, List.length_replicate, Nat.add_sub_cancel' hleast.1.2]
  refine ⟨⟨x.used, hleast, ?_, hle, fun i hi => hholds.rest i (hlength.le.trans hi), htold⟩, ?_⟩
  · have hread := Memory.readWords_eq_ok hholds.words
    rwa [hlength] at hread
  · rw [Descriptor.contents, hused, hholds.readWords]
    rfl

end Sheltered

/-- What events keep of the notes on `k`. -/
structure Recorded (align : Nat) (k : Core) (b : Bench) (r : Recording) : Prop where
  handed : ∀ h ∈ r.handed, h.Faithful align
  tracks : Tracks k b r.current
  written : ∃ ws, joined (r.handed.map Handover.contents) = some ws ∧
    ws ++ (r.current.map Track.words).getD [] = r.written

variable {align : Nat} {c : Config} {e : Event} {r : Recording}

namespace Recorded

theorem kept (h : Recorded align k b r) (hkept : Kept k b b') : Recorded align k b' r :=
  ⟨h.handed, h.tracks.kept hkept, h.written⟩

theorem begun (htracks : Tracks k b' (some ⟨b'.memory, []⟩)) : Recorded align k b' (.begun b'.memory) :=
  ⟨nofun, htracks, [], rfl, rfl⟩

theorem wrote (h : Recorded align k b r) (hwords : Words k ws b b')
    (hshort : ∀ d ∈ b.leases.list? k, d.capacity ≤ 2 ^ 30) : Recorded align k b' (r.wrote ws) := by
  have htracks := hwords.tracks h.tracks hshort
  obtain ⟨vs, hvs, hwritten⟩ := h.written
  unfold Recording.wrote
  cases hcurrent : r.current with
  | none => exact ⟨h.handed, by simpa [hcurrent] using htracks, h.written⟩
  | some t =>
    rw [hcurrent] at htracks hwritten
    refine ⟨h.handed, htracks, vs, hvs, ?_⟩
    simp [Track.wrote, ← hwritten]

/-- The list in the slot is padded and handed over. -/
theorem handOver (h : Recorded c.padAlign b.current b r) (hb : Sheltered c b.current e b)
    (hpadded : Padded b u d x) {how : Handing} (htold : how.Tells d.start (4 * x.used)) {next : Option Track}
    (htracks : Tracks b.current b' next) (hnext : (next.map Track.words).getD [] = []) :
    Recorded c.padAlign b.current b' (r.handOver (b.leases.active b.current) u.memory how next) := by
  obtain ⟨t, hcurrent⟩ := h.tracks.eq_some (Leases.list?_eq_some.2 ⟨hpadded.slot, hpadded.list⟩)
  obtain ⟨hfaithful, hcontents⟩ := hb.handover hpadded (hcurrent ▸ h.tracks) htold
  obtain ⟨vs, hvs, hwritten⟩ := h.written
  rw [hcurrent] at hwritten
  unfold Recording.handOver
  rw [hcurrent, hpadded.slot]
  refine ⟨?_, htracks, vs ++ t.words, ?_, ?_⟩
  · intro e he
    rcases List.mem_append.1 he with he | he
    · exact h.handed e he
    · cases List.mem_singleton.1 he
      exact hfaithful
  · rw [List.map_append]
    exact joined_concat_eq_some.2 ⟨vs, t.words, hvs, hcontents, rfl⟩
  · simpa [hnext] using hwritten

/-- Recording goes on in another list. -/
theorem replaced (h : Recorded c.padAlign b.current b r) (hb : Sheltered c b.current e b)
    (hpadded : Padded b u d x) {next : Descriptor} (hlist : next.backing = .displayList) (hused : next.used = 0)
    (words : Nat) : Recorded c.padAlign b.current (u.replaced x next words)
      (r.handOver (b.leases.active b.current) u.memory (.overrun words [x.question words])
        (some ⟨u.memory, []⟩)) := by
  have htold := tells_question x words
  rw [hpadded.start] at htold
  refine h.handOver hb hpadded htold (tracks_bound ?_ hused) rfl
  rw [← hpadded.beside.current]
  exact (Leases.list?_setHeld ..).trans (Leases.list?_setActive_list _ _ hlist)

end Recorded

/-- **One event** is noted as it happened. -/
theorem Turn.recorded (hb : Sheltered c k e b) (hturn : Turn e b b') {asked : Memory}
    (hasked : b'.overruns = b.overruns ∨ (b.current = k → asked = b'.memory)) {bytes : Nat}
    (hbytes : ∀ storage, e = .finalizeDisplayList storage →
      ∃ u d x, Padded b u d x ∧ bytes = x.used * wordBytes)
    (h : Recorded c.padAlign k b r) : Recorded c.padAlign k b' (r.note k b b' asked bytes e) := by
  have hdisciplined := hb.disciplined
  cases hturn with
  | enter c => exact h.kept (.of_memory rfl rfl)
  | poke hwrite => exact h.kept (hb.poke hwrite)
  | shut hthrough hheld =>
    rw [note_through hthrough, if_neg (by simp [hheld])]
    exact h
  | write hthrough hheld hwords =>
    rw [note_through hthrough]
    split
    · rename_i hown
      obtain ⟨rfl, -⟩ := hown
      exact h.wrote hwords hb.short
    · rename_i hother
      exact h.kept (hb.words hwords fun hk => hother ⟨hk, hheld⟩)
  | init hmain hslot hattach hmoves =>
    refine h.kept (.trans ?_ (hmoves.kept (hdisciplined.attach hb.phase hmain hslot _) k))
    exact .of_memory rfl rfl
  | shutdown hmoves hvacant hdetach =>
    exact h.kept ((hmoves.kept hdisciplined k).trans (.of_memory rfl rfl))
  | record hmoves hrest hslot =>
    rw [Recording.note]
    by_cases hk : b.current = k
    · rw [if_pos hk, ← hk, ← hmoves.onCore.current]
      exact .begun (tracks_bound (Leases.list?_setActive_list _ _ rfl) rfl)
    · rw [if_neg hk]
      rw [← hmoves.onCore.current] at hk
      exact h.kept ((hmoves.kept hdisciplined k).trans (Bench.kept_setSlot _ _ _ hk))
  | grow hpadded hfull hlist hused =>
    by_cases hk : b.current = k
    · subst hk
      rw [note_replaced hpadded]
      rcases hasked with hsame | hmemory
      · -- a question was put
        have hlength := congrArg List.length hsame
        simp [Bench.replaced, Bench.setHeld, Bench.setSlot, Bench.asked, hpadded.beside.overruns] at hlength
      · rw [hmemory rfl]
        exact h.replaced hb hpadded hlist hused _
    · rw [Recording.note, if_neg fun hn => hk hn.1]
      refine h.kept ((hb.padded hpadded hk).trans (Bench.kept_replaced _ _ _ _ ?_))
      rwa [hpadded.beside.current]
  | finalize hpadded hstart hmoves =>
    rw [Recording.note]
    have hu := hpadded.disciplined hdisciplined hb.phase
    have hrest := hpadded.beside.phase.trans hb.phase
    have hemptied := hmoves.kept (hu.discard hrest hpadded.slot_current hpadded.backing) k
    by_cases hk : b.current = k
    · subst hk
      obtain ⟨u', d', x', hpadded', rfl⟩ := hbytes _ rfl
      rw [if_pos rfl, hpadded'.size hpadded, hmoves.onCore.memory]
      refine h.handOver hb hpadded (tells_bytes ..) (.idle ?_) rfl
      rw [hemptied.list, ← hpadded.beside.current]
      exact Leases.list?_setActive_none ..
    · rw [if_neg hk]
      refine h.kept ((hb.padded hpadded hk).trans (.trans (Bench.kept_setSlot _ _ _ ?_) hemptied))
      rwa [hpadded.beside.current]
  | plain hplain hmoves =>
    rw [note_plain hplain hmoves.onCore.overruns]
    exact h.kept (hmoves.kept hdisciplined k)

/-! ## Runs -/

variable {m : Core} {s s' : Session} {r' : Recording}

/-- What runs keep, with main core `m` and an observer of `k`. -/
structure Observed (c : Config) (m k : Core) (s : Session) (r : Recording) : Prop where
  steady : Steady c m s
  padAlign : s.pool.config.padAlign = c.padAlign
  recorded : Recorded c.padAlign k (s.bench .rest) r

namespace Step

theorem observe_observed (hc : c.validate = .ok ()) (he : e.Short) (hspares : e.Spares k s)
    (h : Observed c m k s r) (hs : observe k r e s = .ok r' s') :
    perform e s = .ok () s' ∧ Observed c m k s' r' := by
  obtain ⟨bytes, hattend, rfl⟩ := observe_eq_ok hs
  have hring := h.steady.disciplined.ringAtMain
  have hperform := perform_of_attend hattend
  obtain ⟨hturn, -⟩ := (perform_turn hring e).ok hperform
  have hb : Sheltered c k e (s.bench .rest) :=
    ⟨hc, h.padAlign, rfl, h.steady.disciplined, h.steady.conserving, hspares⟩
  refine ⟨hperform, perform_steady hc he h.steady hperform, hturn.fixed.2.trans h.padAlign, ?_⟩
  refine hturn.recorded hb (asked_of_perform hring hperform) ?_ h.recorded
  rintro storage rfl
  exact ((finalizeDisplayList_bytes storage).ok hattend).2

theorem observeAll_observed (hc : c.validate = .ok ()) {es : List Event} (hes : ∀ e ∈ es, e.Short)
    (hspares : ∀ p ∈ trail es s, p.1.Spares k p.2) (h : Observed c m k s r)
    (hs : observeAll k es r s = .ok r' s') : Observed c m k s' r' := by
  induction es generalizing s r with
  | nil =>
    cases hs
    exact h
  | cons e es ih =>
    obtain ⟨r₁, s₁, h₁, hs⟩ := bind_eq_ok_iff.1 hs
    obtain ⟨hperform, hnext⟩ := observe_observed hc (hes e List.mem_cons_self)
      (hspares _ List.mem_cons_self) h h₁
    refine ih (fun e he => hes e (List.mem_cons_of_mem _ he)) (fun p hp => hspares p ?_) hnext hs
    rw [trail, hperform]
    exact List.mem_cons_of_mem _ hp

end Step

theorem Observed.faithful (h : Observed c m k s r) : r.Faithful c.padAlign k s := by
  obtain ⟨vs, hvs, hwritten⟩ := h.recorded.written
  have htracks := h.recorded.tracks
  refine ⟨h.recorded.handed, htracks.isSome, ?_⟩
  rw [← Option.toList_map]
  refine joined_append_eq_some.2 ⟨vs, _, hvs, ?_, hwritten⟩
  refine (congrArg (fun o => joined (Option.toList o)) htracks.contents).trans ?_
  cases r.current <;> simp [joined]

theorem observed_start {pool : Pool} (hpool : Pool.ofConfig c = .ok pool) (topology : Topology)
    (memory : Memory) (k : Core) : c.validate = .ok () ∧
      Observed c topology.main k (.start pool topology memory) .empty := by
  obtain ⟨hc, hsteady⟩ := steady_start hpool topology memory
  obtain ⟨-, rfl⟩ := Pool.ofConfig_eq_ok hpool
  refine ⟨hc, hsteady, rfl, nofun, .idle ?_, [], rfl, rfl⟩
  rw [Leases.list?_eq_none]
  intro d hd
  cases (Leases.active_allIdle k).symm.trans hd

/-- **Recording is faithful** on every core, in every state of every script that spares the list the
core records into. -/
theorem recorded_run {c : Config} {pool : Pool} (hpool : Pool.ofConfig c = .ok pool) (topology : Topology)
    (memory : Memory) (k : Core) {es : List Event} (hes : ∀ e ∈ es, e.Short)
    (hspares : ∀ p ∈ Step.trail es (.start pool topology memory), p.1.Spares k p.2) {r : Recording}
    {s : Session} (hs : Step.observeAll k es .empty (.start pool topology memory) = .ok r s) :
    r.Faithful c.padAlign k s := by
  obtain ⟨hc, hstart⟩ := observed_start hpool topology memory k
  exact (Step.observeAll_observed hc hes hspares hstart hs).faithful

/-- Core two records three words, is asked for four more when there is room for three, and goes on in
other storage. Meanwhile the main core writes into the ring and submits. -/
theorem recorded_run_overrun :
    let c : Config := ⟨4, 8, 4, 4⟩
    let pool : Pool := ⟨c, .ofConfig c, .ofCapacity 4, .allIdle⟩
    let es : List Event := [
      .init ⟨0x1000⟩ 8, .enter .two, .beginDisplayList ⟨0x1020⟩ 6, .getBuffer 3, .writeAll .two [1, 2, 3],
      .enter .one, .getBuffer 2, .writeAll .one [10, 11], .dropWriter .one, .flush, .poke ⟨0x1058⟩ 9,
      .enter .two, .dropWriter .two, .offer (some ⟨⟨0x1038⟩, 34⟩), .getBuffer 4,
      .writeAll .two [4, 5, 6, 7], .write .two 8, .dropWriter .two, .finalizeDisplayList ⟨0x1038⟩]
    let start : Session := .start pool .standard (.zeroed ⟨0x1000⟩ 24)
    Pool.ofConfig c = .ok pool ∧ (∀ e ∈ es, e.Short) ∧ (∀ p ∈ Step.trail es start, p.1.Spares .two p.2) ∧
      ∃ r s, Step.observeAll .two es .empty start = .ok r s ∧
        (r.handed.map fun h => (h.contents, h.how), r.current, r.written) =
          ([(some [1, 2, 3], .overrun 4 [⟨⟨0x1020⟩, 16, 16⟩]), (some [4, 5, 6, 7, 8], .finalized 32)], none,
            [1, 2, 3, 4, 5, 6, 7, 8]) ∧
        r.Faithful 4 .two s := by
  refine ⟨rfl, by simp [Event.Short], by decide +kernel, Step.ok_of_answer (by decide +kernel) fun _ _ hs => ?_⟩
  exact recorded_run (c := ⟨4, 8, 4, 4⟩) rfl _ _ _ (by simp [Event.Short]) (by decide +kernel) hs

end CommandPool
