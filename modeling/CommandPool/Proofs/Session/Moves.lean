import CommandPool.Proofs.Padding
import CommandPool.Proofs.Session.Account
import CommandPool.Proofs.Session.Script
import CommandPool.Proofs.Session.Logic
/-!
# The moves of a call

What a call does to the ring, to the queue and to the slot of the main core it does in moves of a few
kinds (`Move`). How far it is with the buffer of the main core is its phase: the buffer is taken out of
the slot and cut to its words, goes to the queue, the lease is taken, a grant is waited for, the new
buffer goes to the slot. The consumer may move at any time. Words, on the other hand, go to the buffer
in a slot one by one, and never in the middle of moves (`Words`).

An event of a script is a `Turn`: moves, or words, or both, and what it does to the list in a slot. So
what moves, words and the steps of a list keep is kept by every script. The `Bench` is what they work
on.
-/
namespace CommandPool

/-! ## Moves -/

/-- How far a call is with the buffer of the main core. -/
inductive Phase where
  /-- Nothing is in the hands of a call. -/
  | rest
  /-- The buffer was taken from its slot and cut to its words. -/
  | closed (d : Descriptor)
  /-- The slot of the main core is empty. -/
  | vacant
  /-- The lease is taken for a buffer to come. -/
  | leased
  /-- The buffer has its grant. -/
  | granted (d : Descriptor)
deriving DecidableEq, Repr

/-- What a call works on. -/
structure Bench where
  phase : Phase
  current : Core
  main : Core
  padAlign : Nat
  leases : Leases
  ring : Ring
  submitted : List Descriptor
  memory : Memory
  overruns : List Overrun

def Session.bench (s : Session) (p : Phase) : Bench :=
  ⟨p, s.console.topology.current, s.console.topology.main, s.pool.config.padAlign, s.pool.leases,
    s.pool.ring, s.console.submitted, s.console.memory, s.journal.overruns⟩

/-- One move, of the call or of the consumer. -/
inductive Move : Bench → Bench → Prop
  | close {b : Bench} {d : Descriptor} {r : Ring} (hphase : b.phase = .rest)
      (hslot : b.leases.active b.current = some d) (hring : d.backing = .ring)
      (hleased : b.leases.leased = true)
      (hshrink : b.ring.shrink d.start d.used d.capacity = .ok () r) :
      Move b { b with
        phase := if d.used = 0 then .vacant else .closed { d with capacity := d.used }
        leases := { b.leases.setActive b.current none with leased := false }
        ring := r }
  | submit {b : Bench} {d : Descriptor} {stamp : Nat} (hphase : b.phase = .closed d) :
      Move b { b with phase := .vacant, submitted := b.submitted ++ [{ d with stamp := stamp }] }
  | vacate {b : Bench} (hphase : b.phase = .rest) (hmain : b.current = b.main)
      (hslot : b.leases.active b.current = none) : Move b { b with phase := .vacant }
  | lease {b : Bench} (hphase : b.phase = .vacant) (hleased : b.leases.leased = false) :
      Move b { b with phase := .leased, leases := { b.leases with leased := true } }
  | stall {b : Bench} {wanted : Nat} {r : Ring} (hphase : b.phase = .leased)
      (hstall : b.ring.acquire wanted = .error (.refused .insufficient) r) : Move b { b with ring := r }
  | grant {b : Bench} {wanted : Nat} {a : Acquired} {r : Ring} {d : Descriptor}
      (hphase : b.phase = .leased) (hgrant : b.ring.acquire wanted = .ok a r) (hring : d.backing = .ring)
      (hused : d.used = 0) (hd : d.grant = a.grant) : Move b { b with phase := .granted d, ring := r }
  | seat {b : Bench} {d : Descriptor} (hphase : b.phase = .granted d) :
      Move b { b with phase := .rest, leases := b.leases.setActive b.current (some d) }
  | hold {b : Bench} {c : Core} {held : Bool} : Move b { b with leases := b.leases.setHeld c held }
  | queue {b : Bench} {d : Descriptor} (hlist : d.backing = .displayList) (hused : d.used = d.capacity) :
      Move b { b with submitted := b.submitted ++ [d] }
  | free {b : Bench} {d : Descriptor} {ds : List Descriptor} {r : Ring} (hsub : b.submitted = d :: ds)
      (hring : d.backing = .ring) (hused : d.used = d.capacity)
      (hrelease : b.ring.release d.start d.capacity = .ok () r) :
      Move b { b with submitted := ds, ring := r }
  | drop {b : Bench} {d : Descriptor} {ds : List Descriptor} (hsub : b.submitted = d :: ds)
      (hlist : d.backing = .displayList) : Move b { b with submitted := ds }

abbrev Moves : Bench → Bench → Prop := Relation.ReflTransGen Move

/-! ## Words -/

/-- The word `w` goes to the buffer in the slot of `c`. -/
inductive Word (c : Core) (w : UInt32) : Bench → Bench → Prop
  | intro {b : Bench} {d : Descriptor} {m : Memory} (hslot : b.leases.active c = some d)
      (hroom : d.used < d.capacity) (hwrite : b.memory.write d.cursor w = .ok m) :
      Word c w b { b with
        leases := b.leases.setActive c (some { d with used := d.used + 1 })
        memory := m }

/-- The words `ws` go to the buffer in the slot of `c`, one after the other. -/
inductive Words (c : Core) : List UInt32 → Bench → Bench → Prop
  | nil (b : Bench) : Words c [] b b
  | concat {ws : List UInt32} {w : UInt32} {b u b' : Bench} (hwords : Words c ws b u)
      (hword : Word c w u b') : Words c (ws ++ [w]) b b'

/-- The list `d` of the calling core is padded, and then is `x`. -/
structure Padded (b u : Bench) (d x : Descriptor) : Prop where
  slot : b.leases.active b.current = some d
  list : d.backing = .displayList
  words : ∃ aligned, Counter.alignUp d.used b.padAlign = .ok aligned ∧ aligned ≤ d.capacity ∧
    Words b.current (.replicate (aligned - d.used) padWord) b u
  padded : u.leases.active b.current = some x

/-! ## Turns -/

/-- The words that an event brings through the writer of a core. -/
def Event.through? : Event → Option (Core × List UInt32)
  | .write c w => some (c, [w])
  | .writeAll c ws => some (c, ws)
  | _ => none

/-- An event that is nothing but moves: it is not for the main core alone, no words come with it, and
it is not about a list, unless that has room enough. -/
def Event.Plain (b : Bench) : Event → Prop
  | .enter _ => False
  | .poke _ _ => False
  | .init _ _ => False
  | .shutdown => False
  | .write _ _ => False
  | .writeAll _ _ => False
  | .beginDisplayList _ _ => False
  | .finalizeDisplayList _ => False
  | .getBuffer words => ∀ d, b.leases.active b.current = some d → d.backing = .displayList → d.Fits words
  | _ => True

/-- The bench after the slot of the calling core was set. -/
def Bench.setSlot (b : Bench) (p : Phase) (o : Option Descriptor) : Bench :=
  { b with phase := p, leases := b.leases.setActive b.current o }

/-- The bench after the writer of a core was opened or dropped. -/
def Bench.setHeld (b : Bench) (c : Core) (held : Bool) : Bench :=
  { b with leases := b.leases.setHeld c held }

/-- The bench after a question was put. -/
def Bench.asked (b : Bench) (question : Overrun) : Bench :=
  { b with overruns := b.overruns ++ [question] }

/-- The question about the list `x` when there is no room for so many words. -/
def Descriptor.question (x : Descriptor) (words : Nat) : Overrun :=
  ⟨x.start, x.used * wordBytes, Counter.clampedMul words wordBytes⟩

/-- The bench after the list `x` of the calling core was replaced by another one. -/
def Bench.replaced (b : Bench) (x next : Descriptor) (words : Nat) : Bench :=
  ((b.asked (x.question words)).setSlot b.phase (some next)).setHeld b.current true

/-- The bench after the list of the calling core was taken out of its slot. -/
def Bench.cleared (b : Bench) : Bench :=
  b.setSlot (if b.current = b.main then .vacant else .rest) none

/-- What happens in an event. -/
inductive Turn : Event → Bench → Bench → Prop
  | enter {b : Bench} (c : Core) : Turn (.enter c) b { b with current := c }
  | poke {b : Bench} {a : Address} {w : UInt32} {m : Memory} (hwrite : b.memory.write a w = .ok m) :
      Turn (.poke a w) b { b with memory := m }
  | shut {e : Event} {b : Bench} {c : Core} {ws : List UInt32} (hthrough : e.through? = some (c, ws))
      (hheld : b.leases.held c = false) : Turn e b b
  | write {e : Event} {b b' : Bench} {c : Core} {ws : List UInt32} (hthrough : e.through? = some (c, ws))
      (hheld : b.leases.held c = true) (hwords : Words c ws b b') : Turn e b b'
  | init {b b' : Bench} {base : Address} {size : Nat} {r : Ring} (hmain : b.current = b.main)
      (hslot : b.leases.active b.current = none) (hattach : b.ring.attach base size = .ok () r)
      (hmoves : Moves { b with phase := .vacant, ring := r } b') : Turn (.init base size) b b'
  | shutdown {b u : Bench} {r : Ring} (hmoves : Moves b u) (hphase : u.phase = .vacant)
      (hdetach : u.ring.detach = .ok () r) : Turn .shutdown b { u with phase := .rest, ring := r }
  | record {b u : Bench} {storage : Address} {words : Nat} {d : Descriptor} (hmoves : Moves b u)
      (hphase : u.phase = .rest ∨ u.phase = .vacant) (hslot : u.leases.active u.current = none) :
      Turn (.beginDisplayList storage words) b
        (u.setSlot .rest (some (d.bind storage 0 words .displayList)))
  | grow {b u : Bench} {words : Nat} {d x next : Descriptor} (hpadded : Padded b u d x)
      (hfull : ¬ d.Fits words) (hlist : next.backing = .displayList) (hused : next.used = 0) :
      Turn (.getBuffer words) b (u.replaced x next words)
  | finalize {b u b' : Bench} {storage : Address} {d x : Descriptor} (hpadded : Padded b u d x)
      (hstart : d.start = storage)
      (hmoves : Moves u.cleared b') : Turn (.finalizeDisplayList storage) b b'
  | plain {e : Event} {b b' : Bench} (hplain : e.Plain b) (hmoves : Moves b b') : Turn e b b'

/-! ## What moves and words leave alone -/

/-- What no move changes. -/
structure OnCore (b b' : Bench) : Prop where
  current : b'.current = b.current
  main : b'.main = b.main
  padAlign : b'.padAlign = b.padAlign
  memory : b'.memory = b.memory
  overruns : b'.overruns = b.overruns

theorem OnCore.trans {b b' b'' : Bench} (h : OnCore b b') (h' : OnCore b' b'') : OnCore b b'' :=
  ⟨h'.current.trans h.current, h'.main.trans h.main, h'.padAlign.trans h.padAlign,
    h'.memory.trans h.memory, h'.overruns.trans h.overruns⟩

theorem Move.onCore {b b' : Bench} (h : Move b b') : OnCore b b' := by
  cases h <;> exact ⟨rfl, rfl, rfl, rfl, rfl⟩

theorem Moves.onCore {b b' : Bench} (h : Moves b b') : OnCore b b' := by
  induction h with
  | refl => exact ⟨rfl, rfl, rfl, rfl, rfl⟩
  | tail _ hmove ih => exact ih.trans hmove.onCore

/-- `b'` is `b` but for the slot of `c` and the memory. -/
structure Beside (c : Core) (b b' : Bench) : Prop where
  phase : b'.phase = b.phase
  current : b'.current = b.current
  main : b'.main = b.main
  padAlign : b'.padAlign = b.padAlign
  ring : b'.ring = b.ring
  submitted : b'.submitted = b.submitted
  overruns : b'.overruns = b.overruns
  leased : b'.leases.leased = b.leases.leased
  slots : ∀ k, k ≠ c → b'.leases.active k = b.leases.active k

theorem Beside.refl (c : Core) (b : Bench) : Beside c b b :=
  ⟨rfl, rfl, rfl, rfl, rfl, rfl, rfl, rfl, fun _ _ => rfl⟩

theorem Beside.trans {b b' b'' : Bench} {c : Core} (h : Beside c b b') (h' : Beside c b' b'') :
    Beside c b b'' :=
  ⟨h'.phase.trans h.phase, h'.current.trans h.current, h'.main.trans h.main,
    h'.padAlign.trans h.padAlign, h'.ring.trans h.ring, h'.submitted.trans h.submitted,
    h'.overruns.trans h.overruns, h'.leased.trans h.leased,
    fun k hk => (h'.slots k hk).trans (h.slots k hk)⟩

theorem Word.beside {b b' : Bench} {c : Core} {w : UInt32} (h : Word c w b b') : Beside c b b' := by
  cases h
  exact ⟨rfl, rfl, rfl, rfl, rfl, rfl, rfl, rfl, fun k hk => Leases.active_setActive_of_ne _ _ hk⟩

theorem Words.beside {b b' : Bench} {c : Core} {ws : List UInt32} (h : Words c ws b b') : Beside c b b' := by
  induction h with
  | nil b => exact .refl c b
  | concat _ hword ih => exact ih.trans hword.beside

/-- The buffer that is written into stays where it is and counts its words. -/
theorem Words.slot {b b' : Bench} {c : Core} {ws : List UInt32} (h : Words c ws b b') {d : Descriptor}
    (hd : b.leases.active c = some d) :
    b'.leases.active c = some { d with used := d.used + ws.length } := by
  induction h with
  | nil b => exact hd
  | concat _ hword ih =>
    obtain ⟨hslot, -, -⟩ := hword
    cases hslot.symm.trans (ih hd)
    rw [Leases.active_setActive_self, List.length_append, List.length_singleton, Nat.add_assoc]

theorem Words.slot_of {b b' : Bench} {c : Core} {ws : List UInt32} (h : Words c ws b b') {d' : Descriptor}
    (hd' : b'.leases.active c = some d') :
    ∃ d, b.leases.active c = some d ∧ d' = { d with used := d.used + ws.length } := by
  induction h generalizing d' with
  | nil b => exact ⟨d', hd', rfl⟩
  | concat _ hword ih =>
    obtain ⟨hslot, -, -⟩ := hword
    obtain ⟨d, hd, rfl⟩ := ih hslot
    rw [Leases.active_setActive_self] at hd'
    cases hd'
    exact ⟨d, hd, by rw [List.length_append, List.length_singleton, Nat.add_assoc]⟩

theorem Padded.used {b u : Bench} {d x : Descriptor} (h : Padded b u d x) :
    x = { d with used := x.used } := by
  obtain ⟨aligned, -, -, hwords⟩ := h.words
  have hx := hwords.slot h.slot
  rw [h.padded] at hx
  cases hx
  rfl

theorem Padded.backing {b u : Bench} {d x : Descriptor} (h : Padded b u d x) : x.backing = .displayList := by
  rw [h.used]
  exact h.list

theorem Padded.start {b u : Bench} {d x : Descriptor} (h : Padded b u d x) : x.start = d.start := by
  rw [h.used]

/-- A list is padded to the next multiple of the alignment. -/
theorem Padded.aligned {b u : Bench} {d x : Descriptor} (h : Padded b u d x)
    (hpow : Config.isPowerOfTwo b.padAlign = true) :
    IsLeast {n | b.padAlign ∣ n ∧ d.used ≤ n} x.used ∧ x.used ≤ d.capacity ∧
      Words b.current (.replicate (x.used - d.used) padWord) b u := by
  obtain ⟨aligned, hup, hle, hwords⟩ := h.words
  have hleast := alignUp_isLeast hpow hup
  have hge : d.used ≤ aligned := hleast.1.2
  cases (hwords.slot h.slot).symm.trans h.padded
  rw [List.length_replicate, Nat.add_sub_cancel' hge]
  exact ⟨hleast, hle, hwords⟩

/-- Two ways of padding come to the same size. -/
theorem Padded.size {b u u' : Bench} {d d' x x' : Descriptor} (h : Padded b u d x) (h' : Padded b u' d' x') :
    x.used = x'.used := by
  obtain ⟨aligned, hup, -, hwords⟩ := h.words
  obtain ⟨aligned', hup', -, hwords'⟩ := h'.words
  cases h.slot.symm.trans h'.slot
  cases hup.symm.trans hup'
  cases (hwords.slot h.slot).symm.trans h.padded
  cases (hwords'.slot h.slot).symm.trans h'.padded
  simp

theorem Padded.beside {b u : Bench} {d x : Descriptor} (h : Padded b u d x) : Beside b.current b u := by
  obtain ⟨aligned, -, -, hwords⟩ := h.words
  exact hwords.beside

theorem Padded.slot_current {b u : Bench} {d x : Descriptor} (h : Padded b u d x) :
    u.leases.active u.current = some x := by
  rw [h.beside.current]
  exact h.padded

/-- Buffers of the ring are in the slot of the main core only. -/
def Bench.RingAtMain (b : Bench) : Prop :=
  ∀ c d, b.leases.active c = some d → d.backing = .ring → c = b.main

/-! ## Calm stops -/

def Session.warnings (s : Session) : List Record := s.journal.records.filter (·.level = .warn)

/-- A call is turned down for its core. -/
def Stop.OffMain (e : Stop) : Prop := ∃ c, e = .fatal (.notMainCore c)

@[simp] theorem not_offMain_fatal (r : Refusal) : ¬ (Stop.fatal r).OffMain ↔ ∀ c, r ≠ .notMainCore c := by
  simp [Stop.OffMain]

@[simp] theorem not_offMain_fault (f : Fault) : ¬ (Stop.fault f).OffMain := nofun

@[simp] theorem not_offMain_hang (n : Nat) : ¬ (Stop.hang n).OffMain := nofun

/-- Whatever stops a call, it is not its core, and the warnings in the log are still `ws`. -/
def Calm (ws : List Record) (e : Stop) (t : Session) : Prop := ¬ e.OffMain ∧ t.warnings = ws

/-- The call came here from `b` by moves, and the warnings in the log are still `ws`. -/
structure Reached (b : Bench) (ws : List Record) (p : Phase) (t : Session) : Prop where
  moves : Moves b (t.bench p)
  warnings : t.warnings = ws

/-- Only attaching and detaching the region is for the main core alone. -/
def Event.mainOnly : Event → Bool
  | .init _ _ => true
  | .shutdown => true
  | _ => false

/-- How an event from `b` may stop: it is turned down for its core only if it is for the main core
alone and comes from another one. -/
def CalmEvent (e : Event) (b : Bench) (ws : List Record) (stop : Stop) (t : Session) : Prop :=
  (stop.OffMain → e.mainOnly = true ∧ b.current ≠ b.main) ∧ t.warnings = ws

/-- An event from `b` was a turn, and the warnings in the log are still `ws`. -/
structure Turned (e : Event) (b : Bench) (ws : List Record) (t : Session) : Prop where
  turn : Turn e b (t.bench .rest)
  warnings : t.warnings = ws

variable {b : Bench} {ws : List Record} {p q : Phase} {s t : Session} {c : Core}

theorem Calm.event {e : Event} {stop : Stop} (h : Calm ws stop t) : CalmEvent e b ws stop t :=
  ⟨fun hoff => absurd hoff h.1, h.2⟩

theorem warnings_reported {rs : List Record} (h : ∀ r ∈ rs, r.level ≠ .warn) :
    (s.reported rs).warnings = s.warnings := by
  have hnil : rs.filter (·.level = .warn) = [] := List.filter_eq_nil_iff.2 (by simpa using h)
  simp [Session.reported, Session.warnings, hnil]

theorem Reached.refl (s : Session) (p : Phase) : Reached (s.bench p) s.warnings p s := ⟨.refl, rfl⟩

theorem Reached.move (h : Reached b ws p s) (hmove : Move (s.bench p) (t.bench q))
    (hwarn : t.warnings = s.warnings) : Reached b ws q t :=
  ⟨h.moves.tail hmove, hwarn.trans h.warnings⟩

/-- What is not on the bench does not matter. -/
theorem Reached.same (h : Reached b ws p s) (hbench : t.bench p = s.bench p)
    (hwarn : t.warnings = s.warnings) : Reached b ws p t :=
  ⟨hbench ▸ h.moves, hwarn.trans h.warnings⟩

theorem Reached.reported (h : Reached b ws p s) (rs : List Record) (hrs : ∀ r ∈ rs, r.level ≠ .warn) :
    Reached b ws p (s.reported rs) := h.same rfl (warnings_reported hrs)

theorem Reached.debug (h : Reached b ws p s) (text : String) : Reached b ws p (s.reported [.debug text]) :=
  h.reported _ (by simp [Record.debug])

theorem Reached.current (h : Reached b ws p s) : s.console.topology.current = b.current := h.moves.onCore.current

theorem Reached.main (h : Reached b ws p s) : s.console.topology.main = b.main := h.moves.onCore.main

theorem Reached.calm (h : Reached b ws p s) {e : Stop} (he : ¬ e.OffMain) (hwarn : t.warnings = s.warnings) :
    Calm ws e t := ⟨he, hwarn.trans h.warnings⟩

theorem Reached.turned {e : Event} (hplain : e.Plain b) (h : Reached b ws .rest t) : Turned e b ws t :=
  ⟨.plain hplain h.moves, h.warnings⟩

/-! ## What the ring keeps

Whatever it is asked for, the ring stays in its region, and it is not for a core that it turns a
caller down. -/

namespace Ring

variable {α : Type} {r : Ring}

def Keeps (r : Ring) : Outcome Ring α → Prop
  | .ok _ r' => SameRegion r r'
  | .error e r' => SameRegion r r' ∧ ¬ e.toStop.OffMain

theorem keeps_refuse {e : Refusal} (he : ∀ c, e ≠ .notMainCore c) : r.Keeps (r.refuse e : Outcome Ring α) :=
  ⟨.refl r, (not_offMain_fatal e).2 he⟩

theorem keeps_overflow (o : Overflow) : r.Keeps (r.overflow o : Outcome Ring α) :=
  ⟨.refl r, not_offMain_fault _⟩

theorem Keeps.of_same {r' : Ring} {x : Outcome Ring α} (h : r'.Keeps x) (hsame : SameRegion r r') :
    r.Keeps x := by
  cases x with
  | ok a r'' => exact hsame.trans h
  | error e r'' => exact ⟨hsame.trans h.1, h.2⟩

theorem Keeps.same {x : Outcome Ring α} {a : α} {r' : Ring} (h : r.Keeps x) (hx : x = .ok a r') :
    SameRegion r r' := by
  rw [hx] at h
  exact h

theorem Keeps.same_of_error {x : Outcome Ring α} {e : Failure} {r' : Ring} (h : r.Keeps x)
    (hx : x = .error e r') : SameRegion r r' := by
  rw [hx] at h
  exact h.1

theorem Keeps.calm {x : Outcome Ring α} {e : Failure} {r' : Ring} (h : r.Keeps x) (hx : x = .error e r') :
    ¬ e.toStop.OffMain := by
  rw [hx] at h
  exact h.2

theorem keeps_shrink (r : Ring) (region : Address) (used granted : Nat) :
    r.Keeps (r.shrink region used granted) := by
  unfold shrink
  split
  · exact keeps_refuse (by simp)
  split
  · exact SameRegion.refl r
  dsimp only
  split
  · exact keeps_overflow _
  split
  · exact keeps_refuse (by simp)
  split
  · exact keeps_overflow _
  · exact SameRegion.settled ⟨rfl, rfl, rfl, rfl⟩

theorem keeps_retreat (r : Ring) (tail words : Nat) : r.Keeps (r.retreat tail words) := by
  unfold retreat
  split
  · exact keeps_overflow _
  · exact SameRegion.settled ⟨rfl, rfl, rfl, rfl⟩

theorem keeps_release (r : Ring) (region : Address) (words : Nat) : r.Keeps (r.release region words) := by
  unfold release
  split
  · exact keeps_refuse (by simp)
  split
  · exact keeps_refuse (by simp)
  split
  · exact keeps_overflow _
  rename_i reach _
  by_cases hreach : reach = r.size
  · simp only [if_pos hreach]
    have hsame : SameRegion r { r with skipped := 0 } := ⟨rfl, rfl, rfl, rfl⟩
    split
    · exact Keeps.of_same (keeps_refuse (by simp)) hsame
    · exact (keeps_retreat _ _ words).of_same hsame
  · simp only [if_neg hreach]
    split
    · exact keeps_refuse (by simp)
    · exact keeps_retreat _ _ words

theorem place_same {wanted : Nat} {p : Place} (h : r.place wanted = .ok p) : SameRegion r p.ring := by
  unfold place at h
  repeat' split at h
  all_goals cases h
  all_goals exact ⟨rfl, rfl, rfl, rfl⟩

theorem place_calm {wanted : Nat} {e : Failure} (h : r.place wanted = .error e) : ¬ e.toStop.OffMain := by
  unfold place at h
  repeat' split at h
  all_goals cases h
  all_goals simp [Failure.toStop]

theorem keeps_grant (r : Ring) (words : Nat) (skip : Option Skip) : r.Keeps (r.grant words skip) := by
  unfold grant
  split
  · exact ⟨rfl, rfl, rfl, rfl⟩
  · exact keeps_overflow _
  · exact keeps_overflow _

theorem keeps_acquire (r : Ring) (wanted : Nat) : r.Keeps (r.acquire wanted) := by
  unfold acquire
  dsimp only
  split
  · exact keeps_refuse (by simp)
  split
  · exact keeps_refuse (by simp)
  have hsame : SameRegion r r.settled := (SameRegion.refl r).settled
  split
  · exact (keeps_grant _ _ _).of_same (hsame.trans (place_same ‹_›))
  · exact ⟨⟨hsame.base, hsame.size, hsame.minGrant, hsame.maxGrant⟩, place_calm ‹_›⟩
  · exact ⟨hsame, not_offMain_fault _⟩

theorem attach_calm {r' : Ring} {base : Address} {size : Nat} {e : Failure}
    (h : r.attach base size = .error e r') : ¬ e.toStop.OffMain := by
  unfold attach refuse at h
  repeat' split at h
  all_goals cases h
  all_goals simp [Failure.toStop, ConfigDefect.refusal]

theorem detach_calm {r' : Ring} {e : Failure} (h : r.detach = .error e r') : ¬ e.toStop.OffMain := by
  unfold detach refuse at h
  repeat' split at h
  all_goals cases h
  all_goals simp [Failure.toStop]

theorem detach_ok {r' : Ring} (h : r.detach = .ok () r') :
    r.outstanding = 0 ∧ r' = detached r.minGrant r.maxGrant := by
  unfold detach refuse at h
  repeat' split at h
  all_goals cases h
  exact ⟨Decidable.not_not.1 ‹_›, rfl⟩

end Ring

/-- No move leaves the region. -/
theorem Move.region {b b' : Bench} (h : Move b b') : SameRegion b.ring b'.ring := by
  cases h with
  | close hphase hslot hring hleased hshrink => exact (b.ring.keeps_shrink _ _ _).same hshrink
  | stall hphase hstall => exact (b.ring.keeps_acquire _).same_of_error hstall
  | grant hphase hgrant hring hused hd => exact (b.ring.keeps_acquire _).same hgrant
  | free hsub hring hused hrelease => exact (b.ring.keeps_release _ _).same hrelease
  | _ => exact .refl _

theorem Moves.region {b b' : Bench} (h : Moves b b') : SameRegion b.ring b'.ring := by
  induction h with
  | refl => exact .refl _
  | tail _ hmove ih => exact ih.trans hmove.region

/-- The main core and the alignment stay the same. -/
theorem Turn.fixed {e : Event} {b b' : Bench} (h : Turn e b b') :
    b'.main = b.main ∧ b'.padAlign = b.padAlign := by
  cases h with
  | enter c => exact ⟨rfl, rfl⟩
  | poke hwrite => exact ⟨rfl, rfl⟩
  | shut hthrough hheld => exact ⟨rfl, rfl⟩
  | write hthrough hheld hwords => exact ⟨hwords.beside.main, hwords.beside.padAlign⟩
  | init hmain hslot hattach hmoves => exact ⟨hmoves.onCore.main, hmoves.onCore.padAlign⟩
  | shutdown hmoves hphase hdetach => exact ⟨hmoves.onCore.main, hmoves.onCore.padAlign⟩
  | record hmoves hphase hslot => exact ⟨hmoves.onCore.main, hmoves.onCore.padAlign⟩
  | grow hpadded hfull hlist hused => exact ⟨hpadded.beside.main, hpadded.beside.padAlign⟩
  | finalize hpadded hstart hmoves =>
    exact ⟨hmoves.onCore.main.trans hpadded.beside.main, hmoves.onCore.padAlign.trans hpadded.beside.padAlign⟩
  | plain hplain hmoves => exact ⟨hmoves.onCore.main, hmoves.onCore.padAlign⟩

/-- Questions are put only while a buffer is asked for. -/
theorem Turn.overruns {e : Event} {b b' : Bench} (h : Turn e b b') (he : ∀ words, e ≠ .getBuffer words) :
    b'.overruns = b.overruns := by
  cases h with
  | enter c => rfl
  | poke hwrite => rfl
  | shut hthrough hheld => rfl
  | write hthrough hheld hwords => exact hwords.beside.overruns
  | init hmain hslot hattach hmoves => exact hmoves.onCore.overruns
  | shutdown hmoves hphase hdetach => exact hmoves.onCore.overruns
  | record hmoves hphase hslot => exact hmoves.onCore.overruns
  | grow hpadded hfull hlist hused => exact absurd rfl (he _)
  | finalize hpadded hstart hmoves => exact hmoves.onCore.overruns.trans hpadded.beside.overruns
  | plain hplain hmoves => exact hmoves.onCore.overruns

/-- Whether a region is there after an event, if `was` says whether one was there before. -/
def Event.opens (was : Bool) : Event → Bool
  | .init _ _ => true
  | .shutdown => false
  | _ => was

/-- A region is attached from an `init` to the next `shutdown`. -/
theorem Turn.attached_iff {e : Event} {b b' : Bench} {was : Bool} (h : Turn e b b')
    (hwas : b.ring.IsAttached ↔ was = true) : b'.ring.IsAttached ↔ e.opens was = true := by
  have hkept (hsize : b'.ring.size = b.ring.size) : b'.ring.IsAttached ↔ was = true := by
    rw [Ring.IsAttached, hsize]
    exact hwas
  cases h with
  | enter c => exact hwas
  | poke hwrite => exact hwas
  | shut hthrough hheld => cases e <;> first | exact hwas | cases hthrough
  | write hthrough hheld hwords =>
    have hring := hkept (congrArg Ring.size hwords.beside.ring)
    cases e <;> first | exact hring | cases hthrough
  | init hmain hslot hattach hmoves =>
    obtain ⟨rfl, hsize⟩ := attach_spec hattach
    rw [Ring.IsAttached, hmoves.region.size]
    exact iff_of_true hsize rfl
  | shutdown hmoves hphase hdetach =>
    obtain ⟨-, rfl⟩ := Ring.detach_ok hdetach
    simp [Ring.IsAttached, Ring.detached, Event.opens]
  | record hmoves hphase hslot => exact hkept hmoves.region.size
  | grow hpadded hfull hlist hused => exact hkept (congrArg Ring.size hpadded.beside.ring)
  | finalize hpadded hstart hmoves =>
    exact hkept (hmoves.region.size.trans (congrArg Ring.size hpadded.beside.ring))
  | plain hplain hmoves =>
    have hring := hkept hmoves.region.size
    cases e <;> first | exact hring | cases hplain

end CommandPool
