import CommandPool.Proofs.OpenBuffer
import CommandPool.Proofs.Session.Logic
/-!
# Writing a run of words

A writer takes words one by one, each looked at for room, or as a run, whose room is looked at before
its first word. In storage of its own the two come to the same where the run finds room: it stands where
its words would stand one by one.

A longer run is refused. It is not begun if a counter holds its length. But the look ahead is made with
what a counter holds of the length, the remainder by 2^32, and a run for which only this remainder finds
room is let in: it fills what room there is and stops at the first word that finds none
(`longRun_changes_memory`). `byLength_writeAll` says of every run which of the three it is.
-/
namespace CommandPool

namespace Step

variable {c : Core} {s : Session} {d : Descriptor}

/-- Writes of single words, one after the other, are a run in the buffer. -/
theorem forM_write (ws : List UInt32) (hd : s.pool.leases.active c = some d) :
    ws.forM (write c) s = onActive c (OpenBuffer.pushEach ws) s := by
  induction ws generalizing s d with
  | nil =>
    have hnone : OpenBuffer.pushEach [] ⟨d, s.console.memory⟩ = .ok () ⟨d, s.console.memory⟩ := rfl
    rw [onActive_ok hd hnone, stored_self hd]
    rfl
  | cons w ws ih =>
    show EStateM.bind (write c w) (fun _ => ws.forM (write c)) s = _
    cases hb : OpenBuffer.push w ⟨d, s.console.memory⟩ with
    | error e b =>
      rw [EStateM.bind, write, onActive_error hd hb, onActive_error hd (OpenBuffer.pushEach_of_error hb ws)]
    | ok _ b =>
      have hall := OpenBuffer.pushEach_of_ok hb ws
      have hslot : (stored c b s).pool.leases.active c = some b.buffer := Leases.active_setActive_self ..
      simp only [EStateM.bind, write, onActive_ok hd hb, ih hslot]
      cases hr : OpenBuffer.pushEach ws b with
      | ok _ b' => rw [onActive_ok hslot hr, onActive_ok hd (hall.trans hr), stored_stored]
      | error e b' => rw [onActive_error hslot hr, onActive_error hd (hall.trans hr), stored_stored]

/-! ## A run, by its length -/

theorem remaining_of_active (hd : s.pool.leases.active c = some d) (hused : d.used ≤ d.capacity) :
    remaining c s = .ok (d.capacity - d.used) s := by
  have hleft : d.remaining = .ok (d.capacity - d.used) := Counter.sub_eq_ok_iff.2 ⟨hused, rfl⟩
  refine bind_eq_ok_iff.2 ⟨some d, s, ?_, ?_⟩
  · rw [← hd]
    rfl
  · simp only [hleft]
    rfl

theorem writeAll_fits {ws : List UInt32} (hd : s.pool.leases.active c = some d)
    (hstores : s.console.memory.Stores d.start d.capacity) (hroom : d.used + ws.length ≤ d.capacity) :
    ∃ b, writeAll c ws s = .ok () (stored c b s) ∧ ws.forM (write c) s = .ok () (stored c b s) ∧
      OpenBuffer.Appended ⟨d, s.console.memory⟩ ws b := by
  obtain ⟨m, hpush, -⟩ := OpenBuffer.pushEach_fits (b := ⟨d, s.console.memory⟩) ws hroom
    (OpenBuffer.writable_of_spans hstores.spans)
  have hall := (OpenBuffer.pushAll_eq_pushEach (b := ⟨d, s.console.memory⟩) hroom).trans hpush
  refine ⟨_, onActive_ok hd hall, ?_, (OpenBuffer.writes_pushAll ws).appended hstores.le hall⟩
  rw [forM_write ws hd, onActive_ok hd hpush]

/-- A run that is turned down by its length is not begun. -/
theorem writeAll_refused {ws : List UInt32} (hd : s.pool.leases.active c = some d)
    (hno : ¬ d.Fits (ws.length % Counter.bound)) :
    writeAll c ws s = .error (.fatal .bufferOverflow) s := by
  have hall : OpenBuffer.pushAll ws ⟨d, s.console.memory⟩ =
      .error (.refused .bufferOverflow) ⟨d, s.console.memory⟩ := by
    rw [OpenBuffer.pushAll, if_neg hno]
  rw [writeAll, onActive_error hd hall, stored_self hd]
  rfl

theorem writeAll_letIn {ws : List UInt32} (hd : s.pool.leases.active c = some d)
    (hused : d.used ≤ d.capacity) (hstores : s.console.memory.Stores d.start d.capacity)
    (hlong : d.capacity < d.used + ws.length) (hfits : d.Fits (ws.length % Counter.bound)) :
    ∃ t, writeAll c ws s = .error (.fatal .bufferOverflow) t ∧
      writeAll c (ws.take (d.capacity - d.used)) s = .ok () t := by
  obtain ⟨b, hall, htaken⟩ := OpenBuffer.pushAll_letIn (b := ⟨d, s.console.memory⟩) hused hlong hfits
    (OpenBuffer.writable_of_spans hstores.spans)
  have hroom : d.used + (ws.take (d.capacity - d.used)).length ≤ d.capacity := by
    rw [List.length_take]
    omega
  have hpush := (OpenBuffer.pushAll_eq_pushEach (b := ⟨d, s.console.memory⟩) hroom).trans htaken
  exact ⟨_, onActive_error hd hall, onActive_ok hd hpush⟩

/-- A run that was written changed the session, unless it had no words. -/
theorem eq_iff_of_writeAll {ws : List UInt32} {t : Session} (hd : s.pool.leases.active c = some d)
    (hstores : s.console.memory.Stores d.start d.capacity) (hroom : d.used + ws.length ≤ d.capacity)
    (hrun : writeAll c ws s = .ok () t) : t = s ↔ ws.length = 0 := by
  constructor
  · rintro rfl
    obtain ⟨b, hall, -, happended⟩ := writeAll_fits hd hstores hroom
    obtain ⟨-, hsame⟩ := EStateM.Result.ok.inj (hall.symm.trans hrun)
    have hslot : (stored c b t).pool.leases.active c = some b.buffer := Leases.active_setActive_self ..
    rw [hsame, hd] at hslot
    have hused : d.used = d.used + ws.length :=
      (congrArg Descriptor.used (Option.some.inj hslot)).trans (congrArg Descriptor.used happended.buffer)
    omega
  · intro hnone
    obtain rfl := List.length_eq_zero_iff.1 hnone
    have hnothing : OpenBuffer.pushAll [] ⟨d, s.console.memory⟩ = .ok () ⟨d, s.console.memory⟩ :=
      OpenBuffer.pushAll_eq_pushEach hroom
    obtain ⟨-, hsame⟩ := EStateM.Result.ok.inj (hrun.symm.trans (onActive_ok hd hnothing))
    rw [hsame, stored_self hd]

/-! ## Which of the three it is -/

/-- What the run `ws` comes to, written into the buffer `d` in the slot of `c`, where `n` words remain. -/
structure ByLength (s : Session) (c : Core) (d : Descriptor) (ws : List UInt32) (n : Nat) : Prop where
  /-- A run that is not longer is written as its words would be one by one. -/
  fits : ws.length ≤ n → ∃ b, writeAll c ws s = .ok () (stored c b s) ∧
    ws.forM (write c) s = .ok () (stored c b s) ∧ OpenBuffer.Appended ⟨d, s.console.memory⟩ ws b
  /-- A longer one stops the run of the session. Nothing is changed then if what a counter holds of the
  length finds no room either, as for every length below 2^32, and otherwise only if there is no room. -/
  tooLong : n < ws.length → ∃ t, writeAll c ws s = .error (.fatal .bufferOverflow) t ∧
    (t = s ↔ n = 0 ∨ n < ws.length % Counter.bound)
  /-- Where it does find room, as many words as remain are written before the stop. -/
  letIn : n < ws.length → ws.length % Counter.bound ≤ n → ∃ t,
    writeAll c ws s = .error (.fatal .bufferOverflow) t ∧ writeAll c (ws.take n) s = .ok () t

/-- **A run by its length.** One that is not longer than what remains is written as its words would be one
by one; a longer one is fatal, and whether it changed anything before is decided by its length. -/
theorem byLength_writeAll (hd : s.pool.leases.active c = some d) (hused : d.used ≤ d.capacity)
    (hstores : s.console.memory.Stores d.start d.capacity) (ws : List UInt32) :
    ∃ n, remaining c s = .ok n s ∧ ByLength s c d ws n := by
  have hletIn : d.capacity - d.used < ws.length → ws.length % Counter.bound ≤ d.capacity - d.used → ∃ t,
      writeAll c ws s = .error (.fatal .bufferOverflow) t ∧
        writeAll c (ws.take (d.capacity - d.used)) s = .ok () t := by
    intro hlong hfits
    refine writeAll_letIn hd hused hstores (by omega) ?_
    unfold Descriptor.Fits
    omega
  refine ⟨_, remaining_of_active hd hused, fun hle => ?_, fun hlong => ?_, hletIn⟩
  · exact writeAll_fits hd hstores (by omega)
  · by_cases hfits : ws.length % Counter.bound ≤ d.capacity - d.used
    · obtain ⟨t, ht, htaken⟩ := hletIn hlong hfits
      have hlength : (ws.take (d.capacity - d.used)).length = d.capacity - d.used :=
        List.length_take_of_le (Nat.le_of_lt hlong)
      refine ⟨t, ht, (eq_iff_of_writeAll hd hstores (by omega) htaken).trans ?_⟩
      omega
    · refine ⟨s, writeAll_refused hd ?_, ?_⟩
      · unfold Descriptor.Fits
        omega
      · exact ⟨fun _ => .inr (Nat.lt_of_not_le hfits), fun _ => rfl⟩

/-- Three words remain of eight. Three are written behind the others, four are not begun. -/
theorem byLength_writeAll_of_three :
    let c : Config := ⟨2, 8, 2, 4⟩
    let d : Descriptor := ⟨some 0, .ring, 0, 5, 8, ⟨0x1004⟩⟩
    let pool : Pool := ⟨c, .ofConfig c, .ofCapacity 4, Leases.allIdle.setActive .one (some d)⟩
    let s : Session := .start pool .standard (.zeroed ⟨0x1000⟩ 10)
    (s.pool.leases.active .one = some d ∧ d.used ≤ d.capacity ∧
        s.console.memory.Stores d.start d.capacity) ∧
      writeAll .one [1, 2, 3] s = .ok () (stored .one
        ⟨{ d with used := 8 }, ⟨⟨0x1000⟩, #[0, 0, 0, 0, 0, 0, 1, 2, 3, 0]⟩⟩ s) ∧
      writeAll .one [1, 2, 3, 4] s = .error (.fatal .bufferOverflow) s ∧
      (∃ n, remaining .one s = .ok n s ∧ ByLength s .one d [1, 2, 3] n) ∧
      ∃ n, remaining .one s = .ok n s ∧ ByLength s .one d [1, 2, 3, 4] n := by
  intro c d pool s
  have hslot : s.pool.leases.active .one = some d := rfl
  have hstores : s.console.memory.Stores d.start d.capacity :=
    Memory.stores_of_window (by decide) (by decide) (by decide) (by decide)
  exact ⟨⟨hslot, by decide, hstores⟩, by cbv, by cbv, byLength_writeAll hslot (by decide) hstores _,
    byLength_writeAll hslot (by decide) hstores _⟩

/-- A run of 2^32 words into the same buffer: a counter holds nothing of that length. It is refused, but
three of its words stand in memory by then, and the buffer is full. -/
theorem longRun_changes_memory :
    let c : Config := ⟨2, 8, 2, 4⟩
    let d : Descriptor := ⟨some 0, .ring, 0, 5, 8, ⟨0x1004⟩⟩
    let pool : Pool := ⟨c, .ofConfig c, .ofCapacity 4, Leases.allIdle.setActive .one (some d)⟩
    let s : Session := .start pool .standard (.zeroed ⟨0x1000⟩ 10)
    let ws : List UInt32 := List.replicate (2 ^ 32) 7
    (s.pool.leases.active .one = some d ∧ d.used ≤ d.capacity ∧ d.start.IsWord ∧
        s.console.memory.base.toNat ≤ d.start.toNat ∧
        d.start.toNat + d.capacity * wordBytes ≤
          s.console.memory.base.toNat + s.console.memory.words.size * wordBytes ∧
        d.start.toNat + d.capacity * wordBytes ≤ 2 ^ 32) ∧
      remaining .one s = .ok 3 s ∧ 3 < ws.length ∧
      ∃ t, writeAll .one ws s = .error (.fatal .bufferOverflow) t ∧
        t.pool.leases.active .one = some { d with used := 8 } ∧
        s.console.memory.read ⟨0x1018⟩ = .ok 0 ∧ t.console.memory.read ⟨0x1018⟩ = .ok 7 := by
  intro c d pool s ws
  have hslot : s.pool.leases.active .one = some d := rfl
  have hlength : ws.length = 2 ^ 32 := List.length_replicate
  have hwindow : d.start.IsWord ∧ s.console.memory.base.toNat ≤ d.start.toNat ∧
      d.start.toNat + d.capacity * wordBytes ≤
        s.console.memory.base.toNat + s.console.memory.words.size * wordBytes ∧
      d.start.toNat + d.capacity * wordBytes ≤ 2 ^ 32 := by decide
  obtain ⟨hword, hbase, hend, htop⟩ := hwindow
  have hstores := Memory.stores_of_window hword hbase hend htop
  have hlong : d.capacity < d.used + ws.length := by
    rw [hlength]
    decide
  have hfits : d.Fits (ws.length % Counter.bound) := by
    rw [hlength]
    decide
  obtain ⟨t, ht, htaken⟩ := writeAll_letIn hslot (by decide) hstores hlong hfits
  have hfront : ws.take 3 = [7, 7, 7] := by
    rw [List.take_replicate, Nat.min_eq_left (by decide)]
    rfl
  have hthree : writeAll .one (ws.take 3) s = .ok () (stored .one
      ⟨{ d with used := 8 }, ⟨⟨0x1000⟩, #[0, 0, 0, 0, 0, 0, 7, 7, 7, 0]⟩⟩ s) := by
    rw [hfront]
    cbv
  cases hthree.symm.trans htaken
  exact ⟨⟨hslot, by decide, hword, hbase, hend, htop⟩, by cbv, by rw [hlength]; decide,
    _, ht, by cbv, by cbv, by cbv⟩

end Step

end CommandPool
