import CommandPool.Session.DisplayLists
/-!
# What a step meets

`Meets E x s Q` speaks about one run of a step: from `s`, an answer of `x` and the session it leaves
satisfy `Q`, and a stop of `x` and the session it leaves satisfy `E`. A sequence is taken apart by
`meets_bind`, a wait by `meets_waitFor`; everything else is one equation for each of the ways a step
touches its session.

What a step does on its way is said by `ComesTo`: in the course of one step another one is taken.
-/
namespace CommandPool

namespace Step

variable {α β : Type} {E : Stop → Session → Prop}

def Meets (E : Stop → Session → Prop) (x : Step α) (s : Session) (Q : α → Session → Prop) : Prop :=
  match x s with
  | .ok a t => Q a t
  | .error e t => E e t

/-- In the course of the step `x`, taken in `s`, the step `y` is taken in `u`. -/
inductive ComesTo {γ : Type} (y : Step γ) (u : Session) : {α : Type} → Step α → Session → Prop where
  | enter : ComesTo y u y u
  | first {α β : Type} {x : Step α} {f : α → Step β} {s : Session} (h : ComesTo y u x s) :
      ComesTo y u (x >>= f) s
  | next {α β : Type} {x : Step α} {f : α → Step β} {s t : Session} {a : α} (hx : x s = .ok a t)
      (h : ComesTo y u (f a) t) : ComesTo y u (x >>= f) s

theorem Meets.imp {x : Step α} {s : Session} {Q Q' : α → Session → Prop} (h : Meets E x s Q)
    (hq : ∀ a t, Q a t → Q' a t) : Meets E x s Q' := by
  unfold Meets at h ⊢
  split at h
  · exact hq _ _ h
  · exact h

theorem Meets.mono {E' : Stop → Session → Prop} {x : Step α} {s : Session}
    {Q Q' : α → Session → Prop} (h : Meets E x s Q) (he : ∀ e t, E e t → E' e t)
    (hq : ∀ a t, Q a t → Q' a t) : Meets E' x s Q' := by
  unfold Meets at h ⊢
  split at h
  · exact hq _ _ h
  · exact he _ _ h

/-- The run itself may be kept in what holds after an answer. -/
theorem Meets.and_eq {x : Step α} {s : Session} {Q : α → Session → Prop} (h : Meets E x s Q) :
    Meets E x s fun a t => x s = .ok a t ∧ Q a t := by
  unfold Meets at h ⊢
  split at h
  · exact ⟨‹_›, h⟩
  · exact h

/-- Two descriptions of one run. -/
theorem Meets.and {E' : Stop → Session → Prop} {x : Step α} {s : Session} {Q Q' : α → Session → Prop}
    (h : Meets E x s Q) (h' : Meets E' x s Q') :
    Meets (fun e t => E e t ∧ E' e t) x s fun a t => Q a t ∧ Q' a t := by
  unfold Meets at h h' ⊢
  split <;> simp_all

/-- What holds after an answer. -/
theorem Meets.ok {x : Step α} {s t : Session} {a : α} {Q : α → Session → Prop} (h : Meets E x s Q)
    (hx : x s = .ok a t) : Q a t := by
  rw [Meets, hx] at h
  exact h

/-- What holds of a stop. -/
theorem Meets.error {x : Step α} {s t : Session} {e : Stop} {Q : α → Session → Prop}
    (h : Meets E x s Q) (hx : x s = .error e t) : E e t := by
  rw [Meets, hx] at h
  exact h

variable {s : Session}

/-- How a run ends, and what `f` sees of the session it leaves. -/
def seen (x : Step α) (s : Session) (f : Session → β) : (α ⊕ Stop) × β :=
  match x s with
  | .ok a t => (.inl a, f t)
  | .error e t => (.inr e, f t)

theorem ok_of_seen {x : Step α} {f : Session → β} {a : α} {b : β} {P : Session → Prop}
    (h : seen x s f = (.inl a, b)) (hP : ∀ t, x s = .ok a t → P t) :
    ∃ t, x s = .ok a t ∧ f t = b ∧ P t := by
  unfold seen at h
  split at h <;> cases h
  rename_i t ht
  exact ⟨t, ht, rfl, hP t ht⟩

/-- A run that answers, by what `f` sees of the answer and the session. -/
theorem ok_of_answer {x : Step α} {f : α → Session → β} {b : β} {P : α → Session → Prop}
    (h : (match x s with
      | .ok a t => some (f a t)
      | .error _ _ => none) = some b) (hP : ∀ a t, x s = .ok a t → P a t) :
    ∃ a t, x s = .ok a t ∧ f a t = b ∧ P a t := by
  split at h <;> cases h
  rename_i a t ht
  exact ⟨a, t, ht, rfl, hP a t ht⟩

theorem error_of_seen {x : Step α} {f : Session → β} {e : Stop} {b : β}
    {P : Session → Prop} (h : seen x s f = (.inr e, b)) (hP : ∀ t, x s = .error e t → P t) :
    ∃ t, x s = .error e t ∧ f t = b ∧ P t := by
  unfold seen at h
  split at h <;> cases h
  rename_i t ht
  exact ⟨t, ht, rfl, hP t ht⟩

/-- A sequence goes on where its first part led. -/
theorem bind_of_ok {x : Step α} {s t : Session} {a : α} (h : x s = .ok a t) (f : α → Step β) :
    (x >>= f) s = f a t := by
  show EStateM.bind x f s = f a t
  rw [EStateM.bind, h]

@[simp] theorem meets_pure {a : α} {Q : α → Session → Prop} : Meets E (pure a) s Q ↔ Q a s := Iff.rfl

@[simp] theorem meets_bind {x : Step α} {f : α → Step β} {Q : β → Session → Prop} :
    Meets E (x >>= f) s Q ↔ Meets E x s fun a t => Meets E (f a) t Q := by
  show (match EStateM.bind x f s with | .ok a t => Q a t | .error e t => E e t) ↔ _
  unfold EStateM.bind Meets
  split <;> rename_i h <;> split at h <;> simp_all

@[simp] theorem meets_throw {e : Stop} {Q : α → Session → Prop} :
    Meets E (throw e : Step α) s Q ↔ E e s := Iff.rfl

@[simp] theorem meets_fatal {e : Refusal} {Q : α → Session → Prop} :
    Meets E (fatal e : Step α) s Q ↔ E (.fatal e) s := Iff.rfl

@[simp] theorem meets_ite {c : Prop} [Decidable c] {x y : Step α} {Q : α → Session → Prop} :
    Meets E (if c then x else y) s Q ↔ (c → Meets E x s Q) ∧ (¬ c → Meets E y s Q) := by
  by_cases h : c <;> simp [h]

@[simp] theorem meets_get {Q : Session → Session → Prop} :
    Meets E (get : Step Session) s Q ↔ Q s s := Iff.rfl

@[simp] theorem meets_modify {f : Session → Session} {Q : Unit → Session → Prop} :
    Meets E (modify f : Step Unit) s Q ↔ Q () (f s) := Iff.rfl

@[simp] theorem meets_onConsole {f : Console → Console} {Q : Unit → Session → Prop} :
    Meets E (onConsole f) s Q ↔ Q () { s with console := f s.console } := Iff.rfl

@[simp] theorem meets_report {rs : List Record} {Q : Unit → Session → Prop} :
    Meets E (report rs) s Q ↔ Q () (s.reported rs) := Iff.rfl

@[simp] theorem meets_debug {text : String} {Q : Unit → Session → Prop} :
    Meets E (debug text) s Q ↔ Q () (s.reported [.debug text]) := Iff.rfl

@[simp] theorem meets_currentCore {Q : Core → Session → Prop} :
    Meets E currentCore s Q ↔ Q s.console.topology.current s := Iff.rfl

@[simp] theorem meets_mainCore {Q : Core → Session → Prop} :
    Meets E mainCore s Q ↔ Q s.console.topology.main s := Iff.rfl

@[simp] theorem meets_config {Q : Config → Session → Prop} :
    Meets E config s Q ↔ Q s.pool.config s := Iff.rfl

theorem meets_checked {x : Except Overflow α} {Q : α → Session → Prop} :
    Meets E (checked x) s Q ↔ match x with
      | .ok a => Q a s
      | .error o => E (.fault (.overflow o)) s := by
  unfold checked
  cases x <;> simp

theorem meets_unfaulted {x : Except Fault α} {Q : α → Session → Prop} :
    Meets E (unfaulted x) s Q ↔ match x with
      | .ok a => Q a s
      | .error f => E (.fault f) s := by
  unfold unfaulted
  cases x <;> simp

/-- Nothing is said about a stop. -/
def Anyhow (_ : Stop) (_ : Session) : Prop := True

@[simp] theorem anyhow (e : Stop) (t : Session) : Anyhow e t := trivial

/-- Nothing stops the step. -/
def Never (_ : Stop) (_ : Session) : Prop := False

/-- A step that nothing stops returns. -/
theorem Meets.returns {x : Step α} {Q : α → Session → Prop} (h : Meets Never x s Q) :
    ∃ a t, x s = .ok a t ∧ Q a t := by
  unfold Meets at h
  split at h
  · exact ⟨_, _, ‹_›, h⟩
  · exact h.elim

/-- Nothing at all is said. -/
theorem meets_anyhow (x : Step α) (s : Session) : Meets Anyhow x s fun _ _ => True := by
  unfold Meets
  split <;> trivial

/-- What the last part of a sequence answers, wherever the first part leads. -/
theorem Meets.last {x : Step α} {f : α → Step β} {s : Session} {Q : β → Session → Prop}
    (h : ∀ a t, Meets Anyhow (f a) t Q) : Meets Anyhow (x >>= f) s Q :=
  meets_bind.2 ((meets_anyhow x s).imp fun a t _ => h a t)

/-! ## The pool -/

theorem onPool_bind (x : Pool.Action α) (f : α → Pool.Action β) :
    onPool (x >>= f) = onPool x >>= fun a => onPool (f a) := by
  funext s
  simp only [onPool, bind, EStateM.bind]
  cases x s.pool <;> rfl

theorem onPool_pure (a : α) : onPool (pure a) = (pure a : Step α) := rfl

theorem onPool_fatal (e : Refusal) : onPool (Pool.fatal e) = (fatal e : Step α) := rfl

theorem onPool_ite {c : Prop} [Decidable c] (x y : Pool.Action α) :
    onPool (if c then x else y) = if c then onPool x else onPool y := apply_ite _ c x y

theorem meets_onPool {f : Pool.Action α} {Q : α → Session → Prop} :
    Meets E (onPool f) s Q ↔ match f s.pool with
      | .ok a p => Q a { s with pool := p }
      | .error e p => E e { s with pool := p } := by
  unfold Meets onPool
  cases f s.pool <;> rfl

@[simp] theorem meets_onPool_bind {x : Pool.Action α} {f : α → Pool.Action β}
    {Q : β → Session → Prop} : Meets E (onPool (x >>= f)) s Q ↔
      Meets E (onPool x) s fun a t => Meets E (onPool (f a)) t Q := by
  rw [onPool_bind, meets_bind]

@[simp] theorem meets_onPool_pure {a : α} {Q : α → Session → Prop} :
    Meets E (onPool (pure a)) s Q ↔ Q a s := Iff.rfl

@[simp] theorem meets_onPool_fatal {e : Refusal} {Q : α → Session → Prop} :
    Meets E (onPool (Pool.fatal e)) s Q ↔ E (.fatal e) s := Iff.rfl

@[simp] theorem meets_onPool_ite {c : Prop} [Decidable c] {x y : Pool.Action α}
    {Q : α → Session → Prop} : Meets E (onPool (if c then x else y)) s Q ↔
      (c → Meets E (onPool x) s Q) ∧ (¬ c → Meets E (onPool y) s Q) := by
  rw [onPool_ite, meets_ite]

@[simp] theorem meets_borrow {c : Core} {Q : Option Descriptor → Session → Prop} :
    Meets E (onPool (Pool.borrow c)) s Q ↔
      (s.pool.leases.held c = true → E (.fatal (.slotBorrowed c)) s) ∧
      (s.pool.leases.held c = false → Q (s.pool.leases.active c) s) := by
  rw [meets_onPool]
  unfold Pool.borrow Leases.borrow
  cases s.pool.leases.held c <;> simp

@[simp] theorem meets_active {c : Core} {Q : Option Descriptor → Session → Prop} :
    Meets E (onPool (Pool.active c)) s Q ↔ Q (s.pool.leases.active c) s := Iff.rfl

@[simp] theorem meets_setActive {c : Core} {d : Option Descriptor} {Q : Unit → Session → Prop} :
    Meets E (onPool (Pool.setActive c d)) s Q ↔
      Q () { s with pool := { s.pool with leases := s.pool.leases.setActive c d } } := Iff.rfl

@[simp] theorem meets_giveDescriptor {d : Descriptor} {Q : Unit → Session → Prop} :
    Meets E (onPool (Pool.giveDescriptor d)) s Q ↔
      Q () { s with pool := { s.pool with arena := s.pool.arena.give d } } := Iff.rfl

@[simp] theorem meets_takeDescriptor {Q : Descriptor → Session → Prop} :
    Meets E (onPool Pool.takeDescriptor) s Q ↔
      Q s.pool.arena.take.1 { s with pool := { s.pool with arena := s.pool.arena.take.2 } } := Iff.rfl

theorem meets_onRing {f : Ring → Outcome Ring α} {Q : α → Session → Prop} :
    Meets E (onPool (Pool.onRing f)) s Q ↔ match f s.pool.ring with
      | .ok a r => Q a { s with pool := { s.pool with ring := r } }
      | .error e r => E e.toStop { s with pool := { s.pool with ring := r } } := by
  rw [meets_onPool]
  unfold Pool.onRing
  cases f s.pool.ring <;> rfl

theorem meets_onLeases {f : Leases → Outcome Leases α} {Q : α → Session → Prop} :
    Meets E (onPool (Pool.onLeases f)) s Q ↔ match f s.pool.leases with
      | .ok a l => Q a { s with pool := { s.pool with leases := l } }
      | .error e l => E e.toStop { s with pool := { s.pool with leases := l } } := by
  rw [meets_onPool]
  unfold Pool.onLeases
  cases f s.pool.leases <;> rfl

/-! ## The active buffer -/

/-- The session after the buffer in the slot of `c` and the memory became those of `b`. -/
def stored (c : Core) (b : OpenBuffer) (s : Session) : Session :=
  { s with
    pool := { s.pool with leases := s.pool.leases.setActive c (some b.buffer) }
    console := { s.console with memory := b.memory } }

theorem stored_self {c : Core} {d : Descriptor} (hd : s.pool.leases.active c = some d) :
    stored c ⟨d, s.console.memory⟩ s = s := by
  simp only [stored, ← hd, Leases.setActive_active]

theorem stored_stored (c : Core) (b b' : OpenBuffer) (s : Session) :
    stored c b' (stored c b s) = stored c b' s := by
  simp only [stored, Leases.setActive_setActive]

theorem onActive_ok {c : Core} {d : Descriptor} {f : OpenBuffer → Outcome OpenBuffer α} {a : α}
    {b : OpenBuffer} (hd : s.pool.leases.active c = some d) (h : f ⟨d, s.console.memory⟩ = .ok a b) :
    onActive c f s = .ok a (stored c b s) := by
  simp only [onActive, hd, h, stored]

theorem onActive_error {c : Core} {d : Descriptor} {f : OpenBuffer → Outcome OpenBuffer α} {e : Failure}
    {b : OpenBuffer} (hd : s.pool.leases.active c = some d)
    (h : f ⟨d, s.console.memory⟩ = .error e b) :
    onActive c f s = .error e.toStop (stored c b s) := by
  simp only [onActive, hd, h, stored]

theorem meets_onActive {c : Core} {f : OpenBuffer → Outcome OpenBuffer α} {Q : α → Session → Prop} :
    Meets E (onActive c f) s Q ↔ match s.pool.leases.active c with
      | none => E (.fatal (.noActiveBuffer c)) s
      | some d => match f ⟨d, s.console.memory⟩ with
        | .ok a b => Q a (stored c b s)
        | .error e b => E e.toStop (stored c b s) := by
  unfold Meets onActive
  cases s.pool.leases.active c with
  | none => rfl
  | some d =>
    dsimp only
    cases f ⟨d, s.console.memory⟩ <;> rfl

/-! ## Waiting -/

/-- A wait loop as the sequence of its first round and the others. -/
theorem waitFor_eq_bind (notice : Nat → List Record) (attempt : Pool.Action (Option α)) :
    waitFor notice attempt = (do
      match ← onPool attempt with
      | some a => return a
      | none =>
        report (notice ((← get).console.timeline.retired + 1))
        await
        waitFor notice attempt : Step α) := by
  funext s
  rw [waitFor]
  show _ = EStateM.bind _ _ s
  unfold EStateM.bind
  split <;> rename_i h₁ <;> rw [h₁]
  · rfl
  · rename_i s₁
    show _ = EStateM.bind _ _ (s₁.reported (notice (s₁.console.timeline.retired + 1)))
    unfold EStateM.bind
    split <;> rename_i h₂ <;> rw [h₂]

section Rounds

variable {notice : Nat → List Record} {attempt : Pool.Action (Option α)} {t u : Session}

theorem waitFor_of_some {a : α} (h : onPool attempt s = .ok (some a) t) :
    waitFor notice attempt s = .ok a t := by
  rw [waitFor_eq_bind, bind_of_ok h]
  rfl

/-- After a round in which the attempt found nothing the loop starts again. -/
theorem waitFor_of_none {b : Unit} (h : onPool attempt s = .ok none t)
    (hwait : await (t.reported (notice (t.console.timeline.retired + 1))) = .ok b u) :
    waitFor notice attempt s = waitFor notice attempt u := by
  conv =>
    lhs
    rw [waitFor_eq_bind, bind_of_ok h]
  exact bind_of_ok hwait _

/-- Each round of a wait loop either ends it or keeps what the next one needs. -/
theorem meets_waitFor {I : Session → Prop} {Q : α → Session → Prop}
    (hattempt : ∀ s, I s → Meets E (onPool attempt) s fun o t => match o with
      | some a => Q a t
      | none => Meets E await (t.reported (notice (t.console.timeline.retired + 1))) fun _ u => I u)
    (s : Session) (h : I s) : Meets E (waitFor notice attempt) s Q := by
  rw [waitFor_eq_bind, meets_bind]
  refine Meets.imp (hattempt s h).and_eq ?_
  rintro o t ⟨hrun, ht⟩
  cases o with
  | some a => exact ht
  | none =>
    refine meets_bind.2 (meets_get.2 (meets_bind.2 (meets_report.2 (meets_bind.2 ?_))))
    refine Meets.imp (Meets.and_eq ht) ?_
    rintro _ u ⟨hwait, hu⟩
    have hlt : u.console.pending < s.console.pending := by
      have := pending_lt_of_await hwait
      rwa [Session.reported, console_onPool hrun] at this
    exact meets_waitFor hattempt u hu
termination_by s.console.pending
decreasing_by exact hlt

end Rounds

end Step

end CommandPool
