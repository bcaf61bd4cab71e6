import CommandPool.Proofs.OpenBuffer
import CommandPool.Proofs.Session.Account
import CommandPool.Proofs.Session.Logic
/-!
# Where the open buffer is

Every word that is outstanding is in a buffer that is in the queue or open (`Accounted`). Between
calls the open one, if there is one, is in the slot of the main core (`Between`); within a call it
may be in the hands of the call, when no slot has a buffer of the ring (`During`). So a call that
has to wait, which it does empty-handed, waits for buffers of the queue only.

This asks nothing of display lists, of guest memory or of the lease, so it holds whatever the
application does with these. It is kept by every call (`perform_stock`), and should a call hang,
then with an empty ring (`Stranded`).
-/
namespace CommandPool

/-- The part of a session that says whose words are outstanding. -/
structure Stock where
  main : Core
  leases : Leases
  ring : Ring
  submitted : List Descriptor

def Session.stock (s : Session) : Stock :=
  ⟨s.console.topology.main, s.pool.leases, s.pool.ring, s.console.submitted⟩

/-- Within a call: no slot has a buffer of the ring. The call has `o` in its hands. -/
structure During (k : Core) (o : Option Descriptor) (x : Stock) : Prop where
  main : x.main = k
  lists : ∀ c d, x.leases.active c = some d → d.backing = .displayList
  accounted : Accounted o x.submitted x.ring

/-- Between calls: no buffer of the ring is open, or one in the slot of the main core. -/
inductive Between (k : Core) (x : Stock) : Prop where
  | closed (h : During k none x)
  | opened {d : Descriptor} (hmain : x.main = k) (hslot : x.leases.active k = some d)
      (hlists : ∀ c d, c ≠ k → x.leases.active c = some d → d.backing = .displayList)
      (hacc : Accounted (some d) x.submitted x.ring)

variable {k c : Core} {o : Option Descriptor} {d d' : Descriptor} {x x' : Stock}

theorem Between.main (h : Between k x) : x.main = k := by
  cases h with
  | closed h => exact h.main
  | opened hmain _ _ _ => exact hmain

/-! ## The slots -/

/-- A buffer of the ring is in the slot of the main core, and is the open one. -/
theorem Between.ring_at (h : Between k x) (hd : x.leases.active c = some d) (hring : d.backing = .ring) :
    c = k ∧ Accounted (some d) x.submitted x.ring ∧
      ∀ c d, c ≠ k → x.leases.active c = some d → d.backing = .displayList := by
  cases h with
  | closed h =>
    rw [h.lists c d hd] at hring
    cases hring
  | opened hmain hslot hlists hacc =>
    have hc : c = k := Decidable.byContradiction fun hne => by
      rw [hlists c d hne hd] at hring
      cases hring
    subst hc
    cases hslot.symm.trans hd
    exact ⟨rfl, hacc, hlists⟩

/-- Without one in the slot of the main core none is open. -/
theorem Between.during (h : Between k x) (hk : ∀ d, x.leases.active k = some d → d.backing = .displayList) :
    During k none x := by
  cases h with
  | closed h => exact h
  | opened hmain hslot hlists hacc =>
    have hring := hacc.opened _ rfl
    rw [hk _ hslot] at hring
    cases hring

theorem lists_setActive {l : Leases} (hlists : ∀ c' d, c' ≠ c → l.active c' = some d → d.backing = .displayList)
    (ho : ∀ d, o = some d → d.backing = .displayList) :
    ∀ c' d, (l.setActive c o).active c' = some d → d.backing = .displayList := by
  intro c' d hd
  by_cases hc : c' = c
  · subst hc
    rw [Leases.active_setActive_self] at hd
    exact ho d hd
  · rw [Leases.active_setActive_of_ne l o hc] at hd
    exact hlists c' d hc hd

/-- The buffer in the hands of a call goes to the slot of the main core. -/
theorem During.seat (h : During k o x) : Between k { x with leases := x.leases.setActive k o } := by
  cases o with
  | none => exact .closed ⟨h.main, lists_setActive (fun c d _ => h.lists c d) (by simp), h.accounted⟩
  | some d =>
    refine .opened h.main (Leases.active_setActive_self ..) ?_ h.accounted
    intro c d' hc hd'
    rw [Leases.active_setActive_of_ne x.leases (some d) hc] at hd'
    exact h.lists c d' hd'

/-- A slot without a buffer of the ring is set to a display list, or emptied. -/
theorem Between.setList (h : Between k x) (hc : ∀ d, x.leases.active c = some d → d.backing = .displayList)
    (ho : ∀ d, o = some d → d.backing = .displayList) :
    Between k { x with leases := x.leases.setActive c o } := by
  cases h with
  | closed h =>
    exact .closed ⟨h.main, lists_setActive (fun c d _ => h.lists c d) ho, h.accounted⟩
  | @opened d hmain hslot hlists hacc =>
    have hne : k ≠ c := by
      rintro rfl
      have hring := hacc.opened d rfl
      rw [hc d hslot] at hring
      cases hring
    refine .opened hmain (by rw [Leases.active_setActive_of_ne _ _ hne]; exact hslot) ?_ hacc
    intro c' d' hc' hd'
    by_cases heq : c' = c
    · subst heq
      rw [Leases.active_setActive_self] at hd'
      exact ho d' hd'
    · rw [Leases.active_setActive_of_ne _ _ heq] at hd'
      exact hlists c' d' hc' hd'

/-- A buffer is written into in its slot. -/
theorem Between.rewrite (h : Between k x) (hd : x.leases.active c = some d)
    (hsame : OpenBuffer.SameStorage d d') :
    Between k { x with leases := x.leases.setActive c (some d') } := by
  cases hb : d.backing with
  | displayList =>
    apply h.setList
    · intro e he
      cases hd.symm.trans he
      exact hb
    · rintro _ ⟨⟩
      rw [hsame.backing]
      exact hb
  | ring =>
    obtain ⟨rfl, hacc, hlists⟩ := h.ring_at hd hb
    refine .opened h.main (Leases.active_setActive_self ..) ?_
      (hacc.reopen hsame.start hsame.capacity hsame.backing)
    intro c' e hc he
    rw [Leases.active_setActive_of_ne _ _ hc] at he
    exact hlists c' e hc he

/-- Writers come and go. -/
theorem Between.setHeld (h : Between k x) (c : Core) (held : Bool) :
    Between k { x with leases := x.leases.setHeld c held } := by
  have hsame : ∀ c' d, (x.leases.setHeld c held).active c' = some d → x.leases.active c' = some d := by
    intro c' d hd
    rw [← hd, Leases.active_setHeld]
  cases h with
  | closed h => exact .closed ⟨h.main, fun c' d hd => h.lists c' d (hsame c' d hd), h.accounted⟩
  | opened hmain hslot hlists hacc =>
    refine .opened hmain (by rw [Leases.active_setHeld]; exact hslot) ?_ hacc
    exact fun c' d hc hd => hlists c' d hc (hsame c' d hd)

/-- What the consumer may change. -/
structure Consumed (o : Option Descriptor) (x x' : Stock) : Prop where
  main : x'.main = x.main
  leases : x'.leases = x.leases
  accounted : Accounted o x'.submitted x'.ring

theorem Consumed.trans {x'' : Stock} (h : Consumed o x x') (h' : Consumed o x' x'') : Consumed o x x'' :=
  ⟨h'.main.trans h.main, h'.leases.trans h.leases, h'.accounted⟩

theorem During.consumed (h : During k o x) (hx : Consumed o x x') : During k o x' :=
  ⟨hx.main.trans h.main, hx.leases ▸ h.lists, hx.accounted⟩

theorem Between.consumed (h : Between k x) :
    ∃ o, Accounted o x.submitted x.ring ∧ ∀ x', Consumed o x x' → Between k x' := by
  cases h with
  | closed h => exact ⟨none, h.accounted, fun x' hx => .closed (h.consumed hx)⟩
  | @opened d hmain hslot hlists hacc =>
    refine ⟨some d, hacc, fun x' hx => ?_⟩
    exact .opened (hx.main.trans hmain) (hx.leases ▸ hslot) (hx.leases ▸ hlists) hx.accounted

/-- A call that hangs does so while nothing is out. -/
def Stranded (e : Stop) (t : Session) : Prop := ∀ n, e = .hang n → Accounted none [] t.pool.ring

@[simp] theorem stranded_fatal (r : Refusal) (t : Session) : Stranded (.fatal r) t := nofun

@[simp] theorem stranded_fault (f : Fault) (t : Session) : Stranded (.fault f) t := nofun

@[simp] theorem stranded_toStop (e : Failure) (t : Session) : Stranded e.toStop t := by
  cases e
  · exact stranded_fatal _ _
  · exact stranded_fault _ _

namespace Step

variable {α : Type} {s : Session}

/-! ## The consumer -/

theorem freeOldest_stock (h : Accounted o s.console.submitted s.pool.ring) :
    Meets Stranded freeOldest s fun freed t => Consumed o s.stock t.stock ∧
      (freed = false → t.console.submitted = []) := by
  unfold freeOldest
  rw [meets_bind, meets_get]
  cases hsub : s.console.submitted with
  | nil => exact ⟨⟨rfl, rfl, h⟩, fun _ => hsub⟩
  | cons d rest =>
    rw [hsub] at h
    simp only [meets_bind, meets_onConsole, execute, meets_modify, Pool.free, meets_onPool_bind,
      meets_onPool_ite, meets_onPool_fatal, stranded_fatal, implies_true, true_and, meets_onRing, meets_giveDescriptor,
      meets_pure]
    intro _
    cases hd : d.backing with
    | ring =>
      obtain ⟨r, hr, -, hacc⟩ := h.free hd
      simp only [if_true, hr, not_true_eq_false, false_implies, and_true, true_implies]
      exact ⟨⟨rfl, rfl, hacc⟩, by simp⟩
    | displayList =>
      simp only [reduceCtorEq, if_false, false_implies, true_and, not_false_eq_true, true_implies]
      exact ⟨⟨rfl, rfl, h.free_list hd⟩, by simp⟩

theorem freeSome_stock (n : Nat) (h : Accounted o s.console.submitted s.pool.ring) :
    Meets Stranded (freeSome n) s fun _ t => Consumed o s.stock t.stock := by
  induction n generalizing s with
  | zero => exact ⟨rfl, rfl, h⟩
  | succ n ih =>
    unfold freeSome
    rw [meets_bind]
    refine Meets.imp (freeOldest_stock h) ?_
    rintro freed t ⟨ht, -⟩
    cases freed with
    | true => exact Meets.imp (ih ht.accounted) fun _ u hu => ht.trans hu
    | false => exact ht

theorem freeAhead_stock (h : Accounted o s.console.submitted s.pool.ring) :
    Meets Stranded freeAhead s fun _ t => Consumed o s.stock t.stock := by
  unfold freeAhead
  rw [meets_bind, meets_get]
  cases s.console.ahead with
  | nil => exact ⟨rfl, rfl, h⟩
  | cons n rest =>
    simp only [meets_bind, meets_onConsole]
    exact freeSome_stock n h

theorem retireOne_stock (h : Accounted o s.console.submitted s.pool.ring) :
    Meets Stranded retireOne s fun retired t => Consumed o s.stock t.stock ∧
      (retired = false → t.console.submitted = []) := by
  unfold retireOne
  rw [meets_bind]
  refine Meets.imp (freeOldest_stock h) ?_
  rintro freed t ⟨ht, hempty⟩
  cases freed with
  | true => exact ⟨ht, by simp⟩
  | false => exact ⟨ht, hempty⟩

/-- **Waiting.** Should a wait hang while no buffer is open, then nothing is out. -/
theorem await_stock (h : During k none s.stock) :
    Meets Stranded await s fun _ t => During k none t.stock := by
  unfold await
  simp only [meets_bind, meets_get, meets_modify]
  refine Meets.imp (freeAhead_stock h.accounted) ?_
  intro _ t ht
  cases t.console.idle with
  | succ n => exact h.consumed ht
  | zero =>
    simp only [meets_bind]
    refine Meets.imp (retireOne_stock ht.accounted) ?_
    rintro retired u ⟨hu, hempty⟩
    cases retired with
    | true => exact h.consumed (ht.trans hu)
    | false =>
      rintro n -
      have hacc : Accounted none u.console.submitted u.pool.ring := hu.accounted
      rw [hempty rfl] at hacc
      exact hacc

end Step

end CommandPool
