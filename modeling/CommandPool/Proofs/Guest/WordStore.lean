import CommandPool.Proofs.Guest.Memory
/-!
# Memory is a store of words

What a window of memory answers is told here by addresses alone: which accesses miss it (`Misses`), and
which word was written last where (`lastWritten`). The window itself finds a word by its distance from
the base, in whole words; the base need not be the address of a word, and the end of the window may lie
past the top of the address space. Neither makes two addresses meet in one word.

Main statement, over every window and every sequence of accesses: `Memory.faithful_run`.
-/
namespace CommandPool

inductive Access where
  | read (a : Address)
  | readBytes (a : Address)
  | write (a : Address) (w : UInt32)
deriving DecidableEq, Repr

namespace Access

def address : Access → Address
  | read a | readBytes a | write a _ => a

/-- What an access writes at `a`. -/
def wordAt (a : Address) : Access → Option UInt32
  | write b w => if b = a then some w else none
  | read _ | readBytes _ => none

end Access

/-- The word of the latest write at `a`, zero if there was none. -/
def lastWritten (a : Address) (xs : List Access) : UInt32 :=
  (xs.filterMap (Access.wordAt a)).getLast?.getD 0

theorem lastWritten_concat (a : Address) (xs : List Access) (x : Access) :
    lastWritten a (xs ++ [x]) = (x.wordAt a).getD (lastWritten a xs) := by
  unfold lastWritten
  cases h : x.wordAt a <;> simp [h]

/-- An access at `a` misses a window of `size` words at `base`. -/
def Misses (base : Address) (size : Nat) (a : Address) : Prop :=
  a.toNat < base.toNat ∨ a.toNat % wordBytes ≠ 0 ∨ size ≤ (a.toNat - base.toNat) / wordBytes

/-- How an access at `a` faults that misses a window at `base`: the end is looked at last. -/
def missFault (base a : Address) : Fault :=
  if a.toNat < base.toNat ∨ a.toNat % wordBytes ≠ 0 then .badAccess a else .outsideWindow a

/-- The number that bytes stand for, the most significant first. -/
def bigEndian (bytes : List UInt8) : Nat := bytes.foldl (fun n b => n * 256 + b.toNat) 0

namespace Memory

/-- The memory after an access; a read leaves it as it is. -/
def access (m : Memory) : Access → Except Fault Memory
  | .read a => (m.read a).map fun _ => m
  | .readBytes a => (m.readBytes a).map fun _ => m
  | .write a w => m.write a w

/-- An access that faults changes nothing, and others may follow. -/
def after (m : Memory) (x : Access) : Memory := (m.access x).toOption.getD m

def run (m : Memory) (xs : List Access) : Memory := xs.foldl after m

variable {m : Memory} {a : Address}

theorem after_read (m : Memory) (a : Address) : m.after (.read a) = m := by
  simp only [after, access]
  cases m.read a <;> rfl

theorem after_readBytes (m : Memory) (a : Address) : m.after (.readBytes a) = m := by
  simp only [after, access]
  cases m.readBytes a <;> rfl

theorem after_write {w : UInt32} {m' : Memory} (h : m.write a w = .ok m') :
    m.after (.write a w) = m' := by
  simp only [after, access, h]
  rfl

theorem after_write_fault {w : UInt32} {f : Fault} (h : m.write a w = .error f) :
    m.after (.write a w) = m := by
  simp only [after, access, h]
  rfl

theorem run_concat (m : Memory) (xs : List Access) (x : Access) :
    m.run (xs ++ [x]) = (m.run xs).after x := by
  rw [run, List.foldl_append]
  rfl

/-! ## Which accesses fault -/

theorem accessible_iff_not_misses : m.Accessible a ↔ ¬ Misses m.base m.words.size a := by
  unfold Accessible Misses
  rw [aligned_iff, not_or, not_or, Nat.not_lt, not_not, Nat.not_le, and_assoc]
  refine and_congr_right fun hbase => and_congr_right fun _ => ?_
  rw [Address.wordsSince_of_le hbase]

theorem missFault_eq (m : Memory) (a : Address) :
    missFault m.base a = if m.Aligned a then .outsideWindow a else .badAccess a := by
  have haligned : (a.toNat < m.base.toNat ∨ a.toNat % wordBytes ≠ 0) ↔ ¬ m.Aligned a := by
    rw [aligned_iff, not_and_or, Nat.not_le]
    rfl
  simp only [missFault, haligned, ite_not]

/-- An access can fail only in finding its word. -/
theorem access_eq_map (m : Memory) (x : Access) :
    ∃ g : Fin m.words.size → Memory, m.access x = (m.index x.address).map g := by
  cases x with
  | read a =>
    refine ⟨fun _ => m, ?_⟩
    simp only [access, read, Access.address]
    cases m.index a <;> rfl
  | readBytes a =>
    refine ⟨fun _ => m, ?_⟩
    simp only [access, readBytes, read, Access.address]
    cases m.index a <;> rfl
  | write a w => exact ⟨_, rfl⟩

/-- Whether an access faults, and how, hangs on its address alone. -/
theorem access_eq_error_iff (m : Memory) (x : Access) (f : Fault) :
    m.access x = .error f ↔
      Misses m.base m.words.size x.address ∧ f = missFault m.base x.address := by
  obtain ⟨g, hg⟩ := access_eq_map m x
  rw [hg]
  by_cases h : m.Accessible x.address
  · rw [index_of_accessible h]
    simp [Except.map, accessible_iff_not_misses.1 h]
  · have hmiss := not_not.1 (accessible_iff_not_misses.not.1 h)
    rw [index_of_not_accessible h, ← missFault_eq, Except.map, Except.error.injEq, eq_comm,
      and_iff_right hmiss]

/-! ## What is read -/

theorem sameWindow_after (m : Memory) (x : Access) : SameWindow m (m.after x) := by
  cases x with
  | read a =>
    rw [after_read]
    exact .refl m
  | readBytes a =>
    rw [after_readBytes]
    exact .refl m
  | write a w =>
    cases h : m.write a w with
    | error f =>
      rw [after_write_fault h]
      exact .refl m
    | ok m' =>
      rw [after_write h]
      exact sameWindow_write h

theorem sameWindow_run (m : Memory) (xs : List Access) : SameWindow m (m.run xs) := by
  induction xs generalizing m with
  | nil => exact .refl m
  | cons x xs ih => exact (sameWindow_after m x).trans (ih _)

/-- An access changes what is read at the address it writes, and nowhere else. -/
theorem read_after (h : m.Accessible a) (x : Access) {w : UInt32} (hread : m.read a = .ok w) :
    (m.after x).read a = .ok ((x.wordAt a).getD w) := by
  cases x with
  | read b => rwa [after_read]
  | readBytes b => rwa [after_readBytes]
  | write b v =>
    by_cases hb : b = a
    · subst hb
      have hw := write_of_accessible h v
      rw [after_write hw, read_write_self hw]
      simp [Access.wordAt]
    · have hword : Access.wordAt a (.write b v) = none := if_neg hb
      rw [hword]
      cases hw : m.write b v with
      | error f => rwa [after_write_fault hw]
      | ok m' =>
        rw [after_write hw, read_write_of_ne hw (Ne.symm hb)]
        exact hread

theorem read_zeroed {base : Address} {size : Nat} (h : (zeroed base size).Accessible a) :
    (zeroed base size).read a = .ok 0 := by
  rw [read_of_accessible h]
  simp [zeroed]

theorem read_run {base : Address} {size : Nat} (h : (zeroed base size).Accessible a)
    (xs : List Access) : ((zeroed base size).run xs).read a = .ok (lastWritten a xs) := by
  induction xs using List.reverseRecOn with
  | nil => exact read_zeroed h
  | append_singleton xs x ih =>
    have hacc := (sameWindow_run (zeroed base size) xs).accessible.2 h
    rw [run_concat, lastWritten_concat]
    exact read_after hacc x ih

/-! ## Bytes -/

theorem bigEndian_bytesOf (w : UInt32) : bigEndian (bytesOf w) = w.toNat := by
  have hlt := w.toNat_lt
  have h3 : (w >>> 24).toUInt8.toNat = w.toNat / 2 ^ 24 % 256 := by simp [Nat.shiftRight_eq_div_pow]
  have h2 : (w >>> 16).toUInt8.toNat = w.toNat / 2 ^ 16 % 256 := by simp [Nat.shiftRight_eq_div_pow]
  have h1 : (w >>> 8).toUInt8.toNat = w.toNat / 2 ^ 8 % 256 := by simp [Nat.shiftRight_eq_div_pow]
  have h0 : w.toUInt8.toNat = w.toNat % 256 := UInt32.toNat_toUInt8 w
  simp only [bigEndian, bytesOf, List.foldl_cons, List.foldl_nil, h3, h2, h1, h0]
  omega

/-! ## One word for each address -/

theorem index_eq_ok {i : Fin m.words.size} (h : m.index a = .ok i) :
    m.Accessible a ∧ a.wordsSince m.base = i := by
  by_cases ha : m.Accessible a
  · rw [index_of_accessible ha] at h
    cases h
    exact ⟨ha, rfl⟩
  · rw [index_of_not_accessible ha] at h
    cases h

/-- Addresses of the same place in the window are the same. -/
theorem index_inj {b : Address} {i : Fin m.words.size} (ha : m.index a = .ok i)
    (hb : m.index b = .ok i) : a = b := by
  obtain ⟨hacc, hi⟩ := index_eq_ok ha
  obtain ⟨hacc', hi'⟩ := index_eq_ok hb
  by_contra hne
  exact wordsSince_ne hacc.1 hacc'.1 (Ne.symm hne) (hi.trans hi'.symm)

/-! ## The store -/

/-- What a memory answers that was a window of `size` zero words at `base` before the accesses `xs`. -/
structure Faithful (base : Address) (size : Nat) (xs : List Access) (m : Memory) : Prop where
  /-- An access faults exactly when it misses the window. -/
  faults_iff : ∀ x f,
    m.access x = .error f ↔ Misses base size x.address ∧ f = missFault base x.address
  /-- Every other one reads what was written there last, … -/
  read : ∀ a, ¬ Misses base size a → m.read a = .ok (lastWritten a xs)
  /-- … also byte by byte, … -/
  bytes : ∀ a, ¬ Misses base size a → ∃ bytes, m.readBytes a = .ok bytes ∧ bytes.length = 4 ∧
    bigEndian bytes = (lastWritten a xs).toNat
  /-- … and no word has two addresses. -/
  apart : ∀ a b i, m.index a = .ok i → m.index b = .ok i → a = b

/-- **Memory is a store of words**, wherever its window begins and ends. After every sequence of reads
and writes, those that missed the window included, it answers with what was written last. -/
theorem faithful_run (base : Address) (size : Nat) (xs : List Access) :
    Faithful base size xs ((zeroed base size).run xs) := by
  have hwindow := sameWindow_run (zeroed base size) xs
  have hsize : ((zeroed base size).run xs).words.size = size := hwindow.size.trans Array.size_replicate
  have hread : ∀ a, ¬ Misses base size a →
      ((zeroed base size).run xs).read a = .ok (lastWritten a xs) := by
    intro a ha
    refine read_run (accessible_iff_not_misses.2 ?_) xs
    simpa [zeroed] using ha
  refine ⟨fun x f => ?_, hread, fun a ha => ?_, fun a b i => index_inj⟩
  · have h := access_eq_error_iff ((zeroed base size).run xs) x f
    rwa [hwindow.base, hsize] at h
  · refine ⟨bytesOf (lastWritten a xs), ?_, rfl, bigEndian_bytesOf _⟩
    rw [readBytes, hread a ha]
    rfl

/-- Three words around the top of the address space, from between two words on: the last of them has no
address. -/
example :
    let m := (zeroed ⟨0xfffffff6⟩ 3).run
      [.write ⟨0xfffffff8⟩ 0xbeef2929, .write ⟨0xfffffff6⟩ 1, .write ⟨0⟩ 2]
    m.words = #[0xbeef2929, 0, 0] ∧ m.readBytes ⟨0xfffffff8⟩ = .ok [0xbe, 0xef, 0x29, 0x29] ∧
      m.read ⟨0xfffffffc⟩ = .ok 0 ∧ m.read ⟨0⟩ = .error (.badAccess ⟨0⟩) := by decide

end Memory

end CommandPool
