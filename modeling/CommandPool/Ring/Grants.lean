import CommandPool.Ring.Basic
/-!
# Grants of the ring

A request goes to the contiguous words at `head`. When the words up to the end of the region are
too few the ring wraps: the rest of the region is skipped, and the grant starts at the base. The
skipped words are repaid when `tail` reaches them.

The newest grant can give its end back, the oldest one can be released. A grant is told by its
address: the end of the newest one is at `head`, the start of the oldest one at `tail`.

| here | there |
| --- | --- |
| `Grant` | `Grant` |
| `place`, `wrapped` | `RingState::available`, and its wrapping branch |
| `acquire`, `grant` | `RingPool::acquire`, and what it does once there is room |
| `shrink` | `RingPool::shrink` |
| `release`, `retreat` | `RingPool::release`, and what it does once the address is right |
-/
namespace CommandPool

/-- A region handed out by the ring. -/
structure Grant where
  start : Address
  words : Nat
deriving DecidableEq, Repr

/-- The words left unused by a wrap. -/
structure Skip where
  start : Address
  words : Nat
deriving DecidableEq, Repr

/-- A grant, and the words skipped to make it. -/
structure Acquired where
  grant : Grant
  skip : Option Skip
deriving DecidableEq, Repr

namespace Ring

/-- A place for the next grant: the ring with `head` there, the contiguous words from there on
and the words skipped. -/
structure Place where
  ring : Ring
  room : Nat
  skip : Option Skip
deriving DecidableEq, Repr

/-- Start over at the base, leaving the words from `head` on unused. -/
def wrapped (r : Ring) : Ring :=
  { r with
    skipped := r.size - r.head
    head := 0
    stats := { r.stats with wraps := r.stats.wraps + 1 } }

/-- The place for a grant of at least `wanted` words. -/
def place (wanted : Nat) (r : Ring) : Except Failure Place :=
  match r.tail with
  | none => .ok ⟨{ r with tail := some r.head }, r.size, none⟩
  | some tail =>
    if r.head < tail ∨ (r.head = tail ∧ 0 < r.outstanding) then
      -- the head is behind the tail, or has caught up with it
      if tail - r.head < wanted then .error (.refused .insufficient)
      else .ok ⟨r, tail - r.head, none⟩
    else if r.size < r.head then .error (.fault (.overflow .subtract))
    else if wanted ≤ r.size - r.head then .ok ⟨r, r.size - r.head, none⟩
    else if tail < wanted then .error (.refused .insufficient)
    else .ok ⟨r.wrapped, tail, some ⟨r.address r.head, r.size - r.head⟩⟩

/-- What is reported when the ring wraps. -/
def skipRecord (s : Skip) : Record :=
  .debug ("RingPool: wrapped, skipped " ++ toString s.words ++ " words at " ++ s.start.text)

/-- Hand out the first `words` words at `head`. -/
def grant (words : Nat) (skip : Option Skip) (r : Ring) : Outcome Ring Acquired :=
  match Counter.add r.head words, Counter.add r.outstanding words with
  | .ok head, .ok outstanding =>
    .ok ⟨⟨r.address r.head, words⟩, skip⟩
      { r with
        head := head
        outstanding := outstanding
        stats := { r.stats with
          grants := r.stats.grants + 1
          peak := max r.stats.peak outstanding } }
  | .error o, _ | _, .error o => r.overflow o

/-- Take a grant of at least `wanted` words, raised to the minimum. It is as long as the
contiguous run allows, up to the maximum. -/
def acquire (wanted : Nat) (r : Ring) : Outcome Ring Acquired :=
  let wanted := max wanted r.minGrant
  if ¬ r.IsAttached then r.refuse .notInitialized
  else if r.size < wanted then r.refuse (.requestTooLarge wanted r.size)
  else
    let r := r.settled
    match r.place wanted with
    | .ok p => p.ring.grant (min p.room r.maxGrant) p.skip
    | .error (.refused e) =>
      { r with stats := { r.stats with stalls := r.stats.stalls + 1 } }.refuse e
    | .error (.fault f) => .error (.fault f) r

/-- Return the end of the newest grant, of which `used` words of `granted` are kept. -/
def shrink (region : Address) (used granted : Nat) (r : Ring) : Outcome Ring Unit :=
  if granted < used then r.refuse (.shrinkLargerThanGrant used granted)
  else if used = granted then .ok () r
  else
    let start := r.offset region
    match Counter.add start granted with
    | .error o => r.overflow o
    | .ok stop =>
      if r.head ≠ stop then r.refuse (.outOfOrderShrink region)
      else match Counter.sub r.outstanding (granted - used) with
        | .error o => r.overflow o
        | .ok outstanding =>
          .ok () { r with head := start + used, outstanding := outstanding }.settled

/-- The tail moved past `words` words. -/
def retreat (tail words : Nat) (r : Ring) : Outcome Ring Unit :=
  match Counter.add tail words with
  | .error o => r.overflow o
  | .ok tail =>
    .ok () { r with
      tail := some tail
      outstanding := r.outstanding - words
      stats := { r.stats with releases := r.stats.releases + 1 } }.settled

/-- Return the oldest grant. A tail on the skipped words goes to the base first and repays them;
the repayment stands even if the region then is not the one at the base. -/
def release (region : Address) (words : Nat) (r : Ring) : Outcome Ring Unit :=
  match r.tail with
  | none => r.refuse (.outOfOrderRelease region (r.address r.head))
  | some tail =>
    if r.outstanding < words then r.refuse (.outOfOrderRelease region (r.address r.head))
    else match Counter.add tail r.skipped with
      | .error o => r.overflow o
      | .ok reach =>
        let tail := if reach = r.size then 0 else tail
        let r := if reach = r.size then { r with skipped := 0 } else r
        if r.address tail ≠ region then
          r.refuse (.outOfOrderRelease region (r.address tail))
        else r.retreat tail words

end Ring

end CommandPool
