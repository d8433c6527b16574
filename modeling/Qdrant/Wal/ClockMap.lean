-- SUMMARY: Clock tags, the clock map that accepts or rejects them, and recovery points over clock maps.
import Qdrant.Base.HashMap

/-!
# Clock map and recovery points

Every replicated operation carries a clock tag `(peer, clock, tick)`. A node
keeps the highest tick it has seen of every clock in a `ClockMap`, which decides
whether an operation is accepted. A `RecoveryPoint` is a plain copy of those
ticks that a node sends to another one to ask what it has missed
(`lib/collection/src/shards/local_shard/clock_map.rs`).
-/

namespace Qdrant

/-! ## Clock tags -/

abbrev PeerId := UInt64

abbrev ClockToken := UInt64

structure ClockTag where
  peerId : PeerId
  clockId : UInt32
  clockTick : UInt64
  /-- A unique token for each clock tag. -/
  token : ClockToken
  force : Bool
deriving DecidableEq, Repr

/-- A tag that is not forced. -/
def ClockTag.newWithToken (peerId : PeerId) (clockId : UInt32) (clockTick : UInt64)
    (token : ClockToken) : ClockTag :=
  { peerId, clockId, clockTick, token, force := false }

/-- A clock of a node: one of the clocks of one peer. -/
structure Key where
  peerId : PeerId
  clockId : UInt32
deriving DecidableEq, Repr

def Key.fromTag (tag : ClockTag) : Key :=
  { peerId := tag.peerId, clockId := tag.clockId }

/-! ## Clocks -/

structure Clock where
  currentTick : UInt64
  token : ClockToken
deriving DecidableEq, Repr

/-- Advance the clock to `newTick` if that is newer than the current tick. The
flag says whether the operation is accepted, the last component is the tick the
clock has afterwards. -/
def Clock.advanceTo (c : Clock) (newTick : UInt64) (newToken : ClockToken) :
    Clock × Bool × UInt64 :=
  let c' := if c.currentTick < newTick then { currentTick := newTick, token := newToken } else c
  (c', c'.currentTick == newTick && c'.token == newToken, c'.currentTick)

structure ClockMap where
  clocks : HashMap Key Clock
  /-- Optional snapshot with an earlier version of the clocks. -/
  snapshot : Option (HashMap Key Clock)
  /-- Whether the map has changed since it was last persisted. -/
  changed : Bool
deriving DecidableEq

namespace ClockMap

def empty : ClockMap := { clocks := ∅, snapshot := none, changed := false }

section

variable (m : ClockMap)

/-- Advance the clock of the tag. A clock that is not tracked yet is added, unless
the tick is `0`, which is rejected. -/
def advanceClockImpl (tag : ClockTag) : ClockMap × Bool × UInt64 :=
  let key := Key.fromTag tag
  let (clocks, isAccepted, tick) :=
    match m.clocks.get? key with
    | some clock =>
      let (clock', accepted, tick) := clock.advanceTo tag.clockTick tag.token
      (m.clocks.insert key clock', accepted, tick)
    | none =>
      let isNonZeroTick := decide (0 < tag.clockTick)
      let clocks :=
        if isNonZeroTick then
          m.clocks.insert key { currentTick := tag.clockTick, token := tag.token }
        else m.clocks
      (clocks, isNonZeroTick, tag.clockTick)
  ({ m with clocks, changed := m.changed || isAccepted }, isAccepted, tick)

/-- Advance the clock of the tag and say whether the operation is accepted. A
rejected tag is corrected to the tick this map has. -/
def advanceClockAndCorrectTag (tag : ClockTag) : ClockMap × ClockTag × Bool :=
  let (m', clockAccepted, currentTick) := m.advanceClockImpl tag
  let operationAccepted := clockAccepted || tag.force
  (m', if operationAccepted then tag else { tag with clockTick := currentTick }, operationAccepted)

def advanceClock (tag : ClockTag) : ClockMap :=
  (m.advanceClockImpl tag).1

/-- The tick this map has seen of a clock, `0` for a clock it does not track. -/
def tick (k : Key) : UInt64 :=
  ((m.clocks.get? k).map Clock.currentTick).getD 0

end

variable {m : ClockMap}

theorem tick_of_get?_eq_some {k : Key} {c : Clock} (h : m.clocks.get? k = some c) :
    m.tick k = c.currentTick := by
  rw [tick, h, Option.map_some, Option.getD_some]

theorem tick_of_get?_eq_none {k : Key} (h : m.clocks.get? k = none) : m.tick k = 0 := by
  rw [tick, h, Option.map_none, Option.getD_none]

section

variable (m : ClockMap) (tag : ClockTag)

/-- A tag is newer than what the map has seen of its clock. -/
def IsNewer : Prop :=
  m.tick (Key.fromTag tag) < tag.clockTick

/-- What is left of a map after a tag with a newer tick: the entry of its clock is
replaced. -/
def setClock : ClockMap :=
  { m with
    clocks := m.clocks.insert (Key.fromTag tag)
      { currentTick := tag.clockTick, token := tag.token }
    changed := true }

@[simp] theorem tick_setClock (k : Key) :
    (m.setClock tag).tick k = if k = Key.fromTag tag then tag.clockTick else m.tick k := by
  simp only [tick, setClock, HashMap.get?_insert]
  split <;> rfl

end

variable {tag : ClockTag}

/-- A newer tag is accepted and becomes the entry of its clock. -/
theorem advanceClockImpl_of_isNewer (h : m.IsNewer tag) :
    m.advanceClockImpl tag = (m.setClock tag, true, tag.clockTick) := by
  unfold IsNewer tick at h
  unfold advanceClockImpl setClock
  cases hk : m.clocks.get? (Key.fromTag tag) with
  | none =>
    have hpos : 0 < tag.clockTick := by simpa [hk] using h
    simp [hk, hpos]
  | some c =>
    have hlt : c.currentTick < tag.clockTick := by simpa [hk] using h
    simp [hk, Clock.advanceTo, hlt]

/-- A tag that is not newer leaves the clocks alone. It is accepted only if it
repeats the last accepted tag of its clock. -/
theorem advanceClockImpl_of_not_isNewer (h : ¬ m.IsNewer tag) :
    (m.advanceClockImpl tag).1.clocks = m.clocks ∧
    (m.advanceClockImpl tag).1.snapshot = m.snapshot ∧
    ((m.advanceClockImpl tag).2.1 = true → m.tick (Key.fromTag tag) = tag.clockTick) := by
  unfold IsNewer tick at h
  unfold advanceClockImpl tick
  cases hk : m.clocks.get? (Key.fromTag tag) with
  | none =>
    have hpos : ¬ 0 < tag.clockTick := by simpa [hk] using h
    simp [hk, hpos]
  | some c =>
    have hlt : ¬ c.currentTick < tag.clockTick := by simpa [hk] using h
    simp only [hk]
    refine ⟨?_, trivial, ?_⟩
    · simp only [Clock.advanceTo, hlt, if_false]
      exact HashMap.insert_eq_self hk
    · simp only [Clock.advanceTo, hlt, if_false, Bool.and_eq_true, beq_iff_eq, Option.map_some,
        Option.getD_some]
      exact And.left

/-- The tick of a clock never goes back. -/
theorem tick_le_tick_advanceClockImpl (m : ClockMap) (tag : ClockTag) (k : Key) :
    m.tick k ≤ (m.advanceClockImpl tag).1.tick k := by
  by_cases h : m.IsNewer tag
  · rw [advanceClockImpl_of_isNewer h, tick_setClock]
    split
    · next heq => exact heq ▸ UInt64.le_of_lt h
    · exact UInt64.le_refl _
  · simp only [tick, (advanceClockImpl_of_not_isNewer h).1]
    exact UInt64.le_refl _

/-- After an accepted tag, its clock stands at the tick of the tag. -/
theorem tick_advanceClockImpl_accepted (h : (m.advanceClockImpl tag).2.1 = true) :
    (m.advanceClockImpl tag).1.tick (Key.fromTag tag) = tag.clockTick := by
  by_cases hn : m.IsNewer tag
  · rw [advanceClockImpl_of_isNewer hn, tick_setClock, if_pos rfl]
  · have hspec := advanceClockImpl_of_not_isNewer hn
    rw [← hspec.2.2 h]
    simp only [tick, hspec.1]

end ClockMap

/-! ## Recovery points

A recovery point lists clocks with a tick and a token. The token is carried
along but never compared, so every operation is described by the ticks alone:
`RecoveryPoint.get` and the lemmas below say what each operation does to them.
-/

structure RecoveryPoint where
  clocks : HashMap Key (UInt64 × ClockToken)
deriving DecidableEq

/-- The recovery point of a clock map. An existing snapshot takes precedence over
the current clocks. -/
def ClockMap.toRecoveryPoint (m : ClockMap) : RecoveryPoint :=
  { clocks := (m.snapshot.getD m.clocks).mapVal fun _ c => (c.currentTick, c.token) }

namespace RecoveryPoint

def isEmpty (rp : RecoveryPoint) : Bool :=
  rp.clocks.isEmpty

/-- Increase all clocks. The source adds in `u64`, and release builds do not check
for overflow. -/
def increaseAllClocksBy (rp : RecoveryPoint) (ticks : UInt64) : RecoveryPoint :=
  { clocks := rp.clocks.mapVal fun _ e => (e.1 + ticks, e.2) }

section

variable (rp other : RecoveryPoint)

/-- Whether some clock is not in `other`. -/
def hasClocksNotIn : Bool :=
  rp.clocks.any fun key _ => (other.clocks.get? key).isNone

/-- Whether some clock is newer than in `other`. A clock that is not in `other`
counts as newer. -/
def hasAnyNewerClocksThan : Bool :=
  rp.clocks.any fun key e => (other.clocks.get? key).all fun e' => decide (e.1 > e'.1)

/-- Whether some clock is older than in `other`. A clock that is not in `other`
does not count. -/
def hasAnyOlderClocksThan : Bool :=
  rp.clocks.any fun key e => (other.clocks.get? key).any fun e' => decide (e.1 < e'.1)

/-- Add the clocks that are only in `other`, with tick `1`. The token is the random
one the source draws for this call. -/
def initializeClocksMissingFrom (randomToken : ClockToken) : RecoveryPoint :=
  { clocks := rp.clocks.union (other.clocks.mapVal fun _ _ => (1, randomToken)) }

/-- Remove the clocks that have the same tick in `other`. -/
def removeClocksEqualTo : RecoveryPoint :=
  { clocks := rp.clocks.retain fun key e => !(other.clocks.get? key).any fun e' => e.1 == e'.1 }

end

/-- Remove the clock of the tag if it is newer than or equal to the tag. The flag
says whether the removed clock was equal to it. -/
def removeClockIfNewerOrEqualToTag (rp : RecoveryPoint) (tag : ClockTag) :
    RecoveryPoint × Bool :=
  match rp.clocks.get? (Key.fromTag tag) with
  | none => (rp, false)
  | some e =>
    if e.1 ≥ tag.clockTick then
      ({ clocks := rp.clocks.erase (Key.fromTag tag) }, e.1 == tag.clockTick)
    else (rp, false)

/-! ## The ticks of a recovery point -/

/-- The tick of a clock, if the recovery point has that clock. -/
def get (rp : RecoveryPoint) (k : Key) : Option UInt64 :=
  (rp.clocks.get? k).map Prod.fst

/-- The tick a recovery point requests of a clock: `0` if it does not have it. -/
def requested (rp : RecoveryPoint) (k : Key) : UInt64 :=
  (rp.get k).getD 0

@[simp] theorem get_toRecoveryPoint {m : ClockMap} (h : m.snapshot = none) (k : Key) :
    m.toRecoveryPoint.get k = (m.clocks.get? k).map Clock.currentTick := by
  simp [ClockMap.toRecoveryPoint, get, h, Function.comp_def]

variable {rp : RecoveryPoint}

theorem isEmpty_iff : rp.isEmpty = true ↔ ∀ k, rp.get k = none := by
  simp [isEmpty, HashMap.isEmpty_iff, get]

theorem isEmpty_eq_false : rp.isEmpty = false ↔ ∃ k t, rp.get k = some t := by
  simp [isEmpty, HashMap.isEmpty_eq_false, get]

@[simp] theorem get_increaseAllClocksBy (rp : RecoveryPoint) (n : UInt64) (k : Key) :
    (rp.increaseAllClocksBy n).get k = (rp.get k).map (· + n) := by
  simp [increaseAllClocksBy, get, Function.comp_def]

variable {other : RecoveryPoint}

private theorem any_clocks_eq_false (p : UInt64 → Option (UInt64 × ClockToken) → Bool)
    {P : UInt64 → Option UInt64 → Prop} (hp : ∀ t e, p t e = false ↔ P t (e.map Prod.fst)) :
    (rp.clocks.any fun k e => p e.1 (other.clocks.get? k)) = false ↔
      ∀ k t, rp.get k = some t → P t (other.get k) := by
  rw [HashMap.any_eq_false]
  constructor
  · intro h k t hk
    obtain ⟨e, he, rfl⟩ := Option.map_eq_some_iff.mp hk
    exact (hp _ _).mp (h k e he)
  · intro h k e he
    exact (hp _ _).mpr (h k e.1 (by rw [get, he, Option.map_some]))

theorem hasClocksNotIn_eq_false : rp.hasClocksNotIn other = false ↔
      ∀ k t, rp.get k = some t → ∃ t', other.get k = some t' := by
  apply any_clocks_eq_false (fun _ e => e.isNone) (P := fun _ o => ∃ t', o = some t')
  intro t e
  cases e <;> simp

theorem hasAnyNewerClocksThan_eq_false : rp.hasAnyNewerClocksThan other = false ↔
      ∀ k t, rp.get k = some t → ∃ t', other.get k = some t' ∧ t ≤ t' := by
  apply any_clocks_eq_false (fun t e => e.all fun e' => decide (t > e'.1))
    (P := fun t o => ∃ t', o = some t' ∧ t ≤ t')
  intro t e
  cases e <;> simp

theorem hasAnyOlderClocksThan_eq_false : rp.hasAnyOlderClocksThan other = false ↔
      ∀ k t, rp.get k = some t → ∀ t', other.get k = some t' → t' ≤ t := by
  apply any_clocks_eq_false (fun t e => e.any fun e' => decide (t < e'.1))
    (P := fun t o => ∀ t', o = some t' → t' ≤ t)
  intro t e
  cases e <;> simp

@[simp] theorem get_initializeClocksMissingFrom (rp other : RecoveryPoint) (token : ClockToken)
    (k : Key) :
    (rp.initializeClocksMissingFrom other token).get k =
      (rp.get k).or ((other.get k).map fun _ => 1) := by
  simp only [initializeClocksMissingFrom, get, HashMap.get?_union, HashMap.get?_mapVal]
  cases rp.clocks.get? k <;> cases other.clocks.get? k <;> rfl

@[simp] theorem get_removeClocksEqualTo (rp other : RecoveryPoint) (k : Key) :
    (rp.removeClocksEqualTo other).get k = (rp.get k).filter fun t => !(other.get k == some t) := by
  simp only [removeClocksEqualTo, get, HashMap.get?_retain]
  cases rp.clocks.get? k with
  | none => rfl
  | some e =>
    cases other.clocks.get? k with
    | none => rfl
    | some e' => by_cases he : e'.1 = e.1 <;> simp [Option.filter, he, Ne.symm]

/-- Removing the clock of a tag: the other clocks stay. -/
theorem get_removeClockIfNewerOrEqualToTag (rp : RecoveryPoint) (tag : ClockTag) (k : Key) :
    (rp.removeClockIfNewerOrEqualToTag tag).1.get k =
      if k = Key.fromTag tag then (rp.get k).filter fun t => decide (t < tag.clockTick)
      else rp.get k := by
  unfold removeClockIfNewerOrEqualToTag
  by_cases hk : k = Key.fromTag tag
  · subst hk
    cases he : rp.clocks.get? (Key.fromTag tag) with
    | none => simp [get, he]
    | some e =>
      by_cases hge : tag.clockTick ≤ e.1
      · simp [get, he, hge, Option.filter, UInt64.not_lt.mpr hge]
      · simp [get, he, hge, Option.filter, UInt64.not_le.mp hge]
  · rw [if_neg hk]
    cases he : rp.clocks.get? (Key.fromTag tag) with
    | none => rfl
    | some e => by_cases hge : tag.clockTick ≤ e.1 <;> simp [get, hge, hk]

/-- The flag says that the clock stood exactly at the tick of the tag. -/
theorem removeClockIfNewerOrEqualToTag_flag (rp : RecoveryPoint) (tag : ClockTag) :
    (rp.removeClockIfNewerOrEqualToTag tag).2 = true ↔
      rp.get (Key.fromTag tag) = some tag.clockTick := by
  unfold removeClockIfNewerOrEqualToTag get
  cases rp.clocks.get? (Key.fromTag tag) with
  | none => simp
  | some e =>
    by_cases hge : tag.clockTick ≤ e.1
    · simp [hge]
    · have hne : e.1 ≠ tag.clockTick := fun heq => hge (heq ▸ UInt64.le_refl _)
      simp [hge, hne]

end RecoveryPoint

end Qdrant
