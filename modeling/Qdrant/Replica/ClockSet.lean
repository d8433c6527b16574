-- SUMMARY: The clocks of a replica set: guards are exclusive and the ticks of a clock only grow.
import Qdrant.Base.Run
import Mathlib

/-!
# Clock set

An update takes a clock of the replica set for as long as it runs
(`lib/collection/src/shards/replica_set/clock_set.rs`). The guard of a clock is the only one
that ticks it, so a call on a guard is one step here, although it does several atomic
operations.

Ticks are of type `u64`. The additions wrap around in a release build, and `fetch_add` does so
in every build.
-/

namespace Qdrant

open List hiding set

namespace ClockSet

structure Clock where
  /-- The next tick. -/
  nextTick : UInt64
  available : Bool
deriving DecidableEq

namespace Clock

def newLocked : Clock := { nextTick := 0, available := false }

/-- The current tick, if the clock has ticked. -/
def currentTick (c : Clock) : Option UInt64 :=
  if c.nextTick = 0 then none else some (c.nextTick - 1)

/-- Advance the clock by one tick and return the tick before. A clock at tick 0 stays there,
until `advanceTo` moves it on. -/
def tickOnce (c : Clock) : Clock × UInt64 :=
  let currentTick := c.nextTick
  let c := { c with nextTick := c.nextTick + 1 }
  (if currentTick = 0 then { c with nextTick := 0 } else c, currentTick)

/-- Advance the clock to `newTick`, if that is newer. -/
def advanceTo (c : Clock) (newTick : UInt64) : Clock :=
  { c with nextTick := max c.nextTick (newTick + 1) }

/-- Take the lock of a clock and return whether it was free. -/
def tryLock (c : Clock) : Clock × Bool := ({ c with available := false }, c.available)

def release (c : Clock) : Clock := { c with available := true }

end Clock

structure ClockGuard where
  id : UInt32
  /-- The place of the clock in the set, for the reference to it. -/
  clock : Nat
deriving DecidableEq

end ClockSet

structure ClockSet where
  clocks : List ClockSet.Clock
  maxClocks : Nat
deriving DecidableEq

namespace ClockSet

def withMaxClocks (maxClocks : Nat) : ClockSet := { clocks := [], maxClocks }

def defaultMaxClocks : Nat := 64

def new : ClockSet := withMaxClocks defaultMaxClocks

/-- Lock the first clock that is free and return its place. -/
def lockFirst : List Clock → Option Nat × List Clock
  | [] => (none, [])
  | clock :: clocks =>
    let (clock, locked) := clock.tryLock
    if locked then (some 0, clock :: clocks)
    else
      let (place, clocks) := lockFirst clocks
      (place.map (· + 1), clock :: clocks)

/-- Get the first available clock of the set, or create a new one. -/
def getClock (s : ClockSet) : Option ClockGuard × ClockSet :=
  match lockFirst s.clocks with
  | (some place, clocks) => (some { id := .ofNat place, clock := place }, { s with clocks })
  | (none, clocks) =>
    let id := clocks.length
    if s.maxClocks ≤ id then (none, { s with clocks })
    else (some { id := .ofNat id, clock := id }, { s with clocks := clocks ++ [.newLocked] })

/-! ## Runs -/

/-- What a guard has done to the clock of its id. -/
inductive Event where
  | ticked (id : UInt32) (tick : UInt64)
  | advanced (id : UInt32) (tick : UInt64)
deriving DecidableEq

def Event.id : Event → UInt32
  | .ticked id _ | .advanced id _ => id

def Event.tick : Event → UInt64
  | .ticked _ tick | .advanced _ tick => tick

/-- A clock set with the guards that are alive and what has happened so far. -/
structure State where
  set : ClockSet
  guards : List ClockGuard
  history : List Event
deriving DecidableEq

/-- Calls on the set, and on one of the guards that are alive. -/
inductive Call where
  | getClock
  | tickOnce (guard : Nat)
  | advanceTo (guard : Nat) (newTick : UInt64)
  | drop (guard : Nat)
deriving DecidableEq

def State.init (maxClocks : Nat) : State :=
  { set := withMaxClocks maxClocks, guards := [], history := [] }

/-- Change the clock of a guard. -/
def setClock (s : ClockSet) (place : Nat) (clock : Clock) : ClockSet :=
  { s with clocks := s.clocks.set place clock }

def step (s : State) : Call → Option State
  | .getClock =>
    match s.set.getClock with
    | (none, set) => some { s with set }
    | (some guard, set) => some { s with set, guards := s.guards ++ [guard] }
  | .tickOnce g => do
    let guard ← s.guards[g]?
    let clock ← s.set.clocks[guard.clock]?
    let (clock, tick) := clock.tickOnce
    return { s with
      set := s.set.setClock guard.clock clock
      history := s.history ++ [.ticked guard.id tick] }
  | .advanceTo g newTick => do
    let guard ← s.guards[g]?
    let clock ← s.set.clocks[guard.clock]?
    return { s with
      set := s.set.setClock guard.clock (clock.advanceTo newTick)
      history := s.history ++ [.advanced guard.id newTick] }
  | .drop g => do
    let guard ← s.guards[g]?
    let clock ← s.set.clocks[guard.clock]?
    return { s with
      set := s.set.setClock guard.clock clock.release
      guards := s.guards.eraseIdx g }

/-- The largest tick. -/
def maxTick : UInt64 := 0xFFFFFFFFFFFFFFFF

/-- The call does not reach the end of the ticks. -/
def InRange (s : State) : Call → Prop
  | .tickOnce g => ∀ guard clock, s.guards[g]? = some guard → s.set.clocks[guard.clock]? = some clock →
      clock.nextTick ≠ maxTick
  | .advanceTo _ newTick => newTick ≠ maxTick
  | _ => True

/-! ## Locking -/

/-- The first free clock is locked; without one nothing changes. -/
theorem lockFirst_cases (clocks : List Clock) :
    (lockFirst clocks = (none, clocks) ∧ ∀ clock ∈ clocks, clock.available = false) ∨
      ∃ place clock, clocks[place]? = some clock ∧ clock.available = true ∧
        lockFirst clocks = (some place, clocks.set place { clock with available := false }) := by
  induction clocks with
  | nil => exact .inl ⟨rfl, fun _ hmem => nomatch hmem⟩
  | cons clock clocks ih =>
    rw [lockFirst]
    dsimp only [Clock.tryLock]
    cases havailable : clock.available with
    | true => exact .inr ⟨0, clock, rfl, havailable, rfl⟩
    | false =>
      have hsame : ({ clock with available := false } : Clock) = clock := by
        rw [← havailable]
      rw [hsame]
      rcases ih with ⟨heq, hall⟩ | ⟨place, found, hfound, hfree, heq⟩
      · rw [heq]
        exact .inl ⟨rfl, forall_mem_cons.mpr ⟨havailable, hall⟩⟩
      · rw [heq]
        exact .inr ⟨place + 1, found, hfound, hfree, rfl⟩

variable {place : Nat}

/-- What a call of `get_clock` can do: lock a free clock, create one, or find that all are in use. -/
theorem getClock_cases (s : ClockSet) :
    (∃ place clock, s.clocks[place]? = some clock ∧ clock.available = true ∧
      s.getClock = (some ⟨.ofNat place, place⟩, s.setClock place { clock with available := false })) ∨
    ((∀ clock ∈ s.clocks, clock.available = false) ∧ s.clocks.length < s.maxClocks ∧
      s.getClock = (some ⟨.ofNat s.clocks.length, s.clocks.length⟩,
        { s with clocks := s.clocks ++ [.newLocked] })) ∨
    ((∀ clock ∈ s.clocks, clock.available = false) ∧ s.maxClocks ≤ s.clocks.length ∧
      s.getClock = (none, s)) := by
  unfold getClock
  rcases lockFirst_cases s.clocks with ⟨heq, hall⟩ | ⟨place, clock, hclock, hfree, heq⟩
  · rw [heq]
    dsimp only
    split
    next hge => exact .inr (.inr ⟨hall, hge, rfl⟩)
    next hlt => exact .inr (.inl ⟨hall, Nat.lt_of_not_le hlt, rfl⟩)
  · rw [heq]
    exact .inl ⟨place, clock, hclock, hfree, rfl⟩

/-! ## The invariant -/

theorem lt_add_one_of_ne_maxTick {tick : UInt64} (h : tick ≠ maxTick) : tick < tick + 1 := by
  have hne : tick.toNat ≠ 2 ^ 64 - 1 := fun heq => h (UInt64.toNat_inj.mp heq)
  have hlt := tick.toNat_lt
  rw [UInt64.lt_iff_toNat_lt, UInt64.toNat_add]
  have hone : (1 : UInt64).toNat = 1 := rfl
  omega

theorem le_advanceTo (clock : Clock) (newTick : UInt64) :
    clock.nextTick ≤ (clock.advanceTo newTick).nextTick ∧
      newTick + 1 ≤ (clock.advanceTo newTick).nextTick := by
  have hmax : (clock.advanceTo newTick).nextTick =
      if clock.nextTick ≤ newTick + 1 then newTick + 1 else clock.nextTick := rfl
  rw [hmax]
  split
  next hle => exact ⟨hle, UInt64.le_refl _⟩
  next hlt => exact ⟨UInt64.le_refl _, UInt64.le_of_lt (UInt64.not_le.mp hlt)⟩

theorem tickOnce_spec {clock : Clock} (hlt : clock.nextTick < clock.nextTick + 1) :
    clock.tickOnce.1.available = clock.available ∧ clock.nextTick ≤ clock.tickOnce.1.nextTick ∧
      ∀ id, clock.tickOnce.2 < clock.tickOnce.1.nextTick ∨
        Event.ticked id clock.tickOnce.2 = .ticked id 0 := by
  dsimp only [Clock.tickOnce]
  split
  next hzero => simp [hzero]
  next => exact ⟨rfl, UInt64.le_of_lt hlt, fun _ => .inl hlt⟩

/-- The clock of an event is past its tick. Only the tick 0 can come again. -/
def Past (clocks : List Clock) (event : Event) : Prop :=
  ∃ place clock, event.id = .ofNat place ∧ clocks[place]? = some clock ∧
    (event.tick < clock.nextTick ∨ event = .ticked event.id 0)

/-- No clock is gone or has gone back. -/
def Advanced (clocks clocks' : List Clock) : Prop :=
  ∀ (place : Nat) (clock : Clock), clocks[place]? = some clock →
    ∃ clock' : Clock, clocks'[place]? = some clock' ∧ clock.nextTick ≤ clock'.nextTick

theorem Past.mono {clocks clocks' : List Clock} {event : Event} (h : Past clocks event)
    (hadvanced : Advanced clocks clocks') : Past clocks' event := by
  obtain ⟨place, clock, hplace, hget, htick⟩ := h
  obtain ⟨clock', hget', hle⟩ := hadvanced place clock hget
  exact ⟨place, clock', hplace, hget', htick.imp_left fun hlt => UInt64.lt_of_lt_of_le hlt hle⟩

theorem getElem?_setClock {set : ClockSet} {clock : Clock}
    (hclock : set.clocks[place]? = some clock) (clock' : Clock) (i : Nat) :
    (set.setClock place clock').clocks[i]? = if i = place then some clock' else set.clocks[i]? := by
  have hlt := (List.getElem?_eq_some_iff.mp hclock).1
  rw [setClock, getElem?_set]
  rcases eq_or_ne place i with rfl | hne
  · rw [if_pos rfl, if_pos rfl, if_pos hlt]
  · rw [if_neg hne, if_neg (Ne.symm hne)]

theorem advanced_setClock {set : ClockSet} {clock clock' : Clock}
    (hclock : set.clocks[place]? = some clock) (hle : clock.nextTick ≤ clock'.nextTick) :
    Advanced set.clocks (set.setClock place clock').clocks := by
  intro i clock₀ hget
  rw [getElem?_setClock hclock]
  split
  next heq =>
    rw [heq, hclock] at hget
    cases hget
    exact ⟨clock', rfl, hle⟩
  next => exact ⟨clock₀, hget, UInt64.le_refl _⟩

/-- The guards that are alive hold the clocks that are not available, and every clock is past
the ticks of its id. -/
structure Inv (maxClocks : Nat) (s : State) : Prop where
  maxClocks_eq : s.set.maxClocks = maxClocks
  length_le : s.set.clocks.length ≤ maxClocks
  ids : ∀ guard ∈ s.guards, guard.id = .ofNat guard.clock
  nodup : (s.guards.map ClockGuard.clock).Nodup
  held : ∀ place, place ∈ s.guards.map ClockGuard.clock ↔
    ∃ clock, s.set.clocks[place]? = some clock ∧ clock.available = false
  past : ∀ event ∈ s.history, Past s.set.clocks event
  /-- A tick is above everything that has happened to its id before. -/
  increasing : s.history.Pairwise fun earlier later =>
    ∀ id tick, later = .ticked id tick → tick ≠ 0 → earlier.id = id → earlier.tick < tick

variable {maxClocks : Nat} {s : State}

theorem inv_init (maxClocks : Nat) : Inv maxClocks (.init maxClocks) where
  maxClocks_eq := rfl
  length_le := Nat.zero_le _
  ids := fun _ hmem => nomatch hmem
  nodup := nodup_nil
  held := by simp [State.init, withMaxClocks]
  past := fun _ hmem => nomatch hmem
  increasing := .nil

namespace Inv

section

variable (h : Inv maxClocks s)

include h

theorem not_held {clock : Clock} (hclock : s.set.clocks[place]? = some clock)
    (hfree : clock.available = true) : place ∉ s.guards.map ClockGuard.clock := by
  rw [h.held]
  simp [hclock, hfree]

/-- Clocks of the set have different ids. -/
theorem place_inj (hmax : maxClocks ≤ 2 ^ 32) {a b : Nat} {clock clock' : Clock}
    (ha : s.set.clocks[a]? = some clock) (hb : s.set.clocks[b]? = some clock')
    (hids : UInt32.ofNat a = UInt32.ofNat b) : a = b := by
  have ha_lt := (List.getElem?_eq_some_iff.mp ha).1
  have hb_lt := (List.getElem?_eq_some_iff.mp hb).1
  have hlength := h.length_le
  have hmod := congrArg UInt32.toNat hids
  rwa [UInt32.toNat_ofNat', UInt32.toNat_ofNat', Nat.mod_eq_of_lt (by omega),
    Nat.mod_eq_of_lt (by omega)] at hmod

/-- A clock that a guard holds changes, and this is recorded. -/
theorem record (hmax : maxClocks ≤ 2 ^ 32) {guard : ClockGuard} {clock clock' : Clock}
    {event : Event} (hguard : guard ∈ s.guards) (hclock : s.set.clocks[guard.clock]? = some clock)
    (havailable : clock'.available = clock.available) (hle : clock.nextTick ≤ clock'.nextTick)
    (hid : event.id = guard.id) (hbelow : event.tick < clock'.nextTick ∨ event = .ticked event.id 0)
    (htick : ∀ id tick, event = .ticked id tick → tick ≠ 0 → tick = clock.nextTick) :
    Inv maxClocks { s with
      set := s.set.setClock guard.clock clock'
      history := s.history ++ [event] } where
  maxClocks_eq := h.maxClocks_eq
  length_le := by
    rw [setClock, length_set]
    exact h.length_le
  ids := h.ids
  nodup := h.nodup
  held := by
    intro place
    rw [h.held, getElem?_setClock hclock]
    split
    next heq =>
      subst heq
      simp [hclock, havailable]
    next => rfl
  past := by
    intro event' hmem
    rcases mem_append.mp hmem with hold | hnew
    · exact (h.past event' hold).mono (advanced_setClock hclock hle)
    · obtain rfl := mem_singleton.mp hnew
      refine ⟨guard.clock, clock', hid.trans (h.ids guard hguard), ?_, hbelow⟩
      rw [getElem?_setClock hclock, if_pos rfl]
  increasing := by
    rw [pairwise_append]
    refine ⟨h.increasing, pairwise_singleton .., ?_⟩
    intro earlier hearlier later hlater id tick heq hne hid'
    obtain rfl := mem_singleton.mp hlater
    obtain rfl := htick id tick heq hne
    -- Both events are about the clock of the guard.
    obtain ⟨place, clock₀, hplace, hget, hbound⟩ := h.past earlier hearlier
    have hsame : place = guard.clock := by
      apply h.place_inj hmax hget hclock
      rw [← hplace, ← h.ids guard hguard, ← hid, heq, hid']
      rfl
    rw [hsame, hclock] at hget
    cases hget
    rcases hbound with hlt | hzero
    · exact hlt
    · rw [hzero]
      exact UInt64.pos_iff_ne_zero.mpr hne

/-- A guard of a clock that no guard holds is added. -/
theorem addGuard {set : ClockSet}
    (hnot : place ∉ s.guards.map ClockGuard.clock) (hmax : set.maxClocks = maxClocks)
    (hlength : set.clocks.length ≤ maxClocks) (hadvanced : Advanced s.set.clocks set.clocks)
    (hheld : ∀ i, (∃ clock, set.clocks[i]? = some clock ∧ clock.available = false) ↔
      (∃ clock, s.set.clocks[i]? = some clock ∧ clock.available = false) ∨ i = place) :
    Inv maxClocks { s with set, guards := s.guards ++ [⟨.ofNat place, place⟩] } where
  maxClocks_eq := hmax
  length_le := hlength
  ids := by
    intro guard hguard
    rcases mem_append.mp hguard with hold | hnew
    · exact h.ids guard hold
    · obtain rfl := mem_singleton.mp hnew
      rfl
  nodup := by
    rw [map_append, nodup_append]
    refine ⟨h.nodup, nodup_singleton _, ?_⟩
    intro a ha b hb hab
    obtain rfl := mem_singleton.mp hb
    exact hnot (hab ▸ ha)
  held := by
    intro i
    rw [hheld, ← h.held]
    simp
  past := fun event hmem => (h.past event hmem).mono hadvanced
  increasing := h.increasing

variable {s' : State}

theorem getClock (hstep : step s .getClock = some s') : Inv maxClocks s' := by
  unfold step at hstep
  rcases getClock_cases s.set with ⟨place, clock, hclock, hfree, heq⟩ | ⟨-, hlt, heq⟩ | ⟨-, -, heq⟩
  · rw [heq] at hstep
    cases hstep
    refine h.addGuard (h.not_held hclock hfree) h.maxClocks_eq ?_
      (advanced_setClock hclock (UInt64.le_refl _)) ?_
    · rw [setClock, length_set]
      exact h.length_le
    · intro i
      rw [getElem?_setClock hclock]
      split
      next heq' => simp [heq']
      next hne => simp [hne]
  · rw [heq] at hstep
    cases hstep
    have hget : ∀ i, (s.set.clocks ++ [Clock.newLocked])[i]? =
        if i = s.set.clocks.length then some .newLocked else s.set.clocks[i]? := by
      intro i
      rw [getElem?_append]
      split
      next hi => rw [if_neg (Nat.ne_of_lt hi)]
      next hi =>
        split
        next heq' => simp [heq']
        next hne => rw [getElem?_eq_none (by simp; omega), getElem?_eq_none (by omega)]
    refine h.addGuard ?_ h.maxClocks_eq ?_ ?_ ?_
    · intro hmem
      obtain ⟨clock₀, hclock₀, -⟩ := (h.held _).mp hmem
      rw [getElem?_eq_none le_rfl] at hclock₀
      cases hclock₀
    · rw [length_append, ← h.maxClocks_eq]
      exact hlt
    · intro i clock₀ hget₀
      have hlt₀ := (List.getElem?_eq_some_iff.mp hget₀).1
      exact ⟨clock₀, by rw [hget, if_neg (Nat.ne_of_lt hlt₀), hget₀], UInt64.le_refl _⟩
    · intro i
      rw [hget]
      split
      next heq' => simp [heq', Clock.newLocked]
      next hne => simp [hne]
  · rw [heq] at hstep
    cases hstep
    exact h

theorem drop {g : Nat} (hstep : step s (.drop g) = some s') : Inv maxClocks s' := by
  simp only [step, Option.bind_eq_bind, Option.bind_eq_some_iff] at hstep
  obtain ⟨guard, hguard, clock, hclock, heq⟩ := hstep
  cases heq
  obtain ⟨hlt, hget⟩ := List.getElem?_eq_some_iff.mp hguard
  have hperm : (s.guards.map ClockGuard.clock).Perm
      (guard.clock :: (s.guards.eraseIdx g).map ClockGuard.clock) := by
    rw [← hget]
    exact (getElem_cons_eraseIdx_perm hlt).symm.map _
  obtain ⟨hnot, hnodup⟩ := nodup_cons.mp (hperm.nodup_iff.mp h.nodup)
  refine ⟨h.maxClocks_eq, ?_, ?_, hnodup, ?_, ?_, h.increasing⟩
  · rw [setClock, length_set]
    exact h.length_le
  · intro guard' hmem
    exact h.ids guard' (mem_of_mem_eraseIdx hmem)
  · intro i
    have hheld := h.held i
    rw [hperm.mem_iff] at hheld
    rw [getElem?_setClock hclock]
    split
    next heq =>
      subst heq
      simp [Clock.release, hnot]
    next hne => simpa [hne] using hheld
  · intro event hmem
    exact (h.past event hmem).mono (advanced_setClock hclock (UInt64.le_refl _))

/-- The invariant over one call. -/
theorem step (hmax : maxClocks ≤ 2 ^ 32) {call : Call} (hrange : InRange s call)
    (hstep : ClockSet.step s call = some s') : Inv maxClocks s' := by
  cases call with
  | getClock => exact h.getClock hstep
  | drop g => exact h.drop hstep
  | tickOnce g =>
    simp only [ClockSet.step, Option.bind_eq_bind, Option.bind_eq_some_iff] at hstep
    obtain ⟨guard, hguard, clock, hclock, heq⟩ := hstep
    cases heq
    have hlt : clock.nextTick < clock.nextTick + 1 :=
      lt_add_one_of_ne_maxTick (hrange guard clock hguard hclock)
    obtain ⟨havailable, hle, hbelow⟩ := tickOnce_spec hlt
    refine h.record hmax (mem_of_getElem? hguard) hclock havailable hle rfl (hbelow _) ?_
    intro id tick heq hne'
    cases heq
    rfl
  | advanceTo g newTick =>
    simp only [ClockSet.step, Option.bind_eq_bind, Option.bind_eq_some_iff] at hstep
    obtain ⟨guard, hguard, clock, hclock, heq⟩ := hstep
    cases heq
    have hlt : newTick < newTick + 1 := lt_add_one_of_ne_maxTick hrange
    apply h.record hmax (mem_of_getElem? hguard) hclock
    · rfl
    · exact (le_advanceTo clock newTick).1
    · rfl
    · exact .inl (UInt64.lt_of_lt_of_le hlt (le_advanceTo clock newTick).2)
    · intro id tick heq
      cases heq

theorem guards_subperm :
    (s.guards.map ClockGuard.clock).Subperm (List.range s.set.clocks.length) := by
  apply h.nodup.subperm
  intro place hmem
  obtain ⟨clock, hget, -⟩ := (h.held place).mp hmem
  exact List.mem_range.mpr (List.getElem?_eq_some_iff.mp hget).1

/-- There is no clock to get exactly if as many guards are alive as there can be clocks. -/
theorem getClock_none_iff : s.set.getClock.1 = none ↔ s.guards.length = maxClocks := by
  have hsubperm := h.guards_subperm
  have hle := hsubperm.length_le
  rw [length_map, length_range] at hle
  have hlength := h.length_le
  have hmax := h.maxClocks_eq
  constructor
  · intro hnone
    rcases getClock_cases s.set with ⟨_, _, -, -, heq⟩ | ⟨-, -, heq⟩ | ⟨hall, hge, -⟩
    · rw [heq] at hnone
      cases hnone
    · rw [heq] at hnone
      cases hnone
    · -- Every clock is held by a guard.
      have hsubset : List.range s.set.clocks.length ⊆ s.guards.map ClockGuard.clock := by
        intro place hmem
        have hlt := mem_range.mp hmem
        exact (h.held place).mpr ⟨_, getElem?_eq_getElem hlt, hall _ (getElem_mem hlt)⟩
      have hge' := (nodup_range.subperm hsubset).length_le
      rw [length_map, length_range] at hge'
      omega
  · intro halive
    have hperm := hsubperm.perm_of_length_le (by rw [length_map, length_range]; omega)
    rcases getClock_cases s.set with ⟨place, clock, hclock, hfree, -⟩ | ⟨-, hlt, -⟩ | ⟨-, -, heq⟩
    · have hmem := hperm.mem_iff.mpr (List.mem_range.mpr (List.getElem?_eq_some_iff.mp hclock).1)
      exact absurd hmem (h.not_held hclock hfree)
    · omega
    · rw [heq]

/-- Guards that are alive have different ids. -/
theorem nodup_ids (hmax : maxClocks ≤ 2 ^ 32) : (s.guards.map ClockGuard.id).Nodup := by
  have hids : s.guards.map ClockGuard.id = (s.guards.map ClockGuard.clock).map UInt32.ofNat := by
    rw [map_map]
    exact map_congr_left h.ids
  rw [hids]
  refine h.nodup.map_on ?_
  intro a ha b hb hab
  obtain ⟨_, hgeta, -⟩ := (h.held a).mp ha
  obtain ⟨_, hgetb, -⟩ := (h.held b).mp hb
  exact h.place_inj hmax hgeta hgetb hab

end

end Inv

/-! ## Results -/

/-- In a run that does not reach the end of the ticks, on a set with at most `2 ^ 32` clocks,
guards are exclusive and the ticks of an id grow. -/
theorem exclusive_of_inRange {maxClocks : Nat} (hmax : maxClocks ≤ 2 ^ 32) {calls : List Call} {s : State}
    (hrange : Run.Guarded step InRange (.init maxClocks) calls)
    (hrun : Run.run step (.init maxClocks) calls = some s) :
    s.set.clocks.length ≤ maxClocks ∧
    (s.set.getClock.1 = none ↔ s.guards.length = maxClocks) ∧
    (s.guards.map ClockGuard.id).Nodup ∧
    s.history.Pairwise fun earlier later =>
      ∀ id tick, later = .ticked id tick → tick ≠ 0 → earlier.id = id → earlier.tick < tick := by
  have h : Inv maxClocks s := Run.run_invariant (fun _ _ _ h hrange hstep => h.step hmax hrange hstep) hrun
    hrange (inv_init maxClocks)
  exact ⟨h.length_le, h.getClock_none_iff, h.nodup_ids hmax, h.increasing⟩

/-- Two guards of one clock, one after the other, and a second clock. -/
def reuse : List Call :=
  [.getClock, .tickOnce 0, .advanceTo 0 5, .tickOnce 0, .getClock, .drop 0, .getClock, .tickOnce 1]

theorem exclusive_of_reuse :
    ∃ s, Run.run step (.init 2) reuse = some s ∧
      s.history = [.ticked 0 0, .advanced 0 5, .ticked 0 6, .ticked 0 7] ∧
      s.set.getClock.1 = none ∧ (s.guards.map ClockGuard.id).Nodup := by
  have hrange : Run.Guarded step InRange (.init 2) reuse := by
    have hfive : (5 : UInt64) ≠ maxTick := by decide
    refine .cons trivial rfl (.cons ?_ rfl (.cons hfive rfl (.cons ?_ rfl (.cons trivial rfl
      (.cons trivial rfl (.cons trivial rfl (.cons ?_ rfl trivial)))))))
    all_goals
      rintro guard clock hguard hclock
      cases hguard
      cases hclock
      decide
  obtain ⟨-, hnone, hnodup, -⟩ := exclusive_of_inRange (by decide) hrange rfl
  exact ⟨_, rfl, rfl, hnone.mpr rfl, hnodup⟩

/-- After the largest tick a clock starts again. -/
def wrapAround : List Call :=
  [.getClock, .advanceTo 0 (maxTick - 1), .tickOnce 0, .tickOnce 0, .advanceTo 0 5, .tickOnce 0]

theorem ticks_decrease : ∃ s, Run.run step (.init 1) wrapAround = some s ∧
    s.history = [.advanced 0 (maxTick - 1), .ticked 0 maxTick, .ticked 0 0, .advanced 0 5, .ticked 0 6] ∧
    (6 : UInt64) < maxTick := ⟨_, rfl, rfl, by decide⟩

end ClockSet

end Qdrant
