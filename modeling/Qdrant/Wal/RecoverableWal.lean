-- SUMMARY: The write-ahead log with its clock maps: clock-checked writes, reads and WAL-delta resolution.
import Qdrant.Wal.ClockMap

/-!
# Recoverable WAL

A `SerdeWal` is an indexed log of records. A `RecoverableWal` couples it with the
clocks of the node: a write first advances the clock map and then appends, and
`resolveWalDelta` scrolls back over the log to find the record from which another
node has to be brought up to date (`lib/shard/src/wal.rs`,
`lib/collection/src/wal_delta.rs`).
-/

namespace Qdrant

open List

/-! ## The log -/

inductive WalError where
  | initWalError (msg : String)
  | writeWalError (msg : String)
  | readWalError (msg : String)
  | truncateWalError (msg : String)
  | clockRejected
deriving DecidableEq, Repr

def WalError.toString : WalError → String
  | .initWalError msg => "Can't init WAL: " ++ msg
  | .writeWalError msg => "Can't write WAL: " ++ msg
  | .readWalError msg => "Can't read WAL: " ++ msg
  | .truncateWalError msg => "Can't truncate WAL: " ++ msg
  | .clockRejected => "Operation rejected by WAL for old clock"

/-- A log of records numbered from `firstClosedIndex`. Records below the logical
first index are acknowledged but still held. -/
structure SerdeWal (R : Type) where
  firstClosedIndex : Nat
  entries : List R
  ackIndex : Option Nat
  ackIndex_bounds : ∀ i ∈ ackIndex, firstClosedIndex ≤ i ∧ i ≤ firstClosedIndex + entries.length
deriving DecidableEq

namespace SerdeWal

variable {R : Type}

def empty (firstClosedIndex : Nat) : SerdeWal R where
  firstClosedIndex
  entries := []
  ackIndex := none
  ackIndex_bounds := by simp

section

variable (w : SerdeWal R)

def firstIndex : Nat :=
  w.ackIndex.getD w.firstClosedIndex

/-- Number of records of the logical log. -/
def len : Nat :=
  w.entries.length - (w.firstIndex - w.firstClosedIndex)

/-- The number of the next record. -/
def nextIndex : Nat :=
  w.firstClosedIndex + w.entries.length

/-- Append a record and return its number. -/
def write (record : R) : SerdeWal R × Nat :=
  ({ w with
      entries := w.entries ++ [record]
      ackIndex_bounds := by
        intro i hi
        have := w.ackIndex_bounds i hi
        simp only [length_append, length_singleton]
        omega },
    w.nextIndex)

/-- The last `count` records are gone, those of the open segment. An acknowledged index behind the end
is taken back to it. -/
def loseOpenSegment (count : Nat) : SerdeWal R where
  firstClosedIndex := w.firstClosedIndex
  entries := w.entries.take (w.entries.length - count)
  ackIndex := w.ackIndex.map (min (w.firstClosedIndex + (w.entries.length - count)))
  ackIndex_bounds := by
    intro i hi
    obtain ⟨j, hj, rfl⟩ := Option.map_eq_some_iff.mp hi
    have := w.ackIndex_bounds j hj
    simp only [length_take]
    omega

def readEntry (idx : Nat) : Except WalError (Nat × R) :=
  match if idx < w.firstClosedIndex then none else w.entries[idx - w.firstClosedIndex]? with
  | none => .error (.readWalError ("Can't read entry " ++ ToString.toString idx ++ " from WAL"))
  | some record => .ok (idx, record)

/-- All records from number `start` on. -/
def read (start : Nat) : List (Except WalError (Nat × R)) :=
  (List.range' start (w.firstIndex + w.len - start)).map w.readEntry

def readAll (withAcknowledged : Bool) : List (Except WalError (Nat × R)) :=
  if withAcknowledged then w.read w.firstClosedIndex else w.read w.firstIndex

end

/-! ### Numbered records -/

/-- All records that the log holds, with their numbers. -/
def records (w : SerdeWal R) : List (Nat × R) :=
  (List.range' w.firstClosedIndex w.entries.length).zip w.entries

section

variable (w : SerdeWal R)

include w

theorem firstIndex_add_len : w.firstIndex + w.len = w.nextIndex := by
  unfold firstIndex len nextIndex firstIndex
  cases h : w.ackIndex with
  | none => simp
  | some i =>
    have := w.ackIndex_bounds i h
    simp only [Option.getD_some]
    omega

/-- Reading from a number of the log on returns the records from there on. -/
theorem read_eq_records (i : Nat) :
    w.read (w.firstClosedIndex + i) = (w.records.drop i).map .ok := by
  refine ext_getElem ?_ ?_
  · simp only [read, records, firstIndex_add_len, nextIndex, length_map, length_range',
      length_drop, length_zip]
    omega
  · intro j hj hj'
    have hlen : i + j < w.entries.length := by
      simp only [read, firstIndex_add_len, nextIndex, length_map, length_range'] at hj
      omega
    simp only [read, getElem_map, getElem_range', one_mul, records, getElem_drop,
      getElem_zip, Nat.add_assoc]
    simp [readEntry, hlen, not_lt.mpr (Nat.le_add_right ..)]

theorem readAll_eq_records : w.readAll true = w.records.map .ok := w.read_eq_records 0

/-- Record numbers grow along the log. -/
theorem records_pairwise : w.records.Pairwise fun r r' => r.1 < r'.1 := by
  have hfst : (w.records.map Prod.fst).Pairwise (· < ·) := by
    rw [records, map_fst_zip (by simp)]
    exact pairwise_lt_range'
  exact pairwise_map.mp hfst

theorem records_snd : w.records.map Prod.snd = w.entries := map_snd_zip (by simp)

end

end SerdeWal

/-! ## Clock-checked writes -/

structure OperationWithClockTag (Op : Type) where
  operation : Op
  clockTag : Option ClockTag
deriving DecidableEq

structure RecoverableWal (Op : Type) where
  wal : SerdeWal (OperationWithClockTag Op)
  /-- The highest tick seen of every clock. -/
  newestClocks : ClockMap
  /-- Ticks below these are cut off. -/
  oldestClocks : ClockMap
deriving DecidableEq

namespace RecoverableWal

variable {Op : Type}

/-- First half of a write, under the lock of the newest clocks: advance the clock
of the operation, or reject it. -/
def advanceNewestClocks (w : RecoverableWal Op) (op : OperationWithClockTag Op) :
    Except WalError Unit × OperationWithClockTag Op × RecoverableWal Op :=
  match op.clockTag with
  | none => (.ok (), op, w)
  | some tag =>
    let (clocks, tag', accepted) := w.newestClocks.advanceClockAndCorrectTag tag
    let op' := { op with clockTag := some tag' }
    let w' := { w with newestClocks := clocks }
    (if accepted then .ok () else .error .clockRejected, op', w')

/-- `Wal::append` fails. If it has to retire the open segment for this record, it can fail after the
segment was swapped out (`retire_open_segment`): its `lost` records are gone then. -/
structure AppendError where
  message : String
  lost : Nat
deriving DecidableEq

/-- What the environment does to the record of a write: it can fail to serialize
and the log can fail to append it. -/
structure WriteIo where
  serializeError : Option String
  appendError : Option AppendError
deriving DecidableEq

def WriteIo.success : WriteIo := { serializeError := none, appendError := none }

/-- Second half of a write: serialize the record, then append it under the lock of
the log. -/
def appendRecord (w : RecoverableWal Op) (op : OperationWithClockTag Op) (io : WriteIo) :
    Except WalError Nat × RecoverableWal Op :=
  match io.serializeError with
  | some err =>
    (.error (.writeWalError
      ("Can't serialize entry, probably corrupted WAL or version mismatch: " ++ err)), w)
  | none =>
    match io.appendError with
    | some err =>
      (.error (.writeWalError err.message), { w with wal := w.wal.loseOpenSegment err.lost })
    | none =>
      let (wal, opNum) := w.wal.write op
      (.ok opNum, { w with wal })

/-- Write an operation: both halves in sequence. The operation comes back with its
corrected clock tag. -/
def lockAndWrite (w : RecoverableWal Op) (op : OperationWithClockTag Op) (io : WriteIo) :
    Except WalError Nat × OperationWithClockTag Op × RecoverableWal Op :=
  match w.advanceNewestClocks op with
  | (.error e, op', w') => (.error e, op', w')
  | (.ok _, op', w') =>
    let (result, w'') := w'.appendRecord op' io
    (result, op', w'')

def recoveryPoint (w : RecoverableWal Op) : RecoveryPoint :=
  w.newestClocks.toRecoveryPoint

/-- Write a list of operations, up to the first one that fails. -/
def writeAll (w : RecoverableWal Op) :
    List (OperationWithClockTag Op) → Except WalError Unit × RecoverableWal Op
  | [] => (.ok (), w)
  | op :: ops =>
    match w.lockAndWrite op .success with
    | (.error e, _, w') => (.error e, w')
    | (.ok _, _, w') => w'.writeAll ops

/-- The records of a read, or its first error. -/
def collect {R : Type} : List (Except WalError (Nat × R)) → Except WalError (List R)
  | [] => .ok []
  | .error e :: _ => .error e
  | .ok r :: rest =>
    match collect rest with
    | .error e => .error e
    | .ok rs => .ok (r.2 :: rs)

/-- Append to this log the records of `other` from number `start` on. -/
def appendFrom (w other : RecoverableWal Op) (start : Nat) :
    Except WalError Unit × RecoverableWal Op :=
  match collect (other.wal.read start) with
  | .error e => (.error e, w)
  | .ok ops => w.writeAll ops

end RecoverableWal

/-! ## Resolving a WAL delta -/

inductive WalDeltaError where
  | empty
  | unknownClocks
  | higherThanCurrent
  | cutoff
  | untaggedRecords
  | notFound
  | walReadError (msg : String)
deriving DecidableEq, Repr

def WalDeltaError.toString : WalDeltaError → String
  | .empty => "recovery point has no clocks to resolve delta for"
  | .unknownClocks => "recovery point requests clocks this WAL does not know about"
  | .higherThanCurrent => "recovery point requests higher clocks this WAL has"
  | .cutoff => "some recovery point clocks are below the cutoff point in our WAL"
  | .untaggedRecords => "WAL delta cannot include records without clock tags"
  | .notFound => "cannot find slice of WAL records that satisfies the recovery point"
  | .walReadError msg => "failed to read WAL: " ++ msg

/-- Scroll back over the log, newest record first, and drain the clocks that are
satisfied from the recovery point. `lastOpNum` is the record seen just before. -/
def scrollBack (rp : RecoveryPoint) (lastOpNum : Option Nat) :
    List (Except WalError (Nat × Option ClockTag)) → Except WalDeltaError (Option Nat)
  | [] => .error .notFound
  | .error e :: _ => .error (.walReadError e.toString)
  | .ok (_, none) :: _ => .error .untaggedRecords
  | .ok (opNum, some tag) :: older =>
    let (rp', removedEqual) := rp.removeClockIfNewerOrEqualToTag tag
    if rp'.isEmpty then
      -- with only newer clocks removed, the record seen before this one is good enough
      .ok (if removedEqual then some opNum else lastOpNum)
    else scrollBack rp' (some opNum) older

/-- Find the record from which a node with recovery point `rp` has to be brought up
to date: `none` if it has everything. -/
def resolveWalDelta (operations : List (Except WalError (Nat × Option ClockTag)))
    (rp newest oldest : RecoveryPoint) (randomToken : ClockToken) :
    Except WalDeltaError (Option Nat) :=
  if rp.isEmpty then .error .empty
  else if rp.hasClocksNotIn newest then .error .unknownClocks
  else if rp.hasAnyNewerClocksThan newest then .error .higherThanCurrent
  else
    -- from here on all clocks are one higher, so that tick 0 can ask for everything
    let rp := rp.increaseAllClocksBy 1
    let newest := newest.increaseAllClocksBy 1
    let oldest := oldest.increaseAllClocksBy 1
    let rp := rp.initializeClocksMissingFrom newest randomToken
    -- this check comes before equal clocks are removed, so that an empty delta is not
    -- accepted for a history that is already truncated
    if rp.hasAnyOlderClocksThan oldest then .error .cutoff
    else
      let rp := rp.removeClocksEqualTo newest
      if rp.isEmpty then .ok none
      else scrollBack rp none operations.reverse

/-- `resolve_wal_delta` of a node: its own log, newest and oldest clocks. -/
def RecoverableWal.resolveWalDelta {Op : Type} (w : RecoverableWal Op) (rp : RecoveryPoint)
    (randomToken : ClockToken) : Except WalDeltaError (Option Nat) :=
  Qdrant.resolveWalDelta
    ((w.wal.readAll true).map fun e => e.map fun r => (r.1, r.2.clockTag))
    rp w.recoveryPoint w.oldestClocks.toRecoveryPoint randomToken

/-! ## Soundness of WAL-delta resolution

The resolver scrolls back over the log while it edits the recovery point. What
relates the two is `Covered`: every tick the requesting node misses either
belongs to a clock that is still in the recovery point, or sits on a record that
has been scrolled over already.
-/

open RecoveryPoint

/-- A tagged record of the log: its number and its clock tag. -/
abbrev TaggedRecord := Nat × ClockTag

namespace TaggedRecord

def key (r : TaggedRecord) : Key := Key.fromTag r.2

def tick (r : TaggedRecord) : UInt64 := r.2.clockTick

/-- The entry the resolver reads for a tagged record. -/
def toEntry (r : TaggedRecord) : Except WalError (Nat × Option ClockTag) := .ok (r.1, some r.2)

end TaggedRecord

/-- The tagged records of a log. -/
def RecoverableWal.taggedRecords {Op : Type} (w : RecoverableWal Op) : List TaggedRecord :=
  w.wal.records.filterMap fun r => r.2.clockTag.map fun tag => (r.1, tag)

/-- Record numbers grow along the log. -/
def Numbered (wal : List TaggedRecord) : Prop :=
  wal.Pairwise fun r r' => r.1 < r'.1

/-- Clock order: every larger tick of the clock of a record also occurs on a later
record. -/
def ClockOrdered (wal : List TaggedRecord) : Prop :=
  ∀ r ∈ wal, ∀ r' ∈ wal, r'.key = r.key → r.tick < r'.tick →
    ∃ later ∈ wal, later.key = r.key ∧ later.tick = r'.tick ∧ r.1 < later.1

/-- The newest clocks contain every clock of the log, with no smaller tick. -/
def CoversLog (newest : RecoveryPoint) (wal : List TaggedRecord) : Prop :=
  ∀ r ∈ wal, ∃ t, newest.get r.key = some t ∧ r.tick ≤ t

/-- The requesting node misses the tick of this record. -/
def Misses (rp : RecoveryPoint) (r : TaggedRecord) : Prop :=
  rp.requested r.key < r.tick

instance (wal : List TaggedRecord) : Decidable (Numbered wal) :=
  inferInstanceAs (Decidable (wal.Pairwise _))

instance (wal : List TaggedRecord) : Decidable (ClockOrdered wal) :=
  inferInstanceAs (Decidable (∀ r ∈ wal, ∀ r' ∈ wal, _ → _ → ∃ later ∈ wal, _))

/-! ## The recovery point before scrolling -/

/-- The recovery point the resolver starts to scroll back with. -/
def preparedPoint (rp newest : RecoveryPoint) (token : ClockToken) : RecoveryPoint :=
  ((rp.increaseAllClocksBy 1).initializeClocksMissingFrom (newest.increaseAllClocksBy 1)
    token).removeClocksEqualTo (newest.increaseAllClocksBy 1)

variable {rp : RecoveryPoint} {newest : RecoveryPoint} {answer : Option Nat}

/-- What a successful resolution says about its checks. -/
theorem resolveWalDelta_ok {operations : List (Except WalError (Nat × Option ClockTag))}
    {oldest : RecoveryPoint} {token : ClockToken}
    (h : resolveWalDelta operations rp newest oldest token = .ok answer) :
    rp.hasAnyNewerClocksThan newest = false ∧
    (((preparedPoint rp newest token).isEmpty = true ∧ answer = none) ∨
      scrollBack (preparedPoint rp newest token) none operations.reverse = .ok answer) := by
  unfold resolveWalDelta at h
  split at h
  · cases h
  split at h
  · cases h
  split at h
  · cases h
  next hnewer =>
    dsimp only at h
    split at h
    · cases h
    refine ⟨by simpa using hnewer, ?_⟩
    split at h
    · next hempty => exact .inl ⟨hempty, by cases h; rfl⟩
    · exact .inr h

/-- The prepared recovery point has exactly the clocks of which the requesting node
misses something, each with the first tick it misses. -/
theorem get_preparedPoint (token : ClockToken)
    (h : rp.hasAnyNewerClocksThan newest = false) (k : Key) :
    (preparedPoint rp newest token).get k = (newest.get k).bind fun new =>
        if rp.requested k < new then some (rp.requested k + 1) else none := by
  rw [hasAnyNewerClocksThan_eq_false] at h
  simp only [preparedPoint, get_removeClocksEqualTo,
    get_initializeClocksMissingFrom, get_increaseAllClocksBy,
    requested]
  obtain hk | ⟨t, hk⟩ := Option.eq_none_or_eq_some (rp.get k)
  · obtain hn | ⟨new, hn⟩ := Option.eq_none_or_eq_some (newest.get k)
    · simp [hk, hn]
    · -- a clock the requesting node does not know is asked for from tick 1
      by_cases hzero : new = 0
      · simp [hk, hn, hzero, Option.filter]
      · have hpos : 0 < new := by grind
        simp [hk, hn, hzero, hpos, Option.filter]
  · obtain ⟨new, hn, hle⟩ := h k t hk
    by_cases heq : new = t
    · simp [hk, hn, heq, Option.filter]
    · have hlt : t < new := by grind
      simp [hk, hn, heq, hlt, Option.filter]

/-! ## Scrolling back -/

/-- Every pending clock stands at the first tick that `rp` misses of it. -/
def AtFirstMissed (rp pending : RecoveryPoint) : Prop :=
  ∀ k t, pending.get k = some t → ∀ x, t ≤ x ↔ rp.requested k < x

/-- Every tick that `rp` misses belongs to a clock still pending, or sits on a record
already scrolled over. -/
def Covered (rp : RecoveryPoint) (wal : List TaggedRecord) (pending : RecoveryPoint)
    (scrolled : List TaggedRecord) : Prop :=
  ∀ r ∈ wal, Misses rp r → (∃ t, pending.get r.key = some t) ∨
    ∃ r' ∈ scrolled, r'.key = r.key ∧ r'.tick = r.tick

/-- Nothing below the answer is missed: every missed tick is on a record from the
answer on, and nothing is missed if there is no answer. -/
def ResolvedBy (rp : RecoveryPoint) (wal : List TaggedRecord) : Option Nat → Prop
  | some n => ∀ r ∈ wal, Misses rp r → ∃ r' ∈ wal, r'.key = r.key ∧ r'.tick = r.tick ∧ n ≤ r'.1
  | none => ∀ r ∈ wal, ¬ Misses rp r

variable {wal : List TaggedRecord}

variable {scrolled : List TaggedRecord} {r₀ : TaggedRecord}

/-- The records after a record of the log have the larger numbers. -/
theorem Numbered.mem_scrolled {newer : List TaggedRecord} {r : TaggedRecord}
    (hnum : Numbered (newer ++ r₀ :: scrolled)) (hr : r ∈ newer ++ r₀ :: scrolled)
    (hlt : r₀.1 < r.1) : r ∈ scrolled := by
  obtain ⟨_, _, hcross⟩ := pairwise_append.mp hnum
  rcases mem_append.mp hr with hr | hr
  · have := hcross r hr r₀ mem_cons_self
    omega
  · rcases mem_cons.mp hr with rfl | hr
    · omega
    · exact hr

/-- One step of scrolling. A tick that was pending and no longer is sits on a record
scrolled over before, or it is the tick of this very record and the flag is set. -/
theorem covered_step {pending : RecoveryPoint} {older : List TaggedRecord}
    (hwal : wal = older ++ r₀ :: scrolled) (hnum : Numbered wal)
    (hord : ClockOrdered wal) (hfirst : AtFirstMissed rp pending)
    (hcov : Covered rp wal pending scrolled) :
    ∀ r ∈ wal, Misses rp r →
      (∃ t, (pending.removeClockIfNewerOrEqualToTag r₀.2).1.get r.key = some t) ∨
      (∃ r' ∈ scrolled, r'.key = r.key ∧ r'.tick = r.tick) ∨
      ((pending.removeClockIfNewerOrEqualToTag r₀.2).2 = true ∧
        r₀.key = r.key ∧ r₀.tick = r.tick) := by
  intro r hr hmiss
  rcases hcov r hr hmiss with ⟨t, ht⟩ | hseen
  swap
  · exact .inr (.inl hseen)
  rw [get_removeClockIfNewerOrEqualToTag,
    removeClockIfNewerOrEqualToTag_flag]
  change (∃ t, (if r.key = r₀.key then (pending.get r.key).filter fun t => decide (t < r₀.tick)
    else pending.get r.key) = some t) ∨ _ ∨ pending.get r₀.key = some r₀.tick ∧ _
  by_cases hkey : r.key = r₀.key
  swap
  · exact .inl ⟨t, by rw [if_neg hkey]; exact ht⟩
  by_cases hlt : t < r₀.tick
  · exact .inl ⟨t, by
      rw [if_pos hkey]
      exact Option.filter_eq_some_iff.mpr ⟨ht, by simpa using hlt⟩⟩
  -- the clock is removed here, and the missed tick is not below the one of the record
  have htr : t ≤ r.tick := (hfirst r.key t ht r.tick).mpr hmiss
  have hr₀ : r₀ ∈ wal := hwal ▸ mem_append_right _ mem_cons_self
  by_cases heq : r₀.tick = r.tick
  · have htick : t = r₀.tick := by grind
    exact .inr (.inr ⟨by rw [← hkey, ht, htick], hkey.symm, heq⟩)
  · have hgt : r₀.tick < r.tick := by grind
    obtain ⟨later, hlater, hlkey, hltick, hlnum⟩ := hord r₀ hr₀ r hr hkey hgt
    subst hwal
    exact .inr (.inl ⟨later, hnum.mem_scrolled hlater hlnum, hlkey.trans hkey.symm, hltick⟩)

/-- When nothing is pending, the first record scrolled over answers the request. -/
theorem resolvedBy_of_covered {pending : RecoveryPoint}
    (older scrolled : List TaggedRecord) (hwal : wal = older ++ scrolled) (hnum : Numbered wal)
    (hempty : pending.isEmpty = true)
    (hcov : Covered rp wal pending scrolled) :
    ResolvedBy rp wal (scrolled.head?.map Prod.fst) := by
  have hseen : ∀ r ∈ wal, Misses rp r → ∃ r' ∈ scrolled, r'.key = r.key ∧ r'.tick = r.tick := by
    intro r hr hmiss
    rcases hcov r hr hmiss with ⟨t, ht⟩ | hseen
    · rw [isEmpty_iff.mp hempty] at ht
      cases ht
    · exact hseen
  cases scrolled with
  | nil =>
    intro r hr hmiss
    obtain ⟨r', hr', _⟩ := hseen r hr hmiss
    cases hr'
  | cons r₀ scrolled =>
    intro r hr hmiss
    obtain ⟨r', hr', hkey, htick⟩ := hseen r hr hmiss
    have hsuffix : Numbered (r₀ :: scrolled) := (pairwise_append.mp (hwal ▸ hnum)).2.1
    refine ⟨r', hwal ▸ mem_append_right _ hr', hkey, htick, ?_⟩
    rcases mem_cons.mp hr' with rfl | hr'
    · exact le_refl _
    · exact le_of_lt ((pairwise_cons.mp hsuffix).1 r' hr')

/-- Scrolling back from any point of the log is sound. The induction is on the
records not yet visited, newest first; `Covered` is the invariant. -/
theorem scrollBack_sound (hnum : Numbered wal)
    (hord : ClockOrdered wal) (older : List TaggedRecord) :
    ∀ (pending : RecoveryPoint) (scrolled : List TaggedRecord),
      wal = older.reverse ++ scrolled → AtFirstMissed rp pending →
      Covered rp wal pending scrolled →
      scrollBack pending (scrolled.head?.map Prod.fst) (older.map TaggedRecord.toEntry)
        = .ok answer →
      ResolvedBy rp wal answer := by
  induction older with
  | nil => intro pending scrolled _ _ _ h; cases h
  | cons r₀ older ih =>
    intro pending scrolled hwal hfirst hcov h
    replace hwal : wal = older.reverse ++ r₀ :: scrolled := by simpa using hwal
    have hstep := covered_step hwal hnum hord hfirst hcov
    have hnext : Covered rp wal (pending.removeClockIfNewerOrEqualToTag r₀.2).1 (r₀ :: scrolled) := by
      intro r hr hmiss
      rcases hstep r hr hmiss with hpend | ⟨r', hr', hsame⟩ | ⟨_, hsame⟩
      · exact .inl hpend
      · exact .inr ⟨r', mem_cons_of_mem _ hr', hsame⟩
      · exact .inr ⟨r₀, mem_cons_self, hsame⟩
    simp only [map_cons, TaggedRecord.toEntry, scrollBack] at h
    split at h
    · next hempty =>
      cases h
      split
      · exact resolvedBy_of_covered older.reverse (r₀ :: scrolled) hwal hnum hempty hnext
      · next hflag =>
        refine resolvedBy_of_covered (older.reverse ++ [r₀]) scrolled (by simpa using hwal)
          hnum hempty ?_
        intro r hr hmiss
        rcases hstep r hr hmiss with hpend | hseen | ⟨hflag', _⟩
        · exact .inl hpend
        · exact .inr hseen
        · exact absurd hflag' hflag
    · refine ih _ (r₀ :: scrolled) hwal ?_ hnext h
      intro k t hk
      rw [get_removeClockIfNewerOrEqualToTag] at hk
      split at hk
      · exact hfirst k t (Option.filter_eq_some_iff.mp hk).1
      · exact hfirst k t hk

/-! ## Soundness -/

/-- A successful resolution leaves out no record the requesting node misses, whatever
the recovery point, the oldest clocks and the random token are. -/
theorem resolveWalDelta_resolvedBy (hnum : Numbered wal)
    (hord : ClockOrdered wal) (hcov : CoversLog newest wal)
    {oldest : RecoveryPoint} {token : ClockToken}
    (h : resolveWalDelta (wal.map TaggedRecord.toEntry) rp newest oldest token = .ok answer) :
    ResolvedBy rp wal answer := by
  obtain ⟨hnewer, hans⟩ := resolveWalDelta_ok h
  have hcovered : Covered rp wal (preparedPoint rp newest token) [] := by
    intro r hr hmiss
    obtain ⟨new, hnew, hle⟩ := hcov r hr
    have hlt : rp.requested r.key < new := by unfold Misses at hmiss; grind
    exact .inl ⟨_, by rw [get_preparedPoint token hnewer, hnew, Option.bind_some, if_pos hlt]⟩
  rcases hans with ⟨hempty, rfl⟩ | hscroll
  · exact resolvedBy_of_covered wal [] (append_nil wal).symm hnum hempty hcovered
  · rw [← map_reverse] at hscroll
    refine scrollBack_sound hnum hord wal.reverse _ [] (by simp) ?_ hcovered hscroll
    intro k t hk x
    rw [get_preparedPoint token hnewer, Option.bind_eq_some_iff] at hk
    obtain ⟨new, _, hk⟩ := hk
    split at hk
    · cases hk
      grind
    · cases hk

/-- If the resolver answers with a record number, every tick of the log above the
requested one occurs on a record from that number on. If it answers that there is
nothing to recover, the log has no such tick. -/
theorem resolveWalDelta_sound {wal : List TaggedRecord} (hnum : Numbered wal)
    (hord : ClockOrdered wal) {newest : RecoveryPoint} (hcov : CoversLog newest wal)
    (rp oldest : RecoveryPoint) (token : ClockToken) :
    (∀ n, resolveWalDelta (wal.map TaggedRecord.toEntry) rp newest oldest token = .ok (some n) →
      ∀ r ∈ wal, rp.requested r.key < r.tick →
        ∃ r' ∈ wal, r'.key = r.key ∧ r'.tick = r.tick ∧ n ≤ r'.1) ∧
    (resolveWalDelta (wal.map TaggedRecord.toEntry) rp newest oldest token = .ok none →
      ∀ r ∈ wal, ¬ rp.requested r.key < r.tick) :=
  ⟨fun _ h => resolveWalDelta_resolvedBy hnum hord hcov h,
    fun h => resolveWalDelta_resolvedBy hnum hord hcov h⟩

/-- A log of two clocks, in which the requesting node has seen the first tick of the
first clock only. -/
def sampleLog : List TaggedRecord :=
  [(3, .newWithToken 1 0 1 11), (4, .newWithToken 1 0 2 12), (5, .newWithToken 2 0 1 13)]

def sampleNewest : RecoveryPoint :=
  { clocks := (HashMap.insert ∅ ⟨1, 0⟩ (2, 12)).insert ⟨2, 0⟩ (1, 13) }

def sampleRequest : RecoveryPoint :=
  { clocks := HashMap.insert ∅ ⟨1, 0⟩ (1, 11) }

theorem resolveWalDelta_sound_sampleLog :
    resolveWalDelta (sampleLog.map TaggedRecord.toEntry) sampleRequest sampleNewest ⟨∅⟩ 7
      = .ok (some 4) ∧
    ∀ r ∈ sampleLog, sampleRequest.requested r.key < r.tick →
      ∃ r' ∈ sampleLog, r'.key = r.key ∧ r'.tick = r.tick ∧ 4 ≤ r'.1 := by
  have hanswer : resolveWalDelta (sampleLog.map TaggedRecord.toEntry) sampleRequest sampleNewest
      ⟨∅⟩ 7 = .ok (some 4) := by decide
  have hcovers : CoversLog sampleNewest sampleLog := by
    intro r hr
    simp only [sampleLog, mem_cons, not_mem_nil, or_false] at hr
    rcases hr with rfl | rfl | rfl
    · exact ⟨2, by decide⟩
    · exact ⟨2, by decide⟩
    · exact ⟨1, by decide⟩
  exact ⟨hanswer, (resolveWalDelta_sound (by decide) (by decide) hcovers _ _ _).1 4 hanswer⟩

end Qdrant
