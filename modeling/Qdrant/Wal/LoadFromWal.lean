-- SUMMARY: Recovery of a shard from its WAL: which records are replayed and which are queued.
import Qdrant.Base.Wp
import Qdrant.Common.Types
import Qdrant.Wal.RecoverableWal

/-!
# Loading a shard from its WAL

`LocalShard::load_from_wal` (`lib/collection/src/shards/local_shard/mod.rs`) handles the
records that are not acknowledged. The records up to a target are replayed at once: the
clock of the record is advanced and its operation applied. The rest is left to the update
worker, which finds the records by their numbers in the update queue.

The target comes from the highest operation that may have been applied before, from the
capacity of the queue and from the end of the WAL. What an update does to the segments
is a parameter here.
-/

namespace Qdrant

open List

/-- The errors of an update that recovery tells apart. -/
inductive CollectionError where
  | serviceError (error : String)
  | outOfMemory (description : String)
  | notFound (what : String)
  | badInput (description : String)
deriving DecidableEq

/-- Recovery stops at the error instead of skipping the operation. -/
def CollectionError.stopsRecovery : CollectionError → Bool
  | .serviceError _ => true
  | .outOfMemory _ => true
  | .notFound _ => false
  | .badInput _ => false

namespace SerdeWal

variable {R : Type}

section

variable (w : SerdeWal R)

/-- `read_range`: the records with numbers from `start` on and below `stop`. -/
def readRange (start stop : Nat) : List (Except WalError (Nat × R)) :=
  (List.range' start (stop - start)).map w.readEntry

/-- The records that are not acknowledged. -/
def unacknowledged : List (Nat × R) :=
  w.records.drop (w.firstIndex - w.firstClosedIndex)

theorem firstClosedIndex_le_firstIndex : w.firstClosedIndex ≤ w.firstIndex := by
  unfold firstIndex
  cases h : w.ackIndex with
  | none => exact le_rfl
  | some i => exact (w.ackIndex_bounds i h).1

theorem map_fst_unacknowledged :
    w.unacknowledged.map Prod.fst = List.range' w.firstIndex w.len := by
  have hfst : w.records.map Prod.fst = List.range' w.firstClosedIndex w.entries.length := by
    rw [records, map_fst_zip (by simp)]
  rw [unacknowledged, map_drop, hfst, drop_range', Nat.mul_one, len,
    Nat.add_sub_cancel' w.firstClosedIndex_le_firstIndex]

/-- A range that starts at the first record that is not acknowledged and stays in the log is
read without errors. -/
theorem readRange_eq {stop : Nat} (hstop : stop ≤ w.nextIndex) :
    w.readRange w.firstIndex stop = (w.unacknowledged.take (stop - w.firstIndex)).map .ok := by
  have hread := w.read_eq_records (w.firstIndex - w.firstClosedIndex)
  rw [Nat.add_sub_cancel' w.firstClosedIndex_le_firstIndex] at hread
  have hsplit : List.range' w.firstIndex (w.nextIndex - w.firstIndex) =
      List.range' w.firstIndex (stop - w.firstIndex) ++
        List.range' (w.firstIndex + (stop - w.firstIndex))
          (w.nextIndex - w.firstIndex - (stop - w.firstIndex)) := by
    rw [List.range'_append_1, Nat.add_sub_cancel' (Nat.sub_le_sub_right hstop _)]
  rw [unacknowledged, map_take, ← hread, read, ← map_take, w.firstIndex_add_len, hsplit,
    take_left' (length_range'), readRange]

end

end SerdeWal

/-! ## What is replayed and what is queued -/

/-- The numbers of the records that are replayed and of those that are sent to the queue. -/
structure RecoveryPlan where
  target : Nat
  replayed : List SeqNumber
  enqueued : List SeqNumber

/-- The number at which replaying stops. All records of the queue have to fit into it. -/
def replayTarget (lastWalIndex : Nat) (opNumUpperBound : Option Nat) (updateQueueSize : Nat) : Nat :=
  min (max (opNumUpperBound.getD lastWalIndex) (lastWalIndex - (updateQueueSize - 1))) lastWalIndex

/-- The range of queued numbers includes its end. -/
def recoveryPlan {R : Type} (w : SerdeWal R) (opNumUpperBound : Option Nat) (updateQueueSize : Nat) :
    RecoveryPlan :=
  let lastWalIndex := w.firstIndex + w.len
  let target := replayTarget lastWalIndex opNumUpperBound updateQueueSize
  { target
    replayed := List.range' w.firstIndex (target - w.firstIndex)
    enqueued := if target < lastWalIndex then List.range' target (lastWalIndex + 1 - target) else [] }

/-- Every record is handled once: the first ones are replayed, the rest is queued in order, and the
queue has room for it. The two subtractions that do not saturate stay above zero. -/
structure RecoveryPlan.ExactlyOnce {R : Type} (plan : RecoveryPlan) (w : SerdeWal R)
    (updateQueueSize : Nat) : Prop where
  partition : plan.replayed ++ plan.enqueued = w.unacknowledged.map Prod.fst
  fits : plan.enqueued.length ≤ updateQueueSize
  noUnderflow : 1 ≤ updateQueueSize ∧ plan.target ≤ w.firstIndex + w.len

section Plan

variable {R : Type} {w : SerdeWal R} {opNumUpperBound : Option Nat} {updateQueueSize : Nat}

theorem replayTarget_le (lastWalIndex : Nat) (opNumUpperBound : Option Nat) (updateQueueSize : Nat) :
    replayTarget lastWalIndex opNumUpperBound updateQueueSize ≤ lastWalIndex :=
  Nat.min_le_right _ _

/-- Recovery handles every record once exactly if it replays all of them: a queued range ends with
a number that has no record. -/
theorem recoveryPlan_exactlyOnce_iff (w : SerdeWal R) (opNumUpperBound : Option Nat)
    {updateQueueSize : Nat} (hsize : 1 ≤ updateQueueSize) :
    (recoveryPlan w opNumUpperBound updateQueueSize).ExactlyOnce w updateQueueSize ↔
      w.nextIndex ≤ opNumUpperBound.getD w.nextIndex ∨ updateQueueSize = 1 := by
  -- Nothing is left for the queue if the bound reaches the end of the WAL or the queue only holds
  -- one signal.
  have htarget : replayTarget w.nextIndex opNumUpperBound updateQueueSize = w.nextIndex ↔
      w.nextIndex ≤ opNumUpperBound.getD w.nextIndex ∨ updateQueueSize = 1 := by
    unfold replayTarget
    omega
  rw [← htarget]
  constructor
  · intro h
    apply Nat.le_antisymm (replayTarget_le _ _ _)
    apply Nat.le_of_not_lt
    intro hlt
    have hpartition := h.partition
    simp only [recoveryPlan, w.firstIndex_add_len, if_pos hlt, w.map_fst_unacknowledged] at hpartition
    -- the number after the last record is queued
    have hmem : w.nextIndex ∈ List.range' w.firstIndex w.len := by
      rw [← hpartition, mem_append, mem_range'_1, mem_range'_1]
      right
      omega
    rw [mem_range'_1, w.firstIndex_add_len] at hmem
    exact Nat.lt_irrefl _ hmem.2
  · intro htarget
    refine ⟨?_, ?_, hsize, replayTarget_le _ _ _⟩
    swap
    · -- The signals fit into the queue, with the one that is sent too much.
      unfold recoveryPlan
      dsimp only
      split
      · rw [length_range']
        unfold replayTarget
        omega
      · exact Nat.zero_le _
    simp only [recoveryPlan, w.firstIndex_add_len, htarget, Nat.lt_irrefl, if_false, append_nil,
      w.map_fst_unacknowledged]
    rw [← w.firstIndex_add_len, Nat.add_sub_cancel_left]

end Plan

/-- The bound of the applied sequence number leaves the last record to the queue, and with it a
number that no record has. -/
def pendingWal : SerdeWal (OperationWithClockTag Nat) where
  firstClosedIndex := 100
  entries := [{ operation := 5, clockTag := some (.newWithToken 1 0 7 1) }]
  ackIndex := none
  ackIndex_bounds := by simp

theorem pendingWal_not_exactlyOnce : (recoveryPlan pendingWal (some 100) 10).replayed = [] ∧
      (recoveryPlan pendingWal (some 100) 10).enqueued = [100, 101] ∧
      pendingWal.unacknowledged.map Prod.fst = [100] ∧
      ¬ (recoveryPlan pendingWal (some 100) 10).ExactlyOnce pendingWal 10 := by
  refine ⟨rfl, rfl, rfl, fun h => ?_⟩
  exact absurd h.partition (by decide)

theorem recoveryPlan_exactlyOnce_pendingWal :
    (recoveryPlan pendingWal (some 101) 10).ExactlyOnce pendingWal 10 ↔
      pendingWal.nextIndex ≤ (some 101).getD pendingWal.nextIndex ∨ 10 = 1 :=
  recoveryPlan_exactlyOnce_iff pendingWal (some 101) (by decide)

/-! ## Loading -/

section Load

variable {Op σ : Type}

/-- A shard as recovery sees it. `updateQueue` lists the numbers sent to the update worker. -/
structure LocalShard (Op σ : Type) where
  path : String
  wal : RecoverableWal Op
  segments : σ
  opNumUpperBound : Option Nat
  updateQueueSize : Nat
  updateQueue : List SeqNumber

variable (update : SeqNumber → Op → σ → Except CollectionError Unit × σ)
  (flushAll : σ → Except CollectionError Unit × σ)

/-- Advance the clock of a record. -/
def advanceClockOf (clocks : ClockMap) (record : OperationWithClockTag Op) : ClockMap :=
  match record.clockTag with
  | some tag => clocks.advanceClock tag
  | none => clocks

/-- Replay a record. Only errors that concern the node stop the recovery. -/
def replayEntry (path : String) (entry : Except WalError (SeqNumber × OperationWithClockTag Op)) :
    EStateM CollectionError (ClockMap × σ) PUnit := fun (clocks, segments) =>
  match entry with
  | .error err =>
    .error (.serviceError
      ("Failed to read WAL during recovery of " ++ path ++ ": " ++ err.toString)) (clocks, segments)
  | .ok (opNum, record) =>
    match update opNum record.operation segments with
    | (.ok (), segments) => .ok ⟨⟩ (advanceClockOf clocks record, segments)
    | (.error err, segments) =>
      if err.stopsRecovery then .error err (advanceClockOf clocks record, segments)
      else .ok ⟨⟩ (advanceClockOf clocks record, segments)

/-- `load_from_wal`: replay the records below the target, flush the segments, and send the numbers
of the rest to the update worker. -/
def loadFromWal : EStateM CollectionError (LocalShard Op σ) PUnit := fun shard =>
  let wal := shard.wal.wal
  let plan := recoveryPlan wal shard.opNumUpperBound shard.updateQueueSize
  let entries := wal.readRange wal.firstIndex plan.target
  match entries.forM (replayEntry update shard.path) (shard.wal.newestClocks, shard.segments) with
  | .error err (newestClocks, segments) =>
    .error err { shard with wal := { shard.wal with newestClocks }, segments }
  | .ok _ (newestClocks, segments) =>
    match flushAll segments with
    | (.error err, segments) =>
      .error err { shard with wal := { shard.wal with newestClocks }, segments }
    | (.ok (), segments) =>
      .ok ⟨⟩ { shard with
        wal := { shard.wal with newestClocks }
        segments
        updateQueue := shard.updateQueue ++ plan.enqueued }

open Wp in
/-- A record that is replayed has its clock advanced, whatever the update does. -/
theorem wp_replayEntry {Q : PUnit → ClockMap × σ → Prop} (path : String) (opNum : SeqNumber)
    (record : OperationWithClockTag Op) {clocks : ClockMap} (segments : σ)
    (h : ∀ segments', Q ⟨⟩ (advanceClockOf clocks record, segments')) :
    wp (replayEntry update path (.ok (opNum, record))) Q (fun _ _ => True) (clocks, segments) := by
  unfold wp replayEntry
  dsimp only
  generalize update opNum record.operation segments = outcome
  obtain ⟨result, segments'⟩ := outcome
  cases result with
  | ok _ => exact h segments'
  | error err =>
    cases hstops : err.stopsRecovery with
    | true => simp [hstops]
    | false => simpa [hstops] using h segments'

open Wp in
theorem wp_replayEntries (path : String) (records : List (SeqNumber × OperationWithClockTag Op))
    (clocks : ClockMap) (segments : σ) :
    wp ((records.map Except.ok).forM (replayEntry update path))
      (fun _ state => state.1 = records.foldl (fun clocks r => advanceClockOf clocks r.2) clocks)
      (fun _ _ => True) (clocks, segments) := by
  induction records generalizing clocks segments with
  | nil => rfl
  | cons record rest ih =>
    change wp (replayEntry update path (.ok record) >>= fun _ =>
      (rest.map Except.ok).forM (replayEntry update path)) _ _ _
    rw [wp_bind]
    apply wp_replayEntry
    exact fun segments' => ih (advanceClockOf clocks record.2) segments'

variable {update flushAll}

theorem le_tick_advanceClock_iff {clocks : ClockMap} {tag : ClockTag} {key : Key} {tick : UInt64} :
    tick ≤ (clocks.advanceClock tag).tick key ↔
      tick ≤ clocks.tick key ∨ Key.fromTag tag = key ∧ tick ≤ tag.clockTick := by
  rw [ClockMap.advanceClock]
  by_cases hnewer : clocks.IsNewer tag
  · rw [ClockMap.advanceClockImpl_of_isNewer hnewer, ClockMap.tick_setClock]
    split
    · next heq =>
      subst heq
      constructor
      · exact fun hle => .inr ⟨rfl, hle⟩
      · rintro (hle | ⟨-, hle⟩)
        · exact UInt64.le_trans hle (UInt64.le_of_lt hnewer)
        · exact hle
    · next hne =>
      constructor
      · exact Or.inl
      · rintro (hle | ⟨heq, -⟩)
        · exact hle
        · exact absurd heq.symm hne
  · have hsame := (ClockMap.advanceClockImpl_of_not_isNewer hnewer).1
    have htick : (clocks.advanceClockImpl tag).1.tick key = clocks.tick key := by
      rw [ClockMap.tick, hsame, ClockMap.tick]
    rw [htick]
    constructor
    · exact Or.inl
    · rintro (hle | ⟨rfl, hle⟩)
      · exact hle
      · exact UInt64.le_trans hle (UInt64.not_lt.mp hnewer)

theorem le_tick_replayed_iff {records : List (SeqNumber × OperationWithClockTag Op)}
    {clocks : ClockMap} {key : Key} {tick : UInt64} :
    tick ≤ (records.foldl (fun clocks r => advanceClockOf clocks r.2) clocks).tick key ↔
      tick ≤ clocks.tick key ∨
        ∃ r ∈ records, ∃ tag ∈ r.2.clockTag, Key.fromTag tag = key ∧ tick ≤ tag.clockTick := by
  induction records generalizing clocks with
  | nil => simp
  | cons record rest ih =>
    rw [foldl_cons, ih, advanceClockOf]
    cases htag : record.2.clockTag with
    | none => simp [htag]
    | some tag => simp only [le_tick_advanceClock_iff, exists_mem_cons_iff, htag,
        Option.mem_some_iff, exists_eq_left', or_assoc]

/-- The clock map knows the ticks of all records. -/
def ClocksCover (clocks : ClockMap) (records : List (SeqNumber × OperationWithClockTag Op)) : Prop :=
  ∀ r ∈ records, ∀ tag ∈ r.2.clockTag, tag.clockTick ≤ clocks.tick (Key.fromTag tag)

/-- The number of records that recovery replays. -/
def LocalShard.replayedCount (shard : LocalShard Op σ) : Nat :=
  (recoveryPlan shard.wal.wal shard.opNumUpperBound shard.updateQueueSize).target -
    shard.wal.wal.firstIndex

/-- The clock map as it was persisted, or a record that is replayed, has the tick or a later one. -/
def LocalShard.KnowsTick (shard : LocalShard Op σ) (tag : ClockTag) : Prop :=
  tag.clockTick ≤ shard.wal.newestClocks.tick (Key.fromTag tag) ∨
    ∃ r ∈ shard.wal.wal.unacknowledged.take shard.replayedCount, ∃ tag' ∈ r.2.clockTag,
      Key.fromTag tag' = Key.fromTag tag ∧ tag.clockTick ≤ tag'.clockTick

theorem newestClocks_loadFromWal {shard shard' : LocalShard Op σ}
    (h : loadFromWal update flushAll shard = .ok ⟨⟩ shard') :
    shard'.wal.newestClocks = (shard.wal.wal.unacknowledged.take shard.replayedCount).foldl
        (fun clocks r => advanceClockOf clocks r.2) shard.wal.newestClocks := by
  have htarget : (recoveryPlan shard.wal.wal shard.opNumUpperBound shard.updateQueueSize).target ≤
      shard.wal.wal.nextIndex := by
    rw [← shard.wal.wal.firstIndex_add_len]
    exact replayTarget_le _ _ _
  have hreplay := wp_replayEntries update shard.path
    (shard.wal.wal.unacknowledged.take shard.replayedCount) shard.wal.newestClocks shard.segments
  rw [LocalShard.replayedCount, ← shard.wal.wal.readRange_eq htarget] at hreplay
  unfold loadFromWal at h
  dsimp only at h
  split at h
  · cases h
  · next clocks segments hloop =>
    have hclocks := Wp.wp_ok hreplay hloop
    split at h
    · cases h
    · cases h
      exact hclocks

/-- After recovery the clocks know all records of the WAL exactly if those that were queued instead
of replayed have no tick that the persisted clocks and the replayed records do not reach. -/
theorem loadFromWal_clocksCover_iff {shard shard' : LocalShard Op σ}
    (h : loadFromWal update flushAll shard = .ok ⟨⟩ shard') :
    ClocksCover shard'.wal.newestClocks shard.wal.wal.unacknowledged ↔
      ∀ r ∈ shard.wal.wal.unacknowledged.drop shard.replayedCount, ∀ tag ∈ r.2.clockTag,
        shard.KnowsTick tag := by
  unfold ClocksCover LocalShard.KnowsTick
  rw [newestClocks_loadFromWal h]
  simp only [le_tick_replayed_iff]
  constructor
  · intro hcover r hmem
    exact hcover r (mem_of_mem_drop hmem)
  · intro hqueued r hmem tag htag
    rw [← take_append_drop shard.replayedCount shard.wal.wal.unacknowledged,
      mem_append] at hmem
    cases hmem with
    | inl hreplayed => exact .inr ⟨r, hreplayed, tag, htag, rfl, UInt64.le_refl _⟩
    | inr hdrop => exact hqueued r hdrop tag htag

end Load

/-- A shard with one record, which recovery leaves to the queue if there is room. -/
def pendingShard (updateQueueSize : Nat) : LocalShard Nat Unit where
  path := "0"
  wal := { wal := pendingWal, newestClocks := .empty, oldestClocks := .empty }
  segments := ()
  opNumUpperBound := some 100
  updateQueueSize := updateQueueSize
  updateQueue := []

def acceptUpdate (_ : SeqNumber) (_ : Nat) (segments : Unit) : Except CollectionError Unit × Unit :=
  (.ok (), segments)

def noFlush (segments : Unit) : Except CollectionError Unit × Unit :=
  (.ok (), segments)

/-- Recovery succeeds, but the clocks do not know the record in the queue, so that another operation
with the same tick is accepted. -/
theorem pendingShard_not_clocksCover :
    ∃ shard', loadFromWal acceptUpdate noFlush (pendingShard 10) = .ok ⟨⟩ shard' ∧
      ¬ ClocksCover shard'.wal.newestClocks pendingWal.unacknowledged ∧
      (shard'.wal.newestClocks.advanceClockAndCorrectTag (.newWithToken 1 0 7 2)).2.2 = true := by
  refine ⟨_, rfl, fun hcover => ?_, by decide⟩
  have htick := hcover (100, { operation := 5, clockTag := some (.newWithToken 1 0 7 1) })
    mem_cons_self (.newWithToken 1 0 7 1) rfl
  revert htick
  decide

theorem loadFromWal_clocksCover_pendingShard :
    ∃ shard', loadFromWal acceptUpdate noFlush (pendingShard 1) = .ok ⟨⟩ shard' ∧
      (ClocksCover shard'.wal.newestClocks pendingWal.unacknowledged ↔
        ∀ r ∈ pendingWal.unacknowledged.drop (pendingShard 1).replayedCount, ∀ tag ∈ r.2.clockTag,
          (pendingShard 1).KnowsTick tag) := by
  obtain ⟨shard', hload⟩ : ∃ shard',
      loadFromWal acceptUpdate noFlush (pendingShard 1) = .ok ⟨⟩ shard' := ⟨_, rfl⟩
  exact ⟨shard', hload, loadFromWal_clocksCover_iff hload⟩

end Qdrant
