-- SUMMARY: Segments, their flushers and the flush worker, interleaved with update operations.
import Qdrant.Base.Run
import Qdrant.Common.Types
import Qdrant.Common.TopoSort
import Qdrant.Common.SortUtils

/-!
# Flushing segments

Update operations change segments under their write locks, in several batches.
The flush worker captures a flusher for every segment that has unsaved changes
while it holds all read locks, lets a background thread run the flushers one by
one, and computes from the segment versions up to which operation the WAL can be
acknowledged (`lib/shard/src/segment_holder/flush.rs`, `Segment::flusher`,
`flush_workers.rs`).

What is stored in a segment is the history of the changes made to it; what is on
disk is a prefix of that history.
-/

namespace Qdrant

variable {α : Type}

/-! ## Segments and flushers -/

structure FlushSegment (α : Type) where
  version : Option SeqNumber
  persistedVersion : Option SeqNumber
  /-- All changes made to the segment, each with the operation that made it. -/
  history : List (SeqNumber × α)
  /-- How much of the history is on disk. -/
  persisted : Nat

/-- A flusher, with what it captured: the version of the segment and its state, as the
length of the history. -/
structure Flusher where
  segment : SegmentId
  version : SeqNumber
  captured : Nat

namespace FlushSegment

/-- `version()` of a segment. -/
def currentVersion (s : FlushSegment α) : SeqNumber :=
  s.version.getD 0

def persistentVersion (s : FlushSegment α) : SeqNumber :=
  s.persistedVersion.getD 0

section

variable (s : FlushSegment α) (opNum version : SeqNumber) (a : α)

/-- A change made by operation `opNum`, which passes the number `version` to the segment. -/
def change : FlushSegment α :=
  { s with
    version := some (max version (s.version.getD 0))
    history := s.history ++ [(opNum, a)] }

@[simp] theorem change_history :
    (s.change opNum version a).history = s.history ++ [(opNum, a)] := rfl

@[simp] theorem change_persisted : (s.change opNum version a).persisted = s.persisted := rfl

end

/-- Capture a flusher, unless the segment is empty or, without `force`, already flushed. -/
def flusher (s : FlushSegment α) (id : SegmentId) (force : Bool) : Option Flusher :=
  match s.version, s.persistedVersion with
  | none, _ => none
  | some version, some persistedVersion =>
    if !force && version == persistedVersion then none
    else some { segment := id, version, captured := s.history.length }
  | some version, none => some { segment := id, version, captured := s.history.length }

/-- A flusher has flushed all components: persist what it captured, unless another flush
was faster. -/
def complete (s : FlushSegment α) (f : Flusher) : FlushSegment α :=
  if f.version < s.persistentVersion then s
  else { s with persistedVersion := some f.version, persisted := f.captured }

end FlushSegment

/-- How a flusher ends. A cancelled flush is skipped, a failed one ends the flush thread. -/
inductive FlushOutcome where
  | done
  | cancelled
  | failed
deriving DecidableEq

inductive FlushStatus where
  | running
  | finished
  | failed
deriving DecidableEq

/-- The background thread: the flushers still to be run. -/
structure FlushThread where
  todo : List Flusher
  maxAppliedVersion : SeqNumber
  status : FlushStatus

/-! ## The flush worker -/

/-- Where the flush worker is. In `loading` and `reading` it holds the read locks of the
segments listed, and releases each when it has read its versions. -/
inductive FlushWorker where
  | idle
  | loading (locked : List SegmentId)
  | reading (locked : List SegmentId) (maxPersisted : SeqNumber) (minUnsaved : Option SeqNumber)
  | confirmed (version : SeqNumber)

def FlushWorker.locked : FlushWorker → List SegmentId
  | .loading locked => locked
  | .reading locked _ _ => locked
  | _ => []

/-- The holder with its flush thread and flush worker. -/
structure FlushSystem (α : Type) where
  nonAppendable : List SegmentId
  appendable : List SegmentId
  nodup : (nonAppendable ++ appendable).Nodup
  segments : SegmentId → FlushSegment α
  flushDependency : TopoSort SegmentId SeqNumber
  flushThread : Option FlushThread
  maxPersistedOverwrite : SeqNumber
  failedOperation : Finset SeqNumber
  worker : FlushWorker
  /-- The operation that is being applied. -/
  lastOp : SeqNumber
  /-- The first operation that the WAL still replays. -/
  acknowledged : SeqNumber

inductive FlushLabel (α : Type) where
  | beginOperation (opNum : SeqNumber)
  /-- The operation changes a segment under its write lock. -/
  | change (segment : SegmentId) (version : SeqNumber) (a : α)
  /-- The operation moves a point copy-on-write, under the write locks of both segments.
  The source is not changed if the copy in the destination is deferred. -/
  | move (source destination : SegmentId) (put : α) (delete : Option α)
  | bumpOverwrite
  | failOperation
  | recoverOperation (opNum : SeqNumber)
  | flushAll (order : IterOrder SegmentId)
  | runFlusher (outcome : FlushOutcome)
  | finishFlush
  | loadOverwrite
  | readSegment
  | acknowledge (keepFrom : Nat)

namespace FlushSystem

section

variable (c : FlushSystem α)

/-- Non-appendable segments first: the order in which segments are locked. -/
def lockOrder : List SegmentId :=
  c.nonAppendable ++ c.appendable

def setSegment (id : SegmentId) (s : FlushSegment α) : FlushSystem α :=
  { c with segments := Function.update c.segments id s }

@[simp] theorem setSegment_segments (id : SegmentId) (s : FlushSegment α) (id' : SegmentId) :
    (c.setSegment id s).segments id' = if id' = id then s else c.segments id' := by
  simp [setSegment, Function.update_apply]

/-- The segments in the order in which they are flushed: after all they depend on. -/
def flushOrder (order : IterOrder SegmentId) : List (SegmentId × FlushSegment α) :=
  sortPermutation (c.lockOrder.map fun id => (id, c.segments id)) c.lockOrder fun ids =>
    c.flushDependency.sortElements order ids

def maxAppliedVersion : SeqNumber :=
  (c.lockOrder.map fun id => (c.segments id).currentVersion).foldl max 0

/-- Capture the flushers of all segments and start the flush thread. -/
def startFlush (order : IterOrder SegmentId) : FlushSystem α :=
  { c with
    flushThread := some
      { todo := (c.flushOrder order).filterMap fun e => e.2.flusher e.1 false
        maxAppliedVersion := c.maxAppliedVersion
        status := .running }
    worker := .loading ((c.flushOrder order).map Prod.fst) }

/-- `flush_all(false, false)` up to the point where all locks are held and the flushers are
captured. A flush that still runs is not joined, and the error of a failed one is
returned. -/
def flushAll (order : IterOrder SegmentId) : FlushSystem α :=
  match c.flushThread with
  | none => c.startFlush order
  | some thread =>
    match thread.status with
    | .running => { c with worker := .loading c.lockOrder }
    | .finished => c.startFlush order
    | .failed => { c with flushThread := none }

/-- The flush thread runs its next flusher. -/
def runFlusher (thread : FlushThread) (f : Flusher) (rest : List Flusher) :
    FlushOutcome → FlushSystem α
  | .done =>
    { c.setSegment f.segment ((c.segments f.segment).complete f) with
      flushThread := some { thread with todo := rest } }
  | .cancelled => { c with flushThread := some { thread with todo := rest } }
  | .failed => { c with flushThread := some { thread with todo := [], status := .failed } }

/-- The version `flush_segments` returns once all segments are read. -/
def confirmedVersion (maxPersisted : SeqNumber) (minUnsaved : Option SeqNumber) : SeqNumber :=
  let flushedVersion := minUnsaved.getD maxPersisted
  if h : c.failedOperation.Nonempty then min (c.failedOperation.min' h) flushedVersion
  else flushedVersion

/-- Read the versions of the next segment and release its lock. -/
def readSegment : List SegmentId → SeqNumber → Option SeqNumber → FlushSystem α
  | [], maxPersisted, minUnsaved =>
    { c with worker := .confirmed (c.confirmedVersion maxPersisted minUnsaved) }
  | id :: locked, maxPersisted, minUnsaved =>
    let s := c.segments id
    let minUnsaved :=
      if s.currentVersion > s.persistentVersion then
        some (min (minUnsaved.getD s.persistentVersion) s.persistentVersion)
      else minUnsaved
    { c with worker := .reading locked (max maxPersisted s.persistentVersion) minUnsaved }

/-- Acknowledge the confirmed version in the WAL, but nothing from `keepFrom` on. -/
def acknowledge (version keepFrom : Nat) : FlushSystem α :=
  { c with
    worker := .idle
    acknowledged :=
      if keepFrom = 0 then c.acknowledged else max c.acknowledged (min version (keepFrom - 1)) }

/-- The current operation can write to a segment: the flush worker does not hold the lock. -/
def writable (id : SegmentId) : Bool :=
  decide (id ∈ c.lockOrder) && decide (id ∉ c.worker.locked)

/-- Put a point that is moved copy-on-write into its destination, and record that the
source depends on it. -/
def putMoved (source destination : SegmentId) (put : α) : FlushSystem α :=
  { c.setSegment destination ((c.segments destination).change c.lastOp c.lastOp put) with
    flushDependency := c.flushDependency.addDependency source destination c.lastOp }

/-- Move a point copy-on-write. -/
def move (source destination : SegmentId) (put : α) (delete : Option α) : FlushSystem α :=
  let moved := c.putMoved source destination put
  match delete with
  | none => moved
  | some a => moved.setSegment source ((moved.segments source).change c.lastOp c.lastOp a)

end

section Move

variable (c : FlushSystem α) (source destination : SegmentId) (put : α) (delete : Option α)

theorem move_history {source destination : SegmentId} (hne : source ≠ destination) (id : SegmentId) :
    ((c.move source destination put delete).segments id).history = (c.segments id).history ++
        if id = destination then [(c.lastOp, put)]
        else if id = source then (delete.map fun a => (c.lastOp, a)).toList else [] := by
  by_cases hd : id = destination
  · cases delete <;> simp [move, putMoved, hd, hne.symm]
  · by_cases hs : id = source <;> cases delete <;> simp [move, putMoved, hd, hs, hne]

theorem move_persisted (id : SegmentId) :
    ((c.move source destination put delete).segments id).persisted = (c.segments id).persisted := by
  have hput : ∀ id, ((c.putMoved source destination put).segments id).persisted =
      (c.segments id).persisted := by
    intro id
    by_cases hd : id = destination <;> simp [putMoved, hd]
  cases delete with
  | none => exact hput id
  | some a => by_cases hs : id = source <;> simp [move, hs, hput]

theorem move_flushThread : (c.move source destination put delete).flushThread = c.flushThread := by
  cases delete <;> rfl

theorem move_flushDependency : (c.move source destination put delete).flushDependency =
      c.flushDependency.addDependency source destination c.lastOp := by
  cases delete <;> rfl

end Move

def step (c : FlushSystem α) : FlushLabel α → Option (FlushSystem α)
  | .beginOperation opNum => if c.lastOp < opNum then some { c with lastOp := opNum } else none
  | .change id version a =>
    if c.writable id && decide (version ≤ c.lastOp) then
      some (c.setSegment id ((c.segments id).change c.lastOp version a))
    else none
  | .move source destination put delete =>
    if c.writable source && c.writable destination && decide (source ∈ c.nonAppendable) &&
        decide (destination ∈ c.appendable) then
      some (c.move source destination put delete)
    else none
  | .bumpOverwrite =>
    some { c with maxPersistedOverwrite := max c.maxPersistedOverwrite c.lastOp }
  | .failOperation => some { c with failedOperation := insert c.lastOp c.failedOperation }
  | .recoverOperation opNum => some { c with failedOperation := c.failedOperation.erase opNum }
  | .flushAll order =>
    match c.worker with
    | .idle => some (c.flushAll order)
    | _ => none
  | .runFlusher outcome =>
    match c.flushThread with
    | some ⟨f :: rest, maxApplied, .running⟩ =>
      some (c.runFlusher ⟨f :: rest, maxApplied, .running⟩ f rest outcome)
    | _ => none
  | .finishFlush =>
    match c.flushThread with
    | some ⟨[], maxApplied, .running⟩ =>
      some { c with
        flushThread := some ⟨[], maxApplied, .finished⟩
        flushDependency := c.flushDependency.retain fun _ _ version => version > maxApplied }
    | _ => none
  | .loadOverwrite =>
    match c.worker with
    | .loading locked => some { c with worker := .reading locked c.maxPersistedOverwrite none }
    | _ => none
  | .readSegment =>
    match c.worker with
    | .reading locked maxPersisted minUnsaved => some (c.readSegment locked maxPersisted minUnsaved)
    | _ => none
  | .acknowledge keepFrom =>
    match c.worker with
    | .confirmed version => some (c.acknowledge version keepFrom)
    | _ => none

/-- What a step can do, and when. -/
inductive Transition (c : FlushSystem α) : FlushLabel α → FlushSystem α → Prop where
  | beginOperation {opNum : SeqNumber} (hnext : c.lastOp < opNum) :
      Transition c (.beginOperation opNum) { c with lastOp := opNum }
  | change {id : SegmentId} {version : SeqNumber} {a : α} (hmem : id ∈ c.lockOrder)
      (hfree : id ∉ c.worker.locked) (hle : version ≤ c.lastOp) :
      Transition c (.change id version a)
        (c.setSegment id ((c.segments id).change c.lastOp version a))
  | move {source destination : SegmentId} {put : α} {delete : Option α}
      (hsource : source ∈ c.nonAppendable) (hdestination : destination ∈ c.appendable)
      (hfreeSource : source ∉ c.worker.locked) (hfreeDestination : destination ∉ c.worker.locked) :
      Transition c (.move source destination put delete) (c.move source destination put delete)
  | bumpOverwrite :
      Transition c .bumpOverwrite
        { c with maxPersistedOverwrite := max c.maxPersistedOverwrite c.lastOp }
  | failOperation :
      Transition c .failOperation { c with failedOperation := insert c.lastOp c.failedOperation }
  | recoverOperation {opNum : SeqNumber} :
      Transition c (.recoverOperation opNum)
        { c with failedOperation := c.failedOperation.erase opNum }
  | flushAll {order : IterOrder SegmentId} (hworker : c.worker = .idle) :
      Transition c (.flushAll order) (c.flushAll order)
  | runFlusher {outcome : FlushOutcome} {f : Flusher} {rest : List Flusher} {maxApplied : SeqNumber}
      (hthread : c.flushThread = some ⟨f :: rest, maxApplied, .running⟩) :
      Transition c (.runFlusher outcome)
        (c.runFlusher ⟨f :: rest, maxApplied, .running⟩ f rest outcome)
  | finishFlush {maxApplied : SeqNumber}
      (hthread : c.flushThread = some ⟨[], maxApplied, .running⟩) :
      Transition c .finishFlush
        { c with
          flushThread := some ⟨[], maxApplied, .finished⟩
          flushDependency := c.flushDependency.retain fun _ _ version => version > maxApplied }
  | loadOverwrite {locked : List SegmentId} (hworker : c.worker = .loading locked) :
      Transition c .loadOverwrite { c with worker := .reading locked c.maxPersistedOverwrite none }
  | readSegment {locked : List SegmentId} {maxPersisted : SeqNumber} {minUnsaved : Option SeqNumber}
      (hworker : c.worker = .reading locked maxPersisted minUnsaved) :
      Transition c .readSegment (c.readSegment locked maxPersisted minUnsaved)
  | acknowledge {version keepFrom : Nat} (hworker : c.worker = .confirmed version) :
      Transition c (.acknowledge keepFrom) (c.acknowledge version keepFrom)

theorem transition_of_step {c c' : FlushSystem α} {l : FlushLabel α} (h : c.step l = some c') :
    Transition c l c' := by
  cases l with
  | beginOperation opNum =>
    obtain ⟨hnext, heq⟩ := Option.ite_none_right_eq_some.mp h
    cases heq
    exact .beginOperation hnext
  | change id version a =>
    obtain ⟨hcond, heq⟩ := Option.ite_none_right_eq_some.mp h
    cases heq
    simp only [writable, Bool.and_eq_true, decide_eq_true_eq] at hcond
    obtain ⟨⟨hmem, hfree⟩, hle⟩ := hcond
    exact .change hmem hfree hle
  | move source destination put delete =>
    obtain ⟨hcond, heq⟩ := Option.ite_none_right_eq_some.mp h
    cases heq
    simp only [writable, Bool.and_eq_true, decide_eq_true_eq] at hcond
    obtain ⟨⟨⟨⟨_, hfreeSource⟩, _, hfreeDestination⟩, hsource⟩, hdestination⟩ := hcond
    exact .move hsource hdestination hfreeSource hfreeDestination
  | bumpOverwrite =>
    cases h
    exact .bumpOverwrite
  | failOperation =>
    cases h
    exact .failOperation
  | recoverOperation opNum =>
    cases h
    exact .recoverOperation
  | flushAll order =>
    simp only [step] at h
    split at h
    · next hworker =>
      cases h
      exact .flushAll hworker
    · cases h
  | runFlusher outcome =>
    simp only [step] at h
    split at h
    · next hthread =>
      cases h
      exact .runFlusher hthread
    · cases h
  | finishFlush =>
    simp only [step] at h
    split at h
    · next hthread =>
      cases h
      exact .finishFlush hthread
    · cases h
  | loadOverwrite =>
    simp only [step] at h
    split at h
    · next hworker =>
      cases h
      exact .loadOverwrite hworker
    · cases h
  | readSegment =>
    simp only [step] at h
    split at h
    · next hworker =>
      cases h
      exact .readSegment hworker
    · cases h
  | acknowledge keepFrom =>
    simp only [step] at h
    split at h
    · next hworker =>
      cases h
      exact .acknowledge hworker
    · cases h

end FlushSystem

end Qdrant
