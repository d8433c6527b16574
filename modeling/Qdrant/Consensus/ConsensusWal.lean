-- SUMMARY: The WAL of the consensus: Raft entries on physical indices, with a logical compaction point.
import Qdrant.Wal.SegmentWrites

/-!
# The WAL of the consensus

`ConsensusOpWal` (`lib/storage/src/content_manager/consensus/consensus_wal.rs`) keeps the
entries of the Raft log in a WAL. Raft counts its entries from 1, the WAL counts its own
from 0 after each time that it is cleared, so the index of one is the index of the other
plus an offset that is computed from the first entry. The WAL can only drop whole segments;
the index below which entries count as compacted is kept in memory beside it.

Entries are stored decoded. The model is the one of a debug build, so that a failed
`debug_assert!` ends the call.
-/

namespace Qdrant.Consensus

open Crash Wal

/-! ## Entries and errors -/

inductive EntryType where
  | entryNormal
  | entryConfChange
  | entryConfChangeV2
deriving DecidableEq

/-- `raft::eraftpb::Entry`. -/
structure RaftEntry where
  entryType : EntryType
  term : Nat
  index : Nat
  data : List UInt8
deriving DecidableEq

/-- `StorageError`. Only a service error stops the consensus; the other kinds are errors of
the user. A panic ends a call as an error does. -/
inductive StorageError where
  | serviceError (description : String)
  | userError (description : String)
  | panicked (message : String)
deriving DecidableEq

def StorageError.ofIoError : IoError → StorageError
  | .panicked message => .panicked message
  | e => .serviceError e.message

/-- `raft::Error`. -/
inductive RaftError where
  | compacted
  | unavailable
  | other (e : StorageError)
deriving DecidableEq

def intoRaftResult {α : Type} : Except StorageError (Option α) → Except RaftError α
  | .error e => .error (.other e)
  | .ok none => .error .unavailable
  | .ok (some a) => .ok a

def u64Max : Nat := 2 ^ 64 - 1

def saturatingAdd (a b : Nat) : Nat := min (a + b) u64Max

/-! ## Index offset -/

structure IndexOffset where
  walIndex : Nat
  raftIndex : Nat
  walToRaftOffset : Nat
deriving DecidableEq

namespace IndexOffset

def new (walIndex : Nat) (entry : RaftEntry) : IndexOffset where
  walIndex
  raftIndex := entry.index
  walToRaftOffset := entry.index - walIndex

def tryRaftToWal (offset : IndexOffset) (raftIndex : Nat) : Option Nat :=
  if raftIndex < offset.walToRaftOffset then none else some (raftIndex - offset.walToRaftOffset)

/-- As `tryRaftToWal`, but saturating. -/
def raftToWal (offset : IndexOffset) (raftIndex : Nat) : Nat := raftIndex - offset.walToRaftOffset

def walToRaft (offset : IndexOffset) (walIndex : Nat) : Nat := walIndex + offset.walToRaftOffset

end IndexOffset

/-! ## The WAL -/

structure ConsensusOpWal where
  wal : SegmentList (List RaftEntry)
  /-- Entries below this Raft index count as compacted. -/
  compactedUntilRaftIndex : Nat
deriving DecidableEq

namespace ConsensusOpWal

/-- Open the WAL over its segments. A gap between closed segments is an error of `Wal::open`, which
the caller does not handle. Whether the WAL was compacted is not known any more. -/
def new (wal : SegmentList (List RaftEntry)) : Except StorageError ConsensusOpWal :=
  match SegmentList.validateClosed wal.firstIndex wal.closedSegments with
  | .error _ => .error (.panicked "Can't open consensus WAL")
  | .ok _ => .ok { wal, compactedUntilRaftIndex := 0 }

/-- The WAL in an empty directory. -/
def create : ConsensusOpWal where
  wal := ⟨[], []⟩
  compactedUntilRaftIndex := 0

/-- `Wal::open` keeps one closed segment. -/
def retainClosed : ℕ+ := 1

/-! ### Reading -/

section

variable (w : ConsensusOpWal)

def entryByWalIndexImpl (walIndex : Nat) : Except StorageError (Option RaftEntry) :=
  match w.wal.entry walIndex with
  | .error e => .error (.ofIoError e)
  | .ok none => .ok none
  | .ok (some entry) =>
    if walIndex < entry.index then .ok (some entry)
    else
      .error (.panicked
        ("WAL index of an entry is greater than (or equal to) its Raft index, WAL index: " ++
          toString walIndex ++ ", Raft index: " ++ toString entry.index))

def entryByWalIndex (walIndex : Nat) : Except RaftError RaftEntry :=
  intoRaftResult (w.entryByWalIndexImpl walIndex)

def indexOffsetImpl : Except StorageError (Option IndexOffset) :=
  let walIndex := w.wal.firstIndex
  (w.entryByWalIndexImpl walIndex).map fun entry => entry.map (.new walIndex)

def indexOffset : Except RaftError IndexOffset :=
  intoRaftResult w.indexOffsetImpl

def entry (raftIndex : Nat) : Except RaftError RaftEntry :=
  if raftIndex < 1 then .error .unavailable
  else if raftIndex < w.compactedUntilRaftIndex then .error .compacted
  else
    match w.indexOffset with
    | .error e => .error e
    | .ok offset =>
      match offset.tryRaftToWal raftIndex with
      | none => .error .compacted
      | some walIndex => w.entryByWalIndex walIndex

end

section

-- The size of an encoded entry, which is up to the protobuf library.

variable (computeSize : RaftEntry → Nat)

/-- Read the entries at these indices, up to a total size. The first one is read in any case. -/
def collectEntries (w : ConsensusOpWal) (maxSizeBytes : Option Nat) :
    List Nat → Nat → List RaftEntry → Except RaftError (List RaftEntry)
  | [], _, entries => .ok entries
  | walIndex :: walIndices, sizeBytes, entries =>
    match w.entryByWalIndex walIndex with
    | .error e => .error e
    | .ok entry =>
      match maxSizeBytes with
      | none => collectEntries w maxSizeBytes walIndices sizeBytes (entries ++ [entry])
      | some max =>
        let sizeBytes := saturatingAdd sizeBytes (computeSize entry)
        if sizeBytes ≥ max ∧ entries ≠ [] then .ok entries
        else collectEntries w maxSizeBytes walIndices sizeBytes (entries ++ [entry])

/-- The entries from one Raft index up to another, which is excluded. -/
def entries (w : ConsensusOpWal) (fromRaftIndex untilRaftIndex : Nat) (maxSizeBytes : Option Nat) :
    Except RaftError (List RaftEntry) :=
  match w.indexOffset with
  | .error e => .error e
  | .ok offset =>
    let fromRaftIndex := max fromRaftIndex w.compactedUntilRaftIndex
    let fromWalIndex := max (offset.raftToWal fromRaftIndex) offset.walIndex
    let untilWalIndex :=
      min (offset.raftToWal untilRaftIndex) (offset.walIndex + w.wal.numEntries)
    -- The largest limit stands for none.
    let maxSizeBytes := if maxSizeBytes = some u64Max then none else maxSizeBytes
    collectEntries computeSize w maxSizeBytes
      (List.range' fromWalIndex (untilWalIndex - fromWalIndex)) 0 []

end

def firstEntry (w : ConsensusOpWal) : Except StorageError (Option RaftEntry) :=
  match w.entryByWalIndexImpl w.wal.firstIndex with
  | .error e => .error e
  | .ok none => .ok none
  | .ok (some entry) =>
    if entry.index ≥ w.compactedUntilRaftIndex then .ok (some entry)
    else
      match (IndexOffset.new w.wal.firstIndex entry).tryRaftToWal w.compactedUntilRaftIndex with
      | none => .ok none
      | some walIndex => w.entryByWalIndexImpl walIndex

def lastEntry (w : ConsensusOpWal) : Except StorageError (Option RaftEntry) :=
  match w.entryByWalIndexImpl w.wal.lastIndex with
  | .error e => .error e
  | .ok none => .ok none
  | .ok (some entry) =>
    if entry.index ≥ w.compactedUntilRaftIndex then .ok (some entry) else .ok none

/-! ### Writing -/

/-- Run an operation of the WAL. -/
def onSegments {α : Type} (x : Prog (SegmentList (List RaftEntry)) IoError α) :
    Prog ConsensusOpWal StorageError α :=
  (x.mapError .ofIoError).zoom ConsensusOpWal.wal fun w wal => { w with wal }

def clear : Prog ConsensusOpWal StorageError Unit := onSegments SegmentList.clear

def logicallyCompacted (index compactedUntil : Nat) : StorageError :=
  .serviceError
    ("Can't append entry with Raft index " ++ toString index ++
      ", because WAL is already *logically* compacted at Raft index " ++ toString compactedUntil)

/-- Check that a new entry is within the bounds of a WAL that is not empty, and remove the
entries that it overwrites. -/
def truncateConflicting (newEntry : RaftEntry) :
    Option IndexOffset → Prog ConsensusOpWal StorageError Unit
  | none => pure ()
  | some offset => do
    let w ← .get
    match offset.tryRaftToWal newEntry.index with
    | none =>
      throw <| .serviceError
        ("Can't append entry with Raft index " ++ toString newEntry.index ++
          ", because WAL is already *physically* compacted at Raft index " ++
          toString offset.raftIndex)
    | some newEntryWalIndex =>
      let nextWalIndex := w.wal.lastIndex + 1
      if newEntryWalIndex > nextWalIndex then
        throw <| .serviceError
          ("Can't append entry with Raft index " ++ toString newEntry.index ++
            " (expected WAL index " ++ toString newEntryWalIndex ++
            "), because last entry in WAL is at WAL index " ++ toString w.wal.lastIndex ++
            ", and all entries have to be sequential")
      else if newEntryWalIndex < nextWalIndex then
        onSegments (SegmentList.truncateFiles newEntryWalIndex)
      else pure ()

/-- The assertion that a new entry was inserted at its expected WAL index. -/
def assertInserted (currentIndexOffset : Option IndexOffset) (newEntry : RaftEntry)
    (newEntryWalIndex : Nat) : Except StorageError Unit :=
  let expected :=
    match currentIndexOffset with
    | none => some 0
    | some offset => offset.tryRaftToWal newEntry.index
  match expected with
  | none => .error (.panicked "new entry can't overwrite already compacted WAL entries")
  | some expectedWalIndex =>
    if newEntryWalIndex = expectedWalIndex then .ok ()
    else
      .error (.panicked
        ("WAL index of inserted entry does not match its expected WAL index, Raft index: " ++
          toString newEntry.index ++ ", inserted at WAL index: " ++ toString newEntryWalIndex ++
          ", expected WAL index: " ++ toString expectedWalIndex))

/-- The first entry that is appended to an empty WAL sets the offset. -/
def updateOffset : Option IndexOffset → Prog ConsensusOpWal StorageError (Option IndexOffset)
  | some offset => pure (some offset)
  | none => do
    let w ← .get
    .ofExcept w.indexOffsetImpl

/-- Append one entry. Whether the open segment is full depends on the sizes of the entries. -/
def appendEntry (full : RaftEntry → Bool) (currentIndexOffset : Option IndexOffset)
    (newEntry : RaftEntry) : Prog ConsensusOpWal StorageError (Option IndexOffset) := do
  let w ← .get
  if newEntry.index < w.compactedUntilRaftIndex then
    throw (logicallyCompacted newEntry.index w.compactedUntilRaftIndex)
  else
    truncateConflicting newEntry currentIndexOffset
    let newEntryWalIndex ← onSegments (SegmentList.appendFiles (full newEntry) newEntry)
    .ofExcept (assertInserted currentIndexOffset newEntry newEntryWalIndex)
    updateOffset currentIndexOffset

def appendEntries (full : RaftEntry → Bool) (newEntries : List RaftEntry) :
    Prog ConsensusOpWal StorageError Unit := do
  if newEntries = [] then pure ()
  else
    let w ← .get
    let currentIndexOffset ← .ofExcept w.indexOffsetImpl
    let _ ← newEntries.foldlM (appendEntry full) currentIndexOffset
    pure ()

def compact (untilRaftIndex : Nat) : Prog ConsensusOpWal StorageError Unit := do
  let w ← .get
  match ← .ofExcept w.indexOffsetImpl with
  | none => pure ()
  | some offset =>
    if untilRaftIndex ≤ w.compactedUntilRaftIndex then pure ()
    else
      match offset.tryRaftToWal untilRaftIndex with
      | none => .modify fun w => { w with compactedUntilRaftIndex := untilRaftIndex }
      | some compactUntilWalIndex =>
        -- At least one entry stays available.
        let compactUntilWalIndex :=
          min compactUntilWalIndex (offset.walIndex + w.wal.numEntries - 1)
        .modify fun w =>
          { w with compactedUntilRaftIndex := offset.walToRaft compactUntilWalIndex }
        onSegments (SegmentList.prefixTruncateFiles retainClosed compactUntilWalIndex)

end ConsensusOpWal

end Qdrant.Consensus
