-- SUMMARY: The WAL over segment files: appends with segments created ahead, truncation and opening a directory.
import Mathlib.Data.List.Sort
import Qdrant.Base.Run
import Qdrant.Wal.SegmentFile
import Qdrant.Wal.SegmentList

/-!
# The WAL on disk

`Wal` (`lib/wal/src/lib.rs`) keeps its segments in files of a directory: `closed-<start>`
for the closed ones, `open-<id>` for the open one and for the empty segments that a
background thread creates ahead (`lib/wal/src/segment_creator.rs`). Opening the directory
finds everything again from the file names and the contents.

Ids and indices are natural numbers here: they only grow by one at a time. When the
background thread is done, and which random seeds it draws, is left to the caller.
-/

namespace Qdrant.Wal

open Bytes

/-! ## Code -/

/-- An open segment and its id. -/
structure OpenSegment where
  id : Nat
  segment : Segment
deriving DecidableEq

structure WalOptions where
  segmentCapacity : UInt64
  segmentQueueLen : Nat
  retainClosed : ℕ+

/-- Create segments with the ids from `id` on. -/
def createSegments (seeds : Nat → UInt32) (segmentCapacity : UInt64) :
    Nat → Nat → Except IoError (List OpenSegment)
  | 0, _ => .ok []
  | count + 1, id =>
    match Segment.create segmentCapacity (seeds id) with
    | .error e => .error e
    | .ok segment =>
      match createSegments seeds segmentCapacity count (id + 1) with
      | .error e => .error e
      | .ok rest => .ok (⟨id, segment⟩ :: rest)

structure SegmentCreator where
  /-- Segments that are created but not yet handed out. -/
  pendingSegments : List OpenSegment
  segmentCapacity : UInt64
  segmentQueueLen : Nat
  currentId : Nat
  /-- What the creation thread returns when it is joined. -/
  thread : Option (Except IoError (List OpenSegment))
deriving DecidableEq

namespace SegmentCreator

variable (seeds : Nat → UInt32)

def scheduleCreation (c : SegmentCreator) : SegmentCreator :=
  if c.thread.isNone ∧ c.pendingSegments.length < c.segmentQueueLen then
    let count := c.segmentQueueLen - c.pendingSegments.length
    { c with thread := some (createSegments seeds c.segmentCapacity count c.currentId) }
  else c

def new (openSegment : Option OpenSegment) (unusedSegments : List OpenSegment)
    (segmentCapacity : UInt64) (segmentQueueLen : Nat) : SegmentCreator :=
  let unusedSegments := unusedSegments.insertionSort fun a b => a.id ≤ b.id
  let currentId :=
    match unusedSegments.getLast?.or openSegment with
    | none => 1
    | some s => s.id + 1
  scheduleCreation seeds
    { pendingSegments := unusedSegments
      segmentCapacity
      segmentQueueLen := max segmentQueueLen 1
      currentId
      thread := none }

/-- Join the creation thread if it is done, or if its segments are needed. -/
def refillPending (c : SegmentCreator) (finished : Bool) : Except IoError SegmentCreator :=
  match c.thread with
  | none => .ok c
  | some result =>
    if c.pendingSegments.isEmpty || finished then
      match result with
      | .error e => .error e
      | .ok newSegments =>
        .ok { c with
          thread := none
          currentId := c.currentId + newSegments.length
          pendingSegments := c.pendingSegments ++ newSegments }
    else .ok c

def next (c : SegmentCreator) (finished : Bool) : Except IoError (OpenSegment × SegmentCreator) :=
  match c.refillPending finished with
  | .error e => .error e
  | .ok c =>
    match c.pendingSegments with
    | [] => .error (.other "no segments available")
    | segment :: rest => .ok (segment, scheduleCreation seeds { c with pendingSegments := rest })

end SegmentCreator

/-- A file in the directory of a WAL. -/
inductive DirEntry where
  | closed (startIndex : Nat) (file : List UInt8)
  | opened (id : Nat) (file : List UInt8)
  /-- A temporary file, removed when the directory is opened. -/
  | tmp
  | other

end Qdrant.Wal

/-- A write ahead log over segment files. -/
structure Qdrant.Wal where
  segments : Qdrant.Wal.SegmentList Qdrant.Wal.Segment
  openId : Nat
  creator : Qdrant.Wal.SegmentCreator
  retainClosed : ℕ+
deriving DecidableEq

namespace Qdrant.Wal

open Bytes

section

variable (crc32cAppend : Checksum) (seeds : Nat → UInt32)

/-- Open the segment files of a directory, in the order in which they are listed. -/
def readDir : List DirEntry → Except IoError (List OpenSegment × List (ClosedSegment Segment))
  | [] => .ok ([], [])
  | .closed startIndex file :: rest =>
    match Segment.openFile crc32cAppend file, readDir rest with
    | .error e, _ => .error e
    | _, .error e => .error e
    | .ok segment, .ok (opened, closed) => .ok (opened, ⟨startIndex, segment⟩ :: closed)
  | .opened id file :: rest =>
    match Segment.openFile crc32cAppend file, readDir rest with
    | .error e, _ => .error e
    | _, .error e => .error e
    | .ok segment, .ok (opened, closed) => .ok (⟨id, segment⟩ :: opened, closed)
  | .tmp :: rest => readDir rest
  | .other :: rest => readDir rest

/-- What the search for the open segment has found so far. -/
structure Found where
  openSegment : Option OpenSegment
  unusedSegments : List OpenSegment
  closedSegments : List (ClosedSegment Segment)
  nextStartIndex : Nat

/-- A written open segment replaces an earlier one, which is closed: it was retired, but the
renaming of its file was lost. -/
def selectOpen (found : Found) (segment : OpenSegment) : Found :=
  if !segment.segment.isEmpty then
    match found.openSegment with
    | none => { found with openSegment := some segment }
    | some stranded =>
      { found with
        openSegment := some segment
        closedSegments := found.closedSegments ++ [⟨found.nextStartIndex, stranded.segment⟩]
        nextStartIndex := found.nextStartIndex + stranded.segment.len }
  else
    match found.openSegment with
    | none => { found with openSegment := some segment }
    | some _ => { found with unusedSegments := found.unusedSegments ++ [segment] }

def withOptions (options : WalOptions) (dir : List DirEntry) : Except IoError Wal :=
  match readDir crc32cAppend dir with
  | .error e => .error e
  | .ok (openSegments, closedSegments) =>
    let closedSegments := closedSegments.insertionSort fun a b => a.startIndex ≤ b.startIndex
    let firstStartIndex := (closedSegments.head?.map ClosedSegment.startIndex).getD 0
    match SegmentList.validateClosed firstStartIndex closedSegments with
    | .error e => .error e
    | .ok nextStartIndex =>
      let openSegments := openSegments.insertionSort fun a b => a.id ≤ b.id
      let found := openSegments.foldl selectOpen ⟨none, [], closedSegments, nextStartIndex⟩
      let creator := SegmentCreator.new seeds found.openSegment found.unusedSegments
        options.segmentCapacity options.segmentQueueLen
      match found.openSegment with
      | some s =>
        .ok ⟨⟨found.closedSegments, s.segment⟩, s.id, creator, options.retainClosed⟩
      | none =>
        match creator.next seeds false with
        | .error e => .error e
        | .ok (s, creator) =>
          .ok ⟨⟨found.closedSegments, s.segment⟩, s.id, creator, options.retainClosed⟩

section

variable (w : Wal) (finished : Bool)

def retireOpenSegment : Except IoError Wal :=
  match w.creator.next seeds finished with
  | .error e => .error e
  | .ok (next, creator) =>
    .ok { w with segments := w.segments.retireOpenSegment next.segment, openId := next.id, creator }

/-- Make room for an entry: a segment that is full is retired, and one that is too small for
any entry of this length is grown. -/
def makeRoom (entryLen : Nat) : Except IoError Wal :=
  if w.segments.openSegment.sufficientCapacity entryLen then .ok w
  else
    match (if !w.segments.openSegment.isEmpty then w.retireOpenSegment seeds finished else .ok w) with
    | .error e => .error e
    | .ok w =>
      match w.segments.openSegment.ensureCapacity entryLen with
      | .error e => .error e
      | .ok openSegment => .ok { w with segments := { w.segments with openSegment } }

/-- Append an entry and return its index. -/
def append (data : ByteSlice) : Except IoError (Wal × Nat) :=
  match w.makeRoom seeds finished data.len with
  | .error e => .error e
  | .ok w =>
    match w.segments.openSegment.append crc32cAppend data with
    | none => .error (.panicked "called `Option::unwrap()` on a `None` value")
    | some (openSegment, i) =>
      .ok ({ w with segments := { w.segments with openSegment } },
        w.segments.openSegmentStartIndex + i)

end

end

def entry (w : Wal) (index : Nat) : Except IoError (Option (List UInt8)) := w.segments.entry index

def firstIndex (w : Wal) : Nat := w.segments.firstIndex

def truncate (w : Wal) (start : Nat) : Except IoError Wal :=
  match w.segments.truncate start with
  | .error e => .error e
  | .ok segments => .ok { w with segments }

def prefixTruncate (w : Wal) (stop : Nat) : Except IoError Wal :=
  match w.segments.prefixTruncate w.retainClosed stop with
  | .error e => .error e
  | .ok segments => .ok { w with segments }

/-- The open segments that wait to be used when the WAL is closed. The creation thread is
joined then. -/
def waitingSegments (w : Wal) : List OpenSegment :=
  match w.creator.thread with
  | some (.ok newSegments) => w.creator.pendingSegments ++ newSegments
  | _ => w.creator.pendingSegments

/-- The files that a WAL leaves when it is closed. -/
def files (w : Wal) : List DirEntry :=
  (w.segments.closedSegments.map fun s => .closed s.startIndex s.segment.mmap) ++
    ((⟨w.openId, w.segments.openSegment⟩ :: w.waitingSegments).map fun s =>
      .opened s.id s.segment.mmap)

end Qdrant.Wal
