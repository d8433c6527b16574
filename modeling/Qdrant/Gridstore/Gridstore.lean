-- SUMMARY: Gridstore: a store of values by point offset, with flushers that write pending changes later.
import Qdrant.Gridstore.Tracker

/-!
# Gridstore

Sources: `lib/gridstore/src/gridstore/mod.rs`, `gridstore/view.rs`, `blob.rs`.

A store has a tracker, pages and a bitmask, each backed by files that a crash can leave in a
state between two syncs. Operations are programs with a crash point before every write to a
file. Hardware counters, disk caches and the lists of files are left out.

A flusher keeps weak references to the parts of the store it was created from. They are gone
when the store is cleared or opened anew; `generation` tells one set of parts from the next.
-/

namespace Qdrant.Gridstore

open Crash

/-- The values of a store: how the value type is turned into bytes and back (`Blob`), and
the functions of the LZ4 library. -/
structure Codec (V : Type) where
  toBytes : V → List UInt8
  fromBytes : List UInt8 → V
  compressLz4 : List UInt8 → List UInt8
  decompressLz4 : List UInt8 → List UInt8
  fromBytes_toBytes : ∀ value, fromBytes (toBytes value) = value
  decompress_compress : ∀ bytes, decompressLz4 (compressLz4 bytes) = bytes

namespace Codec

variable {V : Type}

section

variable (codec : Codec V) (config : StorageConfig)

def compress (value : List UInt8) : List UInt8 :=
  match config.compression with
  | .none => value
  | .lz4 => codec.compressLz4 value

def decompress (value : List UInt8) : List UInt8 :=
  match config.compression with
  | .none => value
  | .lz4 => codec.decompressLz4 value

/-- The bytes of a value in the pages. -/
def encode (value : V) : List UInt8 :=
  codec.compress config (codec.toBytes value)

def decode (raw : List UInt8) : V :=
  codec.fromBytes (codec.decompress config raw)

theorem decode_encode (value : V) : codec.decode config (codec.encode config value) = value := by
  unfold decode encode decompress compress
  cases config.compression with
  | none => exact codec.fromBytes_toBytes value
  | lz4 =>
    rw [codec.decompress_compress, codec.fromBytes_toBytes]

end

end Codec

/-- Values that are bytes already. -/
def byteCodec : Codec (List UInt8) where
  toBytes value := value
  fromBytes bytes := bytes
  compressLz4 bytes := bytes
  decompressLz4 bytes := bytes
  fromBytes_toBytes _ := rfl
  decompress_compress _ := rfl

/-- Pages of 64 blocks of one byte. -/
def smallOptions (regionSizeBlocks : UInt16) : StorageOptions where
  pageSizeBytes := some 64
  blockSizeBytes := some 1
  regionSizeBlocks := some regionSizeBlocks
  compression := some .none

end Qdrant.Gridstore

structure Qdrant.Gridstore where
  config : Gridstore.StorageConfig
  tracker : Gridstore.Tracker
  pages : Gridstore.Pages
  bitmask : Gridstore.Bitmask
  /-- The number of the set of parts that flushers refer to. -/
  generation : Nat

namespace Qdrant.Gridstore

open Crash

/-- A flusher: the pending updates at its creation, and the parts of the store it refers to. -/
structure Flusher where
  generation : Nat
  pendingUpdates : HashMap Nat PointerUpdates

/-! ## Parts of the store -/

def onTracker {α : Type} (x : Prog Tracker GridstoreError α) : Prog Gridstore GridstoreError α :=
  Prog.zoom (·.tracker) (fun s tracker => { s with tracker }) x

def onPages {α : Type} (x : Prog Pages GridstoreError α) : Prog Gridstore GridstoreError α :=
  Prog.zoom (·.pages) (fun s pages => { s with pages }) x

def onBitmask {α : Type} (x : Prog Bitmask GridstoreError α) : Prog Gridstore GridstoreError α :=
  Prog.zoom (·.bitmask) (fun s bitmask => { s with bitmask }) x

/-! ## Opening -/

/-- `Gridstore::new`: a store with a single empty page. -/
def new (options : StorageOptions) (generation : Nat) : Except GridstoreError Gridstore := do
  match StorageConfig.tryFrom options with
  | .error message => throw (.invalidConfig message)
  | .ok config =>
    let bitmask ← Bitmask.create config
    return {
      config, bitmask, generation
      tracker := .new
      pages := { numPages := 1, bytes := .ofContent fun _ => 0 } }

/-- `Gridstore::open` on the files of this store. -/
def reopen (s : Gridstore) : Except GridstoreError Gridstore :=
  let numPages := s.bitmask.inferNumPages s.config
  let loadedPages := s.pages.numPages
  if loadedPages ≠ numPages then .error (.inconsistentPages numPages loadedPages)
  else .ok { s with tracker := s.tracker.reopen, generation := s.generation + 1 }

/-- `Gridstore::clear`. -/
def clear (s : Gridstore) : Except GridstoreError Gridstore :=
  new (.ofConfig s.config) (s.generation + 1)

/-! ## Values -/

section Values

variable {V : Type} (codec : Codec V)

/-- `blocks_for_value`. -/
def blocksForValue (valueSize blockSize : Nat) : Except GridstoreError Nat :=
  if 2 ^ 32 ≤ divCeil valueSize blockSize then .error .panicked else .ok (divCeil valueSize blockSize)

/-- `create_new_page`. -/
def createNewPage : Prog Gridstore GridstoreError Unit := do
  let s ← Prog.get
  Prog.write fun s => .ok ((), { s with pages := { s.pages with numPages := s.pages.numPages + 1 } })
  onBitmask (Bitmask.coverNewPage s.config)

/-- `find_or_create_available_blocks`. -/
def findOrCreateAvailableBlocks (numBlocks : Nat) : Prog Gridstore GridstoreError (Nat × Nat) := do
  let s ← Prog.get
  match ← Prog.ofExcept (s.bitmask.findAvailableBlocks s.config numBlocks) with
  | some found => return found
  | none =>
    let missingBlocks := numBlocks - s.bitmask.trailingFreeBlocks s.config
    let numPages := divCeil (missingBlocks * s.config.blockSizeBytes) s.config.pageSizeBytes
    (List.range numPages).foldlM (fun _ _ => createNewPage) ()
    let s ← Prog.get
    match ← Prog.ofExcept (s.bitmask.findAvailableBlocks s.config numBlocks) with
    | some available => return available
    | none => throw .panicked

/-- `put_value`: whether the value existed before. -/
def putValue (pointOffset : Nat) (value : V) : Prog Gridstore GridstoreError Bool := do
  let s ← Prog.get
  let compValue := codec.encode s.config value
  let requiredBlocks ← Prog.ofExcept (blocksForValue compValue.length s.config.blockSizeBytes)
  let (startPageId, blockOffset) ← findOrCreateAvailableBlocks requiredBlocks
  -- The length becomes a `u32`.
  let pointer : ValuePointer := ⟨startPageId, blockOffset, compValue.length % 2 ^ 32⟩
  onPages (Pages.writeToPages s.config pointer compValue)
  onBitmask (Bitmask.markBlocks s.config startPageId blockOffset requiredBlocks true)
  let s ← Prog.get
  Prog.modify fun s => { s with tracker := s.tracker.set pointOffset pointer }
  return (s.tracker.get pointOffset).isSome

/-- `delete_value`: the deleted value. -/
def deleteValue (pointOffset : Nat) : Prog Gridstore GridstoreError (Option V) := do
  let s ← Prog.get
  match s.tracker.unset pointOffset with
  | (none, _) => return none
  | (some pointer, tracker) =>
    Prog.modify fun s => { s with tracker }
    let raw ← Prog.ofExcept (s.pages.readFromPages s.config pointer)
    return some (codec.decode s.config raw)

/-- `get_value`. -/
def getValue (s : Gridstore) (pointOffset : Nat) : Except GridstoreError (Option V) :=
  match s.tracker.get pointOffset with
  | none => .ok none
  | some pointer => do
    let raw ← s.pages.readFromPages s.config pointer
    return some (codec.decode s.config raw)

/-- `iter_pointers`: the offsets from `first` up to `max`, as far as there are pointers. -/
def iterPointers (s : Gridstore) (first max : Nat) : List Nat :=
  List.range' first (Nat.min s.tracker.nextPointerOffset (Nat.min (max + 1) (2 ^ 32 - 1)) - first)

/-- `GridstoreView::iter` with a callback that collects what it is given: what it has
collected, and the offset at which to go on. -/
def viewIter (s : Gridstore) (maxIters : Nat) :
    List Nat → Nat → List (Nat × V) → Except GridstoreError (List (Nat × V) × Option Nat)
  | [], _, visited => .ok (visited, none)
  | pointOffset :: rest, nth, visited =>
    match s.tracker.get pointOffset with
    | none => viewIter s maxIters rest nth visited
    | some pointer =>
      if nth = maxIters then .ok (visited, some pointOffset)
      else do
        let raw ← s.pages.readFromPages s.config pointer
        viewIter s maxIters rest (nth + 1) (visited ++ [(pointOffset, codec.decode s.config raw)])

def batchSize : Nat := 128

/-- The loop of `iter` over batches. A batch that is followed by another one has visited
something, so the number of pointers bounds their number. -/
def iterBatches (s : Gridstore) : Nat → Nat → List (Nat × V) → Except GridstoreError (List (Nat × V))
  | 0, _, visited => .ok visited
  | fuel + 1, fromOffset, visited => do
    match ← viewIter codec s batchSize (s.iterPointers fromOffset (2 ^ 32 - 1)) 0 visited with
    | (visited, none) => return visited
    | (visited, some nextOffset) => iterBatches s fuel nextOffset visited

/-- `Gridstore::iter`: the offsets and values that the callback is given. -/
def iter (s : Gridstore) : Except GridstoreError (List (Nat × V)) :=
  iterBatches codec s (s.tracker.nextPointerOffset + 1) 0 []

end Values

/-! ## Flushing -/

/-- `Gridstore::flusher`. -/
def flusher (s : Gridstore) : Flusher := ⟨s.generation, s.tracker.pendingUpdates⟩

/-- The range of a pointer's blocks on its page. -/
def localRange (blockSizeBytes : Nat) (pointer : ValuePointer) : Nat × Nat :=
  (pointer.blockOffset, pointer.blockOffset + divCeil pointer.length blockSizeBytes)

/-- `flush_free_blocks`: the blocks of the old pointers become free, page by page. -/
def flushFreeBlocks (oldPointers : List ValuePointer) : Prog Gridstore GridstoreError Unit := do
  let s ← Prog.get
  (oldPointers.splitBy fun a b => a.pageId == b.pageId).foldlM (fun _ pointerGroup =>
    match pointerGroup with
    | [] => pure ()
    | pointer :: _ => onBitmask (Bitmask.markBlocksBatch s.config pointer.pageId
        (pointerGroup.map (localRange s.config.blockSizeBytes)) false)) ()
  onBitmask Bitmask.flush

/-- A flusher is run. -/
def runFlusher (order : IterOrder Nat) (flusher : Flusher) : Prog Gridstore GridstoreError Unit := do
  let s ← Prog.get
  if flusher.generation ≠ s.generation then throw .flushCancelled
  onBitmask Bitmask.flush
  onPages Pages.flush
  let oldPointers ← onTracker (Tracker.writePending order flusher.pendingUpdates)
  onTracker Tracker.flush
  if oldPointers.isEmpty then return ()
  flushFreeBlocks oldPointers

end Qdrant.Gridstore
