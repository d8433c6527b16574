-- SUMMARY: The formats of a file of graph links, and the serializer that writes it.
import Qdrant.Base.Records
import Qdrant.Base.Wp
import Qdrant.Common.BitPackingLinks
import Qdrant.Common.BitPackingOrdered
import Qdrant.Segment.Segment

/-!
# Graph links

Sources: `lib/segment/src/index/hnsw_index/graph_links.rs`, `graph_links/serializer.rs`,
`graph_links/header.rs`.

The links of an HNSW graph are a list of levels for every point, and a list of links on
every level. The file has the links of level 0 in the order of the points, and those of a
higher level in the order of `back_index`, where points with more levels come first.

A stream is the bytes that were written to it. It takes less than `2 ^ 64` of them. Numbers
are little-endian, as on the machines the service runs on.
-/

namespace Qdrant.GraphLinks

open Bytes

inductive GraphLinksError where
  | operation (error : OperationError)
  /-- The stream has no room for the bytes. -/
  | io
  | panicked
deriving DecidableEq

def serviceError (description : String) : GraphLinksError := .operation (.serviceError description)

/-! ## Formats -/

structure HnswM where
  m : UInt64
  /-- M for level 0. -/
  m0 : UInt64

def HnswM.levelM (hnswM : HnswM) (level : Nat) : Nat :=
  if level = 0 then hnswM.m0.toNat else hnswM.m.toNat

/-- Sizes and alignments of which there is a `std::alloc::Layout`. -/
def isLayout (size align : Nat) : Bool :=
  align ≠ 0 && (align &&& (align - 1)) = 0 && size + (align - 1) < 2 ^ 63

structure Layout where
  size : Nat
  align : Nat
  valid : isLayout size align = true

/-- `Layout::from_size_align`. -/
def Layout.fromSizeAlign (size align : Nat) : Option Layout :=
  if h : isLayout size align = true then some ⟨size, align, h⟩ else none

structure GraphLinksVectorsLayout where
  base : Layout
  link : Layout

/-- The vectors that are stored with the links. -/
structure GraphLinksVectors where
  forBaseVector : Nat → Except OperationError (List UInt8)
  getLinkVector : Nat → Except OperationError (List UInt8)
  vectorsLayout : GraphLinksVectorsLayout

inductive GraphLinksFormat where
  | plain
  | compressed
  | compressedWithVectors

inductive GraphLinksFormatParam where
  | plain
  | compressed
  | compressedWithVectors (vectors : GraphLinksVectors)

/-- `as_format`. -/
def GraphLinksFormatParam.asFormat : GraphLinksFormatParam → GraphLinksFormat
  | .plain => .plain
  | .compressed => .compressed
  | .compressedWithVectors _ => .compressedWithVectors

/-! ## Headers -/

structure HeaderPlain where
  pointCount : Nat
  levelsCount : Nat
  totalNeighborsCount : Nat
  totalOffsetCount : Nat
  offsetsPaddingBytes : Nat

/-- The part of a header that the two compressed formats share. -/
structure HeaderCompressed where
  pointCount : Nat
  version : Nat
  levelsCount : Nat
  totalNeighborsBytes : Nat
  offsetsParameters : BitPackingOrdered.Parameters
  m : Nat
  m0 : Nat

structure PackedVectorLayout where
  size : Nat
  alignment : Nat

structure HeaderCompressedWithVectors extends HeaderCompressed where
  baseVectorLayout : PackedVectorLayout
  linkVectorLayout : PackedVectorLayout

/-- `HEADER_VERSION_COMPRESSED`. -/
def headerVersionCompressed : Nat := 0xFFFFFFFFFFFFFF01

/-- `HEADER_VERSION_COMPRESSED_WITH_VECTORS`. -/
def headerVersionCompressedWithVectors : Nat := 0xFFFFFFFFFFFFFF02

/-- The size of a header. -/
def GraphLinksFormat.headerSize : GraphLinksFormat → Nat
  | .plain => 64
  | .compressed => 64
  | .compressedWithVectors => 80

def HeaderPlain.fields (h : HeaderPlain) : List (Nat × Nat) :=
  [(h.pointCount, 8), (h.levelsCount, 8), (h.totalNeighborsCount, 8), (h.totalOffsetCount, 8),
    (h.offsetsPaddingBytes, 8)]

def HeaderPlain.toBytes (h : HeaderPlain) : List UInt8 := Records.encode h.fields ++ zeros 24

/-- The header at the start of the data. -/
def HeaderPlain.ofBytes (data : List UInt8) : Option HeaderPlain :=
  match Records.decode [8, 8, 8, 8, 8] data with
  | [pointCount, levelsCount, totalNeighborsCount, totalOffsetCount, offsetsPaddingBytes] =>
    some ⟨pointCount, levelsCount, totalNeighborsCount, totalOffsetCount, offsetsPaddingBytes⟩
  | _ => none

def HeaderCompressed.fields (h : HeaderCompressed) : List (Nat × Nat) :=
  [(h.pointCount, 8), (h.version, 8), (h.levelsCount, 8), (h.totalNeighborsBytes, 8),
    (h.offsetsParameters.length, 8), (h.offsetsParameters.baseBits, 1),
    (h.offsetsParameters.deltaBits, 1), (h.offsetsParameters.chunkLenLog2, 1), (h.m, 8), (h.m0, 8)]

def HeaderCompressed.toBytes (h : HeaderCompressed) : List UInt8 := Records.encode h.fields ++ zeros 5

def HeaderCompressed.ofBytes (data : List UInt8) : Option HeaderCompressed :=
  match Records.decode [8, 8, 8, 8, 8, 1, 1, 1, 8, 8] data with
  | [pointCount, version, levelsCount, totalNeighborsBytes, length, baseBits, deltaBits, chunkLenLog2,
      m, m0] =>
      some ⟨pointCount, version, levelsCount, totalNeighborsBytes,
        ⟨length, baseBits, deltaBits, chunkLenLog2⟩, m, m0⟩
  | _ => none

def HeaderCompressedWithVectors.fields (h : HeaderCompressedWithVectors) : List (Nat × Nat) :=
  h.toHeaderCompressed.fields ++
    [(h.baseVectorLayout.size, 8), (h.baseVectorLayout.alignment, 1), (h.linkVectorLayout.size, 8),
      (h.linkVectorLayout.alignment, 1)]

def HeaderCompressedWithVectors.toBytes (h : HeaderCompressedWithVectors) : List UInt8 :=
  Records.encode h.fields ++ zeros 3

def HeaderCompressedWithVectors.ofBytes (data : List UInt8) : Option HeaderCompressedWithVectors :=
  match HeaderCompressed.ofBytes data,
    Records.decode [8, 1, 8, 1] (data.drop 59) with
  | some header, [baseSize, baseAlignment, linkSize, linkAlignment] =>
    some ⟨header, ⟨baseSize, baseAlignment⟩, ⟨linkSize, linkAlignment⟩⟩
  | _, _ => none

/-- `try_into_layout`. -/
def PackedVectorLayout.tryIntoLayout (layout : PackedVectorLayout) : Except GraphLinksError Layout :=
  match Layout.fromSizeAlign layout.size layout.alignment with
  | some layout => .ok layout
  | none => .error (serviceError "Invalid vector layout")

/-- `pack_layout`. -/
def packLayout (layout : Layout) : Except GraphLinksError PackedVectorLayout :=
  if layout.align < 256 then .ok ⟨layout.size, layout.align⟩ else .error .panicked

/-! ## Streams -/

abbrev Writer := EStateM GraphLinksError (List UInt8)

def Writer.ofExcept {α : Type} (x : Except GraphLinksError α) : Writer α :=
  match x with
  | .ok a => pure a
  | .error e => throw e

/-- `write_all`. A stream has less than `2 ^ 64` bytes; more than that cannot be written. -/
def writeAll (data : List UInt8) : Writer PUnit := fun written =>
  if written.length + data.length < 2 ^ 64 then .ok ⟨⟩ (written ++ data) else .error .io (written ++ data)

/-- Go back to the start and write there. -/
def rewriteStart (data : List UInt8) : Writer PUnit := fun written => .ok ⟨⟩ (writeAt written 0 data)

def padding (n multiple : Nat) : Nat := nextMultipleOf n multiple - n

/-! ## Serializer -/

/-- The links of every point on every level. -/
abbrev Edges := List (List (List Nat))

/-- `point_count_by_level`: how many points have a level as their last one. -/
def pointCountByLevel (levelsCount : Nat) (edges : Edges) : Except GraphLinksError (List Nat) :=
  edges.foldlM (fun counts point =>
    if point.length = 0 ∨ counts.length < point.length then .error .panicked
    else .ok (counts.modify (point.length - 1) (· + 1))) (List.replicate levelsCount 0)

/-- The running sums of the numbers of points that have a level. -/
def levelOffsetsFrom : Nat → Nat → List Nat → List Nat
  | _, _, [] => []
  | totalOffsetsLen, suffixSum, value :: rest =>
    totalOffsetsLen :: levelOffsetsFrom (totalOffsetsLen + suffixSum) (suffixSum - value) rest

/-- The level offsets in the file. -/
def levelOffsets (counts : List Nat) : List Nat := levelOffsetsFrom 0 counts.sum counts

/-- The map from point ids to places in the back index. -/
def reindex (backIndex : List Nat) : List Nat :=
  backIndex.zipIdx.foldl (fun reindex (id, i) => reindex.set id i) (List.replicate backIndex.length 0)

/-- The levels, and the points of each of them, in the order in which their links are
written. -/
def visits (levelsCount : Nat) (counts backIndex : List Nat) : List (Nat × Nat) :=
  (List.range levelsCount).flatMap fun level =>
    let count := (counts.drop level).sum
    (if level = 0 then List.range count else backIndex.take count).map (level, ·)

/-- The link vectors in the order of the links. -/
def linkVectors (vectors : GraphLinksVectors) (links : List Nat) :
    Except GraphLinksError (List (List UInt8)) :=
  links.mapM fun link =>
    match vectors.getLinkVector link with
    | .error error => .error (.operation error)
    | .ok vector =>
      if vector.length ≠ vectors.vectorsLayout.link.size then .error (serviceError "Vector size mismatch")
      else .ok vector

/-- The base vector of a point, which is there on level 0 only. -/
def baseVector (vectors : GraphLinksVectors) (level id : Nat) : Except GraphLinksError (List UInt8) :=
  if level = 0 then
    match vectors.forBaseVector id with
    | .error error => .error (.operation error)
    | .ok vector =>
      if vector.length ≠ vectors.vectorsLayout.base.size then .error (serviceError "Vector size mismatch")
      else .ok vector
  else .ok []

/-- The variable-length encoding of unsigned 64-bit numbers of the `integer_encoding` library, of
which only this is known: a number is read back, whatever follows it. -/
class Varint where
  encode : Nat → List UInt8
  /-- The number at the start of the bytes, and how many bytes it takes. -/
  decode : List UInt8 → Option (Nat × Nat)
  decode_encode : ∀ n < 2 ^ 64, ∀ rest, decode (encode n ++ rest) = some (n, (encode n).length)

variable [Varint]

/-- The bytes for the links of a point on a level, and the offset after them. Offsets count
links in the plain format, and bytes in the other ones. -/
def record (param : GraphLinksFormatParam) (bitsPerUnsorted : Nat) (hnswM : HnswM) (level id : Nat)
    (rawLinks : List Nat) (offset : Nat) : Except GraphLinksError (List UInt8 × Nat) :=
  match param with
  | .plain => .ok (Records.encodeSection 4 rawLinks, offset + rawLinks.length)
  | .compressed =>
    let (linksBuf, _) := packLinks [] rawLinks bitsPerUnsorted (hnswM.levelM level)
    .ok (linksBuf, offset + linksBuf.length)
  | .compressedWithVectors vectors => do
    let layout := vectors.vectorsLayout
    -- 1. Base vector.
    let base ← baseVector vectors level id
    -- 2. The number of links.
    let length := Varint.encode rawLinks.length
    -- 3. Compressed links.
    let (linksBuf, rawLinks) := packLinks [] rawLinks bitsPerUnsorted (hnswM.levelM level)
    let bytes := base ++ length ++ linksBuf
    -- 4. Padding to align link vectors.
    let bytes := bytes ++ zeros (padding (offset + bytes.length) layout.link.align)
    -- 5. Link vectors.
    let bytes := bytes ++ (← linkVectors vectors rawLinks).flatten
    -- 6. Padding to align the next base vector.
    let bytes := if level = 0 then bytes ++ zeros (padding (offset + bytes.length) layout.base.align)
      else bytes
    return (bytes, offset + bytes.length)

/-- Write the links of a point on a level. The parts of a record are written at once. -/
def writeRecord (edges : Edges) (param : GraphLinksFormatParam) (bitsPerUnsorted : Nat) (hnswM : HnswM) :
    Nat × List Nat → Nat × Nat → Writer (Nat × List Nat)
  | (offset, offsets), (level, id) =>
    match edges[id]?.bind (·[level]?) with
    | none => throw .panicked
    | some rawLinks => do
      let (bytes, offset) ← Writer.ofExcept (record param bitsPerUnsorted hnswM level id rawLinks offset)
      writeAll bytes
      return (offset, offsets ++ [offset])

/-- The layouts must have sizes that are multiples of their alignments. -/
def checkLayouts : GraphLinksFormatParam → Except GraphLinksError PUnit
  | .compressedWithVectors vectors =>
    if vectors.vectorsLayout.base.size % vectors.vectorsLayout.base.align ≠ 0 then
      .error (serviceError "Base vector size must be a multiple of its alignment")
    else if vectors.vectorsLayout.link.size % vectors.vectorsLayout.link.align ≠ 0 then
      .error (serviceError "Link vector size must be a multiple of its alignment")
    else .ok ⟨⟩
  | _ => .ok ⟨⟩

/-- The padding before the neighbors. -/
def writeNeighborsPadding : GraphLinksFormatParam → Writer PUnit
  | .compressedWithVectors vectors => do
    let pos := (← get).length
    writeAll (zeros (padding pos
      (max vectors.vectorsLayout.base.align vectors.vectorsLayout.link.align)))
  | _ => pure ⟨⟩

/-- The offsets, and the header for them. -/
def writeOffsets (param : GraphLinksFormatParam) (hnswM : HnswM) (pointCount levelsCount offset : Nat)
    (offsets : List Nat) : Writer PUnit :=
  match param with
  | .plain => do
    let offsetsPaddingBytes := padding (← get).length 8
    writeAll (zeros offsetsPaddingBytes)
    writeAll (Records.encodeSection 8 offsets)
    rewriteStart (HeaderPlain.toBytes
      { pointCount, levelsCount, offsetsPaddingBytes
        totalNeighborsCount := offset
        totalOffsetCount := offsets.length })
  | .compressed =>
    match BitPackingOrdered.compress offsets with
    | none => throw .panicked
    | some (compressedOffsets, offsetsParameters) => do
      writeAll compressedOffsets
      rewriteStart (HeaderCompressed.toBytes
        { pointCount, levelsCount, offsetsParameters
          version := headerVersionCompressed
          totalNeighborsBytes := offset
          m := hnswM.m.toNat
          m0 := hnswM.m0.toNat })
  | .compressedWithVectors vectors =>
    match BitPackingOrdered.compress offsets with
    | none => throw .panicked
    | some (compressedOffsets, offsetsParameters) => do
      writeAll compressedOffsets
      let baseVectorLayout ← Writer.ofExcept (packLayout vectors.vectorsLayout.base)
      let linkVectorLayout ← Writer.ofExcept (packLayout vectors.vectorsLayout.link)
      rewriteStart (HeaderCompressedWithVectors.toBytes
        { pointCount, levelsCount, offsetsParameters, baseVectorLayout, linkVectorLayout
          version := headerVersionCompressedWithVectors
          totalNeighborsBytes := offset
          m := hnswM.m.toNat
          m0 := hnswM.m0.toNat })

/-- The order of the points by descending number of levels. The sort is not stable: any
such order may come out of it. -/
structure BackIndex (edges : Edges) where
  order : List Nat
  perm : order.Perm (List.range edges.length)
  sorted : order.Pairwise fun i j => (edges.getD j []).length ≤ (edges.getD i []).length

/-- The number of levels of the graph. -/
def BackIndex.levelsCount {edges : Edges} (backIndex : BackIndex edges) : Nat :=
  match backIndex.order.head? with
  | none => 0
  | some id => (edges.getD id []).length

/-- `serialize_graph_links`. -/
def serializeGraphLinks (edges : Edges) (param : GraphLinksFormatParam) (hnswM : HnswM)
    (backIndex : BackIndex edges) : Writer PUnit := do
  if 2 ^ 32 ≤ edges.length - 1 then throw .panicked
  let bitsPerUnsorted := max (packedBits (edges.length - 1)) minBitsPerValue
  Writer.ofExcept (checkLayouts param)
  let levelsCount := backIndex.levelsCount
  let counts ← Writer.ofExcept (pointCountByLevel levelsCount edges)
  writeAll (zeros param.asFormat.headerSize)
  writeAll (Records.encodeSection 8 (levelOffsets counts))
  writeAll (Records.encodeSection 4 (reindex backIndex.order))
  writeNeighborsPadding param
  let (offset, offsets) ← (visits levelsCount counts backIndex.order).foldlM
    (writeRecord edges param bitsPerUnsorted hnswM) (0, [0])
  writeOffsets param hnswM edges.length levelsCount offset offsets

/-! ## View of graph links

Source: `lib/segment/src/index/hnsw_index/graph_links/view.rs`.

A view is a split of the file into its sections. References into the file need an aligned
place; the file starts at an aligned address, so a place is aligned if its offset is.
Where an index is out of range the code panics, and the model has no result.
-/

/-! ## Sections -/

/-- `error_unsufficent_size`. -/
def errorUnsufficentSize : GraphLinksError := serviceError "Unsufficent file size for GraphLinks file"

section

variable (total width align : Nat) (data : List UInt8) (length : Nat)

/-- `get_slice`: so many elements of `width` bytes from the data that is left of `total` bytes. -/
def getSlice : Except GraphLinksError (List UInt8 × List UInt8) :=
  if (total - data.length) % align = 0 ∧ width * length ≤ data.length then
    .ok (data.take (width * length), data.drop (width * length))
  else .error errorUnsufficentSize

/-- `get_slice` of numbers. -/
def getNumbers : Except GraphLinksError (List Nat × List UInt8) := do
  let (bytes, data) ← getSlice total width align data length
  return (Records.decodeSection width bytes length, data)

end

/-- `ref_from_prefix` of a header. -/
def getHeader {H : Type} (size : Nat) (ofBytes : List UInt8 → Option H) (data : List UInt8) :
    Except GraphLinksError (H × List UInt8) :=
  if data.length < size then .error errorUnsufficentSize
  else
    match ofBytes data with
    | some header => .ok (header, data.drop size)
    | none => .error errorUnsufficentSize

/-- `read_level_offsets`. -/
def readLevelOffsets (total : Nat) (bytes : List UInt8) (levelsCount totalOffsetCount : Nat) :
    Except GraphLinksError (List Nat × List UInt8) := do
  let (levelOffsets, bytes) ← getNumbers total 8 8 bytes levelsCount
  if totalOffsetCount = 0 then
    throw (serviceError "Total offset count should be at least 1 in GraphLinks file")
  return (levelOffsets ++ [totalOffsetCount - 1], bytes)

/-- `Reader::new` with the error of the file. -/
def offsetsReader (parameters : BitPackingOrdered.Parameters) (data : List UInt8) :
    Except GraphLinksError BitPackingOrdered.Reader :=
  match BitPackingOrdered.Reader.new parameters data with
  | .ok (reader, _) => .ok reader
  | .error .panicked => .error .panicked
  | .error (.decompressionError message) =>
    .error (serviceError s!"Can't create decompressor: decompression error: {message}")

/-- The width of unsorted links. -/
def bitsPerUnsortedOf (pointCount : Nat) : Except GraphLinksError Nat :=
  if 2 ^ 32 ≤ pointCount - 1 then .error (serviceError "Too many points in GraphLinks file")
  else .ok (max minBitsPerValue (packedBits (pointCount - 1)))

/-! ## Loading -/

inductive CompressionInfo where
  | uncompressed (neighbors offsets : List Nat)
  | compressed (neighbors : List UInt8) (offsets : BitPackingOrdered.Reader) (hnswM : HnswM)
      (bitsPerUnsorted : Nat)
  | compressedWithVectors (neighbors : List UInt8) (offsets : BitPackingOrdered.Reader) (hnswM : HnswM)
      (bitsPerUnsorted : Nat) (baseVectorLayout : Layout) (linkVectorSize linkVectorAlignment : Nat)

structure GraphLinksView where
  reindex : List Nat
  compression : CompressionInfo
  levelOffsets : List Nat

section

variable (file : List UInt8)

/-- `load_plain`. -/
def loadPlain : Except GraphLinksError GraphLinksView := do
  let total := file.length
  let (header, data) ← getHeader 64 HeaderPlain.ofBytes file
  let (levelOffsets, data) ← readLevelOffsets total data header.levelsCount header.totalOffsetCount
  let (reindex, data) ← getNumbers total 4 4 data header.pointCount
  let (neighbors, data) ← getNumbers total 4 4 data header.totalNeighborsCount
  let (_, data) ← getSlice total 1 1 data header.offsetsPaddingBytes
  let (offsets, _) ← getNumbers total 8 1 data header.totalOffsetCount
  return { reindex, levelOffsets, compression := .uncompressed neighbors offsets }

/-- `load_compressed`. -/
def loadCompressed : Except GraphLinksError GraphLinksView := do
  let total := file.length
  let (header, data) ← getHeader 64 HeaderCompressed.ofBytes file
  let (levelOffsets, data) ←
    readLevelOffsets total data header.levelsCount header.offsetsParameters.length
  let (reindex, data) ← getNumbers total 4 4 data header.pointCount
  let (neighbors, data) ← getSlice total 1 1 data header.totalNeighborsBytes
  let offsets ← offsetsReader header.offsetsParameters data
  let bitsPerUnsorted ← bitsPerUnsortedOf header.pointCount
  return {
    reindex, levelOffsets
    compression := .compressed neighbors offsets ⟨.ofNat header.m, .ofNat header.m0⟩ bitsPerUnsorted }

/-- `load_compressed_with_vectors`. -/
def loadCompressedWithVectors : Except GraphLinksError GraphLinksView := do
  let total := file.length
  let (header, data) ← getHeader 80 HeaderCompressedWithVectors.ofBytes file
  let baseVectorLayout ← header.baseVectorLayout.tryIntoLayout
  let linkVectorLayout ← header.linkVectorLayout.tryIntoLayout
  let (levelOffsets, data) ←
    readLevelOffsets total data header.levelsCount header.offsetsParameters.length
  let (reindex, data) ← getNumbers total 4 4 data header.pointCount
  let (_, data) ← getSlice total 1 1 data
    (padding (total - data.length) (max linkVectorLayout.align baseVectorLayout.align))
  let (neighbors, data) ← getSlice total 1 1 data header.totalNeighborsBytes
  let offsets ← offsetsReader header.offsetsParameters data
  let bitsPerUnsorted ← bitsPerUnsortedOf header.pointCount
  if linkVectorLayout.size = 0 then throw (serviceError "Zero link vector size in GraphLinks file")
  return {
    reindex, levelOffsets
    compression := .compressedWithVectors neighbors offsets ⟨.ofNat header.m, .ofNat header.m0⟩
      bitsPerUnsorted baseVectorLayout linkVectorLayout.size linkVectorLayout.align }

/-- `GraphLinksView::load`. -/
def load : GraphLinksFormat → Except GraphLinksError GraphLinksView
  | .plain => loadPlain file
  | .compressed => loadCompressed file
  | .compressedWithVectors => loadCompressedWithVectors file

end

/-! ## Links -/

/-- The slice `data[start..stop]`. -/
def sliceOf {α : Type} (data : List α) (start stop : Nat) : Option (List α) :=
  if start ≤ stop ∧ stop ≤ data.length then some ((data.drop start).take (stop - start)) else none

/-- `chunks_exact`. -/
def chunksExact (size : Nat) (data : List UInt8) : List (List UInt8) :=
  (List.range (data.length / size)).map fun i => slice data (i * size) size

/-- Take a record with vectors apart, of which the base vector has so many bytes. -/
def readRecord (neighbors : List UInt8)
    (bitsPerUnsorted sortedCount baseSize linkVectorSize linkVectorAlignment start stop : Nat) :
    Option (List UInt8 × PackedLinksIterator × List (List UInt8)) := do
  -- 1. Base vector.
  let baseVector ← sliceOf neighbors start (start + baseSize)
  let pos := start + baseSize
  -- 2. The number of links.
  let (neighborsCount, neighborsCountSize) ← Varint.decode (← sliceOf neighbors pos stop)
  let pos := pos + neighborsCountSize
  -- 3. Compressed links.
  let linksSize := packedLinksSize (← sliceOf neighbors pos stop) bitsPerUnsorted sortedCount
    neighborsCount
  let links := iteratePackedLinks (← sliceOf neighbors pos (pos + linksSize)) bitsPerUnsorted sortedCount
  -- 4. Padding to align link vectors.
  let pos := nextMultipleOf (pos + linksSize) linkVectorAlignment
  -- 5. Link vectors.
  let linkVectors ← sliceOf neighbors pos (pos + neighborsCount * linkVectorSize)
  return (baseVector, links, chunksExact linkVectorSize linkVectors)

namespace GraphLinksView

section

variable (view : GraphLinksView) (pointId level : Nat)

/-- `offset_idx`. -/
def offsetIdx : Option Nat :=
  if level = 0 then some pointId
  else do
    return (← view.levelOffsets[level]?) + (← view.reindex[pointId]?)

/-- `links_with_vectors`: the base vector, the links and the link vectors. -/
def linksWithVectors : Option (List UInt8 × PackedLinksIterator × List (List UInt8)) := do
  let idx ← view.offsetIdx pointId level
  match view.compression with
  | .uncompressed .. | .compressed .. => none
  | .compressedWithVectors neighbors offsets hnswM bitsPerUnsorted baseVectorLayout linkVectorSize
      linkVectorAlignment =>
      let start ← offsets.get idx
      let stop ← offsets.get (idx + 1)
      readRecord neighbors bitsPerUnsorted (hnswM.levelM level)
        (if level = 0 then baseVectorLayout.size else 0) linkVectorSize linkVectorAlignment start stop

/-- `links`: what the iterator gives. -/
def links : Option (List Nat) := do
  let idx ← view.offsetIdx pointId level
  match view.compression with
  | .uncompressed neighbors offsets => sliceOf neighbors (← offsets[idx]?) (← offsets[idx + 1]?)
  | .compressed neighbors offsets hnswM bitsPerUnsorted =>
    let packed ← sliceOf neighbors (← offsets.get idx) (← offsets.get (idx + 1))
    return (iteratePackedLinks packed bitsPerUnsorted (hnswM.levelM level)).toList
  | .compressedWithVectors .. => return (← view.linksWithVectors pointId level).2.1.toList

/-- `links_empty`. -/
def linksEmpty : Option Bool := do
  let idx ← view.offsetIdx pointId level
  match view.compression with
  | .uncompressed _ offsets => return (← offsets[idx]?) = (← offsets[idx + 1]?)
  | .compressed _ offsets _ _ => return (← offsets.get (idx + 1)) = (← offsets.get idx)
  | .compressedWithVectors .. => return (← view.links pointId level).isEmpty

end

/-- The levels of which the numbers of points are compared with a place in the back index. -/
def pointLevelFrom (reindexedPointId last : Nat) : Nat → List Nat → Nat
  | level, a :: b :: rest =>
    if b - a ≤ reindexedPointId then level else pointLevelFrom reindexedPointId last (level + 1) (b :: rest)
  | _, _ => last

/-- `point_level`. -/
def pointLevel (view : GraphLinksView) (pointId : Nat) : Option Nat := do
  let reindexedPointId ← view.reindex[pointId]?
  return pointLevelFrom reindexedPointId (view.levelOffsets.length - 2) 0 (view.levelOffsets.drop 1)

end GraphLinksView

/-- `GraphLinks::links_with_vectors`: the links with their vectors. -/
def linksWithVectors (view : GraphLinksView) (pointId level : Nat) :
    Option (List UInt8 × List (Nat × List UInt8)) := do
  let (baseVector, links, vectors) ← view.linksWithVectors pointId level
  return (baseVector, links.toList.zip vectors)

end Qdrant.GraphLinks
