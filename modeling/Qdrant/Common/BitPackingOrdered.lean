-- SUMMARY: Sorted numbers packed into chunks of equal size, with random access.
import Mathlib.Data.List.Pairwise
import Qdrant.Base.Chunks
import Qdrant.Common.BitPacking

/-!
# Ordered bit packing

Source: `lib/common/common/src/bitpacking_ordered.rs`.

The values are cut into chunks of a power of two. A chunk has its first value, and the
differences of the other values to it. All chunks take the same number of bytes, so a value
is found by its index alone.
-/

namespace Qdrant.BitPackingOrdered

open List Bytes BitFields

/-- `TAIL_SIZE`. -/
def tailSize : Nat := 7

/-- `DELTA_BITS_RANGE`. -/
def deltaBitsRange (deltaBits : Nat) : Bool := 1 ≤ deltaBits ∧ deltaBits ≤ 56

/-- `MAX_CHUNK_LEN_LOG2`. -/
def maxChunkLenLog2 : Nat := 7

/-! ## Parameters -/

structure Parameters where
  length : Nat
  baseBits : Nat
  deltaBits : Nat
  chunkLenLog2 : Nat
deriving DecidableEq

open Parameters

def checkedAdd (a b : Nat) : Option Nat := if a + b < 2 ^ 64 then some (a + b) else none

def checkedMul (a b : Nat) : Option Nat := if a * b < 2 ^ 64 then some (a * b) else none

namespace Parameters

def valid (p : Parameters) : Bool :=
  p.baseBits ≤ 64 && deltaBitsRange p.deltaBits && p.chunkLenLog2 ≤ maxChunkLenLog2

/-- `chunk_size_bytes`. -/
def chunkSizeBytes (p : Parameters) : Option Nat := do
  let deltas ← checkedMul p.deltaBits (makeBitmask 64 p.chunkLenLog2)
  let bits ← checkedAdd p.baseBits deltas
  return (bits + 7) / 8

/-- `total_chunks_size_bytes`. -/
def totalChunksSizeBytes (p : Parameters) : Option Nat := do
  let chunksCount := (p.length + 2 ^ p.chunkLenLog2 - 1) / 2 ^ p.chunkLenLog2
  checkedMul chunksCount (← p.chunkSizeBytes)

/-- The bits for the differences in chunks of this length. -/
def deltaBitsFor (values : List Nat) (chunkLenLog2 : Nat) : Nat :=
  (values.chunks (2 ^ chunkLenLog2)).foldl
    (fun deltaBits chunk => max deltaBits (packedBits (chunk.getLastD 0 - chunk.headD 0))) 1

/-- `try_all`. -/
def tryAll (values : List Nat) : List Parameters :=
  ((List.range (maxChunkLenLog2 + 1)).map fun chunkLenLog2 =>
    { length := values.length
      baseBits := max (packedBits (values.getLastD 0)) 1
      deltaBits := deltaBitsFor values chunkLenLog2
      chunkLenLog2 }).filter fun p => deltaBitsRange p.deltaBits

/-- `None` is less than any number. -/
def sizeLt : Option Nat → Option Nat → Bool
  | none, none => false
  | none, some _ => true
  | some _, none => false
  | some a, some b => a < b

/-- `min_by_key`: the first of the parameters with the smallest size. -/
def minBySize : List Parameters → Option Parameters
  | [] => none
  | p :: ps => some (ps.foldl (fun best p =>
    if sizeLt p.totalChunksSizeBytes best.totalChunksSizeBytes then p else best) p)

/-- `find_best`. -/
def findBest (values : List Nat) : Option Parameters := minBySize (tryAll values)

end Parameters

/-! ## Compression -/

/-- One chunk. The last chunk is filled up with ones. -/
def compressChunk (p : Parameters) (out : List UInt8) (chunk : List Nat) : List UInt8 :=
  let first := chunk.headD 0
  let w := (BitWriter.new out).write first p.baseBits
  let w := w.writeAll ((chunk.tail.map (· - first)).map (·, p.deltaBits))
  let w := w.writeAll ((List.replicate (2 ^ p.chunkLenLog2 - chunk.length)
    (makeBitmask 64 p.deltaBits)).map (·, p.deltaBits))
  w.finish

/-- `compress_with_parameters`. -/
def compressWithParameters (values : List Nat) (p : Parameters) : Option (List UInt8) := do
  let expectedSize := (← p.totalChunksSizeBytes) + tailSize
  let compressed := (values.chunks (2 ^ p.chunkLenLog2)).foldl (compressChunk p) [] ++
    List.replicate tailSize 0xFF
  guard (compressed.length = expectedSize)
  return compressed

/-- `compress`. There is no result where it panics. -/
def compress (values : List Nat) : Option (List UInt8 × Parameters) := do
  let p ← findBest values
  let compressed ← compressWithParameters values p
  return (compressed, p)

/-! ## Reader -/

structure Reader where
  baseBits : Nat
  baseMask : Nat
  deltaBits : Nat
  deltaMask : Nat
  chunkLenLog2 : Nat
  chunkLenMask : Nat
  chunkSizeBytes : Nat
  compressed : List UInt8
  len : Nat

inductive ReaderError where
  | decompressionError (message : String)
  | panicked
deriving DecidableEq

namespace Reader

/-- The asserts of `Reader::new`: every index that can be reached has its bytes. -/
def checkBounds (r : Reader) : Bool :=
  match r.len with
  | 0 => true
  | maxIndex + 1 =>
    let chunkOffset := (maxIndex >>> r.chunkLenLog2) * r.chunkSizeBytes
    let maxValueIndex := r.chunkLenMask
    let deltaOffsetBits := r.baseBits + (maxValueIndex - 1) * r.deltaBits
    chunkOffset + 8 ≤ r.compressed.length &&
      (maxValueIndex = 0 || chunkOffset + deltaOffsetBits / 8 + 8 ≤ r.compressed.length)

/-- `Reader::new`: the reader and the bytes after what it reads. -/
def new (p : Parameters) (bytes : List UInt8) : Except ReaderError (Reader × List UInt8) := do
  if !p.valid then throw (.decompressionError "invalid parameters")
  match p.chunkSizeBytes, p.totalChunksSizeBytes.bind (checkedAdd · tailSize) with
  | some chunkSizeBytes, some totalSizeBytes =>
    let got := bytes.length
    if got < totalSizeBytes then throw (.decompressionError
      s!"insufficient length (compressed data, expected {totalSizeBytes} bytes, got {got})")
    let r : Reader :=
      { baseBits := p.baseBits
        baseMask := makeBitmask 64 p.baseBits
        deltaBits := p.deltaBits
        deltaMask := makeBitmask 64 p.deltaBits
        chunkLenLog2 := p.chunkLenLog2
        chunkLenMask := makeBitmask 64 p.chunkLenLog2
        chunkSizeBytes
        compressed := bytes.take totalSizeBytes
        len := p.length }
    if !r.checkBounds then throw .panicked
    return (r, bytes.drop totalSizeBytes)
  | _, _ => throw (.decompressionError "invalid parameters")

/-- `read_u64_le` at an offset of the compressed bytes. -/
def readU64 (r : Reader) (offset : Nat) : Nat := ofLE (slice r.compressed offset 8)

/-- The `u64` sums of the source are taken in `Nat`. In a reader of compressed values they do not
overflow: the last one is a value again. -/
def get (r : Reader) (index : Nat) : Option Nat :=
  if r.len ≤ index then none
  else
    let chunkOffset := (index >>> r.chunkLenLog2) * r.chunkSizeBytes
    let valueIndex := index &&& r.chunkLenMask
    let base := r.readU64 chunkOffset &&& r.baseMask
    if valueIndex = 0 then some base
    else
      let deltaOffsetBits := r.baseBits + (valueIndex - 1) * r.deltaBits
      let delta := (r.readU64 (chunkOffset + deltaOffsetBits / 8) >>> (deltaOffsetBits % 8)) &&&
        r.deltaMask
      some (base + delta)

end Reader

/-! ## The parameters that are found -/

/-- What `try_all` makes sure of for its parameters. -/
structure Parameters.Suits (p : Parameters) (values : List Nat) : Prop where
  length : p.length = values.length
  basePos : 1 ≤ p.baseBits
  baseLe : p.baseBits ≤ 64
  deltaPos : 1 ≤ p.deltaBits
  deltaLe : p.deltaBits ≤ 56
  chunkLe : p.chunkLenLog2 ≤ 7
  base : ∀ value ∈ values, value < 2 ^ p.baseBits
  delta : ∀ chunk ∈ values.chunks (2 ^ p.chunkLenLog2), ∀ value ∈ chunk,
    value - chunk.headD 0 < 2 ^ p.deltaBits

variable {values : List Nat}

theorem le_getLastD (hsorted : values.Pairwise (· ≤ ·)) :
    ∀ value ∈ values, value ≤ values.getLastD 0 := by
  intro value hvalue
  rw [getLastD_eq_getLast?, getLast?_eq_some_getLast (ne_nil_of_mem hvalue)]
  exact hsorted.rel_getLast hvalue

theorem chunk_sorted {chunk : List Nat} {size : Nat} (hsize : 0 < size)
    (hsorted : values.Pairwise (· ≤ ·)) (h : chunk ∈ values.chunks size) :
    chunk.Pairwise (· ≤ ·) := by
  obtain ⟨i, -, rfl⟩ := exists_of_mem_chunks hsize h
  exact (hsorted.sublist (drop_sublist ..)).sublist (take_sublist ..)

theorem suits_of_mem_tryAll (hsorted : values.Pairwise (· ≤ ·))
    (h64 : ∀ value ∈ values, value < 2 ^ 64) {p : Parameters} (h : p ∈ tryAll values) :
    p.Suits values := by
  obtain ⟨hmem, hrange⟩ := mem_filter.mp h
  obtain ⟨chunkLenLog2, hlog, rfl⟩ := mem_map.mp hmem
  have hrange' : 1 ≤ deltaBitsFor values chunkLenLog2 ∧
      deltaBitsFor values chunkLenLog2 ≤ 56 := by
    simpa [deltaBitsRange] using hrange
  have hlast : values.getLastD 0 < 2 ^ 64 := by
    cases values with
    | nil => decide
    | cons first rest =>
      rw [getLastD_cons]
      exact h64 _ getLastD_mem_cons
  refine ⟨rfl, Nat.le_max_right .., ?_, hrange'.1, hrange'.2, Nat.le_of_lt_succ (mem_range.mp hlog),
    fun value hvalue => ?_, fun chunk hchunk value hvalue => ?_⟩
  · exact Nat.max_le.mpr ⟨packedBits_le_iff.mpr hlast, by decide⟩
  · apply (le_getLastD hsorted value hvalue).trans_lt
    exact packedBits_le_iff.mp (Nat.le_max_left ..)
  · have hle := le_getLastD (chunk_sorted (Nat.two_pow_pos _) hsorted hchunk) value hvalue
    have hbits := (le_foldl_max (fun chunk : List Nat =>
      packedBits (chunk.getLastD 0 - chunk.headD 0)) (values.chunks (2 ^ chunkLenLog2)) 1).2 chunk hchunk
    apply (Nat.sub_le_sub_right hle _).trans_lt
    exact packedBits_le_iff.mp hbits

theorem deltaBitsFor_zero (values : List Nat) : deltaBitsFor values 0 = 1 := by
  have hone : ∀ chunk ∈ values.chunks (2 ^ 0), packedBits (chunk.getLastD 0 - chunk.headD 0) = 0 := by
    intro chunk hchunk
    obtain ⟨i, -, rfl⟩ := exists_of_mem_chunks (Nat.two_pow_pos 0) hchunk
    cases values.drop (i * 2 ^ 0) with
    | nil => rfl
    | cons first rest =>
      have hsame : packedBits (first - first) = 0 := by rw [Nat.sub_self]; rfl
      exact hsame
  unfold deltaBitsFor
  generalize values.chunks (2 ^ 0) = chunks at hone
  induction chunks with
  | nil => rfl
  | cons chunk chunks ih =>
    rw [foldl_cons, hone chunk mem_cons_self]
    exact ih fun c hc => hone c (mem_cons_of_mem _ hc)

theorem foldl_choose_mem {better : Parameters → Parameters → Bool} (ps : List Parameters)
    (p : Parameters) : ps.foldl (fun best p => if better p best then p else best) p ∈ p :: ps := by
  induction ps generalizing p with
  | nil => exact mem_singleton_self p
  | cons q ps ih =>
    rw [foldl_cons]
    split
    · exact mem_cons_of_mem _ (ih q)
    · rcases mem_cons.mp (ih p) with h | h
      · rw [h]
        exact mem_cons_self ..
      · exact mem_cons_of_mem _ (mem_cons_of_mem _ h)

theorem findBest_mem (values : List Nat) :
    ∃ p, findBest values = some p ∧ p ∈ tryAll values := by
  have hzero : (⟨values.length, max (packedBits (values.getLastD 0)) 1,
      deltaBitsFor values 0, 0⟩ : Parameters) ∈ tryAll values := by
    refine mem_filter.mpr ⟨mem_map.mpr ⟨0, by decide, rfl⟩, ?_⟩
    rw [deltaBitsFor_zero]
    rfl
  unfold findBest
  cases hall : tryAll values with
  | nil => rw [hall] at hzero; cases hzero
  | cons p ps => exact ⟨_, rfl, foldl_choose_mem ps p⟩

/-! ## The layout of the chunks -/

/-- The bytes of a chunk. -/
def Parameters.chunkBytes (p : Parameters) : Nat :=
  (p.baseBits + p.deltaBits * (2 ^ p.chunkLenLog2 - 1) + 7) / 8

/-- The fields of a chunk. -/
def chunkFields (p : Parameters) (chunk : List Nat) : List (Nat × Nat) :=
  (chunk.headD 0, p.baseBits) :: (chunk.tail.map (· - chunk.headD 0)).map (·, p.deltaBits) ++
    (List.replicate (2 ^ p.chunkLenLog2 - chunk.length) (makeBitmask 64 p.deltaBits)).map
      (·, p.deltaBits)

section

variable {p : Parameters} {values : List Nat}

section

variable (h : p.Suits values)

include h

theorem two_pow_le_of_suits : 2 ^ p.chunkLenLog2 ≤ 128 := Nat.pow_le_pow_right (by decide) h.chunkLe

theorem chunkSizeBytes_eq : p.chunkSizeBytes = some p.chunkBytes := by
  have hpow := two_pow_le_of_suits h
  have hmask : makeBitmask 64 p.chunkLenLog2 = 2 ^ p.chunkLenLog2 - 1 :=
    makeBitmask_eq (h.chunkLe.trans (by decide))
  have hdeltas : p.deltaBits * (2 ^ p.chunkLenLog2 - 1) ≤ 56 * 127 :=
    Nat.mul_le_mul h.deltaLe (by omega)
  have hbase := h.baseLe
  simp only [chunkSizeBytes, hmask, checkedMul, checkedAdd, Option.bind_eq_bind,
    if_pos (by omega : p.deltaBits * (2 ^ p.chunkLenLog2 - 1) < 2 ^ 64), Option.bind_some,
    if_pos (by omega : p.baseBits + p.deltaBits * (2 ^ p.chunkLenLog2 - 1) < 2 ^ 64)]
  rfl

theorem chunkBytes_pos : 0 < p.chunkBytes := by
  have := h.basePos
  unfold chunkBytes
  omega

theorem chunkBytes_le : p.chunkBytes ≤ 8 * 2 ^ p.chunkLenLog2 := by
  have hpos := Nat.two_pow_pos p.chunkLenLog2
  have hdeltas : p.deltaBits * (2 ^ p.chunkLenLog2 - 1) ≤ 56 * (2 ^ p.chunkLenLog2 - 1) :=
    Nat.mul_le_mul_right _ h.deltaLe
  have hbase := h.baseLe
  unfold chunkBytes
  omega

theorem total_lt (hlen : values.length < 2 ^ 60) :
    (values.chunks (2 ^ p.chunkLenLog2)).length * p.chunkBytes + tailSize < 2 ^ 64 := by
  have hpow := two_pow_le_of_suits h
  have htail : tailSize = 7 := rfl
  have hmul : (values.chunks (2 ^ p.chunkLenLog2)).length * 2 ^ p.chunkLenLog2 ≤
      values.length + 2 ^ p.chunkLenLog2 - 1 := by
    rw [length_chunks (Nat.two_pow_pos _)]
    exact Nat.div_mul_le_self ..
  have hsize := Nat.mul_le_mul_left (values.chunks (2 ^ p.chunkLenLog2)).length (chunkBytes_le h)
  rw [Nat.mul_left_comm] at hsize
  omega

theorem totalChunksSizeBytes_eq (hlen : values.length < 2 ^ 60) :
    p.totalChunksSizeBytes = some ((values.chunks (2 ^ p.chunkLenLog2)).length * p.chunkBytes) := by
  rw [totalChunksSizeBytes, chunkSizeBytes_eq h, h.length,
    ← length_chunks (Nat.two_pow_pos _)]
  exact if_pos ((Nat.le_add_right _ tailSize).trans_lt (total_lt h hlen))

end

variable {chunk : List Nat}

theorem mem_of_mem_chunk {size : Nat} (hchunk : chunk ∈ values.chunks size)
    {value : Nat} (hvalue : value ∈ chunk) : value ∈ values := by
  rw [← chunks_flatten size values]
  exact mem_flatten_of_mem hchunk hvalue

theorem chunkFields_fits (h : p.Suits values)
    (hchunk : chunk ∈ values.chunks (2 ^ p.chunkLenLog2)) : Fits (chunkFields p chunk) := by
  refine Fits.append (fun field hfield => ?_) (fits_map fun value hvalue => ?_)
  · rcases mem_cons.mp hfield with rfl | hfield
    · cases hcases : chunk with
      | nil => exact Nat.two_pow_pos _
      | cons first rest =>
        have hfirst : first ∈ chunk := hcases ▸ mem_cons_self ..
        exact h.base first (mem_of_mem_chunk hchunk hfirst)
    · refine fits_map (fun delta hdelta => ?_) field hfield
      obtain ⟨value, hvalue, rfl⟩ := mem_map.mp hdelta
      exact h.delta chunk hchunk value (mem_of_mem_tail hvalue)
  · obtain rfl := eq_of_mem_replicate hvalue
    rw [makeBitmask_eq (h.deltaLe.trans (by decide))]
    exact Nat.sub_one_lt (Nat.two_pow_pos _).ne'

theorem chunkFields_bits (h : p.Suits values) (chunk : List Nat) :
    ∀ field ∈ chunkFields p chunk, field.2 ≤ 64 := by
  have hdelta : p.deltaBits ≤ 64 := h.deltaLe.trans (by decide)
  intro field hfield
  rcases mem_append.mp hfield with hfield | hfield
  · rcases mem_cons.mp hfield with rfl | hfield
    · exact h.baseLe
    · obtain ⟨value, -, rfl⟩ := mem_map.mp hfield
      exact hdelta
  · obtain ⟨value, -, rfl⟩ := mem_map.mp hfield
    exact hdelta

theorem length_pack_chunkFields (hchunk : chunk ∈ values.chunks (2 ^ p.chunkLenLog2)) :
    (pack (chunkFields p chunk)).length = p.chunkBytes := by
  have hle : chunk.length ≤ 2 ^ p.chunkLenLog2 := by
    obtain ⟨i, -, rfl⟩ := exists_of_mem_chunks (Nat.two_pow_pos _) hchunk
    exact length_take_le ..
  have hne := length_pos_iff.mpr (mem_chunks_ne_nil (Nat.two_pow_pos _) hchunk)
  have hwidth : width (chunkFields p chunk) =
      p.baseBits + p.deltaBits * (2 ^ p.chunkLenLog2 - 1) := by
    have hsum : chunk.length - 1 + (2 ^ p.chunkLenLog2 - chunk.length) = 2 ^ p.chunkLenLog2 - 1 := by
      omega
    rw [chunkFields, width_append, width_cons, width_map, width_map, length_map, length_tail,
      length_replicate, ← hsum]
    ring
  rw [length_pack, hwidth, chunkBytes]

theorem compressChunk_eq (h : p.Suits values)
    (hchunk : chunk ∈ values.chunks (2 ^ p.chunkLenLog2)) (out : List UInt8) :
    compressChunk p out chunk = out ++ pack (chunkFields p chunk) := by
  rw [← BitWriter.finish_writeAll (chunkFields_fits h hchunk) (chunkFields_bits h chunk), chunkFields,
    cons_append, BitWriter.writeAll, foldl_cons, ← BitWriter.writeAll,
    BitWriter.writeAll_append]
  rfl

/-- The chunks one after another. -/
def chunksData (p : Parameters) (values : List Nat) : List UInt8 :=
  ((values.chunks (2 ^ p.chunkLenLog2)).map fun chunk => pack (chunkFields p chunk)).flatten

theorem foldl_compressChunk (h : p.Suits values) :
    (values.chunks (2 ^ p.chunkLenLog2)).foldl (compressChunk p) [] = chunksData p values := by
  have hall : ∀ (chunks : List (List Nat)) (out : List UInt8),
      (∀ chunk ∈ chunks, chunk ∈ values.chunks (2 ^ p.chunkLenLog2)) →
      chunks.foldl (compressChunk p) out =
        out ++ (chunks.map fun chunk => pack (chunkFields p chunk)).flatten := by
    intro chunks
    induction chunks with
    | nil => intro out _; simp
    | cons chunk chunks ih =>
      intro out hmem
      rw [foldl_cons, compressChunk_eq h (hmem chunk mem_cons_self),
        ih _ fun c hc => hmem c (mem_cons_of_mem _ hc), map_cons, flatten_cons,
        append_assoc]
  exact hall _ [] fun _ hchunk => hchunk

theorem length_of_mem_packed {piece : List UInt8}
    (h : piece ∈ (values.chunks (2 ^ p.chunkLenLog2)).map fun chunk => pack (chunkFields p chunk)) :
    piece.length = p.chunkBytes := by
  obtain ⟨chunk, hchunk, rfl⟩ := mem_map.mp h
  exact length_pack_chunkFields hchunk

theorem length_chunksData (p : Parameters) (values : List Nat) :
    (chunksData p values).length = (values.chunks (2 ^ p.chunkLenLog2)).length * p.chunkBytes := by
  rw [chunksData, length_flatten_of_length fun _ h => length_of_mem_packed h, length_map]

variable {i : Nat}

/-- What follows the chunks before a chunk starts with its fields. -/
theorem drop_chunksData
    (hchunk : (values.chunks (2 ^ p.chunkLenLog2))[i]? = some chunk) (tail : List UInt8) :
    ∃ rest, (chunksData p values ++ tail).drop (i * p.chunkBytes) =
      pack (chunkFields p chunk) ++ rest := by
  obtain ⟨hi, hget⟩ := List.getElem?_eq_some_iff.mp hchunk
  have hle : i * p.chunkBytes ≤ (chunksData p values).length := by
    rw [length_chunksData]
    exact Nat.mul_le_mul_right _ hi.le
  rw [List.drop_append_of_le_length hle, chunksData,
    List.drop_flatten_of_length fun _ h => length_of_mem_packed h, ← List.map_drop,
    List.drop_eq_getElem_cons hi, hget, List.map_cons, List.flatten_cons, List.append_assoc]
  exact ⟨_, rfl⟩

/-- The chunks and the tail. -/
def compressedData (p : Parameters) (values : List Nat) : List UInt8 :=
  chunksData p values ++ List.replicate tailSize 0xFF

theorem length_compressedData (p : Parameters) (values : List Nat) :
    (compressedData p values).length =
      (values.chunks (2 ^ p.chunkLenLog2)).length * p.chunkBytes + tailSize := by
  rw [compressedData, length_append, length_replicate, length_chunksData]

theorem compress_eq (hsorted : values.Pairwise (· ≤ ·)) (h64 : ∀ value ∈ values, value < 2 ^ 64)
    (hlen : values.length < 2 ^ 60) :
    ∃ p, Parameters.Suits p values ∧ compress values = some (compressedData p values, p) := by
  obtain ⟨p, hbest, hmem⟩ := findBest_mem values
  have hsuits := suits_of_mem_tryAll hsorted h64 hmem
  refine ⟨p, hsuits, ?_⟩
  have hexpected := length_compressedData p values
  rw [compressedData] at hexpected
  simp only [compress, hbest, compressWithParameters, totalChunksSizeBytes_eq hsuits hlen,
    foldl_compressChunk hsuits, hexpected, Option.bind_eq_bind, Option.bind_some]
  rfl

/-! ## Reading -/

/-- The reader of compressed values. -/
def readerOf (p : Parameters) (values : List Nat) : Reader where
  baseBits := p.baseBits
  baseMask := makeBitmask 64 p.baseBits
  deltaBits := p.deltaBits
  deltaMask := makeBitmask 64 p.deltaBits
  chunkLenLog2 := p.chunkLenLog2
  chunkLenMask := makeBitmask 64 p.chunkLenLog2
  chunkSizeBytes := p.chunkBytes
  compressed := compressedData p values
  len := p.length

/-- A chunk has the bytes from which its last difference is read. -/
theorem deltaOffset_lt (h : p.Suits values) (hmask : 2 ^ p.chunkLenLog2 - 1 ≠ 0) :
    (p.baseBits + (2 ^ p.chunkLenLog2 - 1 - 1) * p.deltaBits) / 8 < p.chunkBytes := by
  have hdelta := h.deltaPos
  obtain ⟨n, hn⟩ := Nat.exists_eq_succ_of_ne_zero hmask
  have hmul : p.deltaBits * (n + 1) = n * p.deltaBits + p.deltaBits := by ring
  rw [chunkBytes, hn, hmul, Nat.succ_sub_one]
  omega

theorem checkBounds_readerOf (h : p.Suits values) : (readerOf p values).checkBounds = true := by
  have hpos := Nat.two_pow_pos p.chunkLenLog2
  have hcount := length_chunks hpos values
  have hbytes := chunkBytes_pos h
  have hmask : makeBitmask 64 p.chunkLenLog2 = 2 ^ p.chunkLenLog2 - 1 :=
    makeBitmask_eq (h.chunkLe.trans (by decide))
  unfold Reader.checkBounds
  split
  next => rfl
  next maxIndex hlen =>
    have hlen' : values.length = maxIndex + 1 := h.length.symm.trans hlen
    have hchunks : (values.chunks (2 ^ p.chunkLenLog2)).length = maxIndex / 2 ^ p.chunkLenLog2 + 1 := by
      rw [hcount, ← Nat.add_div_right _ hpos]
      congr 1
      omega
    have hlength : (readerOf p values).compressed.length =
        (maxIndex / 2 ^ p.chunkLenLog2) * p.chunkBytes + p.chunkBytes + tailSize := by
      rw [readerOf, length_compressedData, hchunks, Nat.succ_mul]
    have htail : tailSize = 7 := rfl
    rw [hlength]
    simp only [readerOf, hmask, Nat.shiftRight_eq_div_pow, Bool.and_eq_true, Bool.or_eq_true,
      decide_eq_true_eq]
    refine ⟨by omega, ?_⟩
    by_cases hzero : 2 ^ p.chunkLenLog2 - 1 = 0
    · exact .inl hzero
    · have hlt := deltaOffset_lt h hzero
      exact .inr (by omega)

theorem new_compressed (h : p.Suits values) (hlen : values.length < 2 ^ 60) (rest : List UInt8) :
    Reader.new p (compressedData p values ++ rest) = .ok (readerOf p values, rest) := by
  have hvalid : p.valid = true := by
    simp [valid, deltaBitsRange, maxChunkLenLog2, h.baseLe, h.deltaPos, h.deltaLe, h.chunkLe]
  have hcheck := checkBounds_readerOf h
  have htotal : p.totalChunksSizeBytes.bind (checkedAdd · tailSize) =
      some (compressedData p values).length := by
    rw [totalChunksSizeBytes_eq h hlen, length_compressedData]
    exact if_pos (total_lt h hlen)
  have hroom : ¬ (compressedData p values ++ rest).length < (compressedData p values).length := by
    rw [length_append]
    omega
  unfold Reader.new
  rw [hvalid, chunkSizeBytes_eq h, htotal]
  dsimp only
  rw [if_neg hroom, take_left, drop_left]
  simp only [readerOf] at hcheck
  rw [hcheck]
  rfl

/-- A read of eight bytes from a place after `offset`. -/
theorem readU64_eq (r : Reader) (offset skip : Nat) :
    r.readU64 (offset + skip) = ofLE (r.compressed.drop offset) / 2 ^ (8 * skip) % 2 ^ 64 := by
  rw [Reader.readU64, slice, ofLE_take, ← drop_drop, ofLE_drop, pow_256, pow_256]

section

variable (h : p.Suits values) (hchunk : (values.chunks (2 ^ p.chunkLenLog2))[i]? = some chunk)

include h hchunk

/-- A field of a chunk, read as a word that is shifted and masked. -/
theorem read_field {pre post : List (Nat × Nat)} {field : Nat × Nat}
    (hfields : chunkFields p chunk = pre ++ field :: post) (hbits : width pre % 8 + field.2 ≤ 64) :
    ((readerOf p values).readU64 (i * p.chunkBytes + width pre / 8) >>> (width pre % 8)) &&&
      makeBitmask 64 field.2 = field.1 := by
  have hfits := chunkFields_fits h (mem_of_getElem? hchunk)
  obtain ⟨rest, hrest⟩ := drop_chunksData hchunk (List.replicate tailSize 0xFF)
  have hdrop : (readerOf p values).compressed.drop (i * p.chunkBytes) =
      pack (chunkFields p chunk) ++ rest := hrest
  rw [hfields] at hfits hdrop
  rw [readU64_eq, hdrop, and_makeBitmask (by omega), Nat.shiftRight_eq_div_pow, mod_div_mod hbits,
    ← div_pow_add, Nat.div_add_mod, pack_field hfits]

theorem get_base :
    (readerOf p values).readU64 (i * p.chunkBytes) &&& makeBitmask 64 p.baseBits = chunk.headD 0 := by
  have hfields : chunkFields p chunk = [] ++ (chunk.headD 0, p.baseBits) :: _ := rfl
  have hread := read_field h hchunk hfields (Nat.le_trans (Nat.zero_add _).le h.baseLe)
  exact hread

/-- The difference of a later value of a chunk. -/
theorem get_delta {n : Nat} {value : Nat} (hvalue : chunk[n + 1]? = some value) :
    ((readerOf p values).readU64 (i * p.chunkBytes + (p.baseBits + n * p.deltaBits) / 8) >>>
          ((p.baseBits + n * p.deltaBits) % 8)) &&&
      makeBitmask 64 p.deltaBits = value - chunk.headD 0 := by
  have hdelta : (chunk.tail.map (· - chunk.headD 0))[n]? = some (value - chunk.headD 0) := by
    rw [List.getElem?_map, List.getElem?_tail, hvalue]
    rfl
  obtain ⟨hn, hget⟩ := List.getElem?_eq_some_iff.mp hdelta
  obtain ⟨pre, post, hlen, hsplit⟩ : ∃ pre post, pre.length = n ∧
      chunk.tail.map (· - chunk.headD 0) = pre ++ (value - chunk.headD 0) :: post := by
    refine ⟨_, (chunk.tail.map (· - chunk.headD 0)).drop (n + 1), List.length_take_of_le hn.le, ?_⟩
    rw [← hget, ← List.drop_eq_getElem_cons hn, List.take_append_drop]
  have hfields : ∃ rest, chunkFields p chunk =
      ((chunk.headD 0, p.baseBits) :: pre.map (·, p.deltaBits)) ++
        (value - chunk.headD 0, p.deltaBits) :: rest := by
    rw [chunkFields, hsplit, List.map_append, List.cons_append, List.append_assoc]
    exact ⟨_, rfl⟩
  obtain ⟨rest, hfields⟩ := hfields
  have hwidth : width ((chunk.headD 0, p.baseBits) :: pre.map (·, p.deltaBits)) =
      p.baseBits + n * p.deltaBits := by
    rw [width_cons, width_map, hlen]
  have hbits : (p.baseBits + n * p.deltaBits) % 8 + p.deltaBits ≤ 64 := by
    have := h.deltaLe
    omega
  rw [← hwidth] at hbits ⊢
  exact read_field h hchunk hfields hbits

end

theorem get_readerOf (h : p.Suits values) (hsorted : values.Pairwise (· ≤ ·)) (i : Nat) :
    (readerOf p values).get i = values[i]? := by
  have hpos := Nat.two_pow_pos p.chunkLenLog2
  have hmask : ∀ n, n &&& makeBitmask 64 p.chunkLenLog2 = n % 2 ^ p.chunkLenLog2 :=
    and_makeBitmask (h.chunkLe.trans (by decide))
  have hlen : (readerOf p values).len = values.length := h.length
  unfold Reader.get
  rw [hlen]
  split
  next hge => exact (getElem?_eq_none hge).symm
  next hlt =>
    have hlt := Nat.lt_of_not_le hlt
    have hplace := Nat.div_add_mod' i (2 ^ p.chunkLenLog2)
    have hchunk := getElem?_chunks hpos values (i / 2 ^ p.chunkLenLog2)
    rw [if_pos (by omega)] at hchunk
    have hmod := Nat.mod_lt i hpos
    have hget : ((values.drop (i / 2 ^ p.chunkLenLog2 * 2 ^ p.chunkLenLog2)).take
        (2 ^ p.chunkLenLog2))[i % 2 ^ p.chunkLenLog2]? = values[i]? := by
      rw [getElem?_take_of_lt hmod, getElem?_drop, hplace]
    have hchunkSorted := chunk_sorted hpos hsorted (mem_of_getElem? hchunk)
    generalize (values.drop (i / 2 ^ p.chunkLenLog2 * 2 ^ p.chunkLenLog2)).take
      (2 ^ p.chunkLenLog2) = chunk at hchunk hget hchunkSorted
    rw [← hget]
    have hbase := get_base h hchunk
    simp only [readerOf, hmask, Nat.shiftRight_eq_div_pow] at hbase ⊢
    rw [hbase]
    obtain ⟨value, hvalue⟩ : ∃ value, chunk[i % 2 ^ p.chunkLenLog2]? = some value :=
      ⟨_, hget.trans (getElem?_eq_getElem hlt)⟩
    rw [hvalue]
    cases hindex : i % 2 ^ p.chunkLenLog2 with
    | zero =>
      rw [hindex] at hvalue
      rw [headD_eq_head?_getD, head?_eq_getElem?, hvalue]
      rfl
    | succ n =>
      rw [hindex] at hvalue
      have hdelta := get_delta h hchunk hvalue
      simp only [readerOf, Nat.shiftRight_eq_div_pow] at hdelta
      rw [if_neg (Nat.succ_ne_zero n), Nat.succ_sub_one, hdelta]
      have hfirst : chunk.headD 0 ≤ value := by
        cases chunk with
        | nil => exact Nat.zero_le _
        | cons first rest =>
          exact rel_of_pairwise_cons hchunkSorted (mem_of_getElem? hvalue)
      rw [Nat.add_sub_cancel' hfirst]

/-- Compressed values are read back one by one, whatever follows them. -/
theorem compress_readable (hsorted : values.Pairwise (· ≤ ·))
    (h64 : ∀ value ∈ values, value < 2 ^ 64) (hlen : values.length < 2 ^ 60) :
    ∃ compressed p reader, compress values = some (compressed, p) ∧ p.Suits values ∧
      (∀ rest, Reader.new p (compressed ++ rest) = .ok (reader, rest)) ∧
      reader.len = values.length ∧ ∀ i, reader.get i = values[i]? := by
  obtain ⟨p, hsuits, hcompress⟩ := compress_eq hsorted h64 hlen
  exact ⟨_, p, readerOf p values, hcompress, hsuits, new_compressed hsuits hlen, hsuits.length,
    get_readerOf hsuits hsorted⟩

/-- A round trip of sorted numbers of 64 bits. A slice of them has at most `isize::MAX` bytes, so
there are less than `2 ^ 60`. -/
theorem compress_roundTrip (hsorted : values.Pairwise (· ≤ ·))
    (h64 : ∀ value ∈ values, value < 2 ^ 64) (hlen : values.length < 2 ^ 60) :
    ∃ compressed p reader, compress values = some (compressed, p) ∧
      (∀ rest, Reader.new p (compressed ++ rest) = .ok (reader, rest)) ∧
      reader.len = values.length ∧ ∀ i, reader.get i = values[i]? := by
  obtain ⟨compressed, p, reader, hcompress, -, hnew, hlength, hget⟩ :=
    compress_readable hsorted h64 hlen
  exact ⟨compressed, p, reader, hcompress, hnew, hlength, hget⟩

theorem compress_roundTrip_three :
    ∃ compressed p reader, compress [5, 5, 300] = some (compressed, p) ∧
      (∀ rest, Reader.new p (compressed ++ rest) = .ok (reader, rest)) ∧
      reader.len = 3 ∧ ∀ i, reader.get i = [5, 5, 300][i]? :=
  compress_roundTrip (by decide) (by decide) (by decide)

end

/-! ## Reads of untrusted bytes -/

namespace Reader

section

variable (r : Reader) (index : Nat)

/-- Where the chunk of an index starts. -/
def chunkOffset : Nat := (index >>> r.chunkLenLog2) * r.chunkSizeBytes

/-- Where the difference of an index starts in its chunk. -/
def deltaOffsetBits : Nat :=
  r.baseBits + ((index &&& r.chunkLenMask) - 1) * r.deltaBits

/-- The places from which `get` reads eight bytes. -/
def readOffsets : List Nat :=
  if index &&& r.chunkLenMask = 0 then [r.chunkOffset index]
  else [r.chunkOffset index, r.chunkOffset index + r.deltaOffsetBits index / 8]

end

variable {p : Parameters} {bytes rest : List UInt8} {r : Reader} {index : Nat}

/-- What a reader that is accepted can rely on. -/
theorem new_ok (h : Reader.new p bytes = .ok (r, rest)) :
    r.checkBounds = true ∧ r.compressed <+: bytes ∧ r.compressed.length < 2 ^ 64 ∧
      r.baseBits ≤ 64 ∧ r.deltaBits ≤ 56 ∧ r.chunkLenMask ≤ 127 := by
  cases hvalid : p.valid with
  | false =>
    rw [Reader.new, hvalid] at h
    cases h
  | true =>
    rw [Reader.new, if_neg (by simp [hvalid] : ¬ (!p.valid) = true)] at h
    obtain ⟨⟨hbase, -, hdelta⟩, hlog⟩ : (p.baseBits ≤ 64 ∧ 1 ≤ p.deltaBits ∧ p.deltaBits ≤ 56) ∧
        p.chunkLenLog2 ≤ maxChunkLenLog2 := by
      simpa [valid, deltaBitsRange] using hvalid
    have hmask : makeBitmask 64 p.chunkLenLog2 ≤ 127 := by
      rw [makeBitmask_eq (hlog.trans (by decide))]
      exact Nat.sub_le_sub_right (Nat.pow_le_pow_right (by decide) hlog) 1
    dsimp only at h
    split at h
    next chunkSizeBytes total hsize htotal =>
      split at h
      next => cases h
      next =>
        split at h
        next => cases h
        next hcheck =>
          cases h
          refine ⟨by simpa using hcheck, take_prefix .., ?_, hbase, hdelta, hmask⟩
          obtain ⟨size, -, hadd⟩ := Option.bind_eq_some_iff.mp htotal
          rw [checkedAdd] at hadd
          apply (length_take_le ..).trans_lt
          split at hadd
          next hlt => exact Option.some.inj hadd ▸ hlt
          next => cases hadd
    next => cases h

/-- The base and the difference of any index stand before those of the last one. -/
theorem readOffsets_inside (hcheck : r.checkBounds = true) (hindex : index < r.len) :
    ∀ offset ∈ r.readOffsets index, offset + 8 ≤ r.compressed.length := by
  unfold checkBounds at hcheck
  split at hcheck
  next hzero => exact absurd (hzero ▸ hindex) (Nat.not_lt_zero _)
  next maxIndex hlen =>
    simp only [Bool.and_eq_true, Bool.or_eq_true, decide_eq_true_eq] at hcheck
    have hle : r.chunkOffset index ≤ (maxIndex >>> r.chunkLenLog2) * r.chunkSizeBytes := by
      apply Nat.mul_le_mul_right
      rw [Nat.shiftRight_eq_div_pow, Nat.shiftRight_eq_div_pow]
      exact Nat.div_le_div_right (Nat.le_of_lt_succ (hlen ▸ hindex))
    have hvalue : index &&& r.chunkLenMask ≤ r.chunkLenMask := Nat.and_le_right
    have hbits : r.deltaOffsetBits index ≤ r.baseBits + (r.chunkLenMask - 1) * r.deltaBits :=
      Nat.add_le_add_left (Nat.mul_le_mul_right _ (Nat.sub_le_sub_right hvalue 1)) _
    intro offset hoffset
    unfold readOffsets at hoffset
    split at hoffset
    next =>
      obtain rfl := mem_singleton.mp hoffset
      omega
    next hne =>
      rcases mem_pair.mp hoffset with rfl | rfl
      · omega
      · omega

/-- `get` gives the same for any bytes that are the same at these places. -/
theorem get_congr {compressed : List UInt8} (h : ∀ offset ∈ r.readOffsets index,
    slice compressed offset 8 = slice r.compressed offset 8) :
    { r with compressed }.get index = r.get index := by
  simp only [readOffsets, chunkOffset, deltaOffsetBits] at h
  unfold get readU64
  split
  next => rfl
  next =>
    dsimp only
    split at h
    next hzero => rw [if_pos hzero, if_pos hzero, h _ (mem_singleton_self _)]
    next hne =>
      rw [if_neg hne, if_neg hne, h _ mem_cons_self, h _ (mem_cons_of_mem _ mem_cons_self)]

/-- The reads of `get` are inside the bytes that were accepted, and the numbers with which their
places are computed fit into 64 bits. -/
theorem get_inside (h : Reader.new p bytes = .ok (r, rest)) (hindex : index < r.len) :
    r.compressed <+: bytes ∧ r.deltaOffsetBits index < 2 ^ 64 ∧
      (∀ offset ∈ r.readOffsets index, offset + 8 ≤ r.compressed.length ∧ offset + 8 < 2 ^ 64) ∧
      ∀ compressed, (∀ offset ∈ r.readOffsets index,
        slice compressed offset 8 = slice r.compressed offset 8) →
          { r with compressed }.get index = r.get index := by
  obtain ⟨hcheck, hinside, hlength, hbase, hdelta, hmask⟩ := new_ok h
  have hvalue : index &&& r.chunkLenMask ≤ r.chunkLenMask := Nat.and_le_right
  have hmul : ((index &&& r.chunkLenMask) - 1) * r.deltaBits ≤ 127 * 56 :=
    Nat.mul_le_mul (by omega) hdelta
  refine ⟨hinside, ?_, fun offset hoffset => ?_, fun compressed => get_congr⟩
  · unfold deltaOffsetBits
    omega
  · have hinside := readOffsets_inside hcheck hindex offset hoffset
    exact ⟨hinside, hinside.trans_lt hlength⟩

/-- A reader of three values in one chunk. -/
def threeValues : Reader := ⟨8, 255, 3, 7, 2, 3, 3, List.replicate 10 0, 3⟩

theorem get_inside_three :
    threeValues.readOffsets 2 = [0, 1] ∧ 1 + 8 ≤ threeValues.compressed.length :=
  have h : Reader.new ⟨3, 8, 3, 2⟩ (List.replicate 12 0) = .ok (threeValues, [0, 0]) := rfl
  have hindex : 2 < threeValues.len := by decide
  ⟨rfl, ((get_inside h hindex).2.2.1 1 (by decide)).1⟩

end Reader

end Qdrant.BitPackingOrdered
