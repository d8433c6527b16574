-- SUMMARY: Segment files of the WAL: the checksum-chained entry format and its round trip through a file.
import Qdrant.Base.Bytes

/-!
# WAL segments

A segment (`lib/wal/src/segment.rs`) is a memory mapped file: a header with a random seed,
then the entries one after another. An entry is its length, its data, padding up to the
alignment and a checksum; the checksum of an entry continues the one of the entry before,
and the first one continues the seed. There is no end mark: `Segment.openFile` parses
entries until the chain breaks.

The space behind the last entry is always zero. So the chain breaks there, unless the
checksum of an empty entry happens to be zero as well.
-/

namespace Qdrant.Wal

open Bytes

/-! ## The format -/

/-- The data of an entry. A Rust slice has at most `isize::MAX` bytes. -/
structure ByteSlice where
  bytes : List UInt8
  length_lt : bytes.length < 2 ^ 63
deriving DecidableEq

def ByteSlice.len (data : ByteSlice) : Nat := data.bytes.length

inductive IoError where
  | invalidInput (msg : String)
  | invalidData (msg : String)
  | other (msg : String)
  /-- A failed assertion, or a sum that does not fit `usize` in a build that checks for it. -/
  | panicked (msg : String)
deriving DecidableEq

def IoError.message : IoError → String
  | .invalidInput msg | .invalidData msg | .other msg | .panicked msg => msg

def segmentMagic : List UInt8 := [0x77, 0x61, 0x6c]

def segmentVersion : UInt8 := 0

/-- The length of both the segment and entry header. -/
def headerLen : Nat := 8

def crcLen : Nat := 4

/-- One more than the largest `usize`. -/
def usizeLimit : Nat := 2 ^ 64

/-- Round down to the 8-byte alignment (`n & !7`). -/
def alignDown (n : Nat) : Nat := n / 8 * 8

/-- The number of padding bytes after data of this length. The source computes
`4usize.wrapping_sub(len) & 7`; the wrap adds a multiple of 8. -/
def padding (len : Nat) : Nat := ((4 - len : Int) % 8).toNat

theorem padding_mod (len : Nat) : (len + padding len) % 8 = 4 := by
  unfold padding
  omega

theorem padding_lt (len : Nat) : padding len < 8 := by
  unfold padding
  omega

/-- `crc32c::crc32c_append`: the checksum of what came before, continued over more bytes. -/
abbrev Checksum := UInt32 → List UInt8 → UInt32

def reverseBits (x : UInt32) : UInt32 := ⟨x.toBitVec.reverse⟩

section

variable (buffer : List UInt8) (offset : Nat)

def readU32 : UInt32 :=
  UInt32.ofNat (ofLE (slice buffer offset 4))

def readU64 : Nat :=
  ofLE (slice buffer offset 8)

def writeU32 (n : UInt32) : List UInt8 :=
  writeAt buffer offset (toLE 4 n.toNat)

end

def writeU64 (buffer : List UInt8) (offset n : Nat) : List UInt8 :=
  writeAt buffer offset (toLE 8 n)

/-! ## Segments -/

structure Segment where
  /-- The segment file buffer. -/
  mmap : List UInt8
  /-- Offset and length of the data of each entry. -/
  index : List (Nat × Nat)
  /-- The checksum of the last appended entry. -/
  crc : UInt32
  flushOffset : Nat
deriving DecidableEq

namespace Segment

section

variable (s : Segment)

def capacity : Nat := s.mmap.length

def len : Nat := s.index.length

def isEmpty : Bool := s.index.isEmpty

/-- The number of bytes used by the header and the entries. -/
def size : Nat :=
  match s.index.getLast? with
  | none => headerLen
  | some (offset, len) => offset + len + padding len + crcLen

def sufficientCapacity (entryLen : Nat) : Bool :=
  let free := s.capacity - s.size
  decide (headerLen + crcLen ≤ free ∧ entryLen + padding entryLen ≤ free - (headerLen + crcLen))

end

/-- A new segment in a zeroed file. The seed is random. -/
def create (capacity : UInt64) (seed : UInt32) : Except IoError Segment :=
  let capacity := alignDown capacity.toNat
  if capacity < headerLen then
    .error (.invalidInput ("invalid segment capacity: " ++ toString capacity))
  else
    let mmap := writeAt (zeros capacity) 0 segmentMagic
    let mmap := writeAt mmap 3 [segmentVersion]
    let mmap := writeU32 mmap 4 seed
    .ok { mmap, index := [], crc := seed, flushOffset := 0 }

section

variable (s : Segment)

/-- The data of an entry, read through a view restricted to it. -/
def entry (i : Nat) : Except IoError (Option (List UInt8)) :=
  match s.index[i]? with
  | none => .ok none
  | some (offset, len) =>
    if offset + len ≤ s.capacity then .ok (some (slice s.mmap offset len))
    else .error (.panicked "illegal segment offset or length")

def readSeedCrc : UInt32 := readU32 s.mmap 4

def readEntryCrc (position : Nat × Nat) : UInt32 :=
  readU32 s.mmap (position.1 + (position.2 + padding position.2))

/-- Drop the entries from number `start` on and zero their bytes. -/
def truncate (start : Nat) : Segment :=
  if start ≥ s.index.length then s
  else
    let zeroEnd := s.size
    let s := { s with index := s.index.take start }
    let s := { s with
      crc := match s.index.getLast? with
        | none => s.readSeedCrc
        | some last => s.readEntryCrc last }
    let zeroStart := s.size
    { s with
      mmap := writeAt s.mmap zeroStart (zeros (zeroEnd - zeroStart))
      flushOffset := min s.flushOffset zeroStart }

/-- After a flush everything up to the last entry is durable. -/
def flush : Segment := { s with flushOffset := s.size }

/-- Grow the file so that an entry of this size fits. -/
def ensureCapacity (entrySize : Nat) : Except IoError Segment :=
  let requiredCapacity := entrySize + padding entrySize + headerLen + crcLen + s.size
  if usizeLimit ≤ requiredCapacity then
    .error (.panicked "attempt to add with overflow")
  else if alignDown requiredCapacity ≠ requiredCapacity then
    .error (.panicked "assertion failed: required_capacity & !7 == required_capacity")
  else if requiredCapacity > s.capacity then
    let s := s.flush
    .ok { s with mmap := s.mmap ++ zeros (requiredCapacity - s.capacity) }
  else .ok s

end

/-- Write the checksummed part of an entry: its length, its data and the padding. -/
def writeBody (mmap : List UInt8) (offset : Nat) (data : ByteSlice) : List UInt8 :=
  let mmap := writeU64 mmap offset data.len
  let mmap := writeAt mmap (offset + headerLen) data.bytes
  if padding data.len > 0 then
    writeAt mmap (offset + headerLen + data.len) (zeros (padding data.len))
  else mmap

section

variable (crc32cAppend : Checksum)

/-- The checksum of an entry, from the checksum before it and its bytes. -/
def nextCrc (crc : UInt32) (bytes : List UInt8) : UInt32 :=
  crc32cAppend (~~~reverseBits crc) bytes

/-- Append an entry and return its number, or `none` if it does not fit. -/
def append (s : Segment) (data : ByteSlice) : Option (Segment × Nat) :=
  if ¬ s.sufficientCapacity data.len then none
  else
    let paddedLen := data.len + padding data.len
    let offset := s.size
    let mmap := writeBody s.mmap offset data
    let crc := nextCrc crc32cAppend s.crc (slice mmap offset (headerLen + paddedLen))
    let mmap := writeU32 mmap (offset + headerLen + paddedLen) crc
    let index := s.index ++ [(offset + headerLen, data.len)]
    some ({ s with mmap, crc, index }, index.length - 1)

/-- The parse loop of `openFile`. An entry takes 16 bytes or more, so the length of the
file bounds the number of rounds. -/
def parse (segment : List UInt8) :
    Nat → Nat → UInt32 → List (Nat × Nat) → Except IoError (List (Nat × Nat) × UInt32)
  | 0, _, crc, index => .ok (index, crc)
  | rounds + 1, offset, crc, index =>
    if offset + headerLen + crcLen < segment.length then
      let len := readU64 segment offset
      let paddedLen := len + padding len
      if usizeLimit ≤ offset + headerLen + paddedLen + crcLen then
        .error (.panicked "attempt to add with overflow")
      else if offset + headerLen + paddedLen + crcLen > segment.length then .ok (index, crc)
      else
        let entryCrc := nextCrc crc32cAppend crc (slice segment offset (headerLen + paddedLen))
        let storedCrc := readU32 segment (offset + headerLen + paddedLen)
        if entryCrc ≠ storedCrc then .ok (index, crc)
        else
          parse segment rounds (offset + (headerLen + paddedLen + crcLen)) entryCrc
            (index ++ [(offset + headerLen, len)])
    else .ok (index, crc)

/-- Open a segment file: check the header and parse the entries. -/
def openFile (file : List UInt8) : Except IoError Segment :=
  if usizeLimit ≤ file.length ∨ file.length < headerLen then
    .error (.invalidInput ("invalid segment capacity: " ++ toString file.length))
  else
    let mmap := file.take (alignDown file.length)
    if slice mmap 0 3 ≠ segmentMagic then
      .error (.invalidData "Illegal segment header")
    else if slice mmap 3 1 ≠ [segmentVersion] then
      .error (.invalidData
        ("Segment version unsupported: " ++ toString (ofLE (slice mmap 3 1))))
    else
      match parse crc32cAppend mmap mmap.length headerLen (readU32 mmap 4) [] with
      | .error e => .error e
      | .ok (index, crc) => .ok (flush { mmap, index, crc, flushOffset := 0 })

end

/-! ## The checksum of the format -/

/-- One bit of CRC-32C, with the reflected polynomial. -/
def crc32cBit (state : UInt32) : UInt32 :=
  if state &&& 1 = 1 then (state >>> 1) ^^^ 0x82F63B78 else state >>> 1

def crc32cByte (state : UInt32) (byte : UInt8) : UInt32 :=
  crc32cBit (crc32cBit (crc32cBit (crc32cBit (crc32cBit (crc32cBit (crc32cBit (crc32cBit
    (state ^^^ byte.toUInt32))))))))

/-- CRC-32C (Castagnoli), continued from the checksum of what stands before. -/
def crc32c (crc : UInt32) (bytes : List UInt8) : UInt32 :=
  ~~~(bytes.foldl crc32cByte (~~~crc))

-- The check value of CRC-32C.
example : crc32c 0 [0x31, 0x32, 0x33, 0x34, 0x35, 0x36, 0x37, 0x38, 0x39] = 0xE3069283 := by
  decide +kernel

end Segment

end Qdrant.Wal
