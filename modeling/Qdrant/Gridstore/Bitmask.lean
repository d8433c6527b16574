-- SUMMARY: Gridstore's options, its bitmask of used blocks, and the region gaps that summarise it.
import Qdrant.Base.FreeRuns
import Qdrant.Base.CachedFile
import Mathlib

/-!
# Bitmask of used blocks

Sources: `lib/gridstore/src/config.rs`, `bitmask/mod.rs`, `bitmask/gaps.rs`.

The bitmask has one bit per block, `true` for a used one. Blocks are grouped into regions,
and for each region `gaps.dat` keeps the longest, the leading and the trailing run of free
blocks. A search for free blocks first picks regions by these numbers and then scans their
words.

The scan works on 64-bit words. A word is the list of its bits, lowest first, so that
`trailing_zeros` counts from the front of the list and `leading_zeros` from its end. A
shifted word is the list of the bits that are left in it; the zeros that a shift brings in
are never counted by the source.
-/

namespace Qdrant.Gridstore

open FreeRuns List

inductive Compression where
  | none
  | lz4
  deriving DecidableEq, Repr

def defaultBlockSizeBytes : Nat := 128

def defaultPageSizeBytes : Nat := 32 * 1024 * 1024

def defaultRegionSizeBlocks : Nat := 8192

structure StorageOptions where
  pageSizeBytes : Option Nat
  blockSizeBytes : Option Nat
  regionSizeBlocks : Option UInt16
  compression : Option Compression

structure StorageConfig where
  pageSizeBytes : Nat
  blockSizeBytes : Nat
  regionSizeBlocks : Nat
  compression : Compression
  deriving DecidableEq, Repr

/-- `StorageConfig::try_from`. -/
def StorageConfig.tryFrom (options : StorageOptions) : Except String StorageConfig :=
  let pageSizeBytes := options.pageSizeBytes.getD defaultPageSizeBytes
  let blockSizeBytes := options.blockSizeBytes.getD defaultBlockSizeBytes
  let regionSizeBlocks := (options.regionSizeBlocks.map UInt16.toNat).getD defaultRegionSizeBlocks
  if blockSizeBytes = 0 then .error "Block size must be greater than 0"
  else if regionSizeBlocks = 0 then .error "Region size must be greater than 0"
  else if pageSizeBytes = 0 then .error "Page size must be greater than 0"
  else if pageSizeBytes < blockSizeBytes * regionSizeBlocks then
    .error "Page size must be greater than or equal to (block size * region size)"
  else if pageSizeBytes % (blockSizeBytes * regionSizeBlocks) ≠ 0 then
    .error "Page size must be a multiple of (block size * region size)"
  else .ok {
    pageSizeBytes, blockSizeBytes, regionSizeBlocks
    compression := options.compression.getD .lz4 }

/-- The options that a configuration came from. -/
def StorageOptions.ofConfig (config : StorageConfig) : StorageOptions where
  pageSizeBytes := some config.pageSizeBytes
  blockSizeBytes := some config.blockSizeBytes
  regionSizeBlocks := some (UInt16.ofNat config.regionSizeBlocks)
  compression := some config.compression

namespace StorageConfig

/-- What the check of the options guarantees. -/
structure Accepted (config : StorageConfig) : Prop where
  block_pos : 0 < config.blockSizeBytes
  region_pos : 0 < config.regionSizeBlocks
  region_lt : config.regionSizeBlocks < 2 ^ 16
  page_pos : 0 < config.pageSizeBytes
  page_dvd : config.blockSizeBytes * config.regionSizeBlocks ∣ config.pageSizeBytes

variable {config : StorageConfig}

theorem accepted_of_tryFrom {options : StorageOptions}
    (h : tryFrom options = .ok config) : config.Accepted := by
  have hregion : (options.regionSizeBlocks.map UInt16.toNat).getD defaultRegionSizeBlocks < 2 ^ 16 := by
    cases options.regionSizeBlocks with
    | none => decide
    | some region => exact region.toNat_lt
  unfold tryFrom at h
  dsimp only at h
  split_ifs at h
  cases h
  exact ⟨by simp only; omega, by simp only; omega, hregion, by simp only; omega,
    Nat.dvd_of_mod_eq_zero (by simp only at *; omega)⟩

/-- The configuration goes through the check unchanged when a store is cleared. -/
theorem Accepted.tryFrom_ofConfig (h : config.Accepted) :
    tryFrom (StorageOptions.ofConfig config) = .ok config := by
  obtain ⟨pageSizeBytes, blockSizeBytes, regionSizeBlocks, compression⟩ := config
  obtain ⟨hblock, hregion, hlt, hpage, hdvd⟩ := h
  simp only at hblock hregion hlt hpage hdvd
  have hle := Nat.le_of_dvd hpage hdvd
  have hnat : (UInt16.ofNat regionSizeBlocks).toNat = regionSizeBlocks := by
    rw [UInt16.toNat_ofNat', Nat.mod_eq_of_lt hlt]
  simp only [tryFrom, StorageOptions.ofConfig, Option.getD_some, Option.map_some, hnat]
  rw [if_neg (by omega), if_neg (by omega), if_neg (by omega), if_neg (by omega), if_neg (by omega)]

/-- The number of blocks of a page. -/
def pageBlocks (config : StorageConfig) : Nat := config.pageSizeBytes / config.blockSizeBytes

/-- Regions consist of whole words of the bitmask, and two of them can be counted in 16
bits. The check of the options asks for neither. -/
def WholeWords (config : StorageConfig) : Prop :=
  config.regionSizeBlocks % 64 = 0 ∧ config.regionSizeBlocks < 2 ^ 15

instance (config : StorageConfig) : Decidable config.WholeWords :=
  inferInstanceAs (Decidable (_ ∧ _))

theorem Accepted.pageBlocks_eq (h : config.Accepted) :
    ∃ regions, 0 < regions ∧ config.pageBlocks = regions * config.regionSizeBlocks ∧
      config.pageSizeBytes = config.pageBlocks * config.blockSizeBytes := by
  obtain ⟨k, hk⟩ := h.page_dvd
  have hpos : 0 < k := by
    rcases Nat.eq_zero_or_pos k with hzero | hpos
    · have := h.page_pos
      rw [hk, hzero] at this
      cases this
    · exact hpos
  have hblocks : config.pageBlocks = k * config.regionSizeBlocks := by
    rw [pageBlocks, hk, Nat.mul_assoc, Nat.mul_div_cancel_left _ h.block_pos, Nat.mul_comm]
  refine ⟨k, hpos, hblocks, ?_⟩
  rw [hblocks, hk, Nat.mul_comm k, Nat.mul_comm config.blockSizeBytes, Nat.mul_assoc,
    Nat.mul_assoc, Nat.mul_comm k]

theorem Accepted.pageBlocks_pos (h : config.Accepted) : 0 < config.pageBlocks := by
  obtain ⟨regions, hpos, hblocks, _⟩ := h.pageBlocks_eq
  rw [hblocks]
  exact Nat.mul_pos hpos h.region_pos

end StorageConfig

/-! ## Words -/

/-- The 64 bits of a word, lowest first, or what shifts have left of them. -/
abbrev Word := List Bool

def bitsInChunk : Nat := 64

/-- `trailing_zeros` of a word. -/
def Word.trailingZeros (chunk : Word) : Nat := FreeRuns.leading chunk

/-- `leading_zeros` of a word. -/
def Word.leadingZeros (chunk : Word) : Nat := FreeRuns.trailing chunk

/-- The word with this number. -/
def wordAt (bits : Nat → Bool) (idx : Nat) : Word := (List.range' (idx * bitsInChunk) bitsInChunk).map bits

section

variable (bits : Nat → Bool) (start stop : Nat)

/-- `domain().region()` of the bit slice `start..stop`: the words that lie in it as a whole,
or nothing if the slice lies inside one word and touches neither end of it. -/
def rawRegion : Option (List Word) :=
  if start % bitsInChunk ≠ 0 ∧ stop % bitsInChunk ≠ 0 ∧ start / bitsInChunk = stop / bitsInChunk then
    none
  else
    let first := (start + (bitsInChunk - 1)) / bitsInChunk
    some ((List.range' first (stop / bitsInChunk - first)).map (wordAt bits))

/-- The bits `start..stop`. -/
def bitSlice : List Bool :=
  (List.range' start (stop - start)).map bits

theorem length_bitSlice : (bitSlice bits start stop).length = stop - start := by
  rw [bitSlice, length_map, length_range']

end

variable {start : Nat}

theorem getElem?_bitSlice {bits : Nat → Bool} {stop i : Nat} (h : i < stop - start) :
    (bitSlice bits start stop)[i]? = some (bits (start + i)) := by
  rw [bitSlice, getElem?_map, getElem?_range' h]
  simp

theorem flatten_words (bits : Nat → Bool) (first count : Nat) :
    ((List.range' first count).map (wordAt bits)).flatten =
      bitSlice bits (first * bitsInChunk) ((first + count) * bitsInChunk) := by
  induction count generalizing first with
  | zero => simp [bitSlice]
  | succ count ih =>
    rw [List.range'_succ, map_cons, flatten_cons, ih, wordAt, bitSlice, ← map_append,
      Nat.add_mul first 1 bitsInChunk]
    congr 1
    rw [Nat.one_mul, show (first + 1 + count) * bitsInChunk - (first * bitsInChunk + bitsInChunk) =
        count * bitsInChunk by simp only [bitsInChunk]; omega,
      show (first + (count + 1)) * bitsInChunk - first * bitsInChunk =
        bitsInChunk + count * bitsInChunk by simp only [bitsInChunk]; omega,
      ← List.range'_append, Nat.one_mul]

/-- A slice of whole words is read in full. -/
theorem rawRegion_eq (bits : Nat → Bool) {stop : Nat} (hstart : start % bitsInChunk = 0)
    (hstop : stop % bitsInChunk = 0) (hle : start ≤ stop) : ∃ words,
    rawRegion bits start stop = some words ∧ words.flatten = bitSlice bits start stop ∧
      ∀ chunk ∈ words, chunk.length = bitsInChunk := by
  have hfirst : (start + (bitsInChunk - 1)) / bitsInChunk = start / bitsInChunk := by
    simp only [bitsInChunk] at *
    omega
  rw [rawRegion, if_neg fun hcon => hcon.1 hstart]
  refine ⟨_, rfl, ?_, forall_mem_map.mpr fun idx _ => ?_⟩
  swap
  · rw [wordAt, length_map, length_range']
  rw [flatten_words]
  congr 1
  · simp only [bitsInChunk] at *
    omega
  · simp only [bitsInChunk] at *
    omega

/-! ## Search in a slice -/

/-- The loop over the ones of a word, from its lowest bit. `fuel` is the number of bits that
are left. -/
def scanOnes (numBlocks base : Nat) : Nat → Word → Nat → Nat → Nat → Except Nat (Nat × Nat)
  | 0, _, numShifts, currentSize, currentStart =>
    .ok (currentSize + (bitsInChunk - numShifts), currentStart)
  | fuel + 1, chunk, numShifts, currentSize, currentStart =>
    if true ∈ chunk then
      let numZeros := Word.trailingZeros chunk
      if numBlocks ≤ currentSize + numZeros then .error currentStart
      else
        let chunk := chunk.drop numZeros
        let numOnes := FreeRuns.leadingUsed chunk
        let numShifts := numShifts + numZeros + numOnes
        scanOnes numBlocks base fuel (chunk.drop numOnes) numShifts 0 (base + numShifts)
    else .ok (currentSize + (bitsInChunk - numShifts), currentStart)

/-- One word of the search: the start of a fitting run, or the size and the start of the run
that is open after the word. -/
def scanChunk (numBlocks chunkIdx : Nat) (chunk : Word) (currentSize currentStart : Nat) :
    Except Nat (Nat × Nat) :=
  if true ∉ chunk then .ok (currentSize + bitsInChunk, currentStart)
  else if false ∉ chunk then
    if numBlocks ≤ currentSize then .error currentStart
    else .ok (0, (chunkIdx + 1) * bitsInChunk)
  else
    let leading := Word.trailingZeros chunk
    let trailing := Word.leadingZeros chunk
    let maxPossibleMiddleGap := bitsInChunk - leading - trailing - 2
    if maxPossibleMiddleGap < numBlocks then
      if numBlocks ≤ currentSize + leading then .error currentStart
      else .ok (trailing, chunkIdx * bitsInChunk + bitsInChunk - trailing)
    else scanOnes numBlocks (chunkIdx * bitsInChunk) bitsInChunk chunk 0 currentSize currentStart

def scanChunks (numBlocks : Nat) : Nat → List Word → Nat → Nat → Except Nat (Nat × Nat)
  | _, [], currentSize, currentStart => .ok (currentSize, currentStart)
  | chunkIdx, chunk :: chunks, currentSize, currentStart =>
    match scanChunk numBlocks chunkIdx chunk currentSize currentStart with
    | .error start => .error start
    | .ok (currentSize, currentStart) =>
      scanChunks numBlocks (chunkIdx + 1) chunks currentSize currentStart

/-- `find_available_blocks_in_slice`, as an index into the slice. -/
def findAvailableBlocksInSlice (chunks : List Word) (numBlocks : Nat) : Option Nat :=
  match scanChunks numBlocks 0 chunks 0 0 with
  | .error start => some start
  | .ok (currentSize, currentStart) => if numBlocks ≤ currentSize then some currentStart else none

variable {chunk : Word}

/-- A word with a used place, split at the end of its first run of used places. -/
theorem exists_ones (h : true ∈ chunk) : ∃ ones left,
    chunk = List.replicate (Word.trailingZeros chunk) false ++
      (List.replicate (ones + 1) true ++ left) ∧
    FreeRuns.leadingUsed (chunk.drop (Word.trailingZeros chunk)) = ones + 1 ∧
    (chunk.drop (Word.trailingZeros chunk)).drop (ones + 1) = left := by
  obtain ⟨rest, hrest⟩ := exists_used h
  have hdrop : chunk.drop (Word.trailingZeros chunk) = true :: rest := by
    rw [Word.trailingZeros]
    nth_rewrite 2 [hrest]
    exact drop_left' length_replicate
  obtain ⟨left, hleft⟩ := exists_leadingUsed rest
  refine ⟨leadingUsed rest, left, ?_, ?_, ?_⟩
  · rw [replicate_succ, cons_append, ← hleft]
    exact hrest
  · rw [hdrop]
    rfl
  · rw [hdrop, drop_succ_cons]
    nth_rewrite 2 [hleft]
    exact drop_left' length_replicate

variable {size : Nat} {numBlocks : Nat}

theorem scan_of_not_mem {shifts : Nat} (hlen : chunk.length + shifts = bitsInChunk)
    (h : true ∉ chunk) :
    scan numBlocks chunk size start = .ok (size + (bitsInChunk - shifts), start) := by
  rw [eq_replicate_of_not_mem h, scan_free]
  congr 3
  omega

theorem scanOnes_eq {base fuel : Nat} {shifts : Nat}
    (hn : 0 < numBlocks) (hfuel : chunk.length ≤ fuel) (hlen : chunk.length + shifts = bitsInChunk)
    (hplace : start + size = base + shifts) :
    scanOnes numBlocks base fuel chunk shifts size start =
      FreeRuns.scan numBlocks chunk size start := by
  induction fuel generalizing chunk shifts size start with
  | zero =>
    refine (scan_of_not_mem hlen ?_).symm
    rw [length_eq_zero_iff.mp (Nat.le_zero.mp hfuel)]
    exact not_mem_nil
  | succ fuel ih =>
    rw [scanOnes]
    split
    case isFalse hmem => exact (scan_of_not_mem hlen hmem).symm
    case isTrue hmem =>
      obtain ⟨ones, left, hchunk, hones, hleft⟩ := exists_ones hmem
      have hlength := congrArg List.length hchunk
      rw [length_append, length_append, length_replicate, length_replicate] at hlength
      have hscan : scan numBlocks chunk size start =
          if numBlocks ≤ size + Word.trailingZeros chunk then .error start
          else scan numBlocks left 0 (start + size + Word.trailingZeros chunk + 1 + ones) := by
        nth_rewrite 1 [hchunk]
        rw [scan_append, scan_free]
        simp only [Except.bind]
        rw [replicate_succ, cons_append, scan]
        split
        · rfl
        · rw [scan_append, scan_used hn]
          simp only [Except.bind]
          congr 1
          omega
      rw [hscan]
      simp only [hones, hleft]
      split
      · rfl
      · rw [ih (by omega) (by omega) (by omega)]
        congr 1
        omega

/-- What stands between the free ends of a word. -/
theorem exists_middle (hlen : chunk.length = bitsInChunk) (h : true ∈ chunk) :
    ∃ core, chunk = List.replicate (Word.trailingZeros chunk) false ++ core ++
        List.replicate (Word.leadingZeros chunk) false ∧
      core.length = bitsInChunk - Word.trailingZeros chunk - Word.leadingZeros chunk ∧
      Word.trailingZeros chunk + core.length + Word.leadingZeros chunk = bitsInChunk ∧
      (core = [true] ∨ ∃ middle, core = true :: (middle ++ [true])) := by
  obtain ⟨core, hchunk, ⟨rest, hrest⟩, init, hinit⟩ := exists_core h
  have hlength := congrArg List.length hchunk
  rw [length_append, length_append, length_replicate, length_replicate] at hlength
  refine ⟨core, hchunk, ?_, ?_, ?_⟩
  · rw [Word.trailingZeros, Word.leadingZeros]
    omega
  · rw [Word.trailingZeros, Word.leadingZeros]
    omega
  · cases init with
    | nil => exact .inl hinit
    | cons b middle =>
      rw [hrest, cons_append, List.cons.injEq] at hinit
      right
      exact ⟨middle, by rw [hrest, hinit.2]⟩

/-- A word is searched as its bits are. -/
theorem scanChunk_eq {chunkIdx : Nat} (hn : 0 < numBlocks) (hlen : chunk.length = bitsInChunk)
    (hplace : start + size = chunkIdx * bitsInChunk) :
    scanChunk numBlocks chunkIdx chunk size start = FreeRuns.scan numBlocks chunk size start := by
  rw [scanChunk]
  split
  case isTrue hmem =>
    rw [eq_replicate_of_not_mem hmem, scan_free, hlen]
  case isFalse hmem =>
  rw [not_not] at hmem
  split
  case isTrue hones =>
    have hchunk : chunk = true :: List.replicate (bitsInChunk - 1) true :=
      (eq_replicate_of_used hones).trans (congrArg (List.replicate · true) hlen)
    rw [hchunk, scan]
    split
    · rfl
    · rw [scan_used hn]
      congr 2
      rw [hplace, Nat.add_mul]
      rfl
  case isFalse =>
  dsimp only
  split
  case isFalse => exact scanOnes_eq hn hlen.le (by omega) (by omega)
  case isTrue hshort =>
    obtain ⟨core, hchunk, hcore, hsum, hshape⟩ := exists_middle hlen hmem
    -- The rest of the middle part is too short for a run.
    have hmiddle : scan numBlocks core (size + Word.trailingZeros chunk) start =
        if numBlocks ≤ size + Word.trailingZeros chunk then .error start
        else .ok (0, start + size + Word.trailingZeros chunk + core.length) := by
      rcases hshape with hone | ⟨middle, hmiddle⟩
      · rw [hone, scan]
        split
        · rfl
        · rw [scan]
          congr 2
          simp only [length_singleton]
          omega
      · rw [hmiddle, scan]
        split
        · rfl
        · rw [hmiddle, length_cons, length_append, length_singleton] at hcore
          rw [scan_short middle (by omega), length_cons, length_append, length_singleton]
          congr 2
          omega
    conv_rhs => rw [hchunk]
    rw [scan_append, scan_append, scan_free]
    simp only [Except.bind]
    rw [hmiddle]
    split
    · rfl
    · dsimp only
      rw [scan_free, Nat.zero_add]
      congr 2
      omega

theorem scan_ok_place {n : Nat} {bits : List Bool} {r : Nat × Nat}
    (h : FreeRuns.scan n bits size start = .ok r) : r.2 + r.1 = start + size + bits.length := by
  induction bits generalizing size start with
  | nil =>
    cases h
    rfl
  | cons b bits ih =>
    rw [length_cons]
    cases b with
    | false =>
      have := ih h
      omega
    | true =>
      rw [scan] at h
      split at h
      · cases h
      · have := ih h
        omega

variable {chunks : List Word}

section

variable (hn : 0 < numBlocks) (hlen : ∀ chunk ∈ chunks, chunk.length = bitsInChunk)

include hn hlen

theorem scanChunks_eq {chunkIdx : Nat} (hplace : start + size = chunkIdx * bitsInChunk) :
    scanChunks numBlocks chunkIdx chunks size start =
      FreeRuns.scan numBlocks chunks.flatten size start := by
  induction chunks generalizing chunkIdx size start with
  | nil => rfl
  | cons chunk chunks ih =>
    have hchunk := hlen chunk mem_cons_self
    rw [scanChunks, scanChunk_eq hn hchunk hplace, flatten_cons, scan_append]
    cases hscan : scan numBlocks chunk size start with
    | error found => rfl
    | ok r =>
      have hnext := scan_ok_place hscan
      rw [hchunk, hplace] at hnext
      exact ih (fun c hc => hlen c (mem_cons_of_mem chunk hc))
        (by rw [hnext, Nat.add_mul, Nat.one_mul])

/-- The search word by word finds what a search bit by bit finds. -/
theorem findAvailableBlocksInSlice_eq :
    findAvailableBlocksInSlice chunks numBlocks = FreeRuns.search numBlocks chunks.flatten := by
  have hscan : scanChunks numBlocks 0 chunks 0 0 = scan numBlocks chunks.flatten 0 0 :=
    scanChunks_eq hn hlen (by simp)
  cases hfound : scan numBlocks chunks.flatten 0 0 with
  | error found | ok rest => simp only [findAvailableBlocksInSlice, search, hscan, hfound]

end

/-! ## Gaps of a region -/

structure RegionGaps where
  max : Nat
  leading : Nat
  trailing : Nat
  deriving DecidableEq, Repr

def RegionGaps.allFree (blocks : Nat) : RegionGaps := ⟨blocks, blocks, blocks⟩

/-- The loop over the ones of a word, from its highest bit. `chunk` has the highest bit
first. -/
def gapsOnes : Nat → Word → Nat → Nat → Nat → Nat × Nat
  | 0, _, numShifts, max, current => (max, current + (bitsInChunk - numShifts))
  | fuel + 1, chunk, numShifts, max, current =>
    if true ∈ chunk then
      let numZeros := FreeRuns.leading chunk
      let chunk := chunk.drop numZeros
      let numOnes := FreeRuns.leadingUsed chunk
      gapsOnes fuel (chunk.drop numOnes) (numShifts + numZeros + numOnes)
        (Nat.max max (current + numZeros)) 0
    else (max, current + (bitsInChunk - numShifts))

/-- One word of the loop for the longest gap, from the last word to the first. -/
def gapsChunk (chunk : Word) (max current : Nat) : Nat × Nat :=
  if true ∉ chunk then (max, current + bitsInChunk)
  else if false ∉ chunk then (Nat.max max current, 0)
  else
    let leading := Word.leadingZeros chunk
    let trailing := Word.trailingZeros chunk
    let maxPossibleMiddleGap := bitsInChunk - leading - trailing - 2
    if maxPossibleMiddleGap < max then (Nat.max max (current + leading), trailing)
    else gapsOnes bitsInChunk chunk.reverse 0 max current

/-- The elements that satisfy `p`, and the first one that does not. -/
def takeWhileInclusive {α : Type} (p : α → Bool) : List α → List α
  | [] => []
  | x :: xs => if p x then x :: takeWhileInclusive p xs else [x]

/-- `calculate_gaps` on the words of a region. -/
def calculateGaps (rawRegion : List Word) (regionSizeBlocks : Nat) : RegionGaps :=
  let state := rawRegion.reverse.foldl (fun state chunk => gapsChunk chunk state.1 state.2) (0, 0)
  let max := Nat.max state.1 state.2
  if max = regionSizeBlocks then ⟨max % 2 ^ 16, max % 2 ^ 16, max % 2 ^ 16⟩
  else
    let leading := ((takeWhileInclusive (fun chunk => decide (true ∉ chunk)) rawRegion).map
      Word.trailingZeros).sum
    let trailing := ((takeWhileInclusive (fun chunk => decide (true ∉ chunk)) rawRegion.reverse).map
      Word.leadingZeros).sum
    ⟨max % 2 ^ 16, leading % 2 ^ 16, trailing % 2 ^ 16⟩

/-- The gaps of a region as its bits show them. -/
def gapsOf (bits : List Bool) : RegionGaps :=
  ⟨FreeRuns.longest bits, FreeRuns.leading bits, FreeRuns.trailing bits⟩

theorem gapsOnes_eq {fuel : Nat} {shifts max current : Nat}
    (hfuel : chunk.length ≤ fuel) (hlen : chunk.length + shifts = bitsInChunk) :
    gapsOnes fuel chunk shifts max current = FreeRuns.scanLongest chunk max current := by
  induction fuel generalizing chunk shifts max current with
  | zero =>
    have hnil := length_eq_zero_iff.mp (Nat.le_zero.mp hfuel)
    subst hnil
    rw [gapsOnes]
    congr 1
    omega
  | succ fuel ih =>
    rw [gapsOnes]
    split
    case isFalse hmem =>
      rw [eq_replicate_of_not_mem hmem, scanLongest_free]
      congr 2
      omega
    case isTrue hmem =>
      obtain ⟨ones, left, hchunk, hones, hleft⟩ := exists_ones hmem
      rw [Word.trailingZeros] at hchunk hones hleft
      have hlength := congrArg List.length hchunk
      rw [length_append, length_append, length_replicate, length_replicate] at hlength
      dsimp only
      rw [hones, hleft, ih (by omega) (by omega)]
      conv_rhs => rw [hchunk]
      rw [scanLongest_append, scanLongest_free, scanLongest_append,
        scanLongest_used (Nat.succ_pos ones)]

theorem gapsChunk_eq {max current : Nat} (hlen : chunk.length = bitsInChunk) :
    gapsChunk chunk max current = FreeRuns.scanLongest chunk.reverse max current := by
  rw [gapsChunk]
  split
  case isTrue hmem =>
    have hrev : chunk.reverse = List.replicate bitsInChunk false := by
      rw [eq_replicate_of_not_mem hmem, reverse_replicate, hlen]
    rw [hrev, scanLongest_free]
  case isFalse hmem =>
  rw [not_not] at hmem
  split
  case isTrue hones =>
    have hrev : chunk.reverse = List.replicate bitsInChunk true := by
      rw [eq_replicate_of_used hones, reverse_replicate, hlen]
    rw [hrev, scanLongest_used (by decide)]
  case isFalse =>
  dsimp only
  split
  case isFalse =>
    have hrev : chunk.reverse.length = bitsInChunk := by rw [length_reverse, hlen]
    exact gapsOnes_eq hrev.le hrev
  case isTrue hshort =>
    obtain ⟨core, hchunk, hcore, hsum, hshape⟩ := exists_middle hlen hmem
    have hmiddle : ∀ current, scanLongest core.reverse max current = (Nat.max max current, 0) := by
      intro current
      rcases hshape with hone | ⟨middle, hmiddle⟩
      · rw [hone]
        rfl
      · rw [hmiddle, length_cons, length_append] at hcore
        rw [hmiddle, reverse_cons, reverse_append, reverse_singleton,
          singleton_append, cons_append, scanLongest,
          scanLongest_short]
        rw [length_reverse]
        exact Nat.le_trans (by omega) (Nat.le_max_left max current)
    conv_rhs => rw [hchunk]
    rw [reverse_append, reverse_append, reverse_replicate, reverse_replicate,
      scanLongest_append, scanLongest_free, scanLongest_append,
      hmiddle, scanLongest_free, Nat.zero_add]

theorem foldl_gapsChunk (chunks : List Word) (state : Nat × Nat)
    (hlen : ∀ chunk ∈ chunks, chunk.length = bitsInChunk) :
    chunks.foldl (fun state chunk => gapsChunk chunk state.1 state.2) state =
      FreeRuns.scanLongest (chunks.map List.reverse).flatten state.1 state.2 := by
  induction chunks generalizing state with
  | nil => rfl
  | cons chunk chunks ih =>
    rw [foldl_cons, gapsChunk_eq (hlen chunk mem_cons_self),
      ih _ fun c hc => hlen c (mem_cons_of_mem chunk hc), map_cons, flatten_cons,
      scanLongest_append]

theorem sum_trailingZeros :
    ((takeWhileInclusive (fun chunk => decide (true ∉ chunk)) chunks).map Word.trailingZeros).sum =
      FreeRuns.leading chunks.flatten := by
  induction chunks with
  | nil => rfl
  | cons chunk chunks ih =>
    rw [takeWhileInclusive, flatten_cons]
    split
    case isTrue hmem =>
      rw [decide_eq_true_eq] at hmem
      rw [map_cons, sum_cons, ih, Word.trailingZeros, leading_of_not_mem hmem]
      conv_rhs => rw [eq_replicate_of_not_mem hmem]
      rw [leading_replicate_append]
    case isFalse hmem =>
      rw [decide_eq_true_eq, not_not] at hmem
      rw [leading_append_of_mem hmem]
      simp [Word.trailingZeros]

theorem sum_leadingZeros :
    ((takeWhileInclusive (fun chunk => decide (true ∉ chunk)) chunks).map Word.leadingZeros).sum =
      FreeRuns.leading (chunks.map List.reverse).flatten := by
  rw [← sum_trailingZeros]
  congr 1
  induction chunks with
  | nil => rfl
  | cons chunk chunks ih =>
    rw [map_cons, takeWhileInclusive, takeWhileInclusive]
    simp only [mem_reverse]
    split
    · rw [map_cons, ih]
      rfl
    · rfl

theorem leading_of_longest {bits : List Bool} (h : FreeRuns.longest bits = bits.length) :
    FreeRuns.leading bits = bits.length := by
  obtain ⟨⟨start, hfree⟩, _⟩ := isLongest_longest bits
  apply Nat.le_antisymm (le_leading_iff.mp le_rfl).1
  rcases Nat.eq_zero_or_pos bits.length with hzero | hpos
  · omega
  · rw [h] at hfree
    have hend := hfree.end_le hpos
    rw [show start = 0 by omega] at hfree
    exact le_leading_iff.mpr ⟨le_rfl, hfree⟩

/-- The loop over the words finds the longest run of their bits. -/
theorem max_foldl_gapsChunk (hlen : ∀ chunk ∈ chunks, chunk.length = bitsInChunk) :
    Nat.max (chunks.reverse.foldl (fun state chunk => gapsChunk chunk state.1 state.2) (0, 0)).1
      (chunks.reverse.foldl (fun state chunk => gapsChunk chunk state.1 state.2) (0, 0)).2 =
        FreeRuns.longest chunks.flatten := by
  rw [foldl_gapsChunk _ _ fun chunk hc => hlen chunk (mem_reverse.mp hc), map_reverse,
    ← reverse_flatten]
  exact longest_reverse chunks.flatten

/-- The gaps that are calculated word by word are those of the bits. -/
theorem calculateGaps_eq {regionSizeBlocks : Nat}
    (hlen : ∀ chunk ∈ chunks, chunk.length = bitsInChunk)
    (hregion : chunks.flatten.length = regionSizeBlocks) (hlt : regionSizeBlocks < 2 ^ 16) :
    calculateGaps chunks regionSizeBlocks = gapsOf chunks.flatten := by
  have hlongest := longest_le_length chunks.flatten
  have hleading := le_leading_iff.mp (le_refl (leading chunks.flatten))
  have htrailing := le_trailing_iff.mp (le_refl (trailing chunks.flatten))
  rw [calculateGaps, sum_trailingZeros, sum_leadingZeros, map_reverse, ← reverse_flatten]
  simp only [max_foldl_gapsChunk hlen]
  rw [gapsOf]
  split
  case isFalse =>
    rw [Nat.mod_eq_of_lt (by omega), Nat.mod_eq_of_lt (by omega)]
    congr 1
    exact Nat.mod_eq_of_lt (htrailing.1.trans_lt (by omega))
  case isTrue hfull =>
    have hall : leading chunks.flatten = chunks.flatten.length :=
      leading_of_longest (hfull.trans hregion.symm)
    have hback : trailing chunks.flatten = chunks.flatten.length := by
      rw [trailing, leading_of_longest, length_reverse]
      rw [longest_reverse, length_reverse, hfull, hregion]
    rw [Nat.mod_eq_of_lt (by omega), hall, hback, hfull, hregion]

end Qdrant.Gridstore
