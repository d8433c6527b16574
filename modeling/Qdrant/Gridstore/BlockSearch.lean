-- SUMMARY: The search for free blocks and the marking of blocks, with the region gaps kept up to date.
import Qdrant.Gridstore.Bitmask
import Qdrant.Base.Crash
import Qdrant.Base.Run

/-!
# Finding and marking blocks

Sources: `lib/gridstore/src/bitmask/mod.rs`, `bitmask/gaps.rs`.

`findAvailableBlocks` picks regions by their gaps and scans the bits of these regions. The
main results are that it finds a place exactly if there are enough free blocks in a row, as
long as the gaps describe the bits, and that marking blocks keeps the gaps so.
-/

namespace Qdrant.Gridstore

open CachedFile FreeRuns List Crash

inductive GridstoreError where
  /-- An assertion, an index out of bounds, an `unwrap` or an `expect`. -/
  | panicked
  /-- Mmap length must be multiple of a size, but it is not. -/
  | sizeMultiple (size length : Nat)
  /-- Inconsistent number of gridstore pages. -/
  | inconsistentPages (expected found : Nat)
  | invalidConfig (message : String)
  | flushCancelled
  deriving DecidableEq, Repr

/-- Division that rounds up. -/
def divCeil (a b : Nat) : Nat := (a + b - 1) / b

theorem divCeil_le_iff {a b k : Nat} (hb : 0 < b) : divCeil a b ≤ k ↔ a ≤ k * b := by
  rw [divCeil, ← Nat.lt_succ_iff, Nat.div_lt_iff_lt_mul hb, Nat.succ_mul]
  omega

theorem lt_divCeil_iff {a b k : Nat} (hb : 0 < b) : k < divCeil a b ↔ k * b < a := by
  rw [← Nat.not_le, divCeil_le_iff hb, Nat.not_le]

theorem le_divCeil_mul {a b : Nat} (hb : 0 < b) : a ≤ divCeil a b * b :=
  (divCeil_le_iff hb).mp le_rfl

theorem divCeil_le_self {a b : Nat} (hb : 0 < b) : divCeil a b ≤ a :=
  (divCeil_le_iff hb).mpr (Nat.le_mul_of_pos_right a hb)

/-- `Bitmask`: the bits of all blocks and the gaps of all regions, each in its own file. -/
structure Bitmask where
  numBits : Nat
  bits : CachedFile Nat Bool
  numRegions : Nat
  gaps : CachedFile Nat RegionGaps

/-! ## Search -/

/-- `find_merged_gap`. -/
def findMergedGap (regionSizeBlocks : Nat) (gap : Nat → RegionGaps) (numRegions windowSize
    numBlocks : Nat) : Option (Nat × Nat) :=
  (List.range (numRegions + 1 - windowSize)).findSome? fun startRegionId =>
    if (List.range' (startRegionId + 1) (windowSize - 2)).any fun region =>
        (gap region).max != regionSizeBlocks then none
    else
      let firstTrailing := (gap startRegionId).trailing
      let lastLeading := (gap (startRegionId + windowSize - 1)).leading
      -- The sum of the two `u16` is a `u16`.
      let mergedGap := (firstTrailing + lastLeading) % 2 ^ 16 + (windowSize - 2) * regionSizeBlocks
      if numBlocks ≤ mergedGap % 2 ^ 32 then some (startRegionId, startRegionId + windowSize)
      else none

/-- `find_fitting_gap`: the range of regions in which the blocks fit. -/
def findFittingGap (regionSizeBlocks : Nat) (gap : Nat → RegionGaps) (numRegions numBlocks : Nat) :
    Except GridstoreError (Option (Nat × Nat)) :=
  if numRegions = 1 then
    if numBlocks ≤ (gap 0).max then .ok (some (0, 1)) else .ok none
  else
    let regionsNeeded := divCeil numBlocks regionSizeBlocks
    let fitsInMinRegions :=
      if regionsNeeded = 1 then
        (List.range numRegions).findSome? fun region =>
          if numBlocks ≤ (gap region).max then some (region, region + 1) else none
      else findMergedGap regionSizeBlocks gap numRegions regionsNeeded numBlocks
    if regionsNeeded = 0 then .error .panicked
    else match fitsInMinRegions with
      | some range => .ok (some range)
      | none => .ok (findMergedGap regionSizeBlocks gap numRegions (regionsNeeded + 1) numBlocks)

namespace Bitmask

/-- The page and the offset in it of a block, each as a `u32`. -/
def translateToAnswer (config : StorageConfig) (globalCursorOffset : Nat) : Nat × Nat :=
  (globalCursorOffset / config.pageBlocks % 2 ^ 32, globalCursorOffset % config.pageBlocks % 2 ^ 32)

section

variable (config : StorageConfig) (b : Bitmask)

/-- `find_available_blocks`: a page and an offset in it. -/
def findAvailableBlocks (numBlocks : Nat) : Except GridstoreError (Option (Nat × Nat)) := do
  match ← findFittingGap config.regionSizeBlocks b.gaps.content b.numRegions numBlocks with
  | none => return none
  | some (first, last) =>
    let regionsStartOffset := first * config.regionSizeBlocks
    let regionsEndOffset := last * config.regionSizeBlocks
    if b.numBits < regionsEndOffset then throw .panicked
    match rawRegion b.bits.content regionsStartOffset regionsEndOffset with
    | none => throw .panicked
    | some chunks =>
      return (findAvailableBlocksInSlice chunks numBlocks).map fun localIndex =>
        translateToAnswer config (localIndex + regionsStartOffset)

/-- `trailing_free_blocks`. -/
def trailingFreeBlocks : Nat :=
  ((takeWhileInclusive (fun gap : RegionGaps => gap.trailing == config.regionSizeBlocks)
    ((List.range b.numRegions).reverse.map b.gaps.content)).map RegionGaps.trailing).sum

/-- `infer_num_pages`. -/
def inferNumPages : Nat :=
  b.numBits * config.blockSizeBytes / config.pageSizeBytes

end

/-! ## Changes -/

/-- `length_for_page`, in bytes. -/
def lengthForPage (config : StorageConfig) : Nat := config.pageBlocks / 8

/-- The mapping of a bitmask file of this length. -/
def mapLength (length : Nat) : Except GridstoreError Nat :=
  if length % 8 = 0 then .ok (length * 8) else .error (.sizeMultiple 8 length)

/-- `BitmaskGaps::create`. On disk the gaps are zeros until they are synced. -/
def createGaps (numRegions regionSizeBlocks : Nat) : CachedFile Nat RegionGaps :=
  (CachedFile.ofContent fun _ => ⟨0, 0, 0⟩).write fun region =>
    if region < numRegions then some (.allFree regionSizeBlocks) else none

/-- `Bitmask::create`: a bitmask for one page. -/
def create (config : StorageConfig) : Except GridstoreError Bitmask := do
  let numBits ← mapLength (lengthForPage config)
  let numRegions := numBits / config.regionSizeBlocks
  return {
    numBits
    bits := .ofContent fun _ => false
    numRegions
    gaps := createGaps numRegions config.regionSizeBlocks }

/-- `cover_new_page`: the file of the bits grows first, then that of the gaps. -/
def coverNewPage (config : StorageConfig) : Prog Bitmask GridstoreError Unit := do
  Prog.write fun b => do
    let numBits ← mapLength (b.numBits / 8 + lengthForPage config)
    return ((), { b with bits := b.bits.sync, numBits })
  Prog.write fun b =>
    let newRegions := b.numBits / config.regionSizeBlocks - b.numRegions
    .ok ((), { b with
      numRegions := b.numRegions + newRegions
      gaps := b.gaps.write fun region =>
        if b.numRegions ≤ region ∧ region < b.numRegions + newRegions then
          some (RegionGaps.allFree config.regionSizeBlocks)
        else none })
  let b ← Prog.get
  if b.numRegions * config.regionSizeBlocks ≠ b.numBits then throw .panicked

/-- Fill a range of bits. -/
def fill (start stop : Nat) (used : Bool) : Prog Bitmask GridstoreError Unit :=
  Prog.write fun b =>
    if stop < start ∨ b.numBits < stop then .error .panicked
    else .ok ((), { b with bits := b.bits.write fun i =>
      if start ≤ i ∧ i < stop then some used else none })

/-- Calculate the gaps of one region anew. -/
def updateGaps (config : StorageConfig) (region : Nat) : Prog Bitmask GridstoreError Unit :=
  Prog.write fun b =>
    let regionStart := region * config.regionSizeBlocks
    let regionEnd := regionStart + config.regionSizeBlocks
    if b.numBits < regionEnd ∨ b.numRegions ≤ region then .error .panicked
    else match rawRegion b.bits.content regionStart regionEnd with
      | none => .error .panicked
      | some chunks => .ok ((), { b with
          gaps := b.gaps.writeAt region (calculateGaps chunks config.regionSizeBlocks) })

/-- `mark_blocks_batch`: mark ranges of blocks of a page, then update the gaps of the regions
they touch. The set of these regions is a list here; it does not matter in which order they
are updated or how often. -/
def markBlocksBatch (config : StorageConfig) (pageId : Nat) (localBlockRanges : List (Nat × Nat))
    (used : Bool) : Prog Bitmask GridstoreError Unit := do
  let pageStart := pageId * config.pageBlocks
  let dirtyRegions ← localBlockRanges.foldlM (fun (dirtyRegions : List Nat) range => do
    fill (range.1 + pageStart) (range.2 + pageStart) used
    -- Region ids are `u32`.
    let startRegionId := (range.1 + pageStart) / config.regionSizeBlocks % 2 ^ 32
    let endRegionId := divCeil (range.2 + pageStart) config.regionSizeBlocks % 2 ^ 32
    return dirtyRegions ++ List.range' startRegionId (endRegionId - startRegionId)) []
  dirtyRegions.foldlM (fun _ region => updateGaps config region) ()

/-- `mark_blocks`. -/
def markBlocks (config : StorageConfig) (pageId blockOffset numBlocks : Nat) (used : Bool) :
    Prog Bitmask GridstoreError Unit :=
  markBlocksBatch config pageId [(blockOffset, blockOffset + numBlocks)] used

/-- `Bitmask::flusher`. -/
def flush : Prog Bitmask GridstoreError Unit := do
  Prog.write fun b => .ok ((), { b with bits := b.bits.sync })
  Prog.write fun b => .ok ((), { b with gaps := b.gaps.sync })

/-! ## Bitmasks whose gaps are up to date -/

section

variable (config : StorageConfig) (b : Bitmask) (region : Nat)

/-- The bits of a region. -/
def regionBits : List Bool :=
  bitSlice b.bits.content (region * config.regionSizeBlocks)
    ((region + 1) * config.regionSizeBlocks)

/-- The gaps of the region describe its bits. -/
def Summarised : Prop :=
  b.gaps.content region = gapsOf (b.regionBits config region)

end

/-- The regions cover the bits, and their gaps are up to date. Nothing is written behind the
end of the bits. -/
structure Valid (config : StorageConfig) (b : Bitmask) : Prop where
  numBits_eq : b.numBits = b.numRegions * config.regionSizeBlocks
  free_beyond : ∀ i v, b.numBits ≤ i → b.bits.MayHold i v → v = false
  summarised : ∀ region < b.numRegions, b.Summarised config region

/-- There are `n` free blocks from `start` on. -/
def FreeBlocks (b : Bitmask) (start n : Nat) : Prop :=
  start + n ≤ b.numBits ∧ ∀ i, start ≤ i → i < start + n → b.bits.content i = false

end Bitmask

/-! ## The search is sound and complete -/

theorem free_bitSlice {bits : Nat → Bool} {start stop place n : Nat} (hn : 0 < n) :
    FreeRuns.Free (bitSlice bits start stop) place n ↔
      start + place + n ≤ stop ∧ ∀ i, start + place ≤ i → i < start + place + n → bits i = false := by
  constructor
  · intro h
    have hend := h.end_le hn
    rw [length_bitSlice] at hend
    refine ⟨by omega, fun i hi hi' => ?_⟩
    have hbit := h (i - start) (by omega) (by omega)
    rw [getElem?_bitSlice (by omega), Option.some.injEq] at hbit
    rwa [show start + (i - start) = i by omega] at hbit
  · rintro ⟨hend, hfree⟩ i hi hi'
    rw [getElem?_bitSlice (by omega), hfree (start + i) (by omega) (by omega)]

namespace Bitmask

section Search

variable {config : StorageConfig} {b : Bitmask}
variable {n : Nat} {start : Nat}

theorem FreeBlocks.mono {start' n' : Nat} (h : b.FreeBlocks start n) (hs : start ≤ start')
    (hn : start' + n' ≤ start + n) : b.FreeBlocks start' n' := by
  obtain ⟨hend, hfree⟩ := h
  exact ⟨by omega, fun i hi hi' => hfree i (by omega) (by omega)⟩

theorem length_regionBits (region : Nat) :
    (b.regionBits config region).length = config.regionSizeBlocks := by
  rw [regionBits, length_bitSlice, Nat.succ_mul]
  omega

variable {region : Nat}

section

variable (hvalid : b.Valid config)

include hvalid

/-- The free runs of a region are those of its bits. -/
theorem free_regionBits {place : Nat} (h : region < b.numRegions)
    (hle : place + n ≤ config.regionSizeBlocks) : FreeRuns.Free (b.regionBits config region) place n ↔
      b.FreeBlocks (region * config.regionSizeBlocks + place) n := by
  have hend := Nat.mul_le_mul_right config.regionSizeBlocks (Nat.succ_le_of_lt h)
  rw [← hvalid.numBits_eq, Nat.succ_mul] at hend
  have hsucc := Nat.add_one_mul region config.regionSizeBlocks
  constructor
  · intro hfree
    exact ⟨by omega, fun i hi hi' => ((free_bitSlice (by omega)).mp hfree).2 i hi hi'⟩
  · intro hfree i hi hi'
    rw [regionBits, getElem?_bitSlice (by omega), hfree.2 _ (by omega) (by omega)]

/-- A run inside a region, from its longest gap. -/
theorem le_max_iff (h : region < b.numRegions) (hn : 0 < n) : n ≤ (b.gaps.content region).max ↔
      ∃ start, region * config.regionSizeBlocks ≤ start ∧
        start + n ≤ (region + 1) * config.regionSizeBlocks ∧ b.FreeBlocks start n := by
  obtain ⟨⟨place, hplace⟩, hmax⟩ := isLongest_longest (b.regionBits config region)
  rw [hvalid.summarised region h]
  constructor
  · intro hle
    have hfree := hplace.mono le_rfl (Nat.add_le_add_left hle place)
    have hbound := hfree.end_le hn
    rw [length_regionBits] at hbound
    exact ⟨_, Nat.le_add_right _ place, by rw [Nat.succ_mul]; omega,
      (free_regionBits hvalid h hbound).mp hfree⟩
  · rintro ⟨start, hstart, hbound, hfree⟩
    obtain ⟨place, rfl⟩ := Nat.exists_eq_add_of_le hstart
    rw [Nat.succ_mul] at hbound
    exact hmax place n ((free_regionBits hvalid h (by omega)).mpr hfree)

theorem le_leading_iff (h : region < b.numRegions) : n ≤ (b.gaps.content region).leading ↔
    n ≤ config.regionSizeBlocks ∧ b.FreeBlocks (region * config.regionSizeBlocks) n := by
  rw [hvalid.summarised region h, gapsOf, FreeRuns.le_leading_iff, length_regionBits]
  exact and_congr_right fun hle => free_regionBits hvalid h (by omega)

theorem le_trailing_iff (h : region < b.numRegions) : n ≤ (b.gaps.content region).trailing ↔
    n ≤ config.regionSizeBlocks ∧ b.FreeBlocks ((region + 1) * config.regionSizeBlocks - n) n := by
  rw [hvalid.summarised region h, gapsOf, FreeRuns.le_trailing_iff, length_regionBits]
  refine and_congr_right fun hle => ?_
  rw [free_regionBits hvalid h (Nat.sub_add_cancel hle).le, Nat.succ_mul, Nat.add_sub_assoc hle]

/-- Regions without a used block are free. -/
theorem middle_free (hregion : 0 < config.regionSizeBlocks)
    (first count : Nat) (hbound : first + count ≤ b.numRegions)
    (hfull : ∀ region, first ≤ region → region < first + count →
      (b.gaps.content region).max = config.regionSizeBlocks) :
    b.FreeBlocks (first * config.regionSizeBlocks) (count * config.regionSizeBlocks) := by
  refine ⟨?_, ?_⟩
  · rw [hvalid.numBits_eq, ← Nat.add_mul]
    exact Nat.mul_le_mul_right _ hbound
  · intro i hi hi'
    rw [← Nat.add_mul] at hi'
    have hdiv : first ≤ i / config.regionSizeBlocks := (Nat.le_div_iff_mul_le hregion).mpr hi
    have hdiv' : i / config.regionSizeBlocks < first + count := (Nat.div_lt_iff_lt_mul hregion).mpr hi'
    have hle := Nat.le_of_eq (hfull _ hdiv hdiv').symm
    obtain ⟨start, hstart, hend, hfree⟩ :=
      (le_max_iff hvalid (hdiv'.trans_le hbound) hregion).mp hle
    have hmod := Nat.div_add_mod i config.regionSizeBlocks
    have hlt := Nat.mod_lt i hregion
    rw [Nat.mul_comm] at hmod
    rw [Nat.succ_mul] at hend
    exact hfree.2 i (by omega) (by omega)

end

/-- Neighbouring free runs are one run. -/
theorem FreeBlocks.append {m : Nat} (h : b.FreeBlocks start m)
    (h' : b.FreeBlocks (start + m) n) : b.FreeBlocks start (m + n) := by
  refine ⟨by have := h'.1; omega, fun i hi hi' => ?_⟩
  rcases Nat.lt_or_ge i (start + m) with hlt | hge
  · exact h.2 i hi hlt
  · exact h'.2 i hge (by omega)

section

variable (config : StorageConfig) (b : Bitmask) (first windowSize : Nat)

/-- The free blocks that a window of regions offers: the end of the first region, the regions
in between and the start of the last one. -/
def mergedGap : Nat :=
  (b.gaps.content first).trailing + (windowSize - 2) * config.regionSizeBlocks +
    (b.gaps.content (first + windowSize - 1)).leading

/-- The regions between the first and the last of a window have no used block. -/
def MiddleFree : Prop :=
  ∀ region, first + 1 ≤ region → region < first + 1 + (windowSize - 2) →
    (b.gaps.content region).max = config.regionSizeBlocks

end

theorem any_middle (first windowSize : Nat) :
    ((List.range' (first + 1) (windowSize - 2)).any fun region =>
      (b.gaps.content region).max != config.regionSizeBlocks) = true ↔
      ¬ b.MiddleFree config first windowSize := by
  simp only [any_eq_true, mem_range'_1, bne_iff_ne, MiddleFree, not_forall, exists_prop, and_assoc]

variable {windowSize : Nat} {first : Nat}

theorem window_sum (first size : Nat) (hwindow : 2 ≤ windowSize) :
    (first + 1) * size + (windowSize - 2) * size = (first + windowSize - 1) * size ∧
      (first + windowSize) * size = (first + windowSize - 1) * size + size := by
  rw [← Nat.add_mul, ← Nat.succ_mul]
  constructor
  · congr 1
    omega
  · congr 1
    omega

section

variable (hvalid : b.Valid config)

include hvalid

/-- What the search over windows compares with the number of blocks is the size of the run. -/
theorem mergedGap_eq (hwords : config.WholeWords)
    (hbits : b.numBits < 2 ^ 32) (hwindow : 2 ≤ windowSize)
    (hbound : first + windowSize ≤ b.numRegions) :
    ((((b.gaps.content first).trailing + (b.gaps.content (first + windowSize - 1)).leading) % 2 ^ 16 +
      (windowSize - 2) * config.regionSizeBlocks) % 2 ^ 32) = b.mergedGap config first windowSize := by
  obtain ⟨htrailing, _⟩ := (le_trailing_iff hvalid (by omega : first < _)).mp le_rfl
  obtain ⟨hleading, _⟩ := (le_leading_iff hvalid (by omega : first + windowSize - 1 < _)).mp le_rfl
  have hregion := hwords.2
  have htotal : (windowSize - 2) * config.regionSizeBlocks + 2 * config.regionSizeBlocks ≤
      b.numBits := by
    rw [hvalid.numBits_eq, ← Nat.add_mul]
    exact Nat.mul_le_mul_right _ (by omega)
  rw [mergedGap]
  omega

theorem mergedGap_free (hregion : 0 < config.regionSizeBlocks)
    (hwindow : 2 ≤ windowSize) (hbound : first + windowSize ≤ b.numRegions)
    (hmiddle : b.MiddleFree config first windowSize) : ∃ start,
    first * config.regionSizeBlocks ≤ start ∧
      start + b.mergedGap config first windowSize ≤ (first + windowSize) * config.regionSizeBlocks ∧
      b.FreeBlocks start (b.mergedGap config first windowSize) := by
  obtain ⟨htrailing, hfirst⟩ := (le_trailing_iff hvalid (by omega : first < _)).mp le_rfl
  obtain ⟨hleading, hlast⟩ := (le_leading_iff hvalid (by omega : first + windowSize - 1 < _)).mp le_rfl
  have hfree := middle_free hvalid hregion (first + 1) (windowSize - 2) (by omega) hmiddle
  obtain ⟨hsum, hsum'⟩ := window_sum first config.regionSizeBlocks hwindow
  have hsucc := Nat.add_one_mul first config.regionSizeBlocks
  refine ⟨(first + 1) * config.regionSizeBlocks - (b.gaps.content first).trailing, by omega, ?_, ?_⟩
  · rw [mergedGap]
    omega
  · rw [mergedGap, Nat.add_assoc]
    apply hfirst.append
    rw [Nat.sub_add_cancel (by omega)]
    apply hfree.append
    rw [hsum]
    exact hlast

section

variable (hwords : config.WholeWords) (hbits : b.numBits < 2 ^ 32) (hwindow : 2 ≤ windowSize)

include hwords hbits hwindow

theorem findMergedGap_some {last : Nat}
    (h : findMergedGap config.regionSizeBlocks b.gaps.content b.numRegions windowSize n =
      some (first, last)) :
    last = first + windowSize ∧ last ≤ b.numRegions ∧ b.MiddleFree config first windowSize ∧
      n ≤ b.mergedGap config first windowSize := by
  obtain ⟨found, hmem, hfound⟩ := exists_of_findSome?_eq_some h
  rw [mem_range] at hmem
  dsimp only at hfound
  split at hfound
  case isTrue => cases hfound
  case isFalse hmiddle =>
    rw [any_middle, not_not] at hmiddle
    rw [mergedGap_eq hvalid hwords hbits hwindow (by omega)] at hfound
    split at hfound
    case isFalse => cases hfound
    case isTrue hle =>
      cases hfound
      exact ⟨rfl, by omega, hmiddle, hle⟩

theorem findMergedGap_none
    (h : findMergedGap config.regionSizeBlocks b.gaps.content b.numRegions windowSize n = none)
    (hbound : first + windowSize ≤ b.numRegions) (hmiddle : b.MiddleFree config first windowSize) :
    b.mergedGap config first windowSize < n := by
  have hfirst := findSome?_eq_none_iff.mp h first (mem_range.mpr (by omega))
  rw [if_neg (by rw [any_middle, not_not]; exact hmiddle)] at hfirst
  dsimp only at hfirst
  rw [mergedGap_eq hvalid hwords hbits hwindow hbound] at hfirst
  split at hfirst
  · cases hfirst
  · omega

end

/-- The window of regions that a free run touches offers room for it. -/
theorem le_mergedGap (hregion : 0 < config.regionSizeBlocks)
    (hwindow : 2 ≤ windowSize) (hfree : b.FreeBlocks start n)
    (hbound : first + windowSize ≤ b.numRegions) (hfirst : first * config.regionSizeBlocks ≤ start)
    (hfirst' : start ≤ (first + 1) * config.regionSizeBlocks)
    (hlast : (first + windowSize - 1) * config.regionSizeBlocks ≤ start + n)
    (hlast' : start + n ≤ (first + windowSize) * config.regionSizeBlocks) :
    b.MiddleFree config first windowSize ∧ n ≤ b.mergedGap config first windowSize := by
  obtain ⟨hsum, hsum'⟩ := window_sum first config.regionSizeBlocks hwindow
  constructor
  · intro region hge hlt
    have hregionlt : region < b.numRegions := by omega
    have hlower : (first + 1) * config.regionSizeBlocks ≤ region * config.regionSizeBlocks :=
      Nat.mul_le_mul_right _ hge
    have hupper : (region + 1) * config.regionSizeBlocks ≤
        (first + windowSize - 1) * config.regionSizeBlocks := Nat.mul_le_mul_right _ (by omega)
    have hsucc := Nat.add_one_mul region config.regionSizeBlocks
    apply Nat.le_antisymm
    · rw [hvalid.summarised region hregionlt]
      have := longest_le_length (b.regionBits config region)
      rwa [length_regionBits] at this
    · apply (le_max_iff hvalid hregionlt hregion).mpr
      exact ⟨_, le_rfl, by omega, hfree.mono (by omega) (by omega)⟩
  · have hsucc := Nat.add_one_mul first config.regionSizeBlocks
    have htrailing := (le_trailing_iff hvalid (by omega : first < _)).mpr
      ⟨(by omega : (first + 1) * config.regionSizeBlocks - start ≤ _), hfree.mono (by omega) (by omega)⟩
    have hleading := (le_leading_iff hvalid (by omega : first + windowSize - 1 < _)).mpr
      ⟨(by omega : start + n - (first + windowSize - 1) * config.regionSizeBlocks ≤ _),
        hfree.mono (by omega) (by omega)⟩
    rw [mergedGap]
    omega

end

/-- A run of `n` blocks touches as many regions as it needs at least, or one more. -/
theorem touched_regions {size : Nat} (hsize : 0 < size) (start : Nat) (hn : 0 < n) :
    ∃ first windowSize, 1 ≤ windowSize ∧ first * size ≤ start ∧ start ≤ (first + 1) * size ∧
      (first + windowSize - 1) * size < start + n ∧ start + n ≤ (first + windowSize) * size ∧
      (windowSize = divCeil n size ∨ windowSize = divCeil n size + 1) := by
  have hfirst := Nat.div_mul_le_self start size
  have hfirst' : start < (start / size + 1) * size :=
    (Nat.div_lt_iff_lt_mul hsize).mp (Nat.lt_succ_self _)
  have hlast := Nat.div_mul_le_self (start + n - 1) size
  have hlast' : start + n - 1 < ((start + n - 1) / size + 1) * size :=
    (Nat.div_lt_iff_lt_mul hsize).mp (Nat.lt_succ_self _)
  have hle : start / size ≤ (start + n - 1) / size := Nat.div_le_div_right (by omega)
  generalize start / size = first at *
  generalize (start + n - 1) / size = last at *
  refine ⟨first, last + 1 - first, by omega, hfirst, by omega, ?_, ?_, ?_⟩
  · rw [show first + (last + 1 - first) - 1 = last by omega]
    omega
  · rw [show first + (last + 1 - first) = last + 1 by omega]
    omega
  · have hmin : divCeil n size ≤ last + 1 - first := by
      rw [divCeil_le_iff hsize, Nat.sub_mul]
      omega
    have hmax : last + 1 - first ≤ divCeil n size + 1 := by
      rcases Nat.lt_or_ge last (first + 1) with hlt | hge
      · omega
      · have : last - first - 1 < divCeil n size := by
          rw [lt_divCeil_iff hsize, Nat.sub_sub, Nat.sub_mul]
          omega
        omega
    omega

/-- The range of regions has room for `n` blocks. -/
def HasRoom (config : StorageConfig) (b : Bitmask) (n : Nat) (range : Nat × Nat) : Prop :=
  range.2 ≤ b.numRegions ∧ ∃ start, range.1 * config.regionSizeBlocks ≤ start ∧
    start + n ≤ range.2 * config.regionSizeBlocks ∧ b.FreeBlocks start n

theorem hasRoom_of_max (hvalid : b.Valid config) (h : region < b.numRegions)
    (hn : 0 < n) (hle : n ≤ (b.gaps.content region).max) : b.HasRoom config n (region, region + 1) :=
  ⟨h, (le_max_iff hvalid h hn).mp hle⟩

section

variable (hvalid : b.Valid config) (hwords : config.WholeWords) (hbits : b.numBits < 2 ^ 32)
  (hregion : 0 < config.regionSizeBlocks)

include hvalid hwords hbits hregion

theorem hasRoom_of_merged {range : Nat × Nat} (hwindow : 2 ≤ windowSize)
    (h : findMergedGap config.regionSizeBlocks b.gaps.content b.numRegions windowSize n =
      some range) : b.HasRoom config n range := by
  obtain ⟨first, last⟩ := range
  obtain ⟨rfl, hlast, hmiddle, hle⟩ := findMergedGap_some hvalid hwords hbits hwindow h
  obtain ⟨start, hstart, hend, hfree⟩ := mergedGap_free hvalid hregion hwindow hlast hmiddle
  exact ⟨hlast, start, hstart, by dsimp only; omega, hfree.mono le_rfl (by omega)⟩

/-- A run that no single region and no window of the two sizes reports does not exist. -/
theorem not_free (hn : 0 < n) (hsingle : divCeil n config.regionSizeBlocks = 1 →
      ∀ region < b.numRegions, (b.gaps.content region).max < n)
    (hwindows : ∀ windowSize, 2 ≤ windowSize → windowSize = divCeil n config.regionSizeBlocks ∨
        windowSize = divCeil n config.regionSizeBlocks + 1 →
      findMergedGap config.regionSizeBlocks b.gaps.content b.numRegions windowSize n = none) :
    ¬ b.FreeBlocks start n := by
  intro hfree
  obtain ⟨first, windowSize, hpos, hfirst, hfirst', hlast, hlast', hsize⟩ :=
    touched_regions hregion start hn
  have hneeded : 0 < divCeil n config.regionSizeBlocks := by
    rw [lt_divCeil_iff hregion]
    omega
  have hbound : first + windowSize ≤ b.numRegions := by
    have hend := hfree.1
    rw [hvalid.numBits_eq] at hend
    have hlt := Nat.lt_of_mul_lt_mul_right (hlast.trans_le hend)
    omega
  rcases Nat.lt_or_ge windowSize 2 with hone | hwindow
  · obtain rfl : windowSize = 1 := by omega
    have hmax := hsingle (by omega) first (by omega)
    have hle := (le_max_iff hvalid (by omega) hn).mpr ⟨start, hfirst, hlast', hfree⟩
    omega
  · obtain ⟨hmiddle, hle⟩ :=
      le_mergedGap hvalid hregion hwindow hfree hbound hfirst hfirst' hlast.le hlast'
    have hlt := findMergedGap_none hvalid hwords hbits hwindow (hwindows windowSize hwindow hsize)
      hbound hmiddle
    omega

theorem findFittingGap_eq (hn : 0 < n) :
    ∃ found, findFittingGap config.regionSizeBlocks b.gaps.content b.numRegions n = .ok found ∧
      match found with
      | some range => b.HasRoom config n range
      | none => ∀ start, ¬ b.FreeBlocks start n := by
  have hneeded : 0 < divCeil n config.regionSizeBlocks := by
    rw [lt_divCeil_iff hregion]
    omega
  rw [findFittingGap]
  split
  case isTrue hone =>
    split
    case isTrue hle => exact ⟨_, rfl, hasRoom_of_max hvalid (by omega) hn hle⟩
    case isFalse hlt =>
      refine ⟨none, rfl, fun start hfree => hlt ?_⟩
      have hbound := hfree.1
      rw [hvalid.numBits_eq, hone] at hbound
      apply (le_max_iff hvalid (by omega) hn).mpr
      exact ⟨start, by omega, by omega, hfree⟩
  case isFalse =>
  rw [if_neg (by omega : divCeil n config.regionSizeBlocks ≠ 0)]
  split
  case h_1 range hrange =>
    refine ⟨_, rfl, ?_⟩
    split at hrange
    case isTrue =>
      obtain ⟨region, hmem, hfound⟩ := exists_of_findSome?_eq_some hrange
      split at hfound
      case isTrue hle =>
        cases hfound
        exact hasRoom_of_max hvalid (mem_range.mp hmem) hn hle
      case isFalse => cases hfound
    case isFalse =>
      exact hasRoom_of_merged hvalid hwords hbits hregion (by omega) hrange
  case h_2 hmin =>
    refine ⟨_, rfl, ?_⟩
    cases hmerged : findMergedGap config.regionSizeBlocks b.gaps.content b.numRegions
        (divCeil n config.regionSizeBlocks + 1) n with
    | some range => exact hasRoom_of_merged hvalid hwords hbits hregion (by omega) hmerged
    | none =>
      intro start
      apply not_free hvalid hwords hbits hregion hn
      · intro hone region hlt
        rw [if_pos hone] at hmin
        have hnone := findSome?_eq_none_iff.mp hmin region (mem_range.mpr hlt)
        split at hnone
        · cases hnone
        · omega
      · rintro windowSize hwindow (rfl | rfl)
        · rwa [if_neg (by omega)] at hmin
        · exact hmerged

end

theorem regions_aligned (hwords : config.regionSizeBlocks % 64 = 0) (count : Nat) :
    count * config.regionSizeBlocks % 64 = 0 := by
  rw [Nat.mul_mod, hwords]
  simp

theorem translateToAnswer_spec (haccepted : config.Accepted) {block : Nat} (h : block < 2 ^ 32) :
    (translateToAnswer config block).2 < config.pageBlocks ∧
      (translateToAnswer config block).1 * config.pageBlocks + (translateToAnswer config block).2 =
        block := by
  have hpage := haccepted.pageBlocks_pos
  have hdiv := Nat.div_le_self block config.pageBlocks
  have hmod := Nat.mod_le block config.pageBlocks
  rw [translateToAnswer, Nat.mod_eq_of_lt (hdiv.trans_lt h), Nat.mod_eq_of_lt (hmod.trans_lt h)]
  exact ⟨Nat.mod_lt block hpage, by rw [Nat.mul_comm, Nat.div_add_mod]⟩

/-- The search finds free blocks exactly if there are enough of them in a row. -/
def FindsExactly (config : StorageConfig) (b : Bitmask) (n : Nat) : Prop :=
  ∃ found, b.findAvailableBlocks config n = .ok found ∧
    match found with
    | some (pageId, blockOffset) => blockOffset < config.pageBlocks ∧
        b.FreeBlocks (pageId * config.pageBlocks + blockOffset) n
    | none => ∀ start, ¬ b.FreeBlocks start n

theorem findAvailableBlocks_eq (haccepted : config.Accepted) (hwords : config.WholeWords)
    (hvalid : b.Valid config) (hbits : b.numBits < 2 ^ 32) (hn : 0 < n) :
    b.FindsExactly config n := by
  have hregion := haccepted.region_pos
  obtain ⟨found, hfound, hspec⟩ := findFittingGap_eq hvalid hwords hbits hregion hn
  rw [FindsExactly, findAvailableBlocks, hfound]
  simp only [bind, Except.bind]
  cases found with
  | none => exact ⟨none, rfl, hspec⟩
  | some range =>
    obtain ⟨first, last⟩ := range
    obtain ⟨hlast, start, hstart, hend, hfree⟩ := hspec
    dsimp only at hlast hstart hend
    have hbound : last * config.regionSizeBlocks ≤ b.numBits := by
      rw [hvalid.numBits_eq]
      exact Nat.mul_le_mul_right _ hlast
    obtain ⟨chunks, hchunks, hflatten, hlen⟩ := rawRegion_eq b.bits.content
      (regions_aligned hwords.1 first) (regions_aligned hwords.1 last) (by omega)
    dsimp only
    rw [if_neg (by omega)]
    simp only [hchunks, findAvailableBlocksInSlice_eq hn hlen, hflatten]
    have hroom : FreeRuns.Free (bitSlice b.bits.content (first * config.regionSizeBlocks)
        (last * config.regionSizeBlocks)) (start - first * config.regionSizeBlocks) n := by
      apply (free_bitSlice hn).mpr
      rw [Nat.add_sub_cancel' hstart]
      exact ⟨hend, hfree.2⟩
    obtain ⟨place, hplace, hfound⟩ := exists_search hn hroom
    rw [hplace]
    obtain ⟨hplaceend, hplacefree⟩ := (free_bitSlice hn).mp hfound
    rw [Nat.add_comm _ place] at hplaceend hplacefree
    obtain ⟨hoffset, hglobal⟩ := translateToAnswer_spec haccepted
      (show place + first * config.regionSizeBlocks < 2 ^ 32 by omega)
    have hblocks : b.FreeBlocks (place + first * config.regionSizeBlocks) n :=
      ⟨by omega, hplacefree⟩
    rw [← hglobal] at hblocks
    exact ⟨_, rfl, hoffset, hblocks⟩

/-- The blocks that `trailing_free_blocks` counts are free. -/
theorem trailing_sum_free (hvalid : b.Valid config) {count : Nat} (hcount : count ≤ b.numRegions) :
    let sum := ((takeWhileInclusive (fun gap : RegionGaps => gap.trailing == config.regionSizeBlocks)
      ((List.range count).reverse.map b.gaps.content)).map RegionGaps.trailing).sum
    sum ≤ count * config.regionSizeBlocks ∧
      b.FreeBlocks (count * config.regionSizeBlocks - sum) sum := by
  induction count with
  | zero =>
    rw [Nat.zero_mul]
    exact ⟨le_rfl, Nat.zero_le _, fun i _ hi => absurd hi (Nat.not_lt_zero i)⟩
  | succ count ih =>
    obtain ⟨hle, hfree⟩ := ih (by omega)
    obtain ⟨htrailing, hlast⟩ := (le_trailing_iff hvalid (by omega : count < _)).mp le_rfl
    have hsucc := Nat.add_one_mul count config.regionSizeBlocks
    rw [range_succ, reverse_append, reverse_singleton, singleton_append,
      map_cons, takeWhileInclusive]
    split
    case isTrue hfull =>
      rw [beq_iff_eq] at hfull
      rw [map_cons, sum_cons, hfull]
      refine ⟨by omega, ?_⟩
      rw [Nat.add_comm config.regionSizeBlocks, hsucc, Nat.add_sub_add_right]
      apply hfree.append
      rw [Nat.sub_add_cancel hle]
      rw [hfull, hsucc, Nat.add_sub_cancel] at hlast
      exact hlast
    case isFalse =>
      rw [map_cons, sum_cons, map_nil, sum_nil]
      exact ⟨by omega, hlast⟩

theorem trailingFreeBlocks_free (hvalid : b.Valid config) :
    b.trailingFreeBlocks config ≤ b.numBits ∧
      b.FreeBlocks (b.numBits - b.trailingFreeBlocks config) (b.trailingFreeBlocks config) := by
  rw [hvalid.numBits_eq]
  exact trailing_sum_free hvalid le_rfl

end Search

/-! ## Changes keep the gaps up to date -/

section Changes

variable {config : StorageConfig} {b : Bitmask} {R : GridstoreError → Bitmask → Prop}
  {C : Bitmask → Prop}

/-- Some of the blocks have been marked, and nothing else has happened to the bits. -/
structure MarkedSome (b t : Bitmask) (blocks : Nat → Prop) (used : Bool) : Prop where
  numBits : t.numBits = b.numBits
  numRegions : t.numRegions = b.numRegions
  content : ∀ i, ¬ blocks i → t.bits.content i = b.bits.content i
  mayHold : ∀ i v, t.bits.MayHold i v → b.bits.MayHold i v ∨ (blocks i ∧ v = used)

/-- The blocks have been marked, and the gaps are up to date. -/
structure Marked (config : StorageConfig) (b t : Bitmask) (blocks : Nat → Prop) (used : Bool) : Prop
    extends MarkedSome b t blocks used where
  content_marked : ∀ i, blocks i → t.bits.content i = used
  valid : t.Valid config

theorem MarkedSome.refl (blocks : Nat → Prop) (used : Bool) : MarkedSome b b blocks used :=
  ⟨rfl, rfl, fun _ _ => rfl, fun _ _ h => .inl h⟩

variable {used : Bool} {t : Bitmask}

theorem MarkedSome.mono {blocks blocks' : Nat → Prop}
    (h : MarkedSome b t blocks used) (hle : ∀ i, blocks i → blocks' i) :
    MarkedSome b t blocks' used := by
  refine ⟨h.numBits, h.numRegions, fun i hi => h.content i fun hb => hi (hle i hb), ?_⟩
  intro i v hv
  rcases h.mayHold i v hv with hold | ⟨hb, hused⟩
  · exact .inl hold
  · exact .inr ⟨hle i hb, hused⟩

theorem MarkedSome.trans {t' : Bitmask} {blocks : Nat → Prop} (h : MarkedSome b t blocks used)
    (h' : MarkedSome t t' blocks used) : MarkedSome b t' blocks used := by
  refine ⟨h'.numBits.trans h.numBits, h'.numRegions.trans h.numRegions,
    fun i hi => (h'.content i hi).trans (h.content i hi), fun i v hv => ?_⟩
  rcases h'.mayHold i v hv with hold | hnew
  · exact h.mayHold i v hold
  · exact .inr hnew

/-- The blocks of the ranges on a page. -/
def InRanges (config : StorageConfig) (pageId : Nat) (ranges : List (Nat × Nat)) (i : Nat) : Prop :=
  ∃ range ∈ ranges, range.1 + pageId * config.pageBlocks ≤ i ∧
    i < range.2 + pageId * config.pageBlocks

/-- The range is one of blocks on the page, and its regions are counted in 32 bits. -/
def Fits (config : StorageConfig) (pageId : Nat) (b : Bitmask) (range : Nat × Nat) : Prop :=
  range.1 ≤ range.2 ∧ range.2 + pageId * config.pageBlocks ≤ b.numBits ∧
    divCeil (range.2 + pageId * config.pageBlocks) config.regionSizeBlocks < 2 ^ 32

variable {region : Nat}

variable {Q : Unit → Bitmask → Prop}

/-- One round of the loop over the ranges. -/
def fillRange (config : StorageConfig) (pageId : Nat) (used : Bool) (dirtyRegions : List Nat)
    (range : Nat × Nat) : Prog Bitmask GridstoreError (List Nat) := do
  fill (range.1 + pageId * config.pageBlocks) (range.2 + pageId * config.pageBlocks) used
  let startRegionId := (range.1 + pageId * config.pageBlocks) / config.regionSizeBlocks % 2 ^ 32
  let endRegionId := divCeil (range.2 + pageId * config.pageBlocks) config.regionSizeBlocks % 2 ^ 32
  return dirtyRegions ++ List.range' startRegionId (endRegionId - startRegionId)

variable {pageId : Nat} {ranges : List (Nat × Nat)}

/-- The blocks of the ranges have been marked; the gaps are right where no block has changed. -/
structure Filled (config : StorageConfig) (pageId : Nat) (used : Bool) (b : Bitmask)
    (ranges : List (Nat × Nat)) (dirtyRegions : List Nat) (t : Bitmask) : Prop
    extends MarkedSome b t (InRanges config pageId ranges) used where
  content_marked : ∀ i, InRanges config pageId ranges i → t.bits.content i = used
  dirty_lt : ∀ region ∈ dirtyRegions, region < b.numRegions
  summarised : ∀ region < b.numRegions, region ∉ dirtyRegions → t.Summarised config region

/-- The regions that the blocks from `start` to `stop` touch. -/
theorem mem_dirty {start stop size : Nat} (hsize : 0 < size) (hle : start ≤ stop)
    (hstop : divCeil stop size < 2 ^ 32) :
    region ∈ List.range' (start / size % 2 ^ 32) (divCeil stop size % 2 ^ 32 - start / size % 2 ^ 32) ↔
      start < (region + 1) * size ∧ region * size < stop := by
  have hstart : start / size ≤ divCeil stop size :=
    Nat.div_le_of_le_mul (hle.trans ((le_divCeil_mul hsize).trans_eq (Nat.mul_comm _ _)))
  rw [Nat.mod_eq_of_lt hstop, Nat.mod_eq_of_lt (hstart.trans_lt hstop), mem_range'_1,
    ← lt_divCeil_iff hsize, ← Nat.div_lt_iff_lt_mul hsize]
  omega

theorem wp_fillRanges (hvalid : b.Valid config) (hregion : 0 < config.regionSizeBlocks)
    (hranges : ∀ range ∈ ranges, Fits config pageId b range)
    (hC : ∀ t, MarkedSome b t (InRanges config pageId ranges) used → C t) :
    wp (ranges.foldlM (fillRange config pageId used) []) (Filled config pageId used b ranges) R C b := by
  apply wp_foldlM_done (Filled config pageId used b)
  · rintro done range rest dirtyRegions t hdone ⟨hmarked, hused, hdirty, hsummarised⟩
    have hin : ∀ i, InRanges config pageId done i → InRanges config pageId ranges i := by
      rintro i ⟨r, hr, hi⟩
      exact ⟨r, hdone ▸ mem_append_left _ hr, hi⟩
    obtain ⟨hle, hbound, hregions⟩ := hranges range (by rw [← hdone]; simp)
    have hmemdirty := fun region => @mem_dirty region _ _ _ hregion
      (Nat.add_le_add_right hle (pageId * config.pageBlocks)) hregions
    apply wp_bind.mpr
    apply wp_write_iff.mpr
    refine ⟨hC t (hmarked.mono hin), ?_⟩
    rw [if_neg (by rw [hmarked.numBits]; omega)]
    apply (wp_pure _).mpr
    have hsplit : ∀ i, InRanges config pageId (done ++ [range]) i ↔
        InRanges config pageId done i ∨ (range.1 + pageId * config.pageBlocks ≤ i ∧
          i < range.2 + pageId * config.pageBlocks) := by
      intro i
      simp [InRanges]
    refine ⟨?_, ?_, ?_, ?_⟩
    · apply (hmarked.mono fun i hi => (hsplit i).mpr (.inl hi)).trans
      refine ⟨rfl, rfl, fun i hi => ?_, fun i v hv => ?_⟩
      · rw [hsplit, not_or] at hi
        rw [content_write, if_neg hi.2]
        rfl
      · rcases mayHold_write.mp hv with hwrite | hold
        · rw [Option.ite_none_right_eq_some, Option.some.injEq] at hwrite
          exact .inr ⟨(hsplit i).mpr (.inr hwrite.1), hwrite.2.symm⟩
        · exact .inl hold
    · intro i hi
      rw [content_write]
      split
      · rfl
      · rename_i hnot
        rw [hsplit] at hi
        exact hused i (hi.resolve_right hnot)
    · intro region hregionmem
      rcases mem_append.mp hregionmem with hmem | hmem
      · exact hdirty region hmem
      · rw [hvalid.numBits_eq] at hbound
        exact Nat.lt_of_mul_lt_mul_right (((hmemdirty region).mp hmem).2.trans_le hbound)
    · intro region hlt hnot
      rw [mem_append, not_or, hmemdirty] at hnot
      have hsame := hsummarised region hlt hnot.1
      refine hsame.trans (congrArg gapsOf (map_congr_left fun i hi => ?_).symm)
      rw [mem_range'_1] at hi
      rw [content_write]
      -- A region outside the updated ones has no block of the range.
      have hout : ¬ (range.1 + pageId * config.pageBlocks ≤ i ∧
          i < range.2 + pageId * config.pageBlocks) := by
        rintro ⟨hge, hlt'⟩
        exact hnot.2 ⟨by omega, by omega⟩
      rw [if_neg hout]
      rfl
  · refine ⟨MarkedSome.refl _ _, ?_, ?_, fun region hlt _ => hvalid.summarised region hlt⟩
    · rintro i ⟨range, hrange, _⟩
      cases hrange
    · intro region hmem
      cases hmem

/-- The loop over the regions brings their gaps up to date and leaves the bits alone. -/
theorem wp_updateRegionGaps (hwords : config.regionSizeBlocks % 64 = 0) (hlt : config.regionSizeBlocks < 2 ^ 16)
    {dirtyRegions : List Nat} (hsize : t.numBits = t.numRegions * config.regionSizeBlocks)
    (hdirty : ∀ region ∈ dirtyRegions, region < t.numRegions)
    (hsummarised : ∀ region < t.numRegions, region ∉ dirtyRegions → t.Summarised config region)
    (hC : ∀ gaps, C { t with gaps }) :
    wp (dirtyRegions.foldlM (fun _ region => updateGaps config region) ())
      (fun _ t' => (∃ gaps, t' = { t with gaps }) ∧
        ∀ region < t.numRegions, t'.Summarised config region) R C t := by
  apply wp_conseq (wp_foldlM (fun rest _ t' => (∃ gaps, t' = { t with gaps }) ∧
    (∀ region ∈ rest, region < t.numRegions) ∧
    ∀ region < t.numRegions, region ∉ rest → t'.Summarised config region) ?_ dirtyRegions
    ⟨⟨t.gaps, rfl⟩, hdirty, hsummarised⟩)
  · rintro _ t' ⟨hbits, _, hall⟩
    exact ⟨hbits, fun region hlt => hall region hlt not_mem_nil⟩
  · rintro region rest _ _ ⟨⟨gaps, rfl⟩, hrest, hall⟩
    have hregion := hrest region mem_cons_self
    have hend : region * config.regionSizeBlocks + config.regionSizeBlocks ≤ t.numBits := by
      rw [← Nat.succ_mul, hsize]
      exact Nat.mul_le_mul_right _ hregion
    have haligned := regions_aligned hwords (region + 1)
    rw [Nat.add_one_mul] at haligned
    obtain ⟨chunks, hchunks, hflatten, hlen⟩ := rawRegion_eq t.bits.content
      (regions_aligned hwords region) haligned (Nat.le_add_right _ _)
    have hgaps : calculateGaps chunks config.regionSizeBlocks = gapsOf (t.regionBits config region) := by
      rw [calculateGaps_eq hlen (by rw [hflatten, length_bitSlice, Nat.add_sub_cancel_left]) hlt,
        hflatten, regionBits, Nat.add_one_mul]
    apply wp_write_iff.mpr
    refine ⟨hC gaps, ?_⟩
    dsimp only
    rw [if_neg (by omega), hchunks]
    refine ⟨⟨_, rfl⟩, fun r hr => hrest r (mem_cons_of_mem region hr), ?_⟩
    intro r hr hnot
    rw [Summarised, content_writeAt]
    split
    case isTrue heq =>
      rw [heq]
      exact hgaps
    case isFalse hne =>
      exact hall r hr fun hmem => (mem_cons.mp hmem).elim hne hnot

theorem wp_markBlocksBatch (haccepted : config.Accepted) (hwords : config.regionSizeBlocks % 64 = 0)
    (hvalid : b.Valid config) (hranges : ∀ range ∈ ranges, Fits config pageId b range)
    (hC : ∀ t, MarkedSome b t (InRanges config pageId ranges) used → C t) :
    wp (markBlocksBatch config pageId ranges used)
      (fun _ t => Marked config b t (InRanges config pageId ranges) used) R C b := by
  apply wp_seq (wp_fillRanges hvalid haccepted.region_pos hranges hC)
  rintro dirtyRegions t ⟨hmarked, hused, hdirty, hsummarised⟩
  apply wp_conseq (wp_updateRegionGaps (C := C) hwords haccepted.region_lt
    (by rw [hmarked.numBits, hmarked.numRegions, hvalid.numBits_eq])
    (by rw [hmarked.numRegions]; exact hdirty) (by rw [hmarked.numRegions]; exact hsummarised)
    (fun gaps => hC _ { hmarked with }))
  rintro _ _ ⟨⟨gaps, rfl⟩, hall⟩
  refine { toMarkedSome := { hmarked with }
           content_marked := hused, valid := ⟨?_, ?_, hall⟩ }
  · rw [hmarked.numBits, hmarked.numRegions, hvalid.numBits_eq]
  · intro i v hi hv
    rw [hmarked.numBits] at hi
    rcases hmarked.mayHold i v hv with hold | ⟨⟨range, hrange, _, hlt⟩, _⟩
    · exact hvalid.free_beyond i v hi hold
    · have := (hranges range hrange).2.1
      omega

theorem gapsOf_free {bits : List Bool} (h : true ∉ bits) : gapsOf bits = .allFree bits.length := by
  have hreverse : true ∉ bits.reverse := fun hmem => h (mem_reverse.mp hmem)
  have hfree := (FreeRuns.le_leading_iff.mp (leading_of_not_mem h).ge).2
  have hlongest : longest bits = bits.length :=
    Nat.le_antisymm (longest_le_length bits) ((isLongest_longest bits).2 _ _ hfree)
  rw [gapsOf, RegionGaps.allFree, hlongest, leading_of_not_mem h, trailing,
    leading_of_not_mem hreverse, length_reverse]

/-- The gaps of a region of free blocks. -/
theorem summarised_of_free (hgap : b.gaps.content region = .allFree config.regionSizeBlocks)
    (hfree : ∀ i, region * config.regionSizeBlocks ≤ i → b.bits.content i = false) :
    b.Summarised config region := by
  rw [Summarised, hgap, gapsOf_free, length_regionBits]
  intro hmem
  obtain ⟨i, hi, htrue⟩ := mem_map.mp hmem
  rw [mem_range'_1] at hi
  rw [hfree i hi.1] at htrue
  cases htrue

theorem content_createGaps {numRegions size : Nat} (h : region < numRegions) :
    (createGaps numRegions size).content region = .allFree size := by
  rw [createGaps, content_write, if_pos h]
  rfl

theorem mapLength_eq {numBits : Nat} (h : numBits % 64 = 0) : mapLength (numBits / 8) = .ok numBits := by
  rw [mapLength, if_pos (by omega)]
  congr 1
  omega

theorem Valid.content_beyond (hvalid : b.Valid config) {i : Nat} (hi : b.numBits ≤ i) :
    b.bits.content i = false := hvalid.free_beyond i _ hi (b.bits.content_mayHold i)

theorem create_eq (haccepted : config.Accepted) (hwords : config.regionSizeBlocks % 64 = 0) :
    ∃ b, create config = .ok b ∧ b.Valid config ∧ b.numBits = config.pageBlocks ∧
      b.bits = .ofContent fun _ => false := by
  obtain ⟨regions, _, hblocks, _⟩ := haccepted.pageBlocks_eq
  have hlength : mapLength (lengthForPage config) = .ok config.pageBlocks :=
    mapLength_eq (hblocks ▸ regions_aligned hwords regions)
  refine ⟨_, by rw [create, hlength]; rfl, ⟨?_, ?_, ?_⟩, rfl, rfl⟩
  · rw [hblocks, Nat.mul_div_cancel _ haccepted.region_pos]
  · intro i v _ hv
    exact (mayHold_ofContent.mp hv).symm
  · intro region hlt
    exact summarised_of_free (content_createGaps hlt) fun _ _ => rfl

/-- The bitmask covers one page more. -/
structure Grown (config : StorageConfig) (b t : Bitmask) : Prop where
  numBits : t.numBits = b.numBits + config.pageBlocks
  bits : t.bits = b.bits.sync
  valid : t.Valid config

theorem wp_coverNewPage (haccepted : config.Accepted) (hwords : config.regionSizeBlocks % 64 = 0)
    (hvalid : b.Valid config) (hC : C b)
    (hC' : C { b with bits := b.bits.sync, numBits := b.numBits + config.pageBlocks }) :
    wp (coverNewPage config) (fun _ t => b.Grown config t) R C b := by
  obtain ⟨regions, _, hblocks, _⟩ := haccepted.pageBlocks_eq
  have hpage : config.pageBlocks % 64 = 0 := hblocks ▸ regions_aligned hwords regions
  have hbits : b.numBits % 64 = 0 := hvalid.numBits_eq ▸ regions_aligned hwords b.numRegions
  have hlength : mapLength (b.numBits / 8 + lengthForPage config) =
      .ok (b.numBits + config.pageBlocks) := by
    rw [lengthForPage, show b.numBits / 8 + config.pageBlocks / 8 =
      (b.numBits + config.pageBlocks) / 8 by omega]
    exact mapLength_eq (by omega)
  have hnew : (b.numBits + config.pageBlocks) / config.regionSizeBlocks = b.numRegions + regions := by
    rw [hvalid.numBits_eq, hblocks, ← Nat.add_mul, Nat.mul_div_cancel _ haccepted.region_pos]
  apply wp_bind.mpr
  apply wp_write_iff.mpr
  rw [hlength]
  refine ⟨hC, ?_⟩
  apply wp_bind.mpr
  apply (wp_write rfl).mpr
  refine ⟨hC', ?_⟩
  apply wp_get_bind
  have hsize : (b.numRegions + regions) * config.regionSizeBlocks =
      b.numBits + config.pageBlocks := by
    rw [hvalid.numBits_eq, hblocks, Nat.add_mul]
  simp only [hnew, Nat.add_sub_cancel_left]
  rw [if_neg (by rw [hsize]; simp)]
  apply (wp_pure _).mpr
  refine ⟨rfl, rfl, hsize.symm, ?_, ?_⟩
  · intro i v hi hv
    dsimp only at hi
    rw [mayHold_sync.mp hv |>.symm]
    exact hvalid.content_beyond (by omega)
  · intro region hlt
    rcases Nat.lt_or_ge region b.numRegions with hold | hnewregion
    · have := hvalid.summarised region hold
      rw [Summarised] at this ⊢
      rw [content_write, if_neg (by omega)]
      exact this
    · apply summarised_of_free
      · rw [content_write, if_pos ⟨hnewregion, hlt⟩]
        rfl
      · intro i hi
        apply hvalid.content_beyond
        rw [hvalid.numBits_eq]
        exact (Nat.mul_le_mul_right _ hnewregion).trans hi

theorem Valid.sync (hvalid : b.Valid config) :
    ({ b with bits := b.bits.sync, gaps := b.gaps.sync } : Bitmask).Valid config where
  numBits_eq := hvalid.numBits_eq
  free_beyond i v hi hv := by
    rw [← mayHold_sync.mp hv]
    exact hvalid.content_beyond hi
  summarised := hvalid.summarised

theorem wp_flush : wp flush Q R C b ↔ C b ∧ C { b with bits := b.bits.sync } ∧
      Q () { b with bits := b.bits.sync, gaps := b.gaps.sync } := by
  rw [flush, wp_bind, wp_write rfl, wp_write rfl]

/-! ## Runs of calls -/

inductive Call where
  | coverNewPage
  | markBlocks (pageId blockOffset numBlocks : Nat) (used : Bool)
  | markBlocksBatch (pageId : Nat) (localBlockRanges : List (Nat × Nat)) (used : Bool)

def Call.prog (config : StorageConfig) : Call → Prog Bitmask GridstoreError Unit
  | .coverNewPage => Bitmask.coverNewPage config
  | .markBlocks pageId blockOffset numBlocks used =>
    Bitmask.markBlocks config pageId blockOffset numBlocks used
  | .markBlocksBatch pageId localBlockRanges used =>
    Bitmask.markBlocksBatch config pageId localBlockRanges used

/-- A call that panics ends the run. -/
def step (config : StorageConfig) (b : Bitmask) (call : Call) : Option Bitmask :=
  match (call.prog config b).result with
  | .ok _ => some (call.prog config b).state
  | .error _ => none

/-- The loop over the ranges only gets to its end if all of them are ranges of the page. -/
theorem wp_fillRanges_fits (hregions : ∀ stop ≤ b.numBits, divCeil stop config.regionSizeBlocks < 2 ^ 32)
    (ranges : List (Nat × Nat)) :
    wp (ranges.foldlM (fillRange config pageId used) [])
      (fun _ _ => ∀ range ∈ ranges, Fits config pageId b range) (fun _ _ => True) (fun _ => True) b := by
  apply wp_conseq (wp_foldlM_done (fun done _ t => t.numBits = b.numBits ∧
    ∀ range ∈ done, Fits config pageId b range) ?_ ⟨rfl, by simp⟩) fun _ _ h => h.2
  rintro done range rest _ t - ⟨hbits, hall⟩
  apply wp_bind.mpr
  apply wp_write_iff.mpr
  refine ⟨trivial, ?_⟩
  split
  case h_1 heq =>
    split at heq
    case isTrue => cases heq
    case isFalse hfits =>
      cases heq
      apply (wp_pure _).mpr
      refine ⟨hbits, forall_mem_append.mpr ⟨hall, forall_mem_singleton.mpr ?_⟩⟩
      rw [not_or, not_lt, not_lt, hbits] at hfits
      exact ⟨by omega, hfits.2, hregions _ hfits.2⟩
  case h_2 => trivial

section

variable (haccepted : config.Accepted) (hwords : config.regionSizeBlocks % 64 = 0)
  (hvalid : b.Valid config) (hregions : b.numRegions < 2 ^ 32)

include haccepted hwords hvalid hregions

theorem wp_markBlocksBatch_valid (pageId : Nat) (ranges : List (Nat × Nat)) (used : Bool) :
    wp (markBlocksBatch config pageId ranges used) (fun _ t => t.Valid config) (fun _ _ => True)
      (fun _ => True) b := by
  by_cases hranges : ∀ range ∈ ranges, Fits config pageId b range
  · exact wp_conseq (wp_markBlocksBatch haccepted hwords hvalid hranges fun _ _ => trivial)
      fun _ _ h => h.valid
  · refine wp_seq (wp_fillRanges_fits (fun stop hstop => ?_) ranges) fun _ _ h => absurd h hranges
    rw [hvalid.numBits_eq] at hstop
    exact ((divCeil_le_iff haccepted.region_pos).mpr hstop).trans_lt hregions

theorem Valid.step {call : Call} (hstep : step config b call = some t) : t.Valid config := by
  have hcall : wp (call.prog config) (fun _ t => t.Valid config) (fun _ _ => True) (fun _ => True) b := by
    cases call with
    | coverNewPage =>
      exact wp_conseq (wp_coverNewPage haccepted hwords hvalid trivial trivial) fun _ _ h => h.valid
    | markBlocks pageId blockOffset numBlocks used | markBlocksBatch pageId ranges used =>
      exact wp_markBlocksBatch_valid haccepted hwords hvalid hregions _ _ _
  unfold Bitmask.step at hstep
  split at hstep
  case h_1 hresult =>
    cases hstep
    exact wp_ok hcall hresult
  case h_2 => cases hstep

end

/-- If regions consist of whole words and can be counted in 32 bits, the gaps describe the bits after
every run of calls. -/
theorem summarised_of_calls (haccepted : config.Accepted) (hwords : config.regionSizeBlocks % 64 = 0)
    (hcreate : create config = .ok b) {calls : List Call}
    (hregions : Run.Guarded (step config) (fun b _ => b.numRegions < 2 ^ 32) b calls)
    (hrun : Run.run (step config) b calls = some t) :
    ∀ region < t.numRegions, t.Summarised config region := by
  obtain ⟨b', hcreate', hvalid, -⟩ := create_eq haccepted hwords
  obtain rfl : b = b' := Except.ok.inj (hcreate.symm.trans hcreate')
  have ht : t.Valid config := Run.run_invariant
    (fun s call s' hs hlt hstep => hs.step haccepted hwords hlt hstep) hrun hregions hvalid
  exact ht.summarised

/-- A page of two regions without a used block. -/
def twoFree (regionSizeBlocks : Nat) : Bitmask where
  numBits := 2 * regionSizeBlocks
  bits := .ofContent fun _ => false
  numRegions := 2
  gaps := createGaps 2 regionSizeBlocks

theorem valid_twoFree : (twoFree config.regionSizeBlocks).Valid config :=
  ⟨rfl, fun _ _ _ hv => (mayHold_ofContent.mp hv).symm,
    fun _ hlt => summarised_of_free (content_createGaps hlt) fun _ _ => rfl⟩

/-- The free blocks of the two regions are too many for 16 bits. -/
theorem findAvailableBlocks_twoFree {size : Nat} (hregion : config.regionSizeBlocks = size)
    (hlarge : 2 ^ 15 ≤ size) (hlt : size < 2 ^ 16) :
    (twoFree size).findAvailableBlocks config (size + 1) = .ok none := by
  have hneeded : divCeil (size + 1) size = 2 :=
    Nat.le_antisymm ((divCeil_le_iff (by omega)).mpr (by omega)) ((lt_divCeil_iff (by omega)).mpr (by omega))
  have hmerged : ∀ windowSize, 2 ≤ windowSize → windowSize ≤ 3 →
      findMergedGap size (twoFree size).gaps.content 2 windowSize (size + 1) = none := by
    intro windowSize hge hle
    apply findSome?_eq_none_iff.mpr
    intro first hfirst
    rw [mem_range] at hfirst
    obtain rfl : windowSize = 2 := by omega
    obtain rfl : first = 0 := by omega
    change (if size + 1 ≤ ((size + size) % 2 ^ 16 + 0 * size) % 2 ^ 32 then _ else none) = none
    rw [if_neg (by omega)]
  have hgap : findFittingGap size (twoFree size).gaps.content 2 (size + 1) = .ok none := by
    simp only [findFittingGap, hneeded, hmerged 2 (by decide) (by decide)]
    rfl
  rw [findAvailableBlocks, hregion]
  change findFittingGap size (twoFree size).gaps.content 2 (size + 1) >>= _ = _
  rw [hgap]
  rfl

/-- Options with two regions on a page, and blocks of one byte. -/
def twoRegions (regionSizeBlocks : Nat) : StorageConfig :=
  ⟨2 * regionSizeBlocks, 1, regionSizeBlocks, .none⟩

theorem accepted_twoRegions {size : Nat} (h : 0 < size) (hlt : size < 2 ^ 16) :
    (twoRegions size).Accepted :=
  ⟨Nat.one_pos, h, hlt, Nat.mul_pos Nat.two_pos h, (Nat.one_mul size).symm ▸ Nat.dvd_mul_left size 2⟩

theorem summarised_of_calls_64 : ∃ t, Run.run (step (twoRegions 64)) (twoFree 64)
      [.markBlocks 0 60 8 true, .coverNewPage] = some t ∧
    ∀ region < t.numRegions, t.Summarised (twoRegions 64) region := by
  obtain ⟨t, hrun⟩ : ∃ t, Run.run (step (twoRegions 64)) (twoFree 64)
    [.markBlocks 0 60 8 true, .coverNewPage] = some t := ⟨_, rfl⟩
  refine ⟨t, hrun, summarised_of_calls (accepted_twoRegions (by decide) (by decide)) rfl rfl ?_ hrun⟩
  exact .cons (by decide) rfl (.cons (by decide) rfl trivial)

set_option maxRecDepth 2000 in
/-- The last 32 blocks of a region of 96 have been marked. -/
theorem gaps_without_shared_word : ∃ t,
    StorageConfig.tryFrom (.ofConfig (twoRegions 96)) = .ok (twoRegions 96) ∧
      create (twoRegions 96) = .ok (twoFree 96) ∧
      Run.run (step (twoRegions 96)) (twoFree 96) [.markBlocks 0 64 32 true] = some t ∧
      t.gaps.content 0 = ⟨64, 64, 64⟩ ∧ gapsOf (t.regionBits (twoRegions 96) 0) = ⟨64, 64, 0⟩ :=
  ⟨_, rfl, rfl, rfl, by decide, by decide⟩

end Changes

end Bitmask

end Qdrant.Gridstore
