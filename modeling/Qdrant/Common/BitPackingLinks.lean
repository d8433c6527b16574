-- SUMMARY: Lists of links packed into bits: the first ones sorted and delta-encoded, the rest as they are.
import Qdrant.Common.BitPacking
import Mathlib.Data.List.Sort

/-!
# Packed links

Source: `lib/common/common/src/bitpacking_links.rs`.

The packed form of a list of links has a header with the width of the sorted links, the
deltas of the sorted links, and the unsorted links. The number of links is not stored: the
iterator goes on as long as enough bits are left, and the padding of the last byte is
shorter than any link.
-/

universe u

namespace Qdrant

open List Bytes BitFields

def minBitsPerValue : Nat := 8

/-- Bits for the width of the sorted links, less `minBitsPerValue`. -/
def headerBits : Nat := 5

/-! ## Deltas -/

/-- The difference of every value to the one before it. -/
def deltas : Nat → List Nat → List Nat
  | _, [] => []
  | previous, value :: values => (value - previous) :: deltas value values

/-- The values with these differences. -/
def undoDeltas : Nat → List Nat → List Nat
  | _, [] => []
  | previous, delta :: rest => (previous + delta) :: undoDeltas (previous + delta) rest

@[simp] theorem length_deltas (previous : Nat) (values : List Nat) :
    (deltas previous values).length = values.length := by
  induction values generalizing previous with
  | nil => rfl
  | cons value values ih => simp only [deltas, length_cons, ih]

theorem undoDeltas_deltas {previous : Nat} {values : List Nat}
    (h : (previous :: values).Pairwise (· ≤ ·)) : undoDeltas previous (deltas previous values) = values := by
  induction values generalizing previous with
  | nil => rfl
  | cons value values ih =>
    have hle : previous ≤ value := rel_of_pairwise_cons h mem_cons_self
    rw [deltas, undoDeltas, Nat.add_sub_cancel' hle, ih h.of_cons]

theorem deltas_lt {previous bound : Nat} {values : List Nat} (h : ∀ value ∈ values, value < bound) :
    ∀ delta ∈ deltas previous values, delta < bound := by
  induction values generalizing previous with
  | nil => intro delta hdelta; cases hdelta
  | cons value values ih =>
    intro delta hdelta
    rcases mem_cons.mp hdelta with rfl | hdelta
    · exact (Nat.sub_le ..).trans_lt (h value mem_cons_self)
    · exact ih (fun v hv => h v (mem_cons_of_mem _ hv)) delta hdelta

/-! ## Packing -/

/-- The sorted and delta-encoded links. -/
def sortedDeltas (rawLinks : List Nat) (sortedCount : Nat) : List Nat :=
  deltas 0 ((rawLinks.take sortedCount).insertionSort (· ≤ ·))

/-- The width of the sorted links. -/
def bitsPerSorted (deltas : List Nat) : Nat := max (packedBits (deltas.foldl max 0)) minBitsPerValue

/-- `pack_links`: what is packed after `links`, and the links in the order in which they are
packed. -/
def packLinks (links : List UInt8) (rawLinks : List Nat) (bitsPerUnsorted sortedCount : Nat) :
    List UInt8 × List Nat :=
  if rawLinks.isEmpty then (links, rawLinks)
  else
    let sortedCount := min rawLinks.length sortedCount
    let sorted := sortedDeltas rawLinks sortedCount
    let unsorted := rawLinks.drop sortedCount
    let w := BitWriter.new links
    let w :=
      if sortedCount ≠ 0 then
        (w.write (bitsPerSorted sorted - minBitsPerValue) headerBits).writeAll
          (sorted.map (·, bitsPerSorted sorted))
      else w
    ((w.writeAll (unsorted.map (·, bitsPerUnsorted))).finish, undoDeltas 0 sorted ++ unsorted)

/-- The links with the first `sortedCount` of them sorted. -/
def sortFirst (sortedCount : Nat) (rawLinks : List Nat) : List Nat :=
  (rawLinks.take sortedCount).insertionSort (· ≤ ·) ++ rawLinks.drop sortedCount

/-- The fields of packed links. -/
def linkFields (rawLinks : List Nat) (bitsPerUnsorted sortedCount : Nat) : List (Nat × Nat) :=
  let sorted := sortedDeltas rawLinks sortedCount
  (if min rawLinks.length sortedCount = 0 then []
    else (bitsPerSorted sorted - minBitsPerValue, headerBits) :: sorted.map (·, bitsPerSorted sorted)) ++
  (rawLinks.drop sortedCount).map (·, bitsPerUnsorted)

section

variable {rawLinks : List Nat} {bitsPerUnsorted sortedCount : Nat}

@[simp] theorem length_sortFirst (sortedCount : Nat) (rawLinks : List Nat) :
    (sortFirst sortedCount rawLinks).length = rawLinks.length := by
  simp only [sortFirst, length_append, length_insertionSort, length_take, length_drop]
  omega

theorem sortFirst_perm (sortedCount : Nat) (rawLinks : List Nat) :
    (sortFirst sortedCount rawLinks).Perm rawLinks := by
  have happend := (perm_insertionSort (· ≤ ·) (rawLinks.take sortedCount)).append_right
    (rawLinks.drop sortedCount)
  rwa [take_append_drop] at happend

@[simp] theorem length_sortedDeltas (rawLinks : List Nat) (sortedCount : Nat) :
    (sortedDeltas rawLinks sortedCount).length = min sortedCount rawLinks.length := by
  rw [sortedDeltas, length_deltas, length_insertionSort, length_take]

theorem undoDeltas_sortedDeltas (rawLinks : List Nat) (sortedCount : Nat) :
    undoDeltas 0 (sortedDeltas rawLinks sortedCount) =
      (rawLinks.take sortedCount).insertionSort (· ≤ ·) :=
  undoDeltas_deltas (pairwise_cons.mpr ⟨fun _ _ => Nat.zero_le _, pairwise_insertionSort _ _⟩)

theorem sortedDeltas_lt {bound : Nat} (h : ∀ link ∈ rawLinks, link < bound) :
    ∀ delta ∈ sortedDeltas rawLinks sortedCount, delta < bound := by
  apply deltas_lt
  intro link hlink
  exact h link (mem_of_mem_take ((mem_insertionSort _).mp hlink))

theorem foldl_max_lt {values : List Nat} {start bound : Nat} (hstart : start < bound)
    (h : ∀ value ∈ values, value < bound) : values.foldl max start < bound := by
  induction values generalizing start with
  | nil => exact hstart
  | cons value values ih =>
    exact ih (Nat.max_lt.mpr ⟨hstart, h value mem_cons_self⟩) fun v hv => h v (mem_cons_of_mem _ hv)

theorem lt_bitsPerSorted (deltas : List Nat) : ∀ delta ∈ deltas, delta < 2 ^ bitsPerSorted deltas := by
  intro delta hdelta
  apply ((le_foldl_max (fun delta => delta) deltas 0).2 delta hdelta).trans_lt
  exact packedBits_le_iff.mp (Nat.le_max_left ..)

theorem minBitsPerValue_le_bitsPerSorted (deltas : List Nat) : 8 ≤ bitsPerSorted deltas :=
  Nat.le_max_right ..

theorem bitsPerSorted_le {deltas : List Nat} (h : ∀ delta ∈ deltas, delta < 2 ^ 32) :
    bitsPerSorted deltas ≤ 32 :=
  Nat.max_le.mpr ⟨packedBits_le_iff.mpr (foldl_max_lt (by decide) h), by decide⟩

/-- The fields of more links than are sorted are those of the shortened count. -/
theorem take_min_length (rawLinks : List Nat) (sortedCount : Nat) :
    rawLinks.take (min rawLinks.length sortedCount) = rawLinks.take sortedCount ∧
      rawLinks.drop (min rawLinks.length sortedCount) = rawLinks.drop sortedCount := by
  rw [take_eq_take_iff, drop_eq_drop_iff]
  omega

/-- Links of at most 32 bits fit into the type of the links. -/
theorem lt_of_bits_le {links : List Nat} (hfits : ∀ link ∈ links, link < 2 ^ bitsPerUnsorted)
    (hmax : bitsPerUnsorted ≤ 32) : ∀ link ∈ links, link < 2 ^ 32 :=
  fun link hlink => (hfits link hlink).trans_le (Nat.pow_le_pow_right (by decide) hmax)

section

variable (hfits : ∀ link ∈ rawLinks, link < 2 ^ bitsPerUnsorted) (hmax : bitsPerUnsorted ≤ 32)
include hfits hmax

/-- The fields hold their values and are not wider than the buffer. -/
theorem linkFields_spec : ∀ field ∈ linkFields rawLinks bitsPerUnsorted sortedCount,
    field.1 < 2 ^ field.2 ∧ field.2 ≤ 64 := by
  have hdeltas : ∀ delta ∈ sortedDeltas rawLinks sortedCount, delta < 2 ^ 32 :=
    sortedDeltas_lt (lt_of_bits_le hfits hmax)
  intro field hfield
  rcases mem_append.mp hfield with hfield | hfield
  · split at hfield
    · cases hfield
    · rcases mem_cons.mp hfield with rfl | hfield
      · have hle := bitsPerSorted_le hdeltas
        have hge := minBitsPerValue_le_bitsPerSorted (sortedDeltas rawLinks sortedCount)
        simp only [minBitsPerValue, headerBits] at hge ⊢
        omega
      · obtain ⟨delta, hdelta, rfl⟩ := mem_map.mp hfield
        exact ⟨lt_bitsPerSorted _ delta hdelta, (bitsPerSorted_le hdeltas).trans (by decide)⟩
  · obtain ⟨link, hlink, rfl⟩ := mem_map.mp hfield
    exact ⟨hfits link (mem_of_mem_drop hlink), hmax.trans (by decide)⟩

theorem linkFields_fits : Fits (linkFields rawLinks bitsPerUnsorted sortedCount) :=
  fun field hfield => (linkFields_spec hfits hmax field hfield).1

theorem packLinks_eq (links : List UInt8) : packLinks links rawLinks bitsPerUnsorted sortedCount =
      (links ++ pack (linkFields rawLinks bitsPerUnsorted sortedCount),
        sortFirst sortedCount rawLinks) := by
  cases rawLinks with
  | nil => simp [packLinks, linkFields, sortFirst, pack, toLE]
  | cons link rest =>
    obtain ⟨htake, hdrop⟩ := take_min_length (link :: rest) sortedCount
    have hsorted : sortedDeltas (link :: rest) (min (link :: rest).length sortedCount) =
        sortedDeltas (link :: rest) sortedCount := by
      rw [sortedDeltas, htake, sortedDeltas]
    have hfields : Fits (linkFields (link :: rest) bitsPerUnsorted sortedCount) :=
      linkFields_fits hfits hmax
    have hwrite := BitWriter.finish_writeAll hfields
      (fun field hfield => (linkFields_spec hfits hmax field hfield).2) links
    refine Prod.ext ?_ ?_
    · rw [← hwrite]
      simp only [packLinks, isEmpty_cons, hsorted, hdrop, linkFields, ite_not,
        BitWriter.writeAll_append, Bool.false_eq_true, if_false]
      split <;> rfl
    · simp only [packLinks, hsorted, hdrop]
      exact congrArg (· ++ _) (undoDeltas_sortedDeltas _ _)

end

end

/-! ## Iterating -/

structure PackedLinksIterator where
  reader : BitReader
  bitsPerUnsorted : Nat
  remainingBits : Nat
  remainingBitsTarget : Nat
  currentDelta : Nat

/-- `iterate_packed_links`. -/
def iteratePackedLinks (links : List UInt8) (bitsPerUnsorted sortedCount : Nat) :
    PackedLinksIterator :=
  let reader := BitReader.new links
  let remainingBits := links.length * 8
  if sortedCount ≠ 0 ∧ ¬ links.isEmpty then
    let (header, reader) := (reader.setBits headerBits).read 8
    let bitsPerSorted := header + minBitsPerValue
    let maxSorted := (remainingBits - headerBits) / bitsPerSorted
    { reader := reader.setBits bitsPerSorted
      bitsPerUnsorted
      remainingBits := remainingBits - headerBits
      remainingBitsTarget := remainingBits - min sortedCount maxSorted * bitsPerSorted
      currentDelta := 0 }
  else
    { reader := reader.setBits bitsPerUnsorted
      bitsPerUnsorted, remainingBits
      remainingBitsTarget := remainingBits
      currentDelta := 0 }

/-- `next_multiple_of`. -/
def nextMultipleOf (n multiple : Nat) : Nat := (n + multiple - 1) / multiple * multiple

/-- `packed_links_size`: the number of bytes of so many packed links at the start of `data`. -/
def packedLinksSize (data : List UInt8) (bitsPerUnsorted sortedCount totalCount : Nat) : Nat :=
  if totalCount = 0 then 0
  else
    match data.head? with
    | none => 0
    | some firstByte =>
      let actualSortedCount := min totalCount sortedCount
      let sortedBits :=
        if 0 < actualSortedCount then
          headerBits +
            actualSortedCount * ((firstByte.toNat &&& makeBitmask 8 headerBits) + minBitsPerValue)
        else 0
      (sortedBits + (totalCount - actualSortedCount) * bitsPerUnsorted + 7) / 8

namespace PackedLinksIterator

section

variable (it : PackedLinksIterator)

/-- `next_sorted`. -/
def nextSorted : Nat × PackedLinksIterator :=
  let (delta, reader) := it.reader.read 32
  let currentDelta := (it.currentDelta + delta) % 2 ^ 32
  (currentDelta,
    { it with reader, currentDelta, remainingBits := it.remainingBits - it.reader.bits })

/-- `next_unsorted`. -/
def nextUnsorted : Option Nat × PackedLinksIterator :=
  if it.reader.bits ≤ it.remainingBits then
    let (value, reader) := it.reader.read 32
    (some value, { it with reader, remainingBits := it.remainingBits - it.reader.bits })
  else (none, it)

def next : Option Nat × PackedLinksIterator :=
  if it.remainingBitsTarget < it.remainingBits then
    let (value, it) := it.nextSorted
    if it.remainingBits ≤ it.remainingBitsTarget then
      (some value, { it with reader := it.reader.setBits it.bitsPerUnsorted })
    else (some value, it)
  else it.nextUnsorted

end

/-- What the iterator gives until it ends. -/
def collect : Nat → PackedLinksIterator → List Nat
  | 0, _ => []
  | fuel + 1, it =>
    match it.next with
    | (none, _) => []
    | (some value, it) => value :: collect fuel it

/-- All that the iterator gives. A link takes more than one bit, so the number of bits is
enough fuel. -/
def toList (it : PackedLinksIterator) : List Nat := it.collect (it.remainingBits + 1)

/-- The iterator after so many calls of `next`. -/
def advance : Nat → PackedLinksIterator → PackedLinksIterator
  | 0, it => it
  | count + 1, it => advance count it.next.2

variable {Acc : Type u} (f : Acc → Nat → Acc)

/-- The second loop of `fold`. -/
def foldUnsorted : Nat → PackedLinksIterator → Acc → Acc
  | 0, _, acc => acc
  | fuel + 1, it, acc =>
    match it.nextUnsorted with
    | (none, _) => acc
    | (some value, it) => foldUnsorted fuel it (f acc value)

/-- The loops of `fold`. -/
def foldLoops : Nat → PackedLinksIterator → Acc → Acc
  | 0, _, acc => acc
  | fuel + 1, it, acc =>
    if it.remainingBitsTarget < it.remainingBits then
      foldLoops fuel it.nextSorted.2 (f acc it.nextSorted.1)
    else foldUnsorted f (fuel + 1) { it with reader := it.reader.setBits it.bitsPerUnsorted } acc

def fold (it : PackedLinksIterator) (acc : Acc) : Acc := foldLoops f (it.remainingBits + 1) it acc

def sizeHint (it : PackedLinksIterator) : Nat × Option Nat :=
  let count :=
    if it.remainingBitsTarget ≤ it.remainingBits then
      let sortedBits := nextMultipleOf (it.remainingBits - it.remainingBitsTarget) it.reader.bits
      sortedBits / it.reader.bits + (it.remainingBits - sortedBits) / it.bitsPerUnsorted
    else it.remainingBits / it.reader.bits
  (count, some count)

end PackedLinksIterator

/-! ## Round trip -/

namespace PackedLinksIterator

variable {it : PackedLinksIterator} {pre : List (Nat × Nat)} {bitsPerSorted bitsPerUnsorted : Nat}

/-- The iterator stands after `pre` in the packed fields, with the fields of `post` to come. -/
structure Reads (it : PackedLinksIterator) (pre post : List (Nat × Nat)) : Prop where
  fits : Fits (pre ++ post)
  reader : it.reader.At (pack (pre ++ post)) (width pre)
  remaining : it.remainingBits + width pre = 8 * (pack (pre ++ post)).length

variable {post : List (Nat × Nat)}

theorem Reads.width_le (h : it.Reads pre post) :
    width post ≤ it.remainingBits ∧ it.remainingBits < width post + 8 := by
  have hremaining := h.remaining
  rw [length_pack, width_append] at hremaining
  omega

/-- The iterator after the next field. -/
theorem Reads.next {it' : PackedLinksIterator} {field : Nat × Nat}
    (h : it.Reads pre (field :: post))
    (hat : it'.reader.At (pack (pre ++ [field] ++ post)) (width (pre ++ [field])))
    (hless : it'.remainingBits = it.remainingBits - field.2) : it'.Reads (pre ++ [field]) post := by
  have hwidth := h.width_le.1
  have hremaining := h.remaining
  rw [width_cons] at hwidth
  refine ⟨?_, hat, ?_⟩
  · rw [append_assoc]
    exact h.fits
  · rw [append_assoc, singleton_append, width_append, width_cons, width_nil]
    omega

/-- What is left to read: the differences of sorted links, and unsorted links. -/
structure Expects (it : PackedLinksIterator) (bitsPerSorted : Nat) (deltas links : List Nat) : Prop where
  reads : ∃ pre, it.Reads pre (deltas.map (·, bitsPerSorted) ++ links.map (·, it.bitsPerUnsorted))
  bits : it.reader.bits = if deltas = [] then it.bitsPerUnsorted else bitsPerSorted
  minSorted : 8 ≤ bitsPerSorted
  min : 8 ≤ it.bitsPerUnsorted
  max : it.bitsPerUnsorted ≤ 32
  -- The target leaves out the header, which has been read before.
  sorted : deltas ≠ [] →
    it.remainingBitsTarget + deltas.length * bitsPerSorted = it.remainingBits + headerBits
  unsorted : deltas = [] → it.remainingBits ≤ it.remainingBitsTarget
  values : ∀ value ∈ undoDeltas it.currentDelta deltas, value < 2 ^ 32

section

variable {delta link : Nat} {deltas links : List Nat}

theorem Expects.remainingBits (h : it.Expects bitsPerSorted deltas links) :
    deltas.length * bitsPerSorted + links.length * it.bitsPerUnsorted ≤ it.remainingBits ∧
      it.remainingBits < deltas.length * bitsPerSorted + links.length * it.bitsPerUnsorted + 8 := by
  obtain ⟨pre, hreads⟩ := h.reads
  have hwidth := hreads.width_le
  rwa [width_append, width_map, width_map] at hwidth

theorem Expects.next_nil (h : it.Expects bitsPerSorted [] []) : it.next = (none, it) := by
  have hshort : ¬ it.reader.bits ≤ it.remainingBits := by
    have hwidth := h.remainingBits.2
    have hmin := h.min
    rw [h.bits, if_pos rfl]
    simp only [length_nil] at hwidth
    omega
  rw [next, if_neg (not_lt.mpr (h.unsorted rfl)), nextUnsorted, if_neg hshort]

theorem Expects.next_unsorted (h : it.Expects bitsPerSorted [] (link :: links)) :
    ∃ it', it.next = (some link, it') ∧ it'.Expects bitsPerSorted [] links := by
  obtain ⟨pre, hreads⟩ := h.reads
  have hbits : it.reader.bits = it.bitsPerUnsorted := h.bits
  have hlong : it.reader.bits ≤ it.remainingBits := by
    have hwidth := h.remainingBits.1
    rw [length_cons, Nat.succ_mul] at hwidth
    omega
  have hlink : link < 2 ^ it.bitsPerUnsorted :=
    hreads.fits (link, it.bitsPerUnsorted) (mem_append_right _ mem_cons_self)
  obtain ⟨hvalue, hat⟩ := hreads.reader.read_field hreads.fits hbits
    (hlink.trans_le (Nat.pow_le_pow_right (by decide) h.max))
  refine ⟨{ it with
    reader := (it.reader.read 32).2
    remainingBits := it.remainingBits - it.reader.bits }, ?_, ?_⟩
  · simp only [next, nextUnsorted, if_neg (not_lt.mpr (h.unsorted rfl)), if_pos hlong, hvalue]
  · exact {
      h with
      reads := ⟨_, hreads.next hat (congrArg _ hbits)⟩
      bits := (BitReader.bits_read ..).trans h.bits
      sorted := fun hne => absurd rfl hne
      unsorted := fun _ => (Nat.sub_le ..).trans (h.unsorted rfl) }

theorem Expects.next_sorted (h : it.Expects bitsPerSorted (delta :: deltas) links) :
    ∃ it', it.next = (some (it.currentDelta + delta), it') ∧
      it'.currentDelta = it.currentDelta + delta ∧ it'.Expects bitsPerSorted deltas links := by
  obtain ⟨pre, hreads⟩ := h.reads
  have hbits : it.reader.bits = bitsPerSorted := h.bits
  have htarget := h.sorted (cons_ne_nil _ _)
  rw [length_cons, Nat.succ_mul] at htarget
  have hheader : headerBits = 5 := rfl
  have hmin := h.minSorted
  have hwidth := h.remainingBits.1
  rw [length_cons, Nat.succ_mul] at hwidth
  have hvalue32 := h.values (it.currentDelta + delta) mem_cons_self
  obtain ⟨hvalue, hat⟩ := hreads.reader.read_field hreads.fits hbits (by omega : delta < 2 ^ 32)
  -- The width of the unsorted links is set after the last sorted one.
  have hle : (if deltas = [] then it.bitsPerUnsorted else bitsPerSorted) ≤ 64 := by
    split
    · exact h.max.trans (by decide)
    · exact hbits ▸ hreads.reader.bits_le
  refine ⟨{ it with
    reader := (it.reader.read 32).2.setBits (if deltas = [] then it.bitsPerUnsorted else bitsPerSorted)
    currentDelta := it.currentDelta + delta
    remainingBits := it.remainingBits - it.reader.bits }, ?_, rfl, ?_⟩
  · simp only [next, nextSorted, if_pos (by omega : it.remainingBitsTarget < it.remainingBits), hvalue,
      Nat.mod_eq_of_lt hvalue32]
    cases deltas with
    | nil => rw [length_nil] at htarget; rw [if_pos (by omega), if_pos rfl]
    | cons d ds =>
      rw [length_cons, Nat.succ_mul] at htarget
      have hself := hat.setBits_self
      rw [BitReader.bits_read, hbits] at hself
      rw [if_neg (by omega), if_neg (cons_ne_nil d ds), hself]
  · refine {
      h with
      reads := ⟨_, hreads.next (hat.setBits hle) (congrArg _ hbits)⟩
      bits := rfl
      sorted := fun _ => ?_
      unsorted := fun hnil => ?_
      values := fun v hv => h.values v (mem_cons_of_mem _ hv) }
    · dsimp only
      omega
    · rw [hnil, length_nil] at htarget
      dsimp only
      omega

end

/-- The iterator has these links to give. -/
def Left (it : PackedLinksIterator) (links : List Nat) : Prop :=
  ∃ bitsPerSorted deltas unsorted, it.Expects bitsPerSorted deltas unsorted ∧
    links = undoDeltas it.currentDelta deltas ++ unsorted

section

variable {links : List Nat}

theorem Left.next_nil (h : it.Left []) : it.next = (none, it) := by
  obtain ⟨bitsPerSorted, deltas, unsorted, h, heq⟩ := h
  cases deltas with
  | nil => cases heq; exact h.next_nil
  | cons delta deltas => cases heq

theorem Left.next_cons {link : Nat} (h : it.Left (link :: links)) :
    ∃ it', it.next = (some link, it') ∧ it'.Left links := by
  obtain ⟨bitsPerSorted, deltas, unsorted, h, heq⟩ := h
  cases deltas with
  | nil =>
    cases heq
    obtain ⟨it', hnext, h'⟩ := h.next_unsorted
    exact ⟨it', hnext, _, _, _, h', rfl⟩
  | cons delta deltas =>
    cases heq
    obtain ⟨it', hnext, hdelta, h'⟩ := h.next_sorted
    exact ⟨it', hnext, _, _, _, h', by rw [hdelta]; rfl⟩

theorem Left.collect (h : it.Left links) {fuel : Nat} (hfuel : links.length < fuel) :
    it.collect fuel = links := by
  induction links generalizing it fuel with
  | nil =>
    cases fuel with
    | zero => cases hfuel
    | succ fuel => rw [PackedLinksIterator.collect, h.next_nil]
  | cons link links ih =>
    cases fuel with
    | zero => cases hfuel
    | succ fuel =>
      obtain ⟨it', hnext, h'⟩ := h.next_cons
      rw [PackedLinksIterator.collect, hnext]
      exact congrArg _ (ih h' (Nat.lt_of_succ_lt_succ hfuel))

theorem Left.advance (h : it.Left links) (count : Nat) : (it.advance count).Left (links.drop count) := by
  induction count generalizing it links with
  | zero => exact h
  | succ count ih =>
    cases links with
    | nil =>
      have hit := ih h
      rw [drop_nil] at hit ⊢
      rwa [PackedLinksIterator.advance, h.next_nil]
    | cons link links =>
      obtain ⟨it', hnext, h'⟩ := h.next_cons
      rw [PackedLinksIterator.advance, hnext]
      exact ih h'

theorem length_undoDeltas (previous : Nat) (deltas : List Nat) :
    (undoDeltas previous deltas).length = deltas.length := by
  induction deltas generalizing previous with
  | nil => rfl
  | cons delta deltas ih => simp only [undoDeltas, length_cons, ih]

theorem Left.length_le (h : it.Left links) : links.length ≤ it.remainingBits := by
  obtain ⟨bitsPerSorted, deltas, unsorted, h, rfl⟩ := h
  have hsorted : deltas.length ≤ deltas.length * bitsPerSorted :=
    Nat.le_mul_of_pos_right _ (Nat.lt_of_lt_of_le (by decide) h.minSorted)
  have hunsorted : unsorted.length ≤ unsorted.length * it.bitsPerUnsorted :=
    Nat.le_mul_of_pos_right _ (Nat.lt_of_lt_of_le (by decide) h.min)
  rw [length_append, length_undoDeltas]
  exact (Nat.add_le_add hsorted hunsorted).trans h.remainingBits.1

/-- Padding of less than a value does not change how many values there are. -/
theorem div_of_padded {bits count total : Nat} (hbits : 8 ≤ bits) (hle : count * bits ≤ total)
    (hlt : total < count * bits + 8) : total / bits = count := by
  apply Nat.div_eq_of_lt_le hle
  rw [Nat.succ_mul]
  omega

theorem Left.sizeHint (h : it.Left links) : it.sizeHint = (links.length, some links.length) := by
  obtain ⟨bitsPerSorted, deltas, unsorted, h, rfl⟩ := h
  obtain ⟨hle, hlt⟩ := h.remainingBits
  have hmin := h.min
  have hsorted := h.minSorted
  have hbits := h.bits
  suffices hcount : it.sizeHint.1 = deltas.length + unsorted.length by
    rw [length_append, length_undoDeltas, ← hcount]
    rfl
  unfold PackedLinksIterator.sizeHint
  dsimp only
  cases deltas with
  | nil =>
    rw [if_pos rfl] at hbits
    rw [length_nil, Nat.zero_mul, Nat.zero_add] at hle hlt
    rw [length_nil, Nat.zero_add, hbits]
    have hcount := div_of_padded hmin hle hlt
    split
    next htarget =>
      have hzero : it.remainingBits - it.remainingBitsTarget = 0 := Nat.sub_eq_zero_of_le (h.unsorted rfl)
      have hnone : nextMultipleOf 0 it.bitsPerUnsorted = 0 := by
        rw [nextMultipleOf, Nat.div_eq_of_lt (by omega), Nat.zero_mul]
      rw [hzero, hnone, Nat.zero_div, Nat.zero_add, Nat.sub_zero, hcount]
    next => exact hcount
  | cons delta deltas =>
    rw [if_neg (cons_ne_nil _ _)] at hbits
    have htarget := h.sorted (cons_ne_nil _ _)
    have hheader : headerBits = 5 := rfl
    have hone : bitsPerSorted ≤ (delta :: deltas).length * bitsPerSorted :=
      Nat.le_mul_of_pos_left _ (Nat.succ_pos _)
    have hround : nextMultipleOf (it.remainingBits - it.remainingBitsTarget) bitsPerSorted =
        (delta :: deltas).length * bitsPerSorted := by
      rw [nextMultipleOf]
      congr 1
      apply Nat.div_eq_of_lt_le
      · omega
      · rw [Nat.succ_mul]
        omega
    rw [if_pos (by omega), hbits, hround, Nat.mul_div_cancel _ (by omega)]
    congr 1
    exact div_of_padded hmin (by omega) (by omega)

end

section

variable {Acc : Type u} (f : Acc → Nat → Acc)

theorem foldUnsorted_eq (h : it.remainingBits ≤ it.remainingBitsTarget) (fuel : Nat) (acc : Acc) :
    foldUnsorted f fuel it acc = (it.collect fuel).foldl f acc := by
  induction fuel generalizing it acc with
  | zero => rfl
  | succ fuel ih =>
    rw [foldUnsorted, collect, next, if_neg (not_lt.mpr h), nextUnsorted]
    rcases Nat.lt_or_ge it.remainingBits it.reader.bits with hshort | hroom
    · rw [if_neg (not_le.mpr hshort)]
      rfl
    · rw [if_pos hroom]
      refine ih ?_ _
      exact (Nat.sub_le ..).trans h

/-- `fold` sets the width of the unsorted links before all of them, `next` after the last sorted
link. -/
theorem foldLoops_eq
    (h : it.remainingBits ≤ it.remainingBitsTarget → it.reader.setBits it.bitsPerUnsorted = it.reader)
    (fuel : Nat) (acc : Acc) : foldLoops f fuel it acc = (it.collect fuel).foldl f acc := by
  induction fuel generalizing it acc with
  | zero => rfl
  | succ fuel ih =>
    rw [foldLoops]
    split
    next hsorted =>
      rw [collect, next, if_pos hsorted]
      dsimp only
      rcases Nat.lt_or_ge it.nextSorted.2.remainingBitsTarget it.nextSorted.2.remainingBits with hmore | hlast
      · rw [if_neg (not_le.mpr hmore)]
        exact ih (fun hle => absurd hmore (not_lt.mpr hle)) _
      · rw [if_pos hlast]
        refine Eq.trans ?_ (ih (fun _ => rfl) _)
        cases fuel with
        | zero => rfl
        | succ fuel =>
          rw [foldLoops, if_neg (not_lt.mpr hlast)]
          exact (if_neg (not_lt.mpr hlast)).symm
    next hunsorted =>
      have hle := Nat.le_of_not_lt hunsorted
      rw [h hle]
      exact foldUnsorted_eq f hle _ acc

theorem Left.fold {links : List Nat} (h : it.Left links) (acc : Acc) :
    fold f it acc = links.foldl f acc := by
  rw [PackedLinksIterator.fold, foldLoops_eq, h.collect (Nat.lt_succ_of_le h.length_le)]
  obtain ⟨bitsPerSorted, deltas, unsorted, h, -⟩ := h
  intro hle
  obtain ⟨pre, hreads⟩ := h.reads
  cases deltas with
  | nil => exact (congrArg _ h.bits.symm).trans hreads.reader.setBits_self
  | cons delta deltas =>
    have htarget := h.sorted (cons_ne_nil _ _)
    have hheader : headerBits = 5 := rfl
    have hmin := h.minSorted
    rw [length_cons, Nat.succ_mul] at htarget
    omega

end

end PackedLinksIterator

section

variable {rawLinks : List Nat} {bitsPerUnsorted : Nat}
variable {sortedCount : Nat}

theorem linkFields_of_unsorted (h : min rawLinks.length sortedCount = 0) :
    linkFields rawLinks bitsPerUnsorted sortedCount = rawLinks.map (·, bitsPerUnsorted) ∧
      sortFirst sortedCount rawLinks = rawLinks := by
  obtain ⟨htake, hdrop⟩ := take_min_length rawLinks sortedCount
  rw [h] at htake hdrop
  constructor
  · rw [linkFields, if_pos h, ← hdrop]
    rfl
  · rw [sortFirst, ← htake, ← hdrop]
    rfl

theorem linkFields_of_sorted (h : 0 < min rawLinks.length sortedCount) :
    linkFields rawLinks bitsPerUnsorted sortedCount =
      (bitsPerSorted (sortedDeltas rawLinks sortedCount) - minBitsPerValue, headerBits) ::
        ((sortedDeltas rawLinks sortedCount).map
            (·, bitsPerSorted (sortedDeltas rawLinks sortedCount)) ++
          (rawLinks.drop sortedCount).map (·, bitsPerUnsorted)) := by
  rw [linkFields, if_neg h.ne', cons_append]

variable {bits : Nat}

theorem length_le_width_map (links : List Nat) (hmin : 8 ≤ bits) :
    links.length ≤ width (links.map (·, bits)) := by
  rw [width_map]
  exact Nat.le_mul_of_pos_right _ (by omega)

/-- The number of sorted links that the bits have room for. -/
theorem min_maxSorted {count unsortedBits total : Nat} (hmin : 8 ≤ bits)
    (hcount : count ≤ sortedCount) (hunsorted : count < sortedCount → unsortedBits = 0)
    (htotal : total = 8 * ((headerBits + (count * bits + unsortedBits) + 7) / 8)) :
    min sortedCount ((total - headerBits) / bits) = count := by
  have hge : count * bits ≤ total - headerBits := by omega
  have hroom : count ≤ (total - headerBits) / bits := (Nat.le_div_iff_mul_le (by omega)).mpr hge
  rcases Nat.lt_or_ge count sortedCount with hlt | hle
  · -- All links are sorted, and the padding is shorter than one more.
    have hless : (total - headerBits) / bits < count + 1 := by
      apply (Nat.div_lt_iff_lt_mul (by omega)).mpr
      rw [Nat.succ_mul]
      omega
    omega
  · omega

theorem left_unsorted {links : List Nat} (hfits : ∀ link ∈ links, link < 2 ^ bitsPerUnsorted)
    (hmin : 8 ≤ bitsPerUnsorted) (hmax : bitsPerUnsorted ≤ 32) (h : sortedCount = 0 ∨ links = []) :
    (iteratePackedLinks (pack (links.map (·, bitsPerUnsorted))) bitsPerUnsorted sortedCount).Left
      links := by
  have hcond : ¬ (sortedCount ≠ 0 ∧ ¬ (pack (links.map (·, bitsPerUnsorted))).isEmpty) := by
    rcases h with rfl | rfl
    · exact fun hc => hc.1 rfl
    · exact fun hc => hc.2 (by simp [pack, toLE])
  rw [iteratePackedLinks, if_neg hcond]
  refine ⟨8, [], links, ?_, rfl⟩
  exact {
    reads := ⟨[], fits_map hfits, (BitReader.at_new _).setBits (hmax.trans (by decide)),
      Nat.mul_comm _ _⟩
    bits := rfl
    minSorted := le_rfl
    min := hmin
    max := hmax
    sorted := fun hne => absurd rfl hne
    unsorted := fun _ => le_rfl
    values := fun value hvalue => by cases hvalue }

variable {post : List (Nat × Nat)}

/-- The iterator after the header. -/
theorem iteratePackedLinks_header
    (hfits : Fits ((bits - minBitsPerValue, headerBits) :: post)) (hmin : 8 ≤ bits)
    (hsorted : 0 < sortedCount) (bitsPerUnsorted : Nat) :
    let data := pack ((bits - minBitsPerValue, headerBits) :: post)
    ∃ reader : BitReader, reader.At data headerBits ∧
      iteratePackedLinks data bitsPerUnsorted sortedCount =
        { reader := reader.setBits bits
          bitsPerUnsorted
          remainingBits := data.length * 8 - headerBits
          remainingBitsTarget := data.length * 8 -
            min sortedCount ((data.length * 8 - headerBits) / bits) * bits
          currentDelta := 0 } := by
  intro data
  have hstart : ((BitReader.new data).setBits headerBits).At
      (pack ([] ++ (bits - minBitsPerValue, headerBits) :: post)) (width []) :=
    (BitReader.at_new _).setBits (by decide)
  have hheader := hfits _ mem_cons_self
  obtain ⟨hvalue, hat⟩ := hstart.read_field hfits rfl
    (hheader.trans_le (by decide : 2 ^ headerBits ≤ 2 ^ 8))
  have hlength : 0 < data.length := by
    rw [length_pack, width_cons]
    have : headerBits = 5 := rfl
    omega
  have hcond : sortedCount ≠ 0 ∧ ¬ data.isEmpty := by
    refine ⟨hsorted.ne', fun hempty => ?_⟩
    rw [isEmpty_iff.mp hempty] at hlength
    exact absurd hlength (Nat.lt_irrefl 0)
  refine ⟨_, hat, ?_⟩
  rw [iteratePackedLinks, if_pos hcond]
  dsimp only
  rw [hvalue]
  rw [minBitsPerValue, Nat.sub_add_cancel hmin]

theorem left_sorted {ds links : List Nat} (hfits : Fits ((bits - minBitsPerValue, headerBits) ::
      (ds.map (·, bits) ++ links.map (·, bitsPerUnsorted))))
    (hminSorted : 8 ≤ bits) (hmaxSorted : bits ≤ 64) (hmin : 8 ≤ bitsPerUnsorted)
    (hmax : bitsPerUnsorted ≤ 32) (hpos : 0 < ds.length) (hcount : ds.length ≤ sortedCount)
    (hall : ds.length < sortedCount → links = []) (hds : ∀ value ∈ undoDeltas 0 ds, value < 2 ^ 32) :
    (iteratePackedLinks (pack ((bits - minBitsPerValue, headerBits) ::
      (ds.map (·, bits) ++ links.map (·, bitsPerUnsorted)))) bitsPerUnsorted sortedCount).Left
      (undoDeltas 0 ds ++ links) := by
  obtain ⟨reader, hat, hiterate⟩ := iteratePackedLinks_header hfits hminSorted
    (hpos.trans_le hcount) bitsPerUnsorted
  have hlength := length_pack ((bits - minBitsPerValue, headerBits) ::
    (ds.map (·, bits) ++ links.map (·, bitsPerUnsorted)))
  rw [width_cons, width_append, width_map, width_map] at hlength
  have hunsorted : ds.length < sortedCount → links.length * bitsPerUnsorted = 0 := fun hlt => by
    rw [hall hlt, length_nil, Nat.zero_mul]
  have hfound := min_maxSorted hminSorted hcount hunsorted rfl
  rw [← hlength, Nat.mul_comm 8] at hfound
  have hne : ds ≠ [] := length_pos_iff.mp hpos
  rw [hiterate, hfound]
  refine ⟨bits, ds, links, ?_, rfl⟩
  refine {
    reads := ⟨[(bits - minBitsPerValue, headerBits)], hfits, hat.setBits hmaxSorted, ?_⟩
    bits := (if_neg hne).symm
    minSorted := hminSorted
    min := hmin
    max := hmax
    sorted := fun _ => ?_
    unsorted := fun hnil => absurd hnil hne
    values := hds }
  · rw [singleton_append, width_cons, width_nil]
    dsimp only
    omega
  · dsimp only
    omega

/-- Only an empty list of links takes no bytes. -/
theorem length_pack_linkFields (hmin : 8 ≤ bitsPerUnsorted) (sortedCount : Nat) :
    rawLinks.length ≤ 8 * (pack (linkFields rawLinks bitsPerUnsorted sortedCount)).length := by
  have hle : rawLinks.length ≤ width (linkFields rawLinks bitsPerUnsorted sortedCount) := by
    rcases Nat.eq_zero_or_pos (min rawLinks.length sortedCount) with hzero | hpos
    · rw [(linkFields_of_unsorted hzero).1]
      exact length_le_width_map rawLinks hmin
    · have hsorted := length_le_width_map (sortedDeltas rawLinks sortedCount)
        (minBitsPerValue_le_bitsPerSorted (sortedDeltas rawLinks sortedCount))
      have hunsorted := length_le_width_map (rawLinks.drop sortedCount) hmin
      rw [length_sortedDeltas] at hsorted
      rw [length_drop] at hunsorted
      rw [linkFields_of_sorted hpos, width_cons, width_append]
      omega
  rw [length_pack]
  omega

theorem head?_eq {data : List UInt8} (h : 0 < data.length) :
    ∃ byte, data.head? = some byte ∧ byte.toNat = ofLE data % 2 ^ 8 := by
  cases data with
  | nil => cases h
  | cons byte data =>
    refine ⟨byte, rfl, ?_⟩
    have hbyte : byte.toNat < 256 := byte.toNat_lt
    rw [ofLE]
    omega

/-- The header is in the first byte. -/
theorem head?_header (hfits : Fits ((bits - minBitsPerValue, headerBits) :: post)) (hmin : 8 ≤ bits)
    (rest : List UInt8) :
    ∃ byte, (pack ((bits - minBitsPerValue, headerBits) :: post) ++ rest).head? = some byte ∧
      (byte.toNat &&& makeBitmask 8 headerBits) + minBitsPerValue = bits := by
  have hlength : 0 < (pack ((bits - minBitsPerValue, headerBits) :: post) ++ rest).length := by
    have : headerBits = 5 := rfl
    rw [length_append, length_pack, width_cons]
    omega
  have hfits' : Fits ([] ++ (bits - minBitsPerValue, headerBits) :: post) := hfits
  have hheader := pack_field hfits' rest
  rw [nil_append, width_nil, pow_zero, Nat.div_one] at hheader
  obtain ⟨byte, hbyte, hvalue⟩ := head?_eq hlength
  have hmod : (2 : Nat) ^ headerBits ∣ 2 ^ 8 := Nat.pow_dvd_pow 2 (by decide)
  refine ⟨byte, hbyte, ?_⟩
  rw [and_makeBitmask (by decide), hvalue, Nat.mod_mod_of_dvd _ hmod, hheader]
  exact Nat.sub_add_cancel hmin

section

variable (hfits : ∀ link ∈ rawLinks, link < 2 ^ bitsPerUnsorted) (hmin : 8 ≤ bitsPerUnsorted)
  (hmax : bitsPerUnsorted ≤ 32) (sortedCount : Nat)

include hfits hmin hmax

/-- What is packed is what the iterator has to give, with the first links sorted. -/
theorem left_iteratePackedLinks :
    (iteratePackedLinks (pack (linkFields rawLinks bitsPerUnsorted sortedCount)) bitsPerUnsorted
      sortedCount).Left (sortFirst sortedCount rawLinks) := by
  rcases Nat.eq_zero_or_pos (min rawLinks.length sortedCount) with hzero | hpos
  · obtain ⟨hfields, hsort⟩ := linkFields_of_unsorted hzero
    rw [hfields, hsort]
    apply left_unsorted hfits hmin hmax
    exact (Nat.min_eq_zero_iff.mp hzero).symm.imp_right length_eq_zero_iff.mp
  · have hfit : Fits (linkFields rawLinks bitsPerUnsorted sortedCount) := linkFields_fits hfits hmax
    have h32 := lt_of_bits_le hfits hmax
    have hdeltas : ∀ delta ∈ sortedDeltas rawLinks sortedCount, delta < 2 ^ 32 := sortedDeltas_lt h32
    have hcount := length_sortedDeltas rawLinks sortedCount
    rw [linkFields_of_sorted hpos] at hfit ⊢
    rw [sortFirst, ← undoDeltas_sortedDeltas]
    refine left_sorted hfit (minBitsPerValue_le_bitsPerSorted _)
      ((bitsPerSorted_le hdeltas).trans (by decide)) hmin hmax ?_
      (hcount.trans_le (Nat.min_le_left ..)) (fun hlt => ?_) fun value hvalue => ?_
    · omega
    · exact drop_of_length_le (by omega)
    · rw [undoDeltas_sortedDeltas] at hvalue
      exact h32 value (mem_of_mem_take ((mem_insertionSort _).mp hvalue))

theorem toList_iteratePackedLinks :
    (iteratePackedLinks (pack (linkFields rawLinks bitsPerUnsorted sortedCount)) bitsPerUnsorted
      sortedCount).toList = sortFirst sortedCount rawLinks := by
  have h := left_iteratePackedLinks hfits hmin hmax sortedCount
  exact h.collect (Nat.lt_succ_of_le h.length_le)

/-- The size of packed links can be told from their number, whatever follows them. -/
theorem packedLinksSize_eq (rest : List UInt8) :
    packedLinksSize (pack (linkFields rawLinks bitsPerUnsorted sortedCount) ++ rest) bitsPerUnsorted
      sortedCount rawLinks.length =
      (pack (linkFields rawLinks bitsPerUnsorted sortedCount)).length := by
  have hfit : Fits (linkFields rawLinks bitsPerUnsorted sortedCount) := linkFields_fits hfits hmax
  rw [packedLinksSize]
  split
  next hzero =>
    obtain rfl := length_eq_zero_iff.mp hzero
    simp [linkFields]
  next hne =>
    rcases Nat.eq_zero_or_pos (min rawLinks.length sortedCount) with hzero | hpos
    · obtain ⟨hfields, -⟩ := linkFields_of_unsorted hzero
      have hlength : 0 < (pack (rawLinks.map (·, bitsPerUnsorted)) ++ rest).length := by
        have := length_le_width_map rawLinks hmin
        rw [length_append, length_pack]
        omega
      obtain ⟨byte, hbyte, -⟩ := head?_eq hlength
      rw [hfields, hbyte]
      simp [hzero]
    · rw [linkFields_of_sorted hpos] at hfit ⊢
      obtain ⟨byte, hbyte, hheader⟩ := head?_header hfit (minBitsPerValue_le_bitsPerSorted _) rest
      have hsub : rawLinks.length - min rawLinks.length sortedCount = rawLinks.length - sortedCount := by
        omega
      rw [hbyte]
      dsimp only
      rw [if_pos hpos, hheader, hsub, length_pack, width_cons, width_append, width_map, width_map,
        length_sortedDeltas, length_drop, Nat.min_comm, Nat.add_assoc headerBits]

end

/-- The bytes of packed links give the links back, through `next` and through `fold`. At every call
the size hint is the number of links left, and whatever follows the bytes, their number is found. -/
theorem packLinks_decodes (hfits : ∀ link ∈ rawLinks, link < 2 ^ bitsPerUnsorted)
    (hmin : 8 ≤ bitsPerUnsorted) (hmax : bitsPerUnsorted ≤ 32) (sortedCount : Nat) :
    ∃ bytes, (∀ links, packLinks links rawLinks bitsPerUnsorted sortedCount =
        (links ++ bytes, sortFirst sortedCount rawLinks)) ∧
      (let it := iteratePackedLinks bytes bitsPerUnsorted sortedCount
      it.toList = sortFirst sortedCount rawLinks ∧
      (∀ (Acc : Type u) (f : Acc → Nat → Acc) (acc : Acc),
        it.fold f acc = (sortFirst sortedCount rawLinks).foldl f acc) ∧
      ∀ count, (it.advance count).sizeHint =
        (rawLinks.length - count, some (rawLinks.length - count))) ∧
      ∀ rest, packedLinksSize (bytes ++ rest) bitsPerUnsorted sortedCount rawLinks.length =
        bytes.length := by
  have hleft := left_iteratePackedLinks hfits hmin hmax sortedCount
  refine ⟨_, packLinks_eq hfits hmax, ⟨toList_iteratePackedLinks hfits hmin hmax sortedCount,
    fun _ f acc => hleft.fold f acc, fun count => ?_⟩, packedLinksSize_eq hfits hmin hmax sortedCount⟩
  rw [(hleft.advance count).sizeHint, length_drop, length_sortFirst]

theorem packLinks_decodes_three :
    ∃ bytes, packLinks [] [300, 17, 5] 9 2 = ([] ++ bytes, [17, 300, 5]) ∧
      (iteratePackedLinks bytes 9 2).toList = [17, 300, 5] := by
  obtain ⟨bytes, hpack, ⟨hlist, -, -⟩, -⟩ := packLinks_decodes.{0} (by decide : ∀ link ∈ [300, 17, 5],
    link < 2 ^ 9) (by decide) (by decide) 2
  exact ⟨bytes, hpack [], hlist⟩

end

end Qdrant
