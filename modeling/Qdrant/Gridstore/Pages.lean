-- SUMMARY: Gridstore's tracker entries and pages: a value as the bytes of consecutive blocks.
import Qdrant.Gridstore.BlockSearch

/-!
# Pages

Source: `lib/gridstore/src/pages.rs`.

A value starts at a block of a page and may go on over the following pages. The source cuts
it into one section per page. Read as one sequence of bytes over all pages, a value is a
single interval: this is what the results are stated with, and the cut into sections is
used nowhere else.
-/

namespace Qdrant.Gridstore

open List Crash

/-- `ValuePointer`. -/
structure ValuePointer where
  pageId : Nat
  blockOffset : Nat
  length : Nat
  deriving DecidableEq, Repr

/-- The pages of a store and their bytes. -/
structure Pages where
  numPages : Nat
  bytes : CachedFile (Nat × Nat) UInt8

/-- Part of a value on one page. -/
structure Section where
  page : Nat
  start : Nat
  length : Nat
  bufferOffset : Nat

/-- The loop of `get_page_value_ranges`. -/
def valueSections (pageLen totalLength : Nat) : Nat → Nat → Nat → Nat → List Section
  | 0, _, _, _ => []
  | fuel + 1, pageIdx, start, lengthSoFar =>
    if lengthSoFar < totalLength then
      let sectionLen := Nat.min (totalLength - lengthSoFar) (pageLen - start)
      ⟨pageIdx, start, sectionLen, lengthSoFar⟩ ::
        valueSections pageLen totalLength fuel (pageIdx + 1) 0 (lengthSoFar + sectionLen)
    else []

/-- `get_page_value_ranges`. Every section has at least one byte, so the length of the value
bounds their number. -/
def getPageValueRanges (config : StorageConfig) (pointer : ValuePointer) :
    Except GridstoreError (List Section) :=
  let valueStart := pointer.blockOffset * config.blockSizeBytes
  if config.pageSizeBytes ≤ valueStart then .error .panicked
  else .ok (valueSections config.pageSizeBytes pointer.length pointer.length pointer.pageId valueStart 0)

namespace Pages

/-- `read_from_pages`. The sections fill the buffer one after the other. -/
def readFromPages (config : StorageConfig) (p : Pages) (pointer : ValuePointer) :
    Except GridstoreError (List UInt8) := do
  let readRanges ← getPageValueRanges config pointer
  readRanges.foldlM (fun rawValue range =>
    if p.numPages ≤ range.page then .error .panicked
    else .ok (rawValue ++ (List.range range.length).map fun i =>
      p.bytes.content (range.page, range.start + i))) []

/-- Write the part of the value that belongs to a section. -/
def writeSection (value : List UInt8) (range : Section) : Prog Pages GridstoreError Unit :=
  Prog.write fun p =>
    if p.numPages ≤ range.page ∨ value.length < range.bufferOffset + range.length then .error .panicked
    else .ok ((), { p with bytes := p.bytes.write fun place =>
      if place.1 = range.page ∧ range.start ≤ place.2 ∧ place.2 < range.start + range.length then
        value[range.bufferOffset + (place.2 - range.start)]?
      else none })

/-- `write_to_pages`. -/
def writeToPages (config : StorageConfig) (pointer : ValuePointer) (value : List UInt8) :
    Prog Pages GridstoreError Unit := do
  let pageRanges ← Prog.ofExcept (getPageValueRanges config pointer)
  pageRanges.foldlM (fun _ range => writeSection value range) ()

/-- `Pages::flusher`. -/
def flush : Prog Pages GridstoreError Unit :=
  Prog.write fun p => .ok ((), { p with bytes := p.bytes.sync })

end Pages

/-! ## Values as intervals of bytes -/

/-- The page and the offset of a byte, counted over all pages. -/
def byteAt (config : StorageConfig) (address : Nat) : Nat × Nat :=
  (address / config.pageSizeBytes, address % config.pageSizeBytes)

namespace ValuePointer

section

variable (config : StorageConfig) (pointer : ValuePointer)

/-- The first block of the value, counted over all pages. -/
def start : Nat :=
  pointer.pageId * config.pageBlocks + pointer.blockOffset

/-- The number of blocks of the value. -/
def numBlocks : Nat :=
  divCeil pointer.length config.blockSizeBytes

/-- The block belongs to the value. -/
def Covers (block : Nat) : Prop :=
  pointer.start config ≤ block ∧ block < pointer.start config + pointer.numBlocks config

end

instance (config : StorageConfig) (pointer : ValuePointer) (block : Nat) :
    Decidable (pointer.Covers config block) := inferInstanceAs (Decidable (_ ∧ _))

/-- The page and the offset of a byte of the value. -/
def place (config : StorageConfig) (pointer : ValuePointer) (i : Nat) : Nat × Nat :=
  byteAt config (pointer.start config * config.blockSizeBytes + i)

/-- The place is one of the bytes of the value. -/
def OnBytes (config : StorageConfig) (pointer : ValuePointer) (place : Nat × Nat) : Prop :=
  ∃ i < pointer.length, place = pointer.place config i

/-- The value lies in the first `numBits` blocks, which are counted in 32 bits, and is not empty. -/
structure Placed (config : StorageConfig) (numBits : Nat) (pointer : ValuePointer) : Prop where
  offset_lt : pointer.blockOffset < config.pageBlocks
  end_le : pointer.start config + pointer.numBlocks config ≤ numBits
  end_lt : pointer.start config + pointer.numBlocks config < 2 ^ 32
  length_pos : 0 < pointer.length

end ValuePointer

variable {config : StorageConfig} {pointer : ValuePointer}

theorem byteAt_inj {a b : Nat} (h : byteAt config a = byteAt config b) : a = b := by
  rw [byteAt, byteAt, Prod.mk.injEq] at h
  rw [← Nat.div_add_mod a config.pageSizeBytes, ← Nat.div_add_mod b config.pageSizeBytes, h.1, h.2]

variable {numBits : Nat}

theorem ValuePointer.Placed.numBlocks_pos (haccepted : config.Accepted)
    (h : pointer.Placed config numBits) : 0 < pointer.numBlocks config := by
  rw [ValuePointer.numBlocks, lt_divCeil_iff haccepted.block_pos, Nat.zero_mul]
  exact h.length_pos

theorem ValuePointer.length_le (haccepted : config.Accepted) :
    pointer.length ≤ pointer.numBlocks config * config.blockSizeBytes :=
  le_divCeil_mul haccepted.block_pos

/-- Values on different blocks have no byte in common. -/
theorem ValuePointer.not_onBytes (haccepted : config.Accepted) {other : ValuePointer}
    (hdisjoint : ∀ block, pointer.Covers config block → ¬ other.Covers config block) {i : Nat}
    (hi : i < pointer.length) : ¬ other.OnBytes config (pointer.place config i) := by
  rintro ⟨j, hj, hplace⟩
  have haddress := byteAt_inj hplace
  have hpos := haccepted.block_pos
  -- Both bytes are in this block.
  have hblock : ∀ {q : ValuePointer} {k : Nat}, k < q.length →
      q.Covers config ((q.start config * config.blockSizeBytes + k) / config.blockSizeBytes) := by
    intro q k hk
    have hle := q.length_le haccepted
    refine ⟨(Nat.le_div_iff_mul_le hpos).mpr (Nat.le_add_right _ _), ?_⟩
    rw [Nat.div_lt_iff_lt_mul hpos, Nat.add_mul]
    omega
  have hother := hblock hj
  rw [← haddress] at hother
  exact hdisjoint _ (hblock hi) hother

/-- The bytes of some sections, with their places. -/
def sectionBytes (sections : List Section) : List (Nat × Nat × Nat) :=
  sections.flatMap fun s => (List.range s.length).map fun i => (s.bufferOffset + i, (s.page, s.start + i))

/-- The bytes of the sections, with their places, are the bytes of the interval. -/
theorem sectionBytes_valueSections (total base : Nat) {fuel pageIdx start soFar : Nat}
    (hpage : 0 < config.pageSizeBytes) (hfuel : total ≤ soFar + fuel) (hstart : start < config.pageSizeBytes)
    (hbase : base + soFar = pageIdx * config.pageSizeBytes + start) :
    sectionBytes (valueSections config.pageSizeBytes total fuel pageIdx start soFar) =
      (List.range' soFar (total - soFar)).map fun i => (i, byteAt config (base + i)) := by
  induction fuel generalizing pageIdx start soFar with
  | zero =>
    rw [show total - soFar = 0 by omega]
    rfl
  | succ fuel ih =>
    rw [valueSections]
    split
    case isFalse hge =>
      rw [show total - soFar = 0 by omega]
      rfl
    case isTrue hlt =>
      generalize hlen : Nat.min (total - soFar) (config.pageSizeBytes - start) = len
      have hle : len ≤ total - soFar := hlen ▸ Nat.min_le_left _ _
      have hle' : len ≤ config.pageSizeBytes - start := hlen ▸ Nat.min_le_right _ _
      have hmin : len = total - soFar ∨ len = config.pageSizeBytes - start := by
        rw [← hlen]
        exact (Nat.le_total _ _).imp Nat.min_eq_left Nat.min_eq_right
      rw [sectionBytes, flatMap_cons]
      have hhere : (List.range len).map (fun i => (soFar + i, (pageIdx, start + i))) =
          (List.range' soFar len).map fun i => (i, byteAt config (base + i)) := by
        rw [List.range'_eq_map_range, map_map]
        apply map_congr_left
        intro i hi
        rw [mem_range] at hi
        have haddress : base + (soFar + i) = (start + i) + pageIdx * config.pageSizeBytes := by omega
        rw [Function.comp_apply, byteAt, haddress, Nat.add_mul_div_right _ _ hpage,
          Nat.add_mul_mod_self_right, Nat.div_eq_of_lt (by omega), Nat.mod_eq_of_lt (by omega),
          Nat.zero_add]
      rw [show total - soFar = len + (total - (soFar + len)) by omega,
        ← List.range'_append_1, map_append]
      congr 1
      rcases hmin with hlast | hfull
      · -- The value ends on this page.
        rw [show total - (soFar + len) = 0 by omega]
        have hnil : valueSections config.pageSizeBytes total fuel (pageIdx + 1) 0 (soFar + len) = [] := by
          cases fuel with
          | zero => rfl
          | succ fuel => rw [valueSections, if_neg (by omega)]
        rw [hnil]
        rfl
      · refine ih (by omega) hpage ?_
        rw [Nat.add_one_mul]
        omega

theorem ValuePointer.Placed.start_lt (haccepted : config.Accepted)
    (h : pointer.Placed config numBits) :
    pointer.blockOffset * config.blockSizeBytes < config.pageSizeBytes := by
  obtain ⟨_, _, _, hpage⟩ := haccepted.pageBlocks_eq
  rw [hpage]
  exact Nat.mul_lt_mul_of_pos_right h.offset_lt haccepted.block_pos

/-- The sections of a placed value, byte by byte. -/
theorem sectionBytes_of_placed (haccepted : config.Accepted) (h : pointer.Placed config numBits) :
    sectionBytes (valueSections config.pageSizeBytes pointer.length pointer.length pointer.pageId
      (pointer.blockOffset * config.blockSizeBytes) 0) =
      (List.range pointer.length).map fun i => (i, pointer.place config i) := by
  have hbase : pointer.start config * config.blockSizeBytes + 0 =
      pointer.pageId * config.pageSizeBytes + pointer.blockOffset * config.blockSizeBytes := by
    obtain ⟨_, _, _, hpage⟩ := haccepted.pageBlocks_eq
    rw [Nat.add_zero, ValuePointer.start, Nat.add_mul, hpage, Nat.mul_assoc]
  have hflat := sectionBytes_valueSections pointer.length _ haccepted.page_pos
    (Nat.le_of_eq (Nat.zero_add _).symm) (h.start_lt haccepted) hbase
  rw [← range_eq_range'] at hflat
  exact hflat

theorem length_pos_of_mem {pageLen total fuel pageIdx start soFar : Nat} (hpage : 0 < pageLen)
    (hstart : start < pageLen) {s : Section}
    (hs : s ∈ valueSections pageLen total fuel pageIdx start soFar) : 0 < s.length := by
  induction fuel generalizing pageIdx start soFar with
  | zero => cases hs
  | succ fuel ih =>
    rw [valueSections] at hs
    split at hs
    case isFalse => cases hs
    case isTrue hlt =>
      rcases mem_cons.mp hs with rfl | hrest
      · exact Nat.lt_min.mpr ⟨by omega, by omega⟩
      · exact ih hpage hrest

theorem mem_sectionBytes {sections : List Section} {i : Nat} {place : Nat × Nat} :
    (i, place) ∈ sectionBytes sections ↔ ∃ s ∈ sections, place.1 = s.page ∧ s.start ≤ place.2 ∧
      place.2 < s.start + s.length ∧ i = s.bufferOffset + (place.2 - s.start) := by
  simp only [sectionBytes, mem_flatMap, mem_map, mem_range, Prod.mk.injEq]
  constructor
  · rintro ⟨s, hs, j, hj, rfl, rfl⟩
    exact ⟨s, hs, rfl, by dsimp only; omega, by dsimp only; omega, by dsimp only; omega⟩
  · rintro ⟨s, hs, hpage, hge, hlt, rfl⟩
    refine ⟨s, hs, place.2 - s.start, by omega, rfl, ?_⟩
    rw [← hpage, Nat.add_sub_cancel' hge]

theorem mem_sectionBytes_iff {sections : List Section} {i : Nat} {place : Nat × Nat}
    (h : sectionBytes sections = (List.range pointer.length).map fun i => (i, pointer.place config i)) :
    (i, place) ∈ sectionBytes sections ↔ i < pointer.length ∧ place = pointer.place config i := by
  rw [h, mem_map]
  constructor
  · rintro ⟨j, hj, ⟨⟩⟩
    exact ⟨mem_range.mp hj, rfl⟩
  · rintro ⟨hi, rfl⟩
    exact ⟨i, mem_range.mpr hi, rfl⟩

/-- What the cut into sections guarantees about a value on existing pages. -/
structure Sections (config : StorageConfig) (pointer : ValuePointer) (numPages : Nat)
    (sections : List Section) : Prop where
  bytes : sectionBytes sections = (List.range pointer.length).map fun i => (i, pointer.place config i)
  page_lt : ∀ s ∈ sections, s.page < numPages
  end_le : ∀ s ∈ sections, s.bufferOffset + s.length ≤ pointer.length

theorem exists_sections (haccepted : config.Accepted) {numPages : Nat}
    (h : pointer.Placed config (numPages * config.pageBlocks)) :
    ∃ sections, getPageValueRanges config pointer = .ok sections ∧
      Sections config pointer numPages sections := by
  have hstart := h.start_lt haccepted
  have hbytes := sectionBytes_of_placed haccepted h
  have hmem {s : Section} (hs : s ∈ _) (i : Nat) (hi : i < s.length) :=
    (mem_sectionBytes_iff hbytes).mp (mem_flatMap.mpr ⟨s, hs, mem_map.mpr ⟨i, mem_range.mpr hi, rfl⟩⟩)
  refine ⟨_, if_neg (not_le.mpr hstart), hbytes, ?_, ?_⟩
  · intro s hs
    obtain ⟨hlt, hplace⟩ := hmem hs 0 (length_pos_of_mem haccepted.page_pos hstart hs)
    have hpage := congrArg Prod.fst hplace
    obtain ⟨_, _, _, hsize⟩ := haccepted.pageBlocks_eq
    have hend := Nat.mul_le_mul_right config.blockSizeBytes h.end_le
    rw [Nat.mul_assoc, ← hsize, Nat.add_mul] at hend
    have hle := pointer.length_le haccepted
    rw [show s.page = _ from hpage]
    apply (Nat.div_lt_iff_lt_mul haccepted.page_pos).mpr
    omega
  · intro s hs
    have := length_pos_of_mem haccepted.page_pos hstart hs
    have := (hmem hs (s.length - 1) (by omega)).1
    omega

namespace Pages

variable {p : Pages}

theorem foldlM_read {sections : List Section} {raw : List UInt8}
    (h : ∀ s ∈ sections, s.page < p.numPages) :
    sections.foldlM (fun rawValue range =>
      if p.numPages ≤ range.page then Except.error GridstoreError.panicked
      else .ok (rawValue ++ (List.range range.length).map fun i =>
        p.bytes.content (range.page, range.start + i))) raw =
    .ok (raw ++ (sectionBytes sections).map fun b => p.bytes.content b.2) := by
  induction sections generalizing raw with
  | nil =>
    rw [sectionBytes, flatMap_nil, map_nil, append_nil]
    rfl
  | cons s sections ih =>
    rw [foldlM_cons, if_neg (not_le.mpr (h s mem_cons_self))]
    simp only [bind, Except.bind]
    rw [ih fun t ht => h t (mem_cons_of_mem s ht), sectionBytes, sectionBytes,
      flatMap_cons, map_append, map_map, append_assoc]
    rfl

/-- Some of these places have been written, and nothing else has happened to the pages. -/
structure WrittenSome (p t : Pages) (places : Nat × Nat → Prop) : Prop where
  numPages : t.numPages = p.numPages
  content : ∀ place, ¬ places place → t.bytes.content place = p.bytes.content place
  mayHold : ∀ place v, t.bytes.MayHold place v → p.bytes.MayHold place v ∨ places place

theorem WrittenSome.mono {t : Pages} {places places' : Nat × Nat → Prop} (h : WrittenSome p t places)
    (hle : ∀ place, places place → places' place) : WrittenSome p t places' :=
  ⟨h.numPages, fun place hnot => h.content place fun hin => hnot (hle place hin),
    fun place v hv => (h.mayHold place v hv).imp id (hle place)⟩

variable {R : GridstoreError → Pages → Prop} {C : Pages → Prop} {value : List UInt8}

theorem sectionBytes_subset {done sections : List Section} (h : done ⊆ sections) :
    sectionBytes done ⊆ sectionBytes sections := by
  rintro ⟨i, place⟩ hmem
  obtain ⟨s, hs, hrest⟩ := mem_sectionBytes.mp hmem
  exact mem_sectionBytes.mpr ⟨s, h hs, hrest⟩

theorem wp_writeToPages (haccepted : config.Accepted)
    (h : pointer.Placed config (p.numPages * config.pageBlocks)) (hlen : pointer.length ≤ value.length)
    (hC : ∀ t, WrittenSome p t (pointer.OnBytes config) → C t) :
    wp (writeToPages config pointer value) (fun _ t => WrittenSome p t (pointer.OnBytes config) ∧
      ∀ i < pointer.length, value[i]? = some (t.bytes.content (pointer.place config i))) R C p := by
  obtain ⟨sections, hsections, hspec⟩ := exists_sections haccepted h
  have honBytes : ∀ {done : List Section}, done ⊆ sections →
      ∀ place, (∃ i, (i, place) ∈ sectionBytes done) → pointer.OnBytes config place := by
    rintro done hdone place ⟨i, hi⟩
    exact ⟨i, (mem_sectionBytes_iff hspec.bytes).mp (sectionBytes_subset hdone hi)⟩
  have hunique : ∀ {i j : Nat} {place}, (i, place) ∈ sectionBytes sections →
      (j, place) ∈ sectionBytes sections → i = j := by
    intro i j place hi hj
    rw [mem_sectionBytes_iff hspec.bytes] at hi hj
    exact Nat.add_left_cancel (byteAt_inj (hi.2.symm.trans hj.2))
  apply wp_bind.mpr
  apply (wp_ofExcept_ok hsections).mpr
  apply wp_conseq (wp_foldlM_done (fun done _ t =>
    WrittenSome p t (fun place => ∃ i, (i, place) ∈ sectionBytes done) ∧
    ∀ i place, (i, place) ∈ sectionBytes done → value[i]? = some (t.bytes.content place)) ?_ ?_)
  · rintro _ t ⟨hwritten, hvalue⟩
    refine ⟨hwritten.mono (honBytes (List.Subset.refl _)), fun i hi => hvalue i _ ?_⟩
    exact (mem_sectionBytes_iff hspec.bytes).mpr ⟨hi, rfl⟩
  · rintro done s rest _ t hdone ⟨hwritten, hvalue⟩
    rw [append_cons] at hdone
    have hsub : done ++ [s] ⊆ sections := hdone ▸ subset_append_left _ _
    have hs : s ∈ sections := hsub mem_concat_self
    have hend := hspec.end_le s hs
    have hpage := hspec.page_lt s hs
    have hsplit : ∀ i place, (i, place) ∈ sectionBytes (done ++ [s]) ↔ (i, place) ∈ sectionBytes done ∨
        (place.1 = s.page ∧ s.start ≤ place.2 ∧ place.2 < s.start + s.length) ∧
          i = s.bufferOffset + (place.2 - s.start) := by
      intro i place
      simp [mem_sectionBytes, and_assoc]
    apply wp_write_iff.mpr
    refine ⟨hC t (hwritten.mono (honBytes (append_subset.mp hsub).1)), ?_⟩
    rw [if_neg (by rw [hwritten.numPages]; omega)]
    refine ⟨⟨hwritten.numPages, ?_, ?_⟩, ?_⟩
    · intro place hnot
      rw [CachedFile.content_write, if_neg]
      · exact hwritten.content place fun ⟨i, hi⟩ => hnot ⟨i, (hsplit i place).mpr (.inl hi)⟩
      · exact fun hin => hnot ⟨_, (hsplit _ place).mpr (.inr ⟨hin, rfl⟩)⟩
    · intro place v hv
      rcases CachedFile.mayHold_write.mp hv with hwrite | hold
      · rw [Option.ite_none_right_eq_some] at hwrite
        exact .inr ⟨_, (hsplit _ place).mpr (.inr ⟨hwrite.1, rfl⟩)⟩
      · exact (hwritten.mayHold place v hold).imp id fun ⟨i, hi⟩ => ⟨i, (hsplit i place).mpr (.inl hi)⟩
    · intro i place hi
      rw [CachedFile.content_write]
      split
      case isTrue hin =>
        have hall := sectionBytes_subset hsub
        rw [hunique (hall hi) (hall ((hsplit _ place).mpr (.inr ⟨hin, rfl⟩))),
          getElem?_eq_getElem (by omega)]
        rfl
      case isFalse hout =>
        rcases (hsplit i place).mp hi with hold | hnew
        · exact hvalue i place hold
        · exact absurd hnew.1 hout
  · refine ⟨⟨rfl, fun _ _ => rfl, fun _ _ hv => .inl hv⟩, ?_⟩
    intro i place hmem
    cases hmem

end Pages

end Qdrant.Gridstore
