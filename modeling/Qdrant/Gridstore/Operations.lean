-- SUMMARY: What the operations of a Gridstore do to its files, at their end and at every point where a crash can find them.
import Qdrant.Gridstore.Gridstore

/-!
# Operations on a valid store

One lemma for each operation: what it does to the tracker, the bytes and the bits of a store
whose files fit together (`Valid`), and in which states a crash can interrupt it. The
intermediate states are described by how far they may differ from the state before the
operation, so that a property of crash states needs one argument per operation.
-/

namespace Qdrant.Gridstore

open Bitmask Crash

/-- The bitmask fits to the pages. -/
structure Covered (s : Gridstore) : Prop where
  accepted : s.config.Accepted
  words : s.config.WholeWords
  bitmask : s.bitmask.Valid s.config
  numBits_eq : s.bitmask.numBits = s.pages.numPages * s.config.pageBlocks

/-- The files of the store fit together. -/
structure Valid (s : Gridstore) : Prop extends Covered s where
  tracker : s.tracker.Valid

variable {s : Gridstore} {R : GridstoreError → Gridstore → Prop} {C : Gridstore → Prop}
variable {α : Type} {Q : α → Gridstore → Prop}

theorem wp_onTracker {x : Prog Tracker GridstoreError α} :
    wp (onTracker x) Q R C s ↔ wp x (fun a tracker => Q a { s with tracker })
      (fun e tracker => R e { s with tracker }) (fun tracker => C { s with tracker }) s.tracker :=
  wp_zoom

theorem wp_onPages {x : Prog Pages GridstoreError α} :
    wp (onPages x) Q R C s ↔ wp x (fun a pages => Q a { s with pages })
      (fun e pages => R e { s with pages }) (fun pages => C { s with pages }) s.pages :=
  wp_zoom

theorem wp_onBitmask {x : Prog Bitmask GridstoreError α} :
    wp (onBitmask x) Q R C s ↔ wp x (fun a bitmask => Q a { s with bitmask })
      (fun e bitmask => R e { s with bitmask }) (fun bitmask => C { s with bitmask }) s.bitmask :=
  wp_zoom

/-! ## New stores -/

variable {config : StorageConfig}

theorem new_eq {options : StorageOptions} (generation : Nat)
    (hconfig : StorageConfig.tryFrom options = .ok config) (hwords : config.WholeWords) :
    ∃ s, new options generation = .ok s ∧ s.Valid ∧ s.config = config ∧ s.generation = generation ∧
      s.tracker = .new ∧ s.bitmask.bits = .ofContent (fun _ => false) ∧
      s.pages = ⟨1, .ofContent fun _ => 0⟩ := by
  have haccepted := StorageConfig.accepted_of_tryFrom hconfig
  obtain ⟨bitmask, hcreate, hvalid, hnumBits, hbits⟩ := create_eq haccepted hwords.1
  refine ⟨_, by rw [new, hconfig]; simp only [hcreate, bind]; rfl,
    ⟨⟨haccepted, hwords, hvalid, ?_⟩, Tracker.valid_new⟩, rfl, rfl, rfl, hbits, rfl⟩
  rw [hnumBits, Nat.one_mul]

/-- The files of a store whose bitmask covers its pages can be opened. -/
theorem reopen_of_covered (haccepted : s.config.Accepted)
    (hnumBits : s.bitmask.numBits = s.pages.numPages * s.config.pageBlocks) : s.reopen =
    .ok { s with tracker := s.tracker.reopen, generation := s.generation + 1 } := by
  obtain ⟨_, _, _, hpage⟩ := haccepted.pageBlocks_eq
  have hinfer : s.bitmask.inferNumPages s.config = s.pages.numPages := by
    rw [inferNumPages, hnumBits, Nat.mul_assoc, ← hpage, Nat.mul_div_cancel _ haccepted.page_pos]
  rw [reopen, if_neg (by rw [hinfer]; simp)]

theorem reopen_eq (hvalid : s.Valid) : s.reopen =
    .ok { s with tracker := s.tracker.reopen, generation := s.generation + 1 } :=
  reopen_of_covered hvalid.accepted hvalid.numBits_eq

/-! ## Growth -/

/-- The store has at most grown: a file may have got longer or been synced. -/
structure Growing (s t : Gridstore) : Prop where
  config : t.config = s.config
  tracker : t.tracker = s.tracker
  generation : t.generation = s.generation
  bytes : t.pages.bytes = s.pages.bytes
  numPages : s.pages.numPages ≤ t.pages.numPages
  content : ∀ i, t.bitmask.bits.content i = s.bitmask.bits.content i
  mayHold : ∀ i v, t.bitmask.bits.MayHold i v → s.bitmask.bits.MayHold i v

theorem Growing.refl (s : Gridstore) : s.Growing s :=
  ⟨rfl, rfl, rfl, rfl, le_rfl, fun _ => rfl, fun _ _ h => h⟩

variable {t : Gridstore}

theorem Growing.trans {u : Gridstore} (h : s.Growing t) (h' : t.Growing u) : s.Growing u :=
  ⟨h'.config.trans h.config, h'.tracker.trans h.tracker, h'.generation.trans h.generation,
    h'.bytes.trans h.bytes, h.numPages.trans h'.numPages,
    fun i => (h'.content i).trans (h.content i), fun i v hv => h.mayHold i v (h'.mayHold i v hv)⟩

variable {i : Nat}

theorem mayHold_sync_bits {b : CachedFile Nat Bool} {v : Bool} (h : b.sync.MayHold i v) :
    b.MayHold i v := by
  rw [← CachedFile.mayHold_sync.mp h]
  exact b.content_mayHold i

theorem wp_createNewPage (hvalid : s.Covered) (hC : ∀ t, s.Growing t → C t) :
    wp createNewPage (fun _ t => s.Growing t ∧ t.Covered ∧ t.pages.numPages = s.pages.numPages + 1) R C s := by
  apply wp_get_bind
  apply wp_bind.mpr
  apply (wp_write rfl).mpr
  refine ⟨hC s (.refl s), ?_⟩
  apply wp_onBitmask.mpr
  apply wp_total (wp_coverNewPage (R := fun _ _ => False) (C := fun bitmask =>
    C { s with pages := { s.pages with numPages := s.pages.numPages + 1 }, bitmask })
    hvalid.accepted hvalid.words.1 hvalid.bitmask ?_ ?_)
  · intro _ bitmask hgrown
    refine ⟨⟨rfl, rfl, rfl, rfl, Nat.le_succ _, ?_, ?_⟩, ⟨hvalid.accepted, hvalid.words,
      hgrown.valid, ?_⟩, rfl⟩
    · intro i
      rw [hgrown.bits, CachedFile.content_sync]
    · intro i v hv
      rw [hgrown.bits] at hv
      exact mayHold_sync_bits hv
    · rw [hgrown.numBits, hvalid.numBits_eq, Nat.add_one_mul]
  · exact fun _ h => h
  · exact hC _ ⟨rfl, rfl, rfl, rfl, Nat.le_succ _, fun _ => rfl, fun _ _ h => h⟩
  · exact hC _ ⟨rfl, rfl, rfl, rfl, Nat.le_succ _, fun _ => rfl, fun _ _ h => mayHold_sync_bits h⟩

theorem wp_createNewPages (hvalid : s.Covered) (hC : ∀ t, s.Growing t → C t) (count : Nat) :
    wp ((List.range count).foldlM (fun _ _ => createNewPage) ())
      (fun _ t => s.Growing t ∧ t.Covered ∧ t.pages.numPages = s.pages.numPages + count) R C s := by
  apply wp_conseq (wp_foldlM (fun rest _ t => s.Growing t ∧ t.Covered ∧
    t.pages.numPages + rest.length = s.pages.numPages + count) ?_ (List.range count)
    ⟨.refl s, hvalid, by rw [List.length_range]⟩)
  · rintro _ t ⟨hgrowing, hvalid, hpages⟩
    exact ⟨hgrowing, hvalid, hpages⟩
  · rintro _ rest _ t ⟨hgrowing, hvalid, hpages⟩
    apply wp_conseq (wp_createNewPage (R := R) hvalid fun u hu => hC u (hgrowing.trans hu))
    rintro _ u ⟨hu, huvalid, hupages⟩
    refine ⟨hgrowing.trans hu, huvalid, ?_⟩
    rw [List.length_cons] at hpages
    omega

/-- The store has room for the blocks of a value even with the pages that may have to be
added, as far as blocks are counted in 32 bits. -/
def RoomFor (s : Gridstore) (numBlocks : Nat) : Prop :=
  (s.pages.numPages + divCeil numBlocks s.config.pageBlocks) * s.config.pageBlocks < 2 ^ 32

instance (s : Gridstore) (numBlocks : Nat) : Decidable (s.RoomFor numBlocks) :=
  inferInstanceAs (Decidable (_ < _))

/-- The pages that are added to a store suffice for the blocks. -/
theorem free_after_growth (hvalid : s.Covered) (hgrowing : s.Growing t) (htvalid : t.Covered) {n : Nat}
    (hpages : t.pages.numPages = s.pages.numPages +
      divCeil ((n - s.bitmask.trailingFreeBlocks s.config) * s.config.blockSizeBytes)
        s.config.pageSizeBytes) :
    ∃ start, t.bitmask.FreeBlocks start n := by
  obtain ⟨hle, hfree⟩ := trailingFreeBlocks_free hvalid.bitmask
  generalize s.bitmask.trailingFreeBlocks s.config = trailing at *
  obtain ⟨_, _, _, hpage⟩ := hvalid.accepted.pageBlocks_eq
  have hnew : n - trailing ≤ (t.pages.numPages - s.pages.numPages) * s.config.pageBlocks := by
    apply Nat.le_of_mul_le_mul_right _ hvalid.accepted.block_pos
    rw [Nat.mul_assoc, ← hpage, hpages, Nat.add_sub_cancel_left]
    exact le_divCeil_mul hvalid.accepted.page_pos
  have hbits : t.bitmask.numBits = s.bitmask.numBits +
      (t.pages.numPages - s.pages.numPages) * s.config.pageBlocks := by
    rw [htvalid.numBits_eq, hgrowing.config, hvalid.numBits_eq, ← Nat.add_mul,
      Nat.add_sub_cancel' hgrowing.numPages]
  refine ⟨s.bitmask.numBits - trailing, by omega, fun i hi hi' => ?_⟩
  rw [hgrowing.content]
  rcases Nat.lt_or_ge i s.bitmask.numBits with hlt | hge
  · exact hfree.2 i hi (by omega)
  · exact hvalid.bitmask.content_beyond hge

theorem divCeil_pages (haccepted : s.config.Accepted) (n : Nat) :
    divCeil (n * s.config.blockSizeBytes) s.config.pageSizeBytes = divCeil n s.config.pageBlocks := by
  obtain ⟨_, _, _, hpage⟩ := haccepted.pageBlocks_eq
  have hiff : ∀ k, divCeil (n * s.config.blockSizeBytes) s.config.pageSizeBytes ≤ k ↔
      divCeil n s.config.pageBlocks ≤ k := by
    intro k
    rw [divCeil_le_iff haccepted.page_pos, divCeil_le_iff haccepted.pageBlocks_pos, hpage,
      ← Nat.mul_assoc]
    exact Nat.mul_le_mul_right_iff haccepted.block_pos
  exact Nat.le_antisymm ((hiff _).mpr le_rfl) ((hiff _).mp le_rfl)

theorem divCeil_mono {a b c : Nat} (hc : 0 < c) (h : a ≤ b) : divCeil a c ≤ divCeil b c :=
  (divCeil_le_iff hc).mpr (h.trans (le_divCeil_mul hc))

/-- `find_or_create_available_blocks` always finds a place. -/
theorem wp_findOrCreateAvailableBlocks (hvalid : s.Covered) {n : Nat} (hn : 0 < n) (hroom : s.RoomFor n)
    (hC : ∀ t, s.Growing t → C t) :
    wp (findOrCreateAvailableBlocks n) (fun place t => s.Growing t ∧ t.Covered ∧
      t.bitmask.numBits < 2 ^ 32 ∧ place.2 < s.config.pageBlocks ∧
      t.bitmask.FreeBlocks (place.1 * s.config.pageBlocks + place.2) n) R C s := by
  have hpagepos := hvalid.accepted.pageBlocks_pos
  have hbits : s.bitmask.numBits < 2 ^ 32 := by
    rw [hvalid.numBits_eq]
    exact Nat.lt_of_le_of_lt (Nat.mul_le_mul_right _ (Nat.le_add_right _ _)) hroom
  obtain ⟨found, hfound, hspec⟩ :=
    findAvailableBlocks_eq hvalid.accepted hvalid.words hvalid.bitmask hbits hn
  apply wp_get_bind
  apply wp_bind.mpr
  apply (wp_ofExcept_ok hfound).mpr
  cases found with
  | some place =>
    apply (wp_pure _).mpr
    exact ⟨.refl s, hvalid, hbits, hspec⟩
  | none =>
    apply wp_seq (wp_createNewPages (R := R) hvalid hC _)
    rintro _ t ⟨hgrowing, htvalid, hpages⟩
    have htbits : t.bitmask.numBits < 2 ^ 32 := by
      refine Nat.lt_of_le_of_lt ?_ hroom
      rw [htvalid.numBits_eq, hgrowing.config, hpages, divCeil_pages hvalid.accepted]
      exact Nat.mul_le_mul_right _ (Nat.add_le_add_left (divCeil_mono hpagepos (Nat.sub_le _ _)) _)
    obtain ⟨start, hstart⟩ := free_after_growth hvalid hgrowing htvalid hpages
    obtain ⟨found, hfound, hspec⟩ := findAvailableBlocks_eq htvalid.accepted htvalid.words
      htvalid.bitmask htbits hn
    apply wp_get_bind
    apply wp_bind.mpr
    apply (wp_ofExcept_ok hfound).mpr
    cases found with
    | none => exact absurd hstart (hspec start)
    | some place =>
      apply (wp_pure _).mpr
      rw [hgrowing.config] at hspec
      exact ⟨hgrowing, htvalid, htbits, hspec⟩

/-- The search finds what there is, and after pages have been added there is something, exactly if
two regions can be counted in 16 bits. There are fewer than `2 ^ 32` blocks. -/
theorem search_exact_iff (haccepted : config.Accepted) (hwords : config.regionSizeBlocks % 64 = 0) :
    ((∀ (b : Bitmask) n, b.Valid config → b.numBits < 2 ^ 32 → 0 < n → b.FindsExactly config n) ∧
      ∀ (s : Gridstore) n, s.config = config → s.bitmask.Valid config →
        s.bitmask.numBits = s.pages.numPages * config.pageBlocks → 0 < n → s.RoomFor n →
        ∃ place, (findOrCreateAvailableBlocks n s).result = .ok place ∧
          (findOrCreateAvailableBlocks n s).state.bitmask.FreeBlocks
            (place.1 * config.pageBlocks + place.2) n) ↔ config.regionSizeBlocks < 2 ^ 15 := by
  constructor
  · rintro ⟨hsearch, -⟩
    by_contra hlarge
    have hlt := haccepted.region_lt
    obtain ⟨found, hfound, hspec⟩ := hsearch (.twoFree config.regionSizeBlocks)
      (config.regionSizeBlocks + 1) valid_twoFree (by dsimp only [twoFree]; omega) (Nat.succ_pos _)
    rw [findAvailableBlocks_twoFree rfl (by omega) hlt] at hfound
    cases hfound
    exact hspec 0 ⟨by dsimp only [twoFree]; omega, fun _ _ _ => rfl⟩
  · intro hsmall
    refine ⟨fun b n hvalid hbits hn =>
      findAvailableBlocks_eq haccepted ⟨hwords, hsmall⟩ hvalid hbits hn, ?_⟩
    rintro s n rfl hbitmask hnumBits hn hroom
    obtain ⟨place, hresult, -, -, -, -, hfree⟩ := wp_exists_ok (wp_findOrCreateAvailableBlocks
      (R := fun _ _ => False) (C := fun _ => True) ⟨haccepted, ⟨hwords, hsmall⟩, hbitmask, hnumBits⟩
      hn hroom fun _ _ => trivial)
    exact ⟨place, hresult, hfree⟩

theorem search_exact_8192 : (Bitmask.twoFree 8192).FindsExactly (Bitmask.twoRegions 8192) 8193 :=
  have hwords : (twoRegions 8192).regionSizeBlocks % 64 = 0 := rfl
  have haccepted := accepted_twoRegions (by decide) (by decide)
  ((search_exact_iff haccepted hwords).mpr (by decide)).1 _ _ valid_twoFree (by decide) (by decide)

/-- In a new store with regions of 32768 blocks no 32769 blocks are found, though 65536 are free. -/
theorem search_misses_free_blocks : ∃ s,
    new (.ofConfig (Bitmask.twoRegions 32768)) 0 = .ok s ∧ s.bitmask.FreeBlocks 0 65536 ∧
      s.bitmask.findAvailableBlocks s.config 32769 = .ok none ∧
      (findOrCreateAvailableBlocks 32769 s).result = .error .panicked :=
  ⟨_, rfl, ⟨le_rfl, fun _ _ _ => rfl⟩, rfl, rfl⟩

/-! ## Put -/

/-- The store while a value is written to these blocks, which nothing else used: bytes and
bits have changed there only. -/
structure Putting (s : Gridstore) (pointer : ValuePointer) (t : Gridstore) : Prop where
  config : t.config = s.config
  tracker : t.tracker = s.tracker
  generation : t.generation = s.generation
  numPages : s.pages.numPages ≤ t.pages.numPages
  free : ∀ block, pointer.Covers s.config block → s.bitmask.bits.content block = false
  bytes_mayHold : ∀ place v, t.pages.bytes.MayHold place v →
    s.pages.bytes.MayHold place v ∨ pointer.OnBytes s.config place
  bits_mayHold : ∀ i v, t.bitmask.bits.MayHold i v →
    s.bitmask.bits.MayHold i v ∨ (pointer.Covers s.config i ∧ v = true)

/-- The value has been written to these blocks. -/
structure Put (s : Gridstore) (value : List UInt8) (pointer : ValuePointer) (t : Gridstore) : Prop
    extends Putting s pointer t where
  valid : t.Valid
  placed : pointer.Placed s.config t.bitmask.numBits
  length : pointer.length = value.length
  bytes : ∀ place, ¬ pointer.OnBytes s.config place →
    t.pages.bytes.content place = s.pages.bytes.content place
  bytes_value : ∀ i < pointer.length, value[i]? = some (t.pages.bytes.content (pointer.place s.config i))
  bits : ∀ i, t.bitmask.bits.content i =
    if pointer.Covers s.config i then true else s.bitmask.bits.content i

/-- The conditions on a value that is put: its bytes are not empty, their number fits into 32
bits, and so do the blocks of the store with the pages that may have to be added. -/
structure Fits (s : Gridstore) (value : List UInt8) : Prop where
  length_pos : 0 < value.length
  length_lt : value.length < 2 ^ 32
  room : s.RoomFor (divCeil value.length s.config.blockSizeBytes)

variable {V : Type} {codec : Codec V}

theorem blocksForValue_eq {length blockSize : Nat} (hblock : 0 < blockSize) (hlength : length < 2 ^ 32) :
    blocksForValue length blockSize = .ok (divCeil length blockSize) := by
  rw [blocksForValue, if_neg]
  have := divCeil_le_self (a := length) hblock
  omega

/-- The blocks of pointers on one page. -/
theorem inRanges_iff {page : Nat} {pointers : List ValuePointer}
    (hpage : ∀ p ∈ pointers, p.pageId = page) :
    Bitmask.InRanges config page (pointers.map (localRange config.blockSizeBytes)) i ↔
      ∃ p ∈ pointers, p.Covers config i := by
  simp only [Bitmask.InRanges, List.mem_map, exists_exists_and_eq_and]
  apply exists_congr
  intro p
  apply and_congr_right
  intro hp
  rw [ValuePointer.Covers, ValuePointer.start, ValuePointer.numBlocks, localRange, hpage p hp]
  omega

theorem inRanges_singleton {pointer : ValuePointer} : Bitmask.InRanges config pointer.pageId
      [(pointer.blockOffset, pointer.blockOffset + pointer.numBlocks config)] i ↔
    pointer.Covers config i := by
  have hpage : ∀ p ∈ [pointer], p.pageId = pointer.pageId := fun p hp => by rw [List.mem_singleton.mp hp]
  exact (inRanges_iff hpage).trans (by simp)

/-- A value is written to its pages and its blocks are marked. -/
theorem wp_writeValue (pointer : ValuePointer) (hgrowing : s.Growing t)
    (htvalid : t.Valid) (hbits : t.bitmask.numBits < 2 ^ 32) {bytes : List UInt8}
    (hlength : pointer.length = bytes.length) (hpos : 0 < bytes.length)
    (hoffset : pointer.blockOffset < s.config.pageBlocks)
    (hfree : t.bitmask.FreeBlocks (pointer.start s.config) (pointer.numBlocks s.config))
    (hC' : ∀ t, s.Putting pointer t → C t) :
    wp (do
        onPages (Pages.writeToPages s.config pointer bytes)
        onBitmask (Bitmask.markBlocks s.config pointer.pageId pointer.blockOffset
          (pointer.numBlocks s.config) true))
      (fun _ t => s.Put bytes pointer t) R C t := by
  have hconfig := hgrowing.config
  have hplaced : pointer.Placed s.config t.bitmask.numBits :=
    ⟨hoffset, hfree.1, hfree.1.trans_lt hbits, hlength ▸ hpos⟩
  have hcovered : ∀ block, pointer.Covers s.config block → s.bitmask.bits.content block = false := by
    intro block hblock
    rw [← hgrowing.content]
    exact hfree.2 block hblock.1 hblock.2
  have hputting : ∀ {pages : Pages} {bitmask : Bitmask},
      t.pages.WrittenSome pages (pointer.OnBytes s.config) →
      t.bitmask.MarkedSome bitmask (Bitmask.InRanges s.config pointer.pageId
        [(pointer.blockOffset, pointer.blockOffset + pointer.numBlocks s.config)]) true →
      s.Putting pointer { t with pages, bitmask } := by
    intro pages bitmask hwritten hmarked
    refine ⟨hconfig, hgrowing.tracker, hgrowing.generation,
      hwritten.numPages ▸ hgrowing.numPages, hcovered, ?_, ?_⟩
    · intro place v hv
      have := hwritten.mayHold place v hv
      rwa [hgrowing.bytes] at this
    · intro i v hv
      rcases hmarked.mayHold i v hv with hold | ⟨hin, hv⟩
      · exact .inl (hgrowing.mayHold i v hold)
      · exact .inr ⟨inRanges_singleton.mp hin, hv⟩
  apply wp_bind.mpr
  apply wp_onPages.mpr
  apply wp_total (Pages.wp_writeToPages (R := fun _ _ => False) (C := fun pages => C { t with pages })
    (hconfig ▸ htvalid.accepted) (p := t.pages)
    (by rw [← hconfig, ← htvalid.numBits_eq, hconfig]; exact hplaced) hlength.le ?_)
  · rintro _ pages ⟨hwritten, hvalue⟩
    apply wp_onBitmask.mpr
    apply wp_total (wp_markBlocksBatch (R := fun _ _ => False)
      (C := fun bitmask => C { t with pages, bitmask }) (hconfig ▸ htvalid.accepted)
      (hconfig ▸ htvalid.words.1) (hconfig ▸ htvalid.bitmask) ?_ ?_)
    · intro _ bitmask hmarked
      refine { toPutting := hputting hwritten hmarked.toMarkedSome
               valid := ⟨⟨htvalid.accepted, htvalid.words, ?_, ?_⟩, htvalid.tracker⟩
               placed := ?_, length := hlength, bytes := ?_
               bytes_value := hlength ▸ hvalue, bits := ?_ }
      · rw [hconfig]
        exact hmarked.valid
      · rw [hmarked.numBits, hwritten.numPages, htvalid.numBits_eq]
      · rw [hmarked.numBits]
        exact hplaced
      · intro place hnot
        rw [hwritten.content place hnot, hgrowing.bytes]
      · intro i
        split
        case isTrue hin => exact hmarked.content_marked i (inRanges_singleton.mpr hin)
        case isFalse hout =>
          rw [hmarked.content i fun hin => hout (inRanges_singleton.mp hin), hgrowing.content]
    · exact fun _ h => h
    · intro range hrange
      rw [List.mem_singleton.mp hrange]
      have hend := hplaced.end_lt
      have := hfree.1
      rw [ValuePointer.start] at this hend
      refine ⟨Nat.le_add_right _ _, by dsimp only; omega, ?_⟩
      exact (divCeil_le_self (hconfig ▸ htvalid.accepted.region_pos)).trans_lt (by dsimp only; omega)
    · exact fun bitmask hmarked => hC' _ (hputting hwritten hmarked)
  · exact fun _ h => h
  · exact fun pages hwritten => hC' _ (hputting hwritten (.refl _ _))

theorem wp_putValue (hvalid : s.Valid) {value : V} (hfits : s.Fits (codec.encode s.config value))
    (hC : ∀ t, s.Growing t → C t) (hC' : ∀ pointer t, s.Putting pointer t → C t) :
    wp (putValue codec i value) (fun existed t => existed = (s.tracker.get i).isSome ∧
      ∃ pointer t', s.Put (codec.encode s.config value) pointer t' ∧
        t = { t' with tracker := s.tracker.set i pointer }) R C s := by
  apply wp_get_bind
  generalize codec.encode s.config value = bytes at *
  obtain ⟨hpos, hlt, hroom⟩ := hfits
  have hblock := hvalid.accepted.block_pos
  have hn : 0 < divCeil bytes.length s.config.blockSizeBytes := by
    rw [lt_divCeil_iff hblock, Nat.zero_mul]
    exact hpos
  apply wp_bind.mpr
  apply (wp_ofExcept_ok (blocksForValue_eq hblock hlt)).mpr
  apply wp_seq (wp_findOrCreateAvailableBlocks (R := R) hvalid.toCovered hn hroom hC)
  rintro ⟨page, offset⟩ t ⟨hgrowing, htvalid, hbits, hoffset, hfree⟩
  rw [Nat.mod_eq_of_lt hlt]
  have hwrite := wp_writeValue (R := R) (C := C) ⟨page, offset, bytes.length⟩ hgrowing
    ⟨htvalid, hgrowing.tracker ▸ hvalid.tracker⟩ hbits rfl hpos hoffset hfree (hC' _)
  apply wp_seq (wp_bind.mp hwrite)
  intro _ t' hnext
  apply wp_seq hnext
  intro _ t'' hput
  apply wp_get_bind
  apply wp_bind.mpr
  apply (wp_modify _).mpr
  apply (wp_pure _).mpr
  refine ⟨by rw [hput.tracker], _, t'', hput, by rw [hput.tracker]⟩

/-! ## Delete -/

theorem wp_deleteValue_of_some {pointer : ValuePointer} {value : V}
    (hget : s.tracker.get i = some pointer)
    (hread : s.pages.readFromPages s.config pointer = .ok (codec.encode s.config value)) :
    wp (deleteValue codec i) (fun deleted t => deleted = some value ∧
      t = { s with tracker := (s.tracker.unset i).2 }) R C s := by
  apply wp_get_bind
  rw [Tracker.unset, hget]
  apply wp_bind.mpr
  apply (wp_modify _).mpr
  apply wp_bind.mpr
  apply (wp_ofExcept_ok hread).mpr
  apply (wp_pure _).mpr
  exact ⟨congrArg some (codec.decode_encode s.config value), rfl⟩

/-! ## Reads

`getValue` gives the value whose bytes are on the blocks of the current pointer. The
iteration goes through the store in batches, each under a lock of its own; on a store that
does not change it gives the value of every offset in ascending order.
-/

open List

/-- The bytes of the value are on the pages. -/
structure Pages.Holds (config : StorageConfig) (p : Pages) (pointer : ValuePointer)
    (raw : List UInt8) : Prop where
  length : raw.length = pointer.length
  bytes : ∀ k < pointer.length, raw[k]? = some (p.bytes.content (pointer.place config k))

variable {pointer : ValuePointer}

theorem Pages.Holds.readFromPages {p : Pages}
    {raw : List UInt8} (haccepted : config.Accepted)
    (hplaced : pointer.Placed config (p.numPages * config.pageBlocks))
    (h : p.Holds config pointer raw) : p.readFromPages config pointer = .ok raw := by
  obtain ⟨sections, hsections, hspec⟩ := exists_sections haccepted hplaced
  rw [Pages.readFromPages, hsections]
  simp only [bind, Except.bind]
  rw [foldlM_read hspec.page_lt, nil_append, hspec.bytes, map_map]
  congr 1
  apply ext_getElem?
  intro k
  rcases Nat.lt_or_ge k pointer.length with hlt | hge
  · rw [h.bytes k hlt, getElem?_map, getElem?_range hlt]
    rfl
  · rw [getElem?_eq_none (by simpa using hge), getElem?_eq_none (by rw [h.length]; exact hge)]

variable {value : V}

/-- What a point's pointer leads to. -/
theorem readFromPages_value (hvalid : s.Valid) (hplaced : pointer.Placed s.config s.bitmask.numBits)
    (h : s.pages.Holds s.config pointer (codec.encode s.config value)) :
    s.pages.readFromPages s.config pointer = .ok (codec.encode s.config value) :=
  h.readFromPages hvalid.accepted (hvalid.numBits_eq ▸ hplaced)

/-! ## Iteration -/

/-- The offsets of a list that have a value. -/
def present (contents : Nat → Option V) (offsets : List Nat) : List (Nat × V) :=
  offsets.filterMap fun i => (contents i).map fun value => (i, value)

variable {contents : Nat → Option V}

theorem mem_present {offsets : List Nat} :
    (i, value) ∈ present contents offsets ↔ i ∈ offsets ∧ contents i = some value := by
  simp only [present, mem_filterMap, Option.map_eq_some_iff, Prod.mk.injEq]
  constructor
  · rintro ⟨j, hj, v, hv, rfl, rfl⟩
    exact ⟨hj, hv⟩
  · rintro ⟨hi, hv⟩
    exact ⟨i, hi, value, hv, rfl, rfl⟩

theorem pairwise_present {offsets : List Nat}
    (h : offsets.Pairwise (· < ·)) : ((present contents offsets).map Prod.fst).Pairwise (· < ·) := by
  rw [present, map_filterMap]
  apply List.Pairwise.filterMap _ _ h
  intro a b hab x hx y hy
  simp only [Option.map_map, Option.map_eq_some_iff, Function.comp_apply] at hx hy
  obtain ⟨_, _, rfl⟩ := hx
  obtain ⟨_, _, rfl⟩ := hy
  exact hab

/-- One batch: it ends with the list, or it stops at an offset that has a value when it has
given `maxIters` values. -/
theorem viewIter_eq (hget : ∀ i, getValue codec s i = .ok (contents i))
    {maxIters nth : Nat} (hnth : nth ≤ maxIters) (offsets : List Nat) (visited : List (Nat × V)) :
    viewIter codec s maxIters offsets nth visited = .ok (visited ++ present contents offsets, none) ∨
      ∃ done next rest, offsets = done ++ next :: rest ∧
        (present contents done).length = maxIters - nth ∧
        viewIter codec s maxIters offsets nth visited = .ok (visited ++ present contents done, some next) := by
  induction offsets generalizing nth visited with
  | nil =>
    left
    rw [viewIter, present, filterMap_nil, append_nil]
  | cons i offsets ih =>
    rw [viewIter]
    have hi := hget i
    rw [getValue] at hi
    cases htracker : s.tracker.get i with
    | none =>
      rw [htracker, Except.ok.injEq] at hi
      have hskip : ∀ l, present contents (i :: l) = present contents l := by
        intro l
        rw [present, filterMap_cons, ← hi]
        rfl
      rw [hskip]
      rcases ih hnth visited with hend | ⟨done, next, rest, rfl, hlength, hstop⟩
      · exact .inl hend
      · exact .inr ⟨i :: done, next, rest, rfl, by rw [hskip, hlength], by rw [hskip]; exact hstop⟩
    | some pointer =>
      rw [htracker] at hi
      dsimp only at hi ⊢
      cases hread : s.pages.readFromPages s.config pointer with
      | error e =>
        rw [hread] at hi
        cases hi
      | ok raw =>
        rw [hread] at hi
        have hvalue : contents i = some (codec.decode s.config raw) := (Except.ok.inj hi).symm
        have htake : ∀ l, present contents (i :: l) =
            (i, codec.decode s.config raw) :: present contents l := by
          intro l
          rw [present, filterMap_cons, hvalue]
          rfl
        split
        case isTrue hfull =>
          subst hfull
          exact .inr ⟨[], i, offsets, rfl, by simp [present], by simp [present]⟩
        case isFalse hmore =>
          have hle : nth + 1 ≤ maxIters := by omega
          simp only [bind, Except.bind]
          rcases ih hle (visited ++ [(i, codec.decode s.config raw)]) with
            hend | ⟨done, next, rest, rfl, hlength, hstop⟩
          · rw [htake]
            left
            rw [hend, append_assoc]
            rfl
          · refine .inr ⟨i :: done, next, rest, rfl, ?_, ?_⟩
            · rw [htake, length_cons, hlength]
              omega
            · rw [hstop, htake, append_assoc]
              rfl

/-- The number of offsets that the iteration goes through. -/
def iterEnd (s : Gridstore) : Nat := Nat.min s.tracker.nextPointerOffset (2 ^ 32 - 1)

theorem iterPointers_eq (first : Nat) :
    s.iterPointers first (2 ^ 32 - 1) = List.range' first (s.iterEnd - first) := rfl

theorem iterBatches_eq (hget : ∀ i, getValue codec s i = .ok (contents i))
    {fuel first : Nat} (hfuel : s.iterEnd - first < fuel) (visited : List (Nat × V)) :
    iterBatches codec s fuel first visited =
      .ok (visited ++ present contents (List.range' first (s.iterEnd - first))) := by
  induction fuel generalizing first visited with
  | zero => omega
  | succ fuel ih =>
    rw [iterBatches, iterPointers_eq]
    rcases viewIter_eq hget (Nat.zero_le batchSize) (List.range' first (s.iterEnd - first)) visited with
      hend | ⟨done, next, rest, hsplit, hlength, hstop⟩
    · rw [hend]
      rfl
    · rw [hstop]
      simp only [bind, Except.bind]
      -- The batch has given values, so the next one starts further on.
      have hdone : 0 < done.length := by
        refine Nat.lt_of_lt_of_le ?_ (length_filterMap_le (fun i => (contents i).map fun v => (i, v)) done)
        rw [show (done.filterMap _).length = batchSize from hlength]
        decide
      obtain ⟨k, hk, hdoneEq, hrest⟩ := List.range'_eq_append_iff.mp hsplit
      obtain ⟨hnext, hpos, _⟩ := List.range'_eq_cons_iff.mp hrest.symm
      rw [hdoneEq, length_range'] at hdone
      rw [Nat.mul_one] at hnext hrest
      rw [ih (by omega), append_assoc, hsplit, hrest, ← hnext, Nat.sub_add_eq, present, present,
        present, filterMap_append]

end Qdrant.Gridstore
