-- SUMMARY: Opening a WAL segment on arbitrary bytes: what is recovered, and when a sum overflows.
import Qdrant.Wal.SegmentFile

/-!
# Opening a segment on any bytes

The length of an entry is read from the file, so it can be any 64-bit number. `openChecked` is
`Segment::open` with every sum and every slice checked as it is written; `openFile` checks the
sums at once, to the same effect (`parseChecked_eq`). The file opens exactly if the length
field behind the longest chain of entries does not reach beyond `usize`
(`openChecked_recovers_iff`).
-/

namespace Qdrant.Wal.Segment

open List Bytes

/-! ## Checked arithmetic -/

/-- A sum of type `usize`. -/
def checkedAdd (a b : Nat) : Except IoError Nat :=
  if a + b < usizeLimit then .ok (a + b) else .error (.panicked "attempt to add with overflow")

/-- The slice `data[start..stop]`. -/
def checkedSlice (data : List UInt8) (start stop : Nat) : Except IoError (List UInt8) :=
  if start ≤ stop ∧ stop ≤ data.length then .ok (slice data start (stop - start))
  else .error (.panicked "range out of bounds of slice")

/-- `LittleEndian::read_u64(&data[offset..])`. -/
def checkedU64 (data : List UInt8) (offset : Nat) : Except IoError Nat := do
  let rest ← checkedSlice data offset data.length
  let bytes ← checkedSlice rest 0 8
  return ofLE bytes

/-- `LittleEndian::read_u32(&data[offset..])`. -/
def checkedU32 (data : List UInt8) (offset : Nat) : Except IoError UInt32 := do
  let rest ← checkedSlice data offset data.length
  let bytes ← checkedSlice rest 0 4
  return .ofNat (ofLE bytes)

section

variable (crc32cAppend : Checksum)

/-- The parse loop of `Segment::open`. -/
def parseChecked (segment : List UInt8) :
    Nat → Nat → UInt32 → List (Nat × Nat) → Except IoError (List (Nat × Nat) × UInt32)
  | 0, _, crc, index => .ok (index, crc)
  | rounds + 1, offset, crc, index => do
    let smallest ← checkedAdd (← checkedAdd offset headerLen) crcLen
    if smallest < segment.length then
      let len ← checkedU64 segment offset
      let paddedLen ← checkedAdd len (padding len)
      let crcOffset ← checkedAdd (← checkedAdd offset headerLen) paddedLen
      if (← checkedAdd crcOffset crcLen) > segment.length then return (index, crc)
      let entryCrc := nextCrc crc32cAppend crc (← checkedSlice segment offset crcOffset)
      let storedCrc ← checkedU32 segment crcOffset
      if entryCrc ≠ storedCrc then return (index, crc)
      let entrySize ← checkedAdd (← checkedAdd headerLen paddedLen) crcLen
      parseChecked segment rounds (← checkedAdd offset entrySize) entryCrc
        (index ++ [(← checkedAdd offset headerLen, len)])
    else return (index, crc)

/-- `Segment::open`. -/
def openChecked (file : List UInt8) : Except IoError Segment :=
  if usizeLimit ≤ file.length ∨ file.length < headerLen then
    .error (.invalidInput ("invalid segment capacity: " ++ toString file.length))
  else do
    let mmap := file.take (alignDown file.length)
    if (← checkedSlice mmap 0 3) ≠ segmentMagic then
      .error (.invalidData "Illegal segment header")
    else
      let version ← checkedSlice mmap 3 4
      if version ≠ [segmentVersion] then
        .error (.invalidData ("Segment version unsupported: " ++ toString (ofLE version)))
      else
        let seed ← checkedU32 mmap 4
        let (index, crc) ← parseChecked crc32cAppend mmap mmap.length headerLen seed []
        return flush { mmap, index, crc, flushOffset := 0 }

end

/-! ## Chains of entries -/

section

variable (crc32cAppend : Checksum) (mmap : List UInt8)

/-- An entry of this length is at the offset: it lies within the file, and its stored checksum
is the one that continues `crc`. -/
structure EntryAt (offset : Nat) (crc : UInt32) (len : Nat) (crc' : UInt32) : Prop where
  length : readU64 mmap offset = len
  fits : offset + footprint len ≤ mmap.length
  computed : nextCrc crc32cAppend crc (slice mmap offset (headerLen + (len + padding len))) = crc'
  stored : readU32 mmap (offset + headerLen + (len + padding len)) = crc'

/-- Entries one after another, from an offset and a checksum up to others. -/
inductive EntryChain : Nat → UInt32 → List (Nat × Nat) → Nat → UInt32 → Prop
  | nil {offset : Nat} {crc : UInt32} : EntryChain offset crc [] offset crc
  | cons {offset len stop : Nat} {crc crc' last : UInt32} {index : List (Nat × Nat)}
      (entry : EntryAt crc32cAppend mmap offset crc len crc')
      (rest : EntryChain (offset + footprint len) crc' index stop last) :
      EntryChain offset crc ((offset + headerLen, len) :: index) stop last

/-- No entry continues a chain that ends here. -/
def Ends (offset : Nat) (crc : UInt32) : Prop := ∀ len crc', ¬ EntryAt crc32cAppend mmap offset crc len crc'

end

variable {crc32cAppend : Checksum} {mmap : List UInt8}
variable {offset : Nat} {crc : UInt32}

theorem EntryAt.unique {crc₁ crc₂ : UInt32} {len₁ len₂ : Nat}
    (h₁ : EntryAt crc32cAppend mmap offset crc len₁ crc₁)
    (h₂ : EntryAt crc32cAppend mmap offset crc len₂ crc₂) : len₁ = len₂ ∧ crc₁ = crc₂ := by
  obtain rfl := h₁.length
  obtain rfl := h₂.length
  exact ⟨rfl, h₁.computed.symm.trans h₂.computed⟩

variable {stop : Nat} {last : UInt32} {index : List (Nat × Nat)} {index' : List (Nat × Nat)}

/-- A chain that cannot be continued is the longest one, and a shorter one is followed by an
entry within the file. -/
theorem EntryChain.longest {stop' : Nat} {last' : UInt32}
    (h' : EntryChain crc32cAppend mmap offset crc index' stop' last')
    (h : EntryChain crc32cAppend mmap offset crc index stop last) (hends : Ends crc32cAppend mmap stop last) :
    index' <+: index ∧ (stop' = stop ∨ stop' + footprint (readU64 mmap stop') ≤ mmap.length) := by
  induction h' generalizing index with
  | nil =>
    refine And.intro nil_prefix ?_
    cases h with
    | nil => exact .inl rfl
    | cons entry _ =>
      rw [entry.length]
      exact .inr entry.fits
  | cons entry rest ih =>
    cases h with
    | nil => exact absurd entry (hends _ _)
    | cons entry₀ rest₀ =>
      obtain ⟨rfl, rfl⟩ := entry.unique entry₀
      obtain ⟨hpre, hstop⟩ := ih rest₀
      exact ⟨(prefix_cons_inj _).mpr hpre, hstop⟩

/-- Where the entries of a chain are. -/
theorem EntryChain.placed
    (h : EntryChain crc32cAppend mmap offset crc index stop last) (haligned : offset % 8 = 0) :
    (∀ position ∈ index, position.1 % 8 = 0 ∧ offset + headerLen ≤ position.1 ∧
      position.1 + position.2 + padding position.2 + crcLen ≤ mmap.length) ∧
    index.Pairwise fun a b => a.1 + a.2 + padding a.2 + crcLen + headerLen ≤ b.1 := by
  induction h with
  | nil => exact ⟨fun _ hmem => (nomatch hmem), .nil⟩
  | @cons offset len _ _ _ _ _ entry rest ih =>
    have hmod := footprint_mod len
    have hfits := entry.fits
    have hsize : footprint len = headerLen + (len + padding len) + crcLen := rfl
    obtain ⟨hplaced, hpairwise⟩ := ih (by omega)
    refine ⟨?_, pairwise_cons.mpr ⟨?_, hpairwise⟩⟩
    · rw [forall_mem_cons]
      refine ⟨⟨?_, le_rfl, ?_⟩, ?_⟩
      · simp only [headerLen]
        omega
      · dsimp only
        omega
      · intro position hmem
        obtain ⟨halign, hle, hend⟩ := hplaced position hmem
        exact ⟨halign, by omega, hend⟩
    · intro position hmem
      have hle := (hplaced position hmem).2.1
      dsimp only
      omega

/-! ## The parse loop -/

theorem checkedAdd_eq {a b : Nat} (h : a + b < usizeLimit) : checkedAdd a b = .ok (a + b) := if_pos h

theorem checkedAdd_overflow {a b : Nat} (h : usizeLimit ≤ a + b) :
    checkedAdd a b = .error (.panicked "attempt to add with overflow") := if_neg (not_lt.mpr h)

variable {data : List UInt8}

theorem checkedSlice_eq {start : Nat} (hstart : start ≤ stop)
    (hstop : stop ≤ data.length) : checkedSlice data start stop = .ok (slice data start (stop - start)) :=
  if_pos ⟨hstart, hstop⟩

theorem slice_slice (data : List UInt8) (offset : Nat) {rest n : Nat} (h : n ≤ rest) :
    slice (slice data offset rest) 0 n = slice data offset n := by
  simp only [slice, drop_zero, take_take, Nat.min_eq_left h]

theorem checkedSlice_rest {n : Nat} (h : offset + n ≤ data.length) :
    (do let rest ← checkedSlice data offset data.length; checkedSlice rest 0 n) =
      .ok (slice data offset n) := by
  have hlen : (slice data offset (data.length - offset)).length = data.length - offset := by
    rw [slice, length_take, length_drop, Nat.min_self]
  rw [checkedSlice_eq (by omega) le_rfl]
  dsimp only [bind, Except.bind]
  rw [checkedSlice_eq (Nat.zero_le _) (by omega), Nat.sub_zero, slice_slice _ _ (by omega)]

theorem checkedU64_eq (h : offset + 8 ≤ data.length) :
    checkedU64 data offset = .ok (readU64 data offset) := by
  have hread := checkedSlice_rest h
  unfold checkedU64
  rw [← bind_assoc, hread]
  rfl

theorem checkedU32_eq (h : offset + 4 ≤ data.length) :
    checkedU32 data offset = .ok (readU32 data offset) := by
  have hread := checkedSlice_rest h
  unfold checkedU32
  rw [← bind_assoc, hread]
  rfl

/-- No slice is out of bounds, and a sum overflows exactly if the end of an entry does. -/
theorem parseChecked_eq (hsize : mmap.length < 2 ^ 63) (rounds : Nat) (crc : UInt32)
    (index : List (Nat × Nat)) (hoffset : offset ≤ mmap.length) :
    parseChecked crc32cAppend mmap rounds offset crc index =
      parse crc32cAppend mmap rounds offset crc index := by
  induction rounds generalizing offset crc index with
  | zero => rfl
  | succ rounds ih =>
    have hheader : headerLen = 8 := rfl
    have hcrc : crcLen = 4 := rfl
    have hlimit : usizeLimit = 2 ^ 64 := rfl
    unfold parseChecked parse
    rw [checkedAdd_eq (by omega)]
    dsimp only [bind, Except.bind]
    rw [checkedAdd_eq (by omega)]
    dsimp only
    split
    next hroom =>
      rw [checkedU64_eq (by omega)]
      dsimp only
      generalize readU64 mmap offset = len
      rcases Nat.lt_or_ge (offset + headerLen + (len + padding len) + crcLen) usizeLimit with hlt | hge
      · rw [if_neg (not_le.mpr hlt), checkedAdd_eq (by omega)]
        dsimp only
        rw [checkedAdd_eq (by omega)]
        dsimp only
        rw [checkedAdd_eq hlt]
        dsimp only
        split
        next => rfl
        next hfits =>
          have hbytes : offset + headerLen + (len + padding len) - offset =
              headerLen + (len + padding len) := by omega
          rw [checkedSlice_eq (by omega) (by omega), hbytes]
          rw [checkedU32_eq (by omega)]
          dsimp only
          split
          next => rfl
          next =>
            rw [checkedAdd_eq (by omega)]
            dsimp only
            rw [checkedAdd_eq (by omega)]
            dsimp only
            rw [checkedAdd_eq (by omega)]
            exact ih _ _ (by omega)
      · rw [if_pos hge]
        rcases Nat.lt_or_ge (len + padding len) usizeLimit with hpadded | hpadded
        · rw [checkedAdd_eq hpadded]
          dsimp only
          rcases Nat.lt_or_ge (offset + headerLen + (len + padding len)) usizeLimit with hsum | hsum
          · rw [checkedAdd_eq hsum]
            dsimp only
            rw [checkedAdd_overflow hge]
          · rw [checkedAdd_overflow hsum]
        · rw [checkedAdd_overflow hpadded]
    next => rfl

/-- The loop finds the longest chain of entries, unless a length field at its end overflows. -/
theorem parse_chain (rounds offset : Nat) (crc : UInt32) (index : List (Nat × Nat))
    (hrounds : mmap.length ≤ offset + 16 * rounds) :
    ∃ found stop last, EntryChain crc32cAppend mmap offset crc found stop last ∧
      ((Ends crc32cAppend mmap stop last ∧
          (stop + headerLen + crcLen < mmap.length → stop + footprint (readU64 mmap stop) < usizeLimit) ∧
          parse crc32cAppend mmap rounds offset crc index = .ok (index ++ found, last)) ∨
        (stop + headerLen + crcLen < mmap.length ∧ usizeLimit ≤ stop + footprint (readU64 mmap stop) ∧
          parse crc32cAppend mmap rounds offset crc index =
            .error (.panicked "attempt to add with overflow"))) := by
  have hends : ∀ {stop : Nat} {last : UInt32}, ¬ stop + headerLen + crcLen < mmap.length →
      Ends crc32cAppend mmap stop last := by
    intro stop last hroom len crc' entry
    have hfits := entry.fits
    have hge := footprint_ge len
    simp only [headerLen, crcLen] at hroom
    omega
  induction rounds generalizing offset crc index with
  | zero =>
    have hroom : ¬ offset + headerLen + crcLen < mmap.length := by omega
    exact ⟨[], offset, crc, .nil, .inl ⟨hends hroom, fun h => absurd h hroom, by rw [append_nil]; rfl⟩⟩
  | succ rounds ih =>
    unfold parse
    rcases Decidable.em (offset + headerLen + crcLen < mmap.length) with hroom | hroom
    · rw [if_pos hroom]
      have hsize : offset + headerLen + (readU64 mmap offset + padding (readU64 mmap offset)) + crcLen =
          offset + footprint (readU64 mmap offset) := by
        simp only [footprint]
        omega
      dsimp only
      rw [hsize]
      rcases Nat.lt_or_ge (offset + footprint (readU64 mmap offset)) usizeLimit with hlt | hge
      · rw [if_neg (not_le.mpr hlt)]
        -- The entry fits and its checksum matches, or the chain ends here.
        split
        next hlong =>
          refine ⟨[], offset, crc, .nil, .inl ⟨?_, fun _ => hlt, by rw [append_nil]⟩⟩
          rintro len crc' ⟨rfl, hfits, -, -⟩
          exact absurd hfits (not_le.mpr hlong)
        next hfits =>
          split
          next hdiffers =>
            refine ⟨[], offset, crc, .nil, .inl ⟨?_, fun _ => hlt, by rw [append_nil]⟩⟩
            rintro len crc' ⟨rfl, -, hcomputed, hstored⟩
            exact hdiffers (hcomputed.trans hstored.symm)
          next hmatches =>
            have hcrc := not_not.mp hmatches
            have hge := footprint_ge (readU64 mmap offset)
            have entry : EntryAt crc32cAppend mmap offset crc (readU64 mmap offset) _ :=
              ⟨rfl, not_lt.mp hfits, rfl, hcrc.symm⟩
            obtain ⟨found, stop, last, hchain, hresult⟩ := ih
              (offset + footprint (readU64 mmap offset)) (nextCrc crc32cAppend crc _)
              (index ++ [(offset + headerLen, readU64 mmap offset)]) (by omega)
            refine ⟨_, stop, last, .cons entry hchain, ?_⟩
            rwa [append_assoc, singleton_append] at hresult
      · exact ⟨[], offset, crc, .nil, .inr ⟨hroom, hge, if_pos hge⟩⟩
    · rw [if_neg hroom]
      exact ⟨[], offset, crc, .nil, .inl ⟨hends hroom, fun h => absurd h hroom, by rw [append_nil]⟩⟩

/-! ## Opening -/

/-- The header is one of a segment. -/
def ValidHeader (file : List UInt8) : Prop := slice file 0 4 = segmentMagic ++ [segmentVersion]

/-- What opening a file is to recover: the longest chain of entries from the seed on. -/
structure Recovers (crc32cAppend : Checksum) (s : Segment) : Prop where
  chain : ∃ stop, EntryChain crc32cAppend s.mmap headerLen s.readSeedCrc s.index stop s.crc
  longest : ∀ index stop last, EntryChain crc32cAppend s.mmap headerLen s.readSeedCrc index stop last →
    index <+: s.index
  placed : ∀ position ∈ s.index, position.1 % 8 = 0 ∧ headerLen + headerLen ≤ position.1 ∧
    position.1 + position.2 + padding position.2 + crcLen ≤ s.mmap.length
  disjoint : s.index.Pairwise fun a b => a.1 + a.2 + padding a.2 + crcLen + headerLen ≤ b.1

/-- Behind every chain of entries with room for another one, the length field gives an end
within `usize`. -/
def LengthsInRange (crc32cAppend : Checksum) (mmap : List UInt8) : Prop :=
  ∀ index stop last, EntryChain crc32cAppend mmap headerLen (readU32 mmap 4) index stop last →
    stop + headerLen + crcLen < mmap.length → stop + footprint (readU64 mmap stop) < usizeLimit

theorem openChecked_eq {file : List UInt8} (hheader : headerLen ≤ file.length) (hsize : file.length < 2 ^ 63)
    (hvalid : ValidHeader file) (hmmap : mmap = file.take (alignDown file.length)) :
    openChecked crc32cAppend file =
      (parse crc32cAppend mmap mmap.length headerLen (readU32 mmap 4) []).map fun parsed =>
        flush { mmap, index := parsed.1, crc := parsed.2, flushOffset := 0 } := by
  have hlimit : usizeLimit = 2 ^ 64 := rfl
  have hlen : headerLen = 8 := rfl
  have hbounds : 8 ≤ mmap.length ∧ mmap.length ≤ file.length := by
    rw [hmmap, length_take]
    unfold alignDown
    omega
  have hfirst : slice mmap 0 4 = segmentMagic ++ [segmentVersion] := by
    rw [← hvalid, hmmap]
    simp only [slice, drop_zero, take_take]
    congr 1
    unfold alignDown
    omega
  have hmagic : slice mmap 0 3 = segmentMagic := by
    rw [← slice_slice _ _ (by decide : 3 ≤ 4), hfirst]
    rfl
  have hversion : slice mmap 3 1 = [segmentVersion] := by
    have hdrop := congrArg (List.drop 3) hfirst
    rw [slice, drop_take] at hdrop
    exact hdrop
  unfold openChecked
  rw [if_neg (by omega), ← hmmap]
  dsimp only
  rw [checkedSlice_eq (by decide) (by omega)]
  dsimp only [bind, Except.bind]
  rw [if_neg (not_not.mpr hmagic), checkedSlice_eq (by decide) (by omega)]
  dsimp only
  rw [if_neg (not_not.mpr hversion), checkedU32_eq (by omega)]
  dsimp only
  rw [parseChecked_eq (by omega) _ _ _ (by omega)]
  rfl

/-- On a file with a valid header, opening overflows no sum, leaves no slice and recovers the
longest chain of entries, exactly if the length field behind that chain is in range. -/
theorem openChecked_recovers_iff (crc32cAppend : Checksum) {file : List UInt8}
    (hheader : headerLen ≤ file.length) (hsize : file.length < 2 ^ 63) (hvalid : ValidHeader file) :
    (∃ s, openChecked crc32cAppend file = .ok s ∧ s.mmap = file.take (alignDown file.length) ∧
      s.Recovers crc32cAppend) ↔
      LengthsInRange crc32cAppend (file.take (alignDown file.length)) := by
  rw [openChecked_eq hheader hsize hvalid rfl]
  have hmmap : (file.take (alignDown file.length)).length < usizeLimit := by
    rw [length_take]
    unfold usizeLimit
    omega
  generalize file.take (alignDown file.length) = mmap at hmmap ⊢
  obtain ⟨found, stop, last, hchain, hresult⟩ :
      ∃ found stop last, EntryChain crc32cAppend mmap headerLen (readU32 mmap 4) found stop last ∧ _ :=
    parse_chain mmap.length headerLen (readU32 mmap 4) [] (by omega)
  rcases hresult with ⟨hends, hinRange, hparse⟩ | ⟨hroom, hoverflow, hparse⟩
  · rw [hparse]
    obtain ⟨hplaced, hdisjoint⟩ := hchain.placed (by decide)
    constructor
    · rintro - index stop' last' hchain' hroom'
      rcases (hchain'.longest hchain hends).2 with rfl | hfits
      · exact hinRange hroom'
      · exact hfits.trans_lt hmmap
    · intro _
      exact ⟨_, rfl, rfl, ⟨stop, hchain⟩, fun _ _ _ hchain' => (hchain'.longest hchain hends).1,
        hplaced, hdisjoint⟩
  · rw [hparse]
    constructor
    · rintro ⟨s, hopen, -⟩
      cases hopen
    · intro hlengths
      exact absurd (hlengths found stop last hchain hroom) (not_lt.mpr hoverflow)

/-- A header and 24 bytes behind it, the first 8 of which are a length field. -/
def fileWithLength (len : Nat) : List UInt8 := header 0 ++ toLE 8 len ++ zeros 16

/-- An entry that is longer than the file ends the chain. -/
theorem openChecked_recovers_long :
    ∃ s, openChecked crc32c (fileWithLength 100) = .ok s ∧ s.mmap = fileWithLength 100 ∧
      s.Recovers crc32c := by
  have hlengths : LengthsInRange crc32c (fileWithLength 100) := by
    intro index stop last hchain hroom
    cases hchain with
    | nil => decide
    | cons entry _ =>
      obtain rfl := entry.length
      exact absurd entry.fits (by decide)
  have hvalid : ValidHeader (fileWithLength 100) := rfl
  exact (openChecked_recovers_iff crc32c (by decide) (by decide) hvalid).mpr hlengths

/-- A length field of `2 ^ 64 - 20`. -/
theorem openChecked_overflows : ValidHeader (fileWithLength (2 ^ 64 - 20)) ∧
    openChecked crc32c (fileWithLength (2 ^ 64 - 20)) =
      .error (.panicked "attempt to add with overflow") := ⟨rfl, by decide +kernel⟩

end Qdrant.Wal.Segment
