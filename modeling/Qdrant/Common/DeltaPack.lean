-- SUMMARY: Packing of numbers with one width for all of them, and of the steps between sorted numbers.
import Qdrant.Common.BitPackingLinks

/-!
# Delta packing

Source: `lib/common/common/src/delta_pack.rs`.

The number of values is not stored. A value takes a byte at least, so the bits that pad the last
byte are too few to be read as one more. The length is tested as a `u32`: of `2 ^ 32` values
nothing is written.
-/

namespace Qdrant.DeltaPack

open BitFields BitReader List

def headerBits : Nat := 6

/-- `compress_sequence`. -/
def compressSequence (data : List Nat) : List UInt8 :=
  if data.length % 2 ^ 32 = 0 then []
  else
    let bitsPerValue := max (packedBits (data.foldl max 0)) minBitsPerValue
    let writer := (BitWriter.new []).write (bitsPerValue - minBitsPerValue) headerBits
    (writer.writeAll (data.map (·, bitsPerValue))).finish

/-- The loop of `decompress_sequence`. -/
def readValues (header remainingBits : Nat) (reader : BitReader) : List Nat :=
  if header + minBitsPerValue ≤ remainingBits then
    let (value, reader) := reader.read 64
    value :: readValues header (remainingBits - (header + minBitsPerValue)) reader
  else []
termination_by remainingBits
decreasing_by
  simp only [minBitsPerValue] at *
  omega

/-- `decompress_sequence`. -/
def decompressSequence (data : List UInt8) : List Nat :=
  if data.isEmpty then []
  else
    let (header, reader) := ((BitReader.new data).setBits headerBits).read 8
    readValues header (data.length * 8 - headerBits) (reader.setBits (header + minBitsPerValue))

/-- `delta_pack`, for sorted values. -/
def deltaPack (data : List Nat) : List UInt8 := compressSequence (deltas 0 data)

/-- `delta_unpack`. -/
def deltaUnpack (data : List UInt8) : List Nat := (undoDeltas 0 (decompressSequence data)).map (· % 2 ^ 64)

variable {header : Nat} {values : List Nat}

/-- As many values are read as take up the bits, whatever is left of the last byte. -/
theorem readValues_eq {remainingBits : Nat} {pre : List (Nat × Nat)} {reader : BitReader}
    (hat : reader.At (pack (pre ++ values.map (·, header + minBitsPerValue))) (width pre))
    (hfits : Fits (pre ++ values.map (·, header + minBitsPerValue)))
    (hbits : reader.bits = header + minBitsPerValue)
    (hle : values.length * (header + minBitsPerValue) ≤ remainingBits)
    (hlt : remainingBits < values.length * (header + minBitsPerValue) + minBitsPerValue) :
    readValues header remainingBits reader = values := by
  induction values generalizing pre remainingBits reader with
  | nil =>
    rw [length_nil] at hlt
    unfold readValues
    exact if_neg (by omega)
  | cons value values ih =>
    have hvalue : value < 2 ^ reader.bits := by
      rw [hbits]
      exact hfits (value, _) (mem_append_right _ mem_cons_self)
    obtain ⟨hread, hat'⟩ := hat.read_field hfits hbits
      (hvalue.trans_le (Nat.pow_le_pow_right (by decide) hat.bits_le))
    rw [map_cons, append_cons] at hfits
    rw [length_cons, Nat.succ_mul] at hle hlt
    unfold readValues
    rw [if_pos (by omega)]
    dsimp only
    rw [hread, ih hat' hfits (by rw [bits_read, hbits]) (by omega) (by omega)]

theorem decompressSequence_pack
    (hfits : Fits ((header, headerBits) :: values.map (·, header + minBitsPerValue)))
    (h64 : header + minBitsPerValue ≤ 64) :
    decompressSequence (pack ((header, headerBits) :: values.map (·, header + minBitsPerValue))) = values := by
  have hlen : (pack ((header, headerBits) :: values.map (·, header + minBitsPerValue))).length =
      (6 + values.length * (header + minBitsPerValue) + 7) / 8 := by
    rw [length_pack, width_cons, width_map, headerBits]
  have hheader : header < 2 ^ 8 := by omega
  obtain ⟨hvalue, hat⟩ := @At.read_field _ [] _ _ ((at_new _).setBits (by decide)) hfits rfl _ hheader
  rw [nil_append] at hvalue hat
  unfold decompressSequence
  rw [if_neg]
  · dsimp only
    rw [hvalue]
    apply readValues_eq (hat.setBits h64) hfits rfl <;> rw [hlen, headerBits]
    · omega
    · unfold minBitsPerValue
      omega
  · rw [isEmpty_iff_length_eq_zero, hlen]
    omega

theorem decompressSequence_compressSequence (hvalues : ∀ value ∈ values, value < 2 ^ 64)
    (h : values.length % 2 ^ 32 = 0 → values = []) :
    decompressSequence (compressSequence values) = values := by
  unfold compressSequence
  split
  next hlen =>
    rw [h hlen]
    rfl
  next =>
    have hmax := lt_bitsPerSorted values
    have h64 : bitsPerSorted values ≤ 64 :=
      Nat.max_le.mpr ⟨packedBits_le_iff.mpr (foldl_max_lt (by decide) hvalues), by decide⟩
    obtain ⟨header, hheader⟩ : ∃ header, bitsPerSorted values = header + minBitsPerValue :=
      Nat.exists_eq_add_of_le' (le_max_right _ _)
    change decompressSequence
      (((BitWriter.new []).writeAll ((bitsPerSorted values - minBitsPerValue, headerBits) ::
        values.map (·, bitsPerSorted values))).finish) = values
    rw [hheader] at hmax h64 ⊢
    rw [Nat.add_sub_cancel]
    have hfits : Fits ((header, headerBits) :: values.map (·, header + minBitsPerValue)) := by
      refine Fits.append (a := [_]) ?_ (fits_map hmax)
      unfold minBitsPerValue at h64
      simp only [Fits, headerBits, mem_singleton, forall_eq]
      omega
    rw [BitWriter.finish_writeAll hfits (by simpa [headerBits] using fun _ _ => h64)]
    exact decompressSequence_pack hfits h64

theorem decompressSequence_of_length (h : values.length % 2 ^ 32 = 0) :
    decompressSequence (compressSequence values) = [] := by
  unfold compressSequence
  rw [if_pos h]
  rfl

/-- What was packed is unpacked, unless the number of values is a multiple of `2 ^ 32`. -/
theorem sequences_round_trip_iff {data : List Nat} (hvalues : ∀ value ∈ data, value < 2 ^ 64) :
    (decompressSequence (compressSequence data) = data ↔ (data.length % 2 ^ 32 = 0 → data = [])) ∧
      (data.Pairwise (· ≤ ·) →
        (deltaUnpack (deltaPack data) = data ↔ (data.length % 2 ^ 32 = 0 → data = []))) := by
  have hdeltas : (deltas 0 data).length % 2 ^ 32 = data.length % 2 ^ 32 := by rw [length_deltas]
  refine ⟨⟨fun hback hlen => ?_, decompressSequence_compressSequence hvalues⟩,
    fun hsorted => ⟨fun hback hlen => ?_, fun h => ?_⟩⟩
  · rw [← hback, decompressSequence_of_length hlen]
  · rw [← hback, deltaUnpack, deltaPack, decompressSequence_of_length (hdeltas.trans hlen)]
    rfl
  · rw [deltaUnpack, deltaPack, decompressSequence_compressSequence (deltas_lt hvalues),
      undoDeltas_deltas (pairwise_cons.mpr ⟨fun _ _ => Nat.zero_le _, hsorted⟩)]
    · exact (map_congr_left fun value hvalue => Nat.mod_eq_of_lt (hvalues value hvalue)).trans data.map_id
    · intro hlen
      rw [h (hdeltas.symm.trans hlen)]
      rfl

theorem sequences_round_trip_iff_three :
    decompressSequence (compressSequence [5, 7, 2 ^ 64 - 1]) = [5, 7, 2 ^ 64 - 1] ∧
      deltaUnpack (deltaPack [5, 7, 2 ^ 64 - 1]) = [5, 7, 2 ^ 64 - 1] :=
  have h := @sequences_round_trip_iff [5, 7, 2 ^ 64 - 1] (by decide)
  ⟨h.1.mpr (by decide), (h.2 (by decide)).mpr (by decide)⟩

/-- Of `2 ^ 32` zeros none comes back. -/
theorem sequences_lost :
    decompressSequence (compressSequence (replicate (2 ^ 32) 0)) ≠ replicate (2 ^ 32) 0 := by
  rw [decompressSequence_of_length (by rw [length_replicate, Nat.mod_self])]
  exact (ne_nil_of_length_pos (by rw [length_replicate]; decide)).symm

end Qdrant.DeltaPack
