-- SUMMARY: A writer and a reader of bit fields that work on a buffer of 64 bits.
import Qdrant.Base.Bytes

/-!
# Bit packing

Source: `lib/common/common/src/bitpacking.rs`.

Numbers of any width are written through a buffer of 64 bits, and read back through another
one. What the writer has written is the fields it was given, packed (`BitWriter.Wrote`); the
reader stands at a bit position of its input (`BitReader.At`).
-/

namespace Qdrant

open Bytes BitFields List

/-- `packed_bits`: the number of bits that the value takes. -/
def packedBits (maxValue : Nat) : Nat := if maxValue = 0 then 0 else maxValue.log2 + 1

/-- `make_bitmask` for a type of so many bits. -/
def makeBitmask (typeBits bits : Nat) : Nat :=
  if typeBits ≤ bits then 2 ^ typeBits - 1 else (1 <<< bits) - 1

theorem packedBits_le_iff {maxValue bits : Nat} : packedBits maxValue ≤ bits ↔ maxValue < 2 ^ bits := by
  unfold packedBits
  rcases Nat.eq_zero_or_pos maxValue with rfl | hpos
  · simp
  · rw [if_neg hpos.ne', Nat.add_one_le_iff, Nat.log2_lt hpos.ne']

theorem makeBitmask_eq {typeBits bits : Nat} (h : bits ≤ typeBits) :
    makeBitmask typeBits bits = 2 ^ bits - 1 := by
  unfold makeBitmask
  split
  next hle => rw [Nat.le_antisymm h hle]
  next => rw [Nat.shiftLeft_eq, Nat.one_mul]

theorem and_makeBitmask {typeBits bits : Nat} (h : bits ≤ typeBits) (n : Nat) :
    n &&& makeBitmask typeBits bits = n % 2 ^ bits := by
  rw [makeBitmask_eq h, Nat.and_two_pow_sub_one_eq_mod]

theorem le_foldl_max {α : Type} (f : α → Nat) (l : List α) (start : Nat) :
    start ≤ l.foldl (fun m x => max m (f x)) start ∧
      ∀ x ∈ l, f x ≤ l.foldl (fun m x => max m (f x)) start := by
  induction l generalizing start with
  | nil => exact ⟨le_rfl, fun _ hx => nomatch hx⟩
  | cons y l ih =>
    obtain ⟨hstart, hl⟩ := ih (max start (f y))
    refine ⟨(Nat.le_max_left ..).trans hstart, fun x hx => ?_⟩
    rcases mem_cons.mp hx with rfl | hx
    · exact (Nat.le_max_right ..).trans hstart
    · exact hl x hx

/-! ## Writer -/

structure BitWriter where
  output : List UInt8
  buf : Nat
  bufBits : Nat

namespace BitWriter

def new (output : List UInt8) : BitWriter := ⟨output, 0, 0⟩

def write (w : BitWriter) (value bits : Nat) : BitWriter :=
  let buf := w.buf ||| (value <<< w.bufBits) % 2 ^ 64
  let bufBits := w.bufBits + bits
  if 64 ≤ bufBits then
    let bufBits := bufBits - 64
    { output := w.output ++ toLE 8 buf
      buf := if bits - bufBits = 64 then 0 else value >>> (bits - bufBits)
      bufBits }
  else { w with buf, bufBits }

/-- `finish`: the output with the rest of the buffer. -/
def finish (w : BitWriter) : List UInt8 := w.output ++ (toLE 8 w.buf).take ((w.bufBits + 7) / 8)

/-- Write the fields in turn. -/
def writeAll (w : BitWriter) (fields : List (Nat × Nat)) : BitWriter :=
  fields.foldl (fun w field => w.write field.1 field.2) w

theorem writeAll_append (w : BitWriter) (a b : List (Nat × Nat)) :
    w.writeAll (a ++ b) = (w.writeAll a).writeAll b := foldl_append

/-- These fields have been written after `out`: whole words of them are in the output, and
the rest is in the buffer. -/
structure Wrote (w : BitWriter) (out : List UInt8) (fields : List (Nat × Nat)) : Prop where
  fits : Fits fields
  bufBits_lt : w.bufBits < 64
  words : ∃ k, width fields = 64 * k + w.bufBits ∧ w.output = out ++ toLE (8 * k) (number fields) ∧
    w.buf = number fields / 2 ^ (64 * k)

theorem wrote_new (out : List UInt8) : (new out).Wrote out [] where
  fits _ hfield := nomatch hfield
  bufBits_lt := Nat.zero_lt_succ _
  words := ⟨0, rfl, (append_nil out).symm, rfl⟩

theorem number_snoc (fields : List (Nat × Nat)) (value bits : Nat) :
    number (fields ++ [(value, bits)]) = number fields + 2 ^ width fields * value := by
  simp [number_append, number]

variable {fields : List (Nat × Nat)}

variable {w : BitWriter} {out : List UInt8}

theorem Wrote.buf_lt (h : w.Wrote out fields) : w.buf < 2 ^ w.bufBits := by
  obtain ⟨k, hwidth, -, hbuf⟩ := h.words
  rw [hbuf]
  apply Nat.div_lt_of_lt_mul
  rw [← pow_add, ← hwidth]
  exact number_lt h.fits

theorem toLE_mod_word (n : Nat) : toLE 8 (n % 2 ^ 64) = toLE 8 n := by
  rw [← toLE_add_mul 8 (n % 2 ^ 64) (n / 2 ^ 64)]
  exact congrArg (toLE 8) (Nat.mod_add_div n (2 ^ 64))

/-- The whole words stay as they are when a field is added above them. -/
theorem toLE_words_snoc {k bufBits : Nat}
    (hwidth : width fields = 64 * k + bufBits) (value bits : Nat) :
    toLE (8 * k) (number (fields ++ [(value, bits)])) = toLE (8 * k) (number fields) := by
  have hpow : 2 ^ (64 * k) = 256 ^ (8 * k) := by rw [pow_256, ← Nat.mul_assoc]
  rw [number_snoc, hwidth, pow_add, Nat.mul_assoc, hpow, toLE_add_mul]

/-- What `buf` and a new field above it are before a full word is taken off. -/
theorem buf_or (h : w.Wrote out fields) (value : Nat) :
    w.buf ||| (value <<< w.bufBits) % 2 ^ 64 = (w.buf + 2 ^ w.bufBits * value) % 2 ^ 64 := by
  have hbuf : w.buf < 2 ^ 64 := h.buf_lt.trans (Nat.pow_lt_pow_right (by decide) h.bufBits_lt)
  rw [← or_shiftLeft h.buf_lt, Nat.or_mod_two_pow, Nat.mod_eq_of_lt hbuf]

theorem Wrote.write
    (h : w.Wrote out fields) {value bits : Nat} (hvalue : value < 2 ^ bits) (hbits : bits ≤ 64) :
    (w.write value bits).Wrote out (fields ++ [(value, bits)]) := by
  obtain ⟨k, hwidth, houtput, hbuf⟩ := h.words
  have hlt := h.bufBits_lt
  have hfits : Fits (fields ++ [(value, bits)]) :=
    h.fits.append fun field hfield => by
      obtain rfl := mem_singleton.mp hfield
      exact hvalue
  have hdiv : number (fields ++ [(value, bits)]) / 2 ^ (64 * k) = w.buf + 2 ^ w.bufBits * value := by
    rw [hbuf, number_snoc, hwidth, pow_add, Nat.mul_assoc, Nat.add_mul_div_left _ _ (Nat.two_pow_pos _)]
  unfold BitWriter.write
  dsimp only
  split
  next hfull =>
    -- The buffer is full: one more word goes to the output.
    refine ⟨hfits, by dsimp only; omega, k + 1, ?_, ?_, ?_⟩
    · rw [width_append, width_cons, width_nil]
      dsimp only
      omega
    · rw [buf_or h, toLE_mod_word, Nat.mul_add, toLE_add, pow_256, ← Nat.mul_assoc, hdiv, houtput,
        toLE_words_snoc hwidth, append_assoc]
    · have hshift : bits - (w.bufBits + bits - 64) = 64 - w.bufBits := by omega
      have hhigh : number (fields ++ [(value, bits)]) / 2 ^ (64 * (k + 1)) =
          value / 2 ^ (64 - w.bufBits) := by
        have hword : 64 = w.bufBits + (64 - w.bufBits) := by omega
        rw [Nat.mul_succ, div_pow_add, hdiv]
        conv_lhs => rw [hword]
        rw [div_pow_add, Nat.add_mul_div_left _ _ (Nat.two_pow_pos _), Nat.div_eq_of_lt h.buf_lt,
          Nat.zero_add]
      rw [hshift, hhigh]
      split
      next h64 =>
        have hsmall : value < 2 ^ (64 - w.bufBits) := by
          rw [h64]
          exact hvalue.trans_le (Nat.pow_le_pow_right (by decide) hbits)
        exact (Nat.div_eq_of_lt hsmall).symm
      next => exact Nat.shiftRight_eq_div_pow _ _
  next hroom =>
    refine ⟨hfits, by dsimp only; omega, k, ?_, ?_, ?_⟩
    · rw [width_append, width_cons, width_nil]
      dsimp only
      omega
    · rw [toLE_words_snoc hwidth]
      exact houtput
    · have hsmall : w.buf + 2 ^ w.bufBits * value < 2 ^ 64 := by
        calc w.buf + 2 ^ w.bufBits * value
            < 2 ^ w.bufBits + 2 ^ w.bufBits * value := Nat.add_lt_add_right h.buf_lt _
          _ = 2 ^ w.bufBits * (value + 1) := by ring
          _ ≤ 2 ^ w.bufBits * 2 ^ bits := Nat.mul_le_mul_left _ hvalue
          _ = 2 ^ (w.bufBits + bits) := (pow_add ..).symm
          _ ≤ 2 ^ 64 := Nat.pow_le_pow_right (by decide) (by omega)
      rw [buf_or h, hdiv, Nat.mod_eq_of_lt hsmall]

theorem Wrote.writeAll {written : List (Nat × Nat)}
    (h : w.Wrote out written) (hfits : Fits fields) (hbits : ∀ field ∈ fields, field.2 ≤ 64) :
    (w.writeAll fields).Wrote out (written ++ fields) := by
  induction fields generalizing w written with
  | nil => rwa [append_nil]
  | cons field fields ih =>
    have hstep := h.write (hfits field mem_cons_self) (hbits field mem_cons_self)
    have hrest := ih hstep (fun f hf => hfits f (mem_cons_of_mem _ hf))
      fun f hf => hbits f (mem_cons_of_mem _ hf)
    rwa [append_assoc] at hrest

theorem Wrote.finish (h : w.Wrote out fields) : w.finish = out ++ pack fields := by
  obtain ⟨k, hwidth, houtput, hbuf⟩ := h.words
  have hlt := h.bufBits_lt
  have hbytes : (width fields + 7) / 8 = 8 * k + (w.bufBits + 7) / 8 := by omega
  rw [BitWriter.finish, houtput, hbuf, take_toLE (by omega), pack, hbytes, toLE_add, pow_256,
    ← Nat.mul_assoc, append_assoc]

/-- The writer appends the packed fields. -/
theorem finish_writeAll (hfits : Fits fields)
    (hbits : ∀ field ∈ fields, field.2 ≤ 64) (out : List UInt8) :
    ((new out).writeAll fields).finish = out ++ pack fields :=
  ((wrote_new out).writeAll hfits hbits).finish

end BitWriter

/-! ## Reader -/

structure BitReader where
  input : List UInt8
  buf : Nat
  bufBits : Nat
  mask : Nat
  bits : Nat

/-- `read_buf_and_advance`. Input of less than a word is left where it is. -/
def readBufAndAdvance (input : List UInt8) : Nat × List UInt8 :=
  if 8 ≤ input.length then (ofLE (input.take 8), input.drop 8) else (ofLE input, input)

namespace BitReader

def new (input : List UInt8) : BitReader := ⟨input, 0, 0, 0, 0⟩

def setBits (r : BitReader) (bits : Nat) : BitReader := { r with bits, mask := makeBitmask 64 bits }

/-- `read` into a type of so many bits. -/
def read (r : BitReader) (typeBits : Nat) : Nat × BitReader :=
  if r.bits ≤ r.bufBits then
    ((r.buf &&& r.mask) % 2 ^ typeBits,
      { r with bufBits := r.bufBits - r.bits, buf := r.buf >>> r.bits })
  else
    let (newBuf, input) := readBufAndAdvance r.input
    let val := r.buf ||| ((newBuf <<< r.bufBits) % 2 ^ 64 &&& r.mask)
    let bufBits := r.bufBits + (64 - r.bits)
    (val % 2 ^ typeBits,
      { r with
        input, bufBits
        buf := if bufBits = 0 then 0 else newBuf >>> (64 - bufBits) })

/-- What is left of the input from bit `pos` on is in the buffer and in the bytes after it.
After the last, shorter word it is in the buffer alone. -/
structure At (r : BitReader) (data : List UInt8) (pos : Nat) : Prop where
  bits_le : r.bits ≤ 64
  mask_eq : r.mask = makeBitmask 64 r.bits
  rest :
    (pos + r.bufBits + 8 * r.input.length = 8 * data.length ∧ r.buf < 2 ^ r.bufBits ∧
      ofLE data / 2 ^ pos = r.buf + 2 ^ r.bufBits * ofLE r.input) ∨
    (8 * data.length ≤ pos + r.bufBits ∧ ofLE data / 2 ^ pos = r.buf)

theorem at_new (data : List UInt8) : (new data).At data 0 where
  bits_le := Nat.zero_le _
  mask_eq := rfl
  rest := .inl (by simp [new])

variable {r : BitReader} {pos : Nat} {data : List UInt8}

theorem At.setBits {bits : Nat} (h : r.At data pos)
    (hbits : bits ≤ 64) : (r.setBits bits).At data pos where
  bits_le := hbits
  mask_eq := rfl
  rest := h.rest

theorem At.setBits_self (h : r.At data pos) : r.setBits r.bits = r := by
  cases r
  simp only [BitReader.setBits, ← h.mask_eq]

@[simp] theorem bits_read (r : BitReader) (typeBits : Nat) : (r.read typeBits).2.bits = r.bits := by
  unfold read
  split <;> rfl

/-- The next word of the input, as far as there is one, and what is left after it. -/
theorem readBufAndAdvance_eq (input : List UInt8) :
    (readBufAndAdvance input).1 = ofLE input % 2 ^ 64 ∧
      ((8 ≤ input.length ∧ (readBufAndAdvance input).2 = input.drop 8) ∨
        (input.length < 8 ∧ (readBufAndAdvance input).1 = ofLE input)) := by
  unfold readBufAndAdvance
  split
  next h => exact ⟨ofLE_take input 8, .inl ⟨h, rfl⟩⟩
  next h =>
    have hlt : ofLE input < 2 ^ 64 := by
      apply (ofLE_lt input).trans_le
      exact (Nat.pow_le_pow_right (by decide) (by omega)).trans_eq (pow_256 8)
    exact ⟨(Nat.mod_eq_of_lt hlt).symm, .inr ⟨Nat.lt_of_not_le h, rfl⟩⟩

/-- The value put together from the buffer and the next word is the lowest bits of both. -/
theorem joined_value {buf bufBits bits : Nat} (hbuf : buf < 2 ^ bufBits) (hlt : bufBits ≤ bits)
    (hbits : bits ≤ 64) (next : Nat) :
    buf ||| ((next % 2 ^ 64) <<< bufBits % 2 ^ 64 &&& makeBitmask 64 bits) =
      (buf + 2 ^ bufBits * next) % 2 ^ bits := by
  rw [and_makeBitmask hbits, ← or_shiftLeft hbuf]
  apply Nat.eq_of_testBit_eq
  intro i
  have hhigh : bufBits ≤ i → buf.testBit i = false := fun hi =>
    Nat.testBit_lt_two_pow (hbuf.trans_le (Nat.pow_le_pow_right (by decide) hi))
  simp only [Nat.testBit_or, Nat.testBit_mod_two_pow, Nat.testBit_shiftLeft]
  rcases Nat.lt_or_ge i bufBits with hi | hi
  · have hbit : i < bits := by omega
    simp [not_le.mpr hi, hbit]
  · rw [hhigh hi]
    by_cases hbit : i < bits
    · have h64 : i < 64 := by omega
      have hsub : i - bufBits < 64 := by omega
      simp [hbit, h64, hsub]
    · simp [hbit]

/-- A read of `bits` bits gives the bits at the position, and moves it. -/
theorem At.read (h : r.At data pos) (hroom : pos + r.bits ≤ 8 * data.length) (typeBits : Nat) :
    (r.read typeBits).1 = ofLE data / 2 ^ pos % 2 ^ r.bits % 2 ^ typeBits ∧
      (r.read typeBits).2.At data (pos + r.bits) := by
  have hbits := h.bits_le
  have hmask := h.mask_eq
  unfold BitReader.read
  rcases h.rest with ⟨hlen, hbuf, hrest⟩ | ⟨hlen, hrest⟩
  · split
    next hle =>
      have hpow : (2 : Nat) ^ r.bufBits = 2 ^ r.bits * 2 ^ (r.bufBits - r.bits) := by
        rw [← pow_add, Nat.add_sub_cancel' hle]
      refine ⟨?_, hbits, hmask, .inl ⟨by dsimp only; omega, ?_, ?_⟩⟩
      · rw [hmask, and_makeBitmask hbits, hrest, hpow, Nat.mul_assoc, Nat.add_mul_mod_self_left]
      · rw [Nat.shiftRight_eq_div_pow]
        exact Nat.div_lt_of_lt_mul (hpow ▸ hbuf)
      · rw [div_pow_add, hrest, hpow, Nat.mul_assoc, Nat.add_mul_div_left _ _ (Nat.two_pow_pos _),
          Nat.shiftRight_eq_div_pow]
    next hgt =>
      obtain ⟨hword, hinput⟩ := readBufAndAdvance_eq r.input
      dsimp only
      have hvalue := joined_value hbuf (Nat.le_of_not_le hgt) hbits (ofLE r.input)
      have hafter : ofLE data / 2 ^ (pos + r.bits) = ofLE r.input / 2 ^ (r.bits - r.bufBits) := by
        have hsplit : r.bits = r.bufBits + (r.bits - r.bufBits) := by omega
        rw [div_pow_add, hrest]
        conv_lhs => rw [hsplit]
        rw [div_pow_add, Nat.add_mul_div_left _ _ (Nat.two_pow_pos _), Nat.div_eq_of_lt hbuf,
          Nat.zero_add]
      have hshift : 64 - (r.bufBits + (64 - r.bits)) = r.bits - r.bufBits := by omega
      refine ⟨by rw [hword, hmask, hvalue, hrest], hbits, hmask, ?_⟩
      dsimp only
      rcases hinput with ⟨h8, hadvance⟩ | ⟨h8, hall⟩
      · have hparts : ofLE r.input = ofLE r.input % 2 ^ 64 + 2 ^ 64 * ofLE (r.input.drop 8) := by
          rw [ofLE_drop]
          exact (Nat.mod_add_div _ _).symm
        have hbuf' : (if r.bufBits + (64 - r.bits) = 0 then 0
            else (readBufAndAdvance r.input).1 >>> (64 - (r.bufBits + (64 - r.bits)))) =
            ofLE r.input % 2 ^ 64 / 2 ^ (r.bits - r.bufBits) := by
          rw [hshift, hword]
          split
          next hzero =>
            have h64 : r.bits - r.bufBits = 64 := by omega
            rw [h64]
            exact (Nat.div_eq_of_lt (Nat.mod_lt _ (by decide))).symm
          next => exact Nat.shiftRight_eq_div_pow _ _
        have hpow : (2 : Nat) ^ 64 = 2 ^ (r.bits - r.bufBits) * 2 ^ (r.bufBits + (64 - r.bits)) := by
          rw [← pow_add]
          congr 1
          omega
        refine .inl ⟨?_, ?_, ?_⟩
        · rw [hadvance, length_drop]
          omega
        · rw [hbuf']
          exact Nat.div_lt_of_lt_mul (hpow ▸ Nat.mod_lt _ (by decide))
        · rw [hbuf', hadvance, hafter]
          conv_lhs => rw [hparts, hpow, Nat.mul_assoc, Nat.add_mul_div_left _ _ (Nat.two_pow_pos _)]
          rw [← hpow]
      · refine .inr ⟨by omega, ?_⟩
        rw [hshift, hall, hafter, if_neg (by omega), Nat.shiftRight_eq_div_pow]
  · rw [if_pos (by omega)]
    refine ⟨by rw [hmask, and_makeBitmask hbits, hrest], hbits, hmask, .inr ⟨by dsimp only; omega, ?_⟩⟩
    rw [div_pow_add, hrest, Nat.shiftRight_eq_div_pow]

/-- The next field of packed fields. -/
theorem At.read_field {pre post : List (Nat × Nat)} {field : Nat × Nat}
    (h : r.At (pack (pre ++ field :: post)) (width pre)) (hfits : Fits (pre ++ field :: post))
    (hbits : r.bits = field.2) {typeBits : Nat} (htype : field.1 < 2 ^ typeBits) :
    (r.read typeBits).1 = field.1 ∧
      (r.read typeBits).2.At (pack ((pre ++ [field]) ++ post)) (width (pre ++ [field])) := by
  have hroom : width pre + r.bits ≤ 8 * (pack (pre ++ field :: post)).length := by
    rw [length_pack, width_append, width_cons]
    omega
  obtain ⟨hvalue, hat⟩ := h.read hroom typeBits
  have hfield := pack_field hfits []
  rw [append_nil] at hfield
  rw [hbits, hfield, Nat.mod_eq_of_lt htype] at hvalue
  refine ⟨hvalue, ?_⟩
  rwa [append_assoc, singleton_append, width_append, width_cons, width_nil, Nat.add_zero, ← hbits]

/-- Read fields of these widths in turn. -/
def readAll (typeBits : Nat) : List Nat → BitReader → List Nat
  | [], _ => []
  | bits :: widths, r =>
    let (value, r) := (r.setBits bits).read typeBits
    value :: readAll typeBits widths r

theorem At.readAll {pre fields : List (Nat × Nat)} {typeBits : Nat}
    (h : r.At (pack (pre ++ fields)) (width pre)) (hfits : Fits (pre ++ fields))
    (hbits : ∀ field ∈ fields, field.2 ≤ 64 ∧ field.2 ≤ typeBits) :
    BitReader.readAll typeBits (fields.map (·.2)) r = fields.map (·.1) := by
  induction fields generalizing pre r with
  | nil => rfl
  | cons field fields ih =>
    obtain ⟨h64, htype⟩ := hbits field mem_cons_self
    have hfield : field.1 < 2 ^ typeBits :=
      (hfits field (mem_append_right _ mem_cons_self)).trans_le
        (Nat.pow_le_pow_right (by decide) htype)
    obtain ⟨hvalue, hat⟩ := (h.setBits h64).read_field hfits rfl hfield
    rw [append_cons] at hfits
    simp only [map_cons, BitReader.readAll, hvalue,
      ih hat hfits fun f hf => hbits f (mem_cons_of_mem _ hf)]

/-- What is written is read back with the same widths, and takes no more bytes than the bits need. -/
theorem readAll_finish (fields : List (Nat × Nat)) (hfits : Fits fields) (typeBits : Nat)
    (hbits : ∀ field ∈ fields, field.2 ≤ 64 ∧ field.2 ≤ typeBits) (output : List UInt8) :
    ∃ data, ((BitWriter.new output).writeAll fields).finish = output ++ data ∧
      data.length = (width fields + 7) / 8 ∧
      readAll typeBits (fields.map (·.2)) (new data) = fields.map (·.1) := by
  have hat : (new (pack fields)).At (pack ([] ++ fields)) (width []) := at_new _
  refine ⟨pack fields, ?_, length_pack fields, hat.readAll hfits hbits⟩
  exact BitWriter.finish_writeAll hfits (fun field hfield => (hbits field hfield).1) output

theorem readAll_finish_three : ∃ data,
    ((BitWriter.new []).writeAll [(5, 3), (2 ^ 64 - 1, 64), (0, 0)]).finish = [] ++ data ∧
      data.length = 9 ∧ readAll 64 [3, 64, 0] (new data) = [5, 2 ^ 64 - 1, 0] :=
  readAll_finish [(5, 3), (2 ^ 64 - 1, 64), (0, 0)] (by unfold Fits; decide) 64 (by decide) []

end BitReader

end Qdrant
