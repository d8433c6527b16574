-- SUMMARY: Numbers in bytes, little-endian and packed bit by bit; slices and in-place writes.
import Mathlib.Data.List.Basic
import Mathlib.Tactic.Ring
import Mathlib.Tactic.Linarith

/-!
# Byte buffers

A buffer is a list of bytes of fixed length. `writeAt` overwrites part of it in place and
`slice` reads part of it back. A buffer that is filled from the left is a written prefix
followed by zeros; the lemmas are about buffers of this shape.
-/

namespace Bytes

open List

/-! ## Little-endian numbers -/

/-- The number in `width` bytes, lowest byte first. -/
def toLE : Nat → Nat → List UInt8
  | 0, _ => []
  | width + 1, n => UInt8.ofNat n :: toLE width (n / 256)

def ofLE : List UInt8 → Nat
  | [] => 0
  | b :: bs => b.toNat + 256 * ofLE bs

@[simp] theorem length_toLE (width n : Nat) : (toLE width n).length = width := by
  induction width generalizing n with
  | zero => rfl
  | succ width ih => simp only [toLE, length_cons, ih]

theorem ofLE_toLE {width n : Nat} (h : n < 256 ^ width) : ofLE (toLE width n) = n := by
  induction width generalizing n with
  | zero =>
    have h0 : n = 0 := by simpa using h
    exact h0.symm
  | succ width ih =>
    have hdiv : n / 256 < 256 ^ width := by
      apply Nat.div_lt_of_lt_mul
      rwa [pow_succ, Nat.mul_comm] at h
    simp only [toLE, ofLE, ih hdiv, UInt8.toNat_ofNat']
    omega

/-! ## Bytes as numbers -/

theorem ofLE_append (a b : List UInt8) : ofLE (a ++ b) = ofLE a + 256 ^ a.length * ofLE b := by
  induction a with
  | nil => simp [ofLE]
  | cons x a ih =>
    simp only [cons_append, ofLE, ih, length_cons]
    ring

section

variable (bytes : List UInt8)

theorem ofLE_lt : ofLE bytes < 256 ^ bytes.length := by
  induction bytes with
  | nil => exact Nat.one_pos
  | cons x bytes ih =>
    have hx : x.toNat < 256 := x.toNat_lt
    simp only [ofLE, length_cons, pow_succ]
    omega

/-- The bytes before a place and those from it on. -/
theorem ofLE_split (n : Nat) : ofLE (bytes.take n) < 256 ^ n ∧
      ofLE bytes = ofLE (bytes.take n) + 256 ^ n * ofLE (bytes.drop n) := by
  refine ⟨(ofLE_lt _).trans_le (Nat.pow_le_pow_right (by decide) (length_take_le n bytes)), ?_⟩
  rcases Nat.le_total n bytes.length with hn | hn
  · have happend := ofLE_append (bytes.take n) (bytes.drop n)
    rwa [length_take, Nat.min_eq_left hn, take_append_drop] at happend
  · rw [take_of_length_le hn, drop_of_length_le hn]
    rfl

theorem ofLE_drop (n : Nat) : ofLE (bytes.drop n) = ofLE bytes / 256 ^ n := by
  obtain ⟨hlt, hsplit⟩ := ofLE_split bytes n
  rw [hsplit, Nat.add_mul_div_left _ _ (Nat.pos_of_ne_zero (by simp)), Nat.div_eq_of_lt hlt,
    Nat.zero_add]

theorem ofLE_take (n : Nat) : ofLE (bytes.take n) = ofLE bytes % 256 ^ n := by
  obtain ⟨hlt, hsplit⟩ := ofLE_split bytes n
  rw [hsplit, Nat.add_mul_mod_self_left, Nat.mod_eq_of_lt hlt]

end

theorem toLE_add (a b n : Nat) : toLE (a + b) n = toLE a n ++ toLE b (n / 256 ^ a) := by
  induction a generalizing n with
  | zero => simp [toLE]
  | succ a ih =>
    rw [Nat.succ_add, toLE, ih, toLE, cons_append, Nat.div_div_eq_div_mul, pow_succ,
      Nat.mul_comm 256]

/-- Only the lowest bytes of a number are written. -/
theorem toLE_add_mul (width n m : Nat) : toLE width (n + 256 ^ width * m) = toLE width n := by
  induction width generalizing n with
  | zero => rfl
  | succ width ih =>
    have hsplit : n + 256 ^ (width + 1) * m = n + 256 * (256 ^ width * m) := by ring
    have hbyte : UInt8.ofNat (n + 256 * (256 ^ width * m)) = UInt8.ofNat n := by
      apply UInt8.toNat_inj.mp
      rw [UInt8.toNat_ofNat', UInt8.toNat_ofNat']
      omega
    rw [hsplit, toLE, toLE, hbyte, Nat.add_mul_div_left _ _ (by decide), ih]

theorem take_toLE {m width : Nat} (h : m ≤ width) (n : Nat) : (toLE width n).take m = toLE m n := by
  obtain ⟨k, rfl⟩ := Nat.exists_eq_add_of_le h
  rw [toLE_add, take_left' (length_toLE m n)]

/-! ## Zeroed space -/

def zeros (n : Nat) : List UInt8 := replicate n 0

@[simp] theorem length_zeros (n : Nat) : (zeros n).length = n := length_replicate

theorem zeros_add (m n : Nat) : zeros (m + n) = zeros m ++ zeros n := replicate_add m n 0

theorem ofLE_zeros (n : Nat) : ofLE (zeros n) = 0 := by
  induction n with
  | zero => rfl
  | succ n ih =>
    have hstep : ofLE (zeros (n + 1)) = (0 : UInt8).toNat + 256 * ofLE (zeros n) := rfl
    rw [hstep, ih]
    rfl

/-! ## Slices and writes -/

/-- The `len` bytes of the buffer from `offset` on. -/
def slice (buffer : List UInt8) (offset len : Nat) : List UInt8 :=
  (buffer.drop offset).take len

/-- Overwrite the bytes of the buffer from `offset` on. -/
def writeAt (buffer : List UInt8) (offset : Nat) (data : List UInt8) : List UInt8 :=
  buffer.take offset ++ data ++ buffer.drop (offset + data.length)

variable {offset : Nat} {pre : List UInt8} {data : List UInt8} {len : Nat}

theorem slice_append {post : List UInt8} (ho : offset = pre.length)
    (hl : len = data.length) : slice (pre ++ data ++ post) offset len = data := by
  subst ho hl
  rw [slice, append_assoc, drop_left, take_left]

theorem writeAt_append {old post : List UInt8} (ho : offset = pre.length)
    (hl : old.length = data.length) :
    writeAt (pre ++ old ++ post) offset data = pre ++ data ++ post := by
  subst ho
  have hdrop : (pre ++ old ++ post).drop (pre.length + data.length) = post := by
    rw [← hl, ← length_append, drop_left]
  rw [writeAt, hdrop, append_assoc pre old post, take_left]

theorem slice_zeros {n : Nat} (ho : pre.length ≤ offset)
    (hn : offset + len ≤ pre.length + n) : slice (pre ++ zeros n) offset len = zeros len := by
  rw [slice, drop_append, drop_of_length_le ho, nil_append, zeros,
    drop_replicate, take_replicate, Nat.min_eq_left (by omega), zeros]

/-- A write at the start of the zeroed space extends the written prefix. -/
theorem writeAt_zeros {n : Nat} (ho : offset = pre.length) (hn : data.length ≤ n) :
    writeAt (pre ++ zeros n) offset data = pre ++ data ++ zeros (n - data.length) := by
  have hsplit : zeros n = zeros data.length ++ zeros (n - data.length) := by
    rw [← zeros_add, Nat.add_sub_cancel' hn]
  rw [hsplit, ← append_assoc]
  exact writeAt_append ho (length_zeros _)

end Bytes

/-! ## Bit fields

A field is a number with the number of bits it takes. A list of fields is one large number:
the first field has its lowest bits. `pack` is this number in bytes, and a field is read back
from it by a shift and a mask.
-/

namespace BitFields

open Bytes

/-! ## Bits of a number -/

theorem pow_256 (n : Nat) : 256 ^ n = 2 ^ (8 * n) := by
  rw [pow_mul]
  rfl

/-- The bits from `start` on are the same in the lowest `bits` bits of the number. -/
theorem mod_div_mod {bits start width : Nat} (h : start + width ≤ bits) (n : Nat) :
    n % 2 ^ bits / 2 ^ start % 2 ^ width = n / 2 ^ start % 2 ^ width := by
  apply Nat.eq_of_testBit_eq
  intro i
  simp only [Nat.testBit_mod_two_pow, Nat.testBit_div_two_pow]
  rcases Nat.lt_or_ge i width with hi | hi
  · have hbits : i + start < bits := by omega
    simp [hi, hbits]
  · simp [not_lt.mpr hi]

theorem div_pow_add (n a b : Nat) : n / 2 ^ (a + b) = n / 2 ^ a / 2 ^ b := by
  rw [pow_add, Nat.div_div_eq_div_mul]

/-- A shift left and a disjunction put one number above another. -/
theorem or_shiftLeft {low width : Nat} (h : low < 2 ^ width) (high : Nat) :
    low ||| high <<< width = low + 2 ^ width * high := by
  rw [Nat.shiftLeft_eq, Nat.mul_comm, Nat.add_comm, Nat.or_comm]
  exact (Nat.two_pow_add_eq_or_of_lt h high).symm

/-! ## Fields -/

/-- The number of bits of the fields. -/
def width (fields : List (Nat × Nat)) : Nat := (fields.map (·.2)).sum

/-- The fields as one number. -/
def number : List (Nat × Nat) → Nat
  | [] => 0
  | field :: fields => field.1 + 2 ^ field.2 * number fields

/-- Every value has the bits it needs. -/
def Fits (fields : List (Nat × Nat)) : Prop := ∀ field ∈ fields, field.1 < 2 ^ field.2

/-- The fields in bytes. The last byte is filled up with zeros. -/
def pack (fields : List (Nat × Nat)) : List UInt8 := toLE ((width fields + 7) / 8) (number fields)

@[simp] theorem width_nil : width [] = 0 := rfl

@[simp] theorem width_cons (field : Nat × Nat) (fields : List (Nat × Nat)) :
    width (field :: fields) = field.2 + width fields := by
  simp [width]

@[simp] theorem width_append (a b : List (Nat × Nat)) : width (a ++ b) = width a + width b := by
  simp [width]

@[simp] theorem width_map (values : List Nat) (bits : Nat) :
    width (values.map (·, bits)) = values.length * bits := by
  induction values with
  | nil => simp
  | cons value values ih =>
    rw [List.map_cons, width_cons, ih, List.length_cons]
    ring

@[simp] theorem length_pack (fields : List (Nat × Nat)) :
    (pack fields).length = (width fields + 7) / 8 := length_toLE _ _

theorem number_append (a b : List (Nat × Nat)) :
    number (a ++ b) = number a + 2 ^ width a * number b := by
  induction a with
  | nil => simp [number]
  | cons field a ih =>
    rw [List.cons_append, number, ih, number, width_cons, pow_add]
    ring

theorem Fits.append {a b : List (Nat × Nat)} (ha : Fits a) (hb : Fits b) : Fits (a ++ b) := by
  intro field hfield
  exact (List.mem_append.mp hfield).elim (ha field) (hb field)

theorem fits_map {values : List Nat} {bits : Nat} (h : ∀ value ∈ values, value < 2 ^ bits) :
    Fits (values.map (·, bits)) := by
  intro field hfield
  obtain ⟨value, hvalue, rfl⟩ := List.mem_map.mp hfield
  exact h value hvalue

variable {fields : List (Nat × Nat)}

theorem number_lt (h : Fits fields) : number fields < 2 ^ width fields := by
  induction fields with
  | nil => exact Nat.one_pos
  | cons field fields ih =>
    have hfield := h field List.mem_cons_self
    have hfields := ih fun f hf => h f (List.mem_cons_of_mem _ hf)
    calc number (field :: fields)
        < 2 ^ field.2 + 2 ^ field.2 * number fields := Nat.add_lt_add_right hfield _
      _ = 2 ^ field.2 * (number fields + 1) := by ring
      _ ≤ 2 ^ field.2 * 2 ^ width fields := Nat.mul_le_mul_left _ hfields
      _ = 2 ^ width (field :: fields) := by rw [width_cons, pow_add]

theorem ofLE_pack (h : Fits fields) : ofLE (pack fields) = number fields := by
  apply ofLE_toLE
  rw [pow_256]
  apply (number_lt h).trans_le
  exact Nat.pow_le_pow_right (by decide) (by omega)

/-- A field is found in the number after the bits of the fields before it. -/
theorem number_field {pre : List (Nat × Nat)} (hpre : Fits pre) {field : Nat × Nat}
    (hfield : field.1 < 2 ^ field.2) (post : List (Nat × Nat)) :
    number (pre ++ field :: post) / 2 ^ width pre % 2 ^ field.2 = field.1 := by
  have hpos : 0 < 2 ^ width pre := Nat.two_pow_pos _
  rw [number_append, Nat.add_mul_div_left _ _ hpos, Nat.div_eq_of_lt (number_lt hpre), Nat.zero_add,
    number, Nat.add_mul_mod_self_left, Nat.mod_eq_of_lt hfield]

/-- Bits that stand in the first bytes do not depend on the bytes after them. -/
theorem ofLE_append_bits {a : List UInt8} {start bits : Nat} (h : start + bits ≤ 8 * a.length)
    (b : List UInt8) :
    ofLE (a ++ b) / 2 ^ start % 2 ^ bits = ofLE a / 2 ^ start % 2 ^ bits := by
  have htake : ofLE a = ofLE (a ++ b) % 2 ^ (8 * a.length) := by
    rw [← pow_256, ← ofLE_take, List.take_left]
  rw [htake, mod_div_mod h]

/-- A field is found in packed bytes, whatever follows them. -/
theorem pack_field {pre post : List (Nat × Nat)} {field : Nat × Nat}
    (h : Fits (pre ++ field :: post)) (rest : List UInt8) :
    ofLE (pack (pre ++ field :: post) ++ rest) / 2 ^ width pre % 2 ^ field.2 = field.1 := by
  have hpre : Fits pre := fun f hf => h f (List.mem_append_left _ hf)
  have hfield := h field (List.mem_append_right _ List.mem_cons_self)
  have hbits : width pre + field.2 ≤ 8 * (pack (pre ++ field :: post)).length := by
    rw [length_pack, width_append, width_cons]
    omega
  rw [ofLE_append_bits hbits, ofLE_pack h, number_field hpre hfield]

end BitFields
