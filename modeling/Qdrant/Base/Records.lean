-- SUMMARY: Records laid out one after another with a table of offsets, and records of numbers of fixed widths.
import Qdrant.Base.Bytes

/-!
# Records

Records of different sizes are written one after another, and the offset at which each of
them ends is noted. A record may depend on the offset at which it starts. Offsets count
units of a fixed number of elements.

A header is a record of numbers of fixed widths. A section is a list of numbers of one width.
-/

namespace Records

open List Bytes

universe u v

/-! ## Records with offsets -/

section

variable {ι : Type u} {α : Type v} {record : ι → Nat → List α → Nat → Prop}

/-- The records of these items have been written: the data, the offsets, and the last of
them. `record item a bytes b` says that the record of an item that starts at offset `a` is
`bytes`, and that it ends at `b`. -/
inductive Laid (record : ι → Nat → List α → Nat → Prop) : List ι → List α → List Nat → Nat → Prop where
  | nil : Laid record [] [] [0] 0
  | snoc {items : List ι} {data bytes : List α} {offsets : List Nat} {last next : Nat} {item : ι} :
      Laid record items data offsets last → record item last bytes next →
      Laid record (items ++ [item]) (data ++ bytes) (offsets ++ [next]) next

/-- A record takes as many units as its offsets tell. -/
def Sized (unit : Nat) (record : ι → Nat → List α → Nat → Prop) : Prop :=
  ∀ item a bytes b, record item a bytes b → a ≤ b ∧ unit * a + bytes.length = unit * b

namespace Laid

variable {items : List ι} {data : List α} {offsets : List Nat} {last unit : Nat}

section

variable (h : Laid record items data offsets last)

include h

theorem length_offsets : offsets.length = items.length + 1 := by
  induction h with
  | nil => rfl
  | snoc _ _ ih => simp only [length_append, ih, length_singleton]

theorem getElem?_last : offsets[items.length]? = some last := by
  cases h with
  | nil => rfl
  | snoc h _ => rw [length_append, length_singleton, ← h.length_offsets, getElem?_concat_length]

section

variable (hsized : Sized unit record)

include hsized

theorem length_data : data.length = unit * last := by
  induction h with
  | nil => rfl
  | snoc _ hrecord ih => rw [length_append, ih, (hsized _ _ _ _ hrecord).2]

theorem le_last : ∀ offset ∈ offsets, offset ≤ last := by
  induction h with
  | nil => simp
  | snoc _ hrecord ih =>
    intro offset hoffset
    rcases mem_append.mp hoffset with hoffset | hoffset
    · exact (ih offset hoffset).trans (hsized _ _ _ _ hrecord).1
    · exact (mem_singleton.mp hoffset).le

theorem sorted : offsets.Pairwise (· ≤ ·) := by
  induction h with
  | nil => simp
  | snoc h hrecord ih =>
    refine pairwise_append.mpr ⟨ih, pairwise_singleton .., fun a ha b hb => ?_⟩
    obtain rfl := mem_singleton.mp hb
    exact (h.le_last hsized a ha).trans (hsized _ _ _ _ hrecord).1

/-- The record of an item stands between its two offsets. -/
theorem lookup {i : Nat} {item : ι} (hitem : items[i]? = some item) :
    ∃ a b bytes pre post, offsets[i]? = some a ∧ offsets[i + 1]? = some b ∧ record item a bytes b ∧
      data = pre ++ bytes ++ post ∧ pre.length = unit * a := by
  induction h generalizing i with
  | nil => cases hitem
  | @snoc items data bytes offsets last next new h hrecord ih =>
    have hlen := h.length_offsets
    rcases Nat.lt_or_ge i items.length with hi | hi
    · rw [List.getElem?_append_left hi] at hitem
      obtain ⟨a, b, old, pre, post, ha, hb, hold, hdata, hpre⟩ := ih hitem
      refine ⟨a, b, old, pre, post ++ bytes, ?_, ?_, hold, ?_, hpre⟩
      · rw [List.getElem?_append_left (by omega), ha]
      · rw [List.getElem?_append_left (by omega), hb]
      · rw [hdata, List.append_assoc]
    · obtain ⟨rfl, rfl⟩ : i = items.length ∧ new = item := by
        rw [List.getElem?_append_right hi] at hitem
        have hlt := (List.getElem?_eq_some_iff.mp hitem).1
        have hzero : i - items.length = 0 := by simpa using hlt
        rw [hzero] at hitem
        exact ⟨by omega, by simpa using hitem⟩
      refine ⟨last, next, bytes, data, [], ?_, ?_, hrecord, by simp, h.length_data hsized⟩
      · rw [List.getElem?_append_left (by omega), h.getElem?_last]
      · rw [← hlen, List.getElem?_concat_length]

end

end

end Laid

end

/-! ## Headers -/

/-- Numbers one after another, each with its width in bytes. -/
def encode (fields : List (Nat × Nat)) : List UInt8 := fields.flatMap fun field => toLE field.2 field.1

/-- The numbers of these widths at the start of the bytes. -/
def decode : List Nat → List UInt8 → List Nat
  | [], _ => []
  | width :: widths, bytes => ofLE (bytes.take width) :: decode widths (bytes.drop width)

theorem decode_encode {fields : List (Nat × Nat)} (h : ∀ field ∈ fields, field.1 < 256 ^ field.2)
    (rest : List UInt8) : decode (fields.map (·.2)) (encode fields ++ rest) = fields.map (·.1) := by
  induction fields with
  | nil => rfl
  | cons field fields ih =>
    have hwidth : (toLE field.2 field.1).length = field.2 := length_toLE ..
    have hfield := h field mem_cons_self
    have hsplit : encode (field :: fields) ++ rest =
        toLE field.2 field.1 ++ (encode fields ++ rest) := by
      simp [encode]
    rw [hsplit, map_cons, decode, take_left' hwidth, drop_left' hwidth, ofLE_toLE hfield,
      ih fun f hf => h f (mem_cons_of_mem _ hf), map_cons]

/-! ## Sections -/

/-- Numbers of one width. -/
def encodeSection (width : Nat) (values : List Nat) : List UInt8 := values.flatMap (toLE width)

/-- So many numbers of one width. -/
def decodeSection (width : Nat) (bytes : List UInt8) (count : Nat) : List Nat :=
  (List.range count).map fun i => ofLE (slice bytes (i * width) width)

@[simp] theorem length_encodeSection (width : Nat) (values : List Nat) :
    (encodeSection width values).length = width * values.length := by
  induction values with
  | nil => rfl
  | cons value values ih =>
    have hcons : encodeSection width (value :: values) =
        toLE width value ++ encodeSection width values := rfl
    rw [hcons, length_append, ih, length_toLE, length_cons, Nat.mul_succ, Nat.add_comm]

@[simp] theorem length_decodeSection (width : Nat) (bytes : List UInt8) (count : Nat) :
    (decodeSection width bytes count).length = count := by
  simp [decodeSection]

variable {width : Nat}

variable {values : List Nat}

/-- A number of a section, with whatever stands before and after it. -/
theorem slice_encodeSection {i : Nat} {value : Nat}
    (hvalue : values[i]? = some value) (hfits : value < 256 ^ width) {pre post : List UInt8} {n : Nat}
    (hpre : pre.length = n * width) :
    ofLE (slice (pre ++ encodeSection width values ++ post) ((n + i) * width) width) = value := by
  obtain ⟨hi, hget⟩ := List.getElem?_eq_some_iff.mp hvalue
  have hsplit : values = values.take i ++ value :: values.drop (i + 1) := by
    rw [← hget, ← List.drop_eq_getElem_cons hi, List.take_append_drop]
  have hbytes : encodeSection width values = encodeSection width (values.take i) ++ toLE width value ++
      encodeSection width (values.drop (i + 1)) := by
    conv_lhs => rw [hsplit]
    simp [encodeSection]
  have hplace : (n + i) * width = (pre ++ encodeSection width (values.take i)).length := by
    rw [List.length_append, hpre, length_encodeSection, List.length_take, Nat.min_eq_left hi.le,
      Nat.add_mul, Nat.mul_comm width]
  have hwhole : pre ++ encodeSection width values ++ post =
      (pre ++ encodeSection width (values.take i)) ++ toLE width value ++
        (encodeSection width (values.drop (i + 1)) ++ post) := by
    rw [hbytes]
    simp only [List.append_assoc]
  rw [hwhole, slice_append hplace (length_toLE ..).symm, ofLE_toLE hfits]

/-- Part of the numbers of a section that has other numbers before and after. -/
theorem slice_decodeSection (hfits : ∀ v ∈ values, v < 256 ^ width)
    {pre post : List UInt8} {n count : Nat} (hpre : pre.length = n * width)
    (hcount : n + values.length ≤ count) :
    ((decodeSection width (pre ++ encodeSection width values ++ post) count).drop n).take values.length =
      values := by
  apply ext_getElem?
  intro i
  rcases Nat.lt_or_ge i values.length with hi | hi
  · have hvalue : values[i]? = some values[i] := getElem?_eq_getElem hi
    rw [getElem?_take_of_lt hi, getElem?_drop, decodeSection, getElem?_map,
      getElem?_range (by omega), Option.map_some, hvalue, slice_encodeSection hvalue (hfits _ (getElem_mem hi)) hpre]
  · rw [getElem?_eq_none hi, getElem?_eq_none]
    rw [length_take]
    omega

theorem decodeSection_encodeSection (hfits : ∀ v ∈ values, v < 256 ^ width) (post : List UInt8) :
    decodeSection width (encodeSection width values ++ post) values.length = values := by
  have hslice : ((decodeSection width ([] ++ encodeSection width values ++ post) values.length).drop
      0).take values.length = values :=
    slice_decodeSection hfits (Nat.zero_mul _).symm (Nat.zero_add _).le
  rwa [drop_zero, nil_append, take_of_length_le (by simp)] at hslice

end Records
