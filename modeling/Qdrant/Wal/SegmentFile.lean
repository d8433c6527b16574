-- SUMMARY: What a WAL segment file holds, and the round trip of a segment through its file.
import Qdrant.Wal.Segment

/-!
# Segment files

`Represents` ties the three parts of a segment together: its bytes are the header and the
chained entries followed by zeros, its index points at the data of the entries and its
checksum is the end of the chain. Every call keeps it, and opening the bytes again finds
the same entries, as long as the zeros behind them do not continue the chain.
-/

namespace Qdrant.Wal

open List Bytes

/-! ## The bytes of the entries -/

namespace Segment

variable {crc32cAppend : Checksum}
variable {pre : List UInt8} {offset : Nat} {n : Nat} {post : List UInt8}

theorem ofLE_slice_toLE {width : Nat} (ho : offset = pre.length)
    (hn : n < 256 ^ width) : ofLE (slice (pre ++ toLE width n ++ post) offset width) = n := by
  rw [slice_append ho (length_toLE _ _).symm, ofLE_toLE hn]

theorem readU32_append (ho : offset = pre.length)
    (n : UInt32) : readU32 (pre ++ toLE 4 n.toNat ++ post) offset = n := by
  have hn : n.toNat < 256 ^ 4 := n.toNat_lt
  rw [readU32, ofLE_slice_toLE ho hn, UInt32.ofNat_toNat]

/-- The checksummed part of an entry. -/
def body (data : ByteSlice) : List UInt8 :=
  toLE 8 data.len ++ data.bytes ++ zeros (padding data.len)

/-- The bytes of an entry, after the entry with this checksum. -/
def encodeEntry (crc32cAppend : Checksum) (crc : UInt32) (data : ByteSlice) :
    List UInt8 :=
  body data ++ toLE 4 (nextCrc crc32cAppend crc (body data)).toNat

/-- The checksum after the entries. -/
def chain (crc32cAppend : Checksum) : UInt32 → List ByteSlice → UInt32
  | crc, [] => crc
  | crc, data :: rest => chain crc32cAppend (nextCrc crc32cAppend crc (body data)) rest

/-- The bytes of the entries. -/
def encode (crc32cAppend : Checksum) : UInt32 → List ByteSlice → List UInt8
  | _, [] => []
  | crc, data :: rest =>
    encodeEntry crc32cAppend crc data ++
      encode crc32cAppend (nextCrc crc32cAppend crc (body data)) rest

/-- The bytes that an entry takes. -/
def footprint (len : Nat) : Nat := headerLen + (len + padding len) + crcLen

/-- Where the data of the entries stands, if the first one starts at `offset`. -/
def layout : Nat → List ByteSlice → List (Nat × Nat)
  | _, [] => []
  | offset, data :: rest =>
    (offset + headerLen, data.len) :: layout (offset + footprint data.len) rest

/-- The end of the entries, if the first one starts at `offset`. -/
def layoutEnd : Nat → List ByteSlice → Nat
  | offset, [] => offset
  | offset, data :: rest => layoutEnd (offset + footprint data.len) rest

def header (seed : UInt32) : List UInt8 := segmentMagic ++ [segmentVersion] ++ toLE 4 seed.toNat

@[simp] theorem length_header (seed : UInt32) : (header seed).length = headerLen := by
  simp [header, segmentMagic, headerLen]

theorem length_body (data : ByteSlice) :
    (body data).length = headerLen + (data.len + padding data.len) := by
  simp only [body, length_append, length_toLE, length_zeros, headerLen, ByteSlice.len]
  omega

theorem length_encodeEntry (crc : UInt32) (data : ByteSlice) :
    (encodeEntry crc32cAppend crc data).length = footprint data.len := by
  rw [encodeEntry, length_append, length_body]
  rfl

/-- The size that `ensure_capacity` computes. -/
theorem required_eq (size len : Nat) :
    len + padding len + headerLen + crcLen + size = size + footprint len := by
  simp only [footprint]
  omega

theorem footprint_mod (len : Nat) : footprint len % 8 = 0 := by
  have := padding_mod len
  simp only [footprint, headerLen, crcLen]
  omega

theorem footprint_ge (len : Nat) : 16 ≤ footprint len := by
  have := padding_mod len
  simp only [footprint, headerLen, crcLen]
  omega

theorem offset_add_length_encode (crc : UInt32) (offset : Nat) (es : List ByteSlice) :
    offset + (encode crc32cAppend crc es).length = layoutEnd offset es := by
  induction es generalizing crc offset with
  | nil => rfl
  | cons data rest ih =>
    rw [encode, length_append, length_encodeEntry, ← Nat.add_assoc, ih]
    rfl

theorem layoutEnd_mod (ho : offset % 8 = 0) (es : List ByteSlice) :
    layoutEnd offset es % 8 = 0 := by
  induction es generalizing offset with
  | nil => exact ho
  | cons data rest ih =>
    apply ih
    have := footprint_mod data.len
    omega

theorem length_layout (offset : Nat) (es : List ByteSlice) :
    (layout offset es).length = es.length := by
  induction es generalizing offset with
  | nil => rfl
  | cons data rest ih => rw [layout, length_cons, ih, length_cons]

theorem layout_append (offset : Nat) (es fs : List ByteSlice) :
    layout offset (es ++ fs) = layout offset es ++ layout (layoutEnd offset es) fs := by
  induction es generalizing offset with
  | nil => rfl
  | cons data rest ih => rw [cons_append, layout, ih]; rfl

theorem layout_take (offset : Nat) (es : List ByteSlice) (n : Nat) :
    layout offset (es.take n) = (layout offset es).take n := by
  induction es generalizing offset n with
  | nil => simp [layout]
  | cons data rest ih =>
    cases n with
    | zero => rfl
    | succ n => simp only [take_succ_cons, layout, ih]

theorem getElem?_layout (offset : Nat) (es : List ByteSlice) (i : Nat) : (layout offset es)[i]? =
      es[i]?.map fun data => (layoutEnd offset (es.take i) + headerLen, data.len) := by
  induction es generalizing offset i with
  | nil => rfl
  | cons data rest ih =>
    cases i with
    | zero => rfl
    | succ i =>
      rw [layout, getElem?_cons_succ, ih, getElem?_cons_succ]
      rfl

theorem chain_append (crc : UInt32) (es fs : List ByteSlice) : chain crc32cAppend crc (es ++ fs) =
      chain crc32cAppend (chain crc32cAppend crc es) fs := by
  induction es generalizing crc with
  | nil => rfl
  | cons data rest ih => exact ih _

theorem encode_append (crc : UInt32) (es fs : List ByteSlice) : encode crc32cAppend crc (es ++ fs) =
      encode crc32cAppend crc es ++ encode crc32cAppend (chain crc32cAppend crc es) fs := by
  induction es generalizing crc with
  | nil => rfl
  | cons data rest ih => rw [cons_append, encode, ih, ← append_assoc]; rfl

theorem layoutEnd_append (offset : Nat) (es fs : List ByteSlice) :
    layoutEnd offset (es ++ fs) = layoutEnd (layoutEnd offset es) fs := by
  induction es generalizing offset with
  | nil => rfl
  | cons data rest ih => exact ih _

theorem layoutEnd_add_le (offset : Nat) (es : List ByteSlice) :
    offset + 16 * es.length ≤ layoutEnd offset es := by
  induction es generalizing offset with
  | nil => exact le_rfl
  | cons data rest ih =>
    have hrest := ih (offset + footprint data.len)
    have := footprint_ge data.len
    simp only [layoutEnd, length_cons]
    omega

variable {s : Segment} {es : List ByteSlice}

/-- The size of a segment is read off the last entry of its index. -/
theorem size_eq_layoutEnd (h : s.index = layout headerLen es) :
    s.size = layoutEnd headerLen es := by
  rcases eq_nil_or_concat es with rfl | ⟨es, data, rfl⟩
  · simp [size, h, layout, layoutEnd]
  · rw [concat_eq_append] at h ⊢
    rw [layout_append] at h
    rw [layoutEnd_append, size, h]
    simp only [layout, layoutEnd, getLast?_append, getLast?_singleton, Option.some_or, footprint]
    omega

theorem writeBody_zeros (ho : offset = pre.length)
    (data : ByteSlice) (hn : (body data).length ≤ n) :
    writeBody (pre ++ zeros n) offset data =
      pre ++ body data ++ zeros (n - (body data).length) := by
  rw [length_body, headerLen] at hn
  have hlength : writeU64 (pre ++ zeros n) offset data.len =
      pre ++ toLE 8 data.len ++ zeros (n - 8) := by
    rw [writeU64, writeAt_zeros ho (by rw [length_toLE]; omega), length_toLE]
  have hdata : writeAt (pre ++ toLE 8 data.len ++ zeros (n - 8)) (offset + headerLen) data.bytes =
      pre ++ toLE 8 data.len ++ data.bytes ++ zeros (n - 8 - data.len) := by
    apply writeAt_zeros
    · rw [length_append, length_toLE, ho, headerLen]
    · show data.len ≤ n - 8
      omega
  have hbody : writeBody (pre ++ zeros n) offset data =
      pre ++ toLE 8 data.len ++ data.bytes ++ zeros (padding data.len) ++
        zeros (n - 8 - data.len - padding data.len) := by
    rw [writeBody, hlength, hdata]
    split
    · rw [writeAt_zeros, length_zeros]
      · simp only [length_append, length_toLE, ho, headerLen, ByteSlice.len]
      · rw [length_zeros]
        omega
    next hpad =>
      have hzero : padding data.len = 0 := Nat.eq_zero_of_not_pos hpad
      simp [hzero, zeros]
  have hfree : n - 8 - data.len - padding data.len = n - (body data).length := by
    rw [length_body, headerLen]
    omega
  rw [hbody, hfree]
  simp only [body, append_assoc]

/-- The entries split into a kept and a dropped part. -/
theorem written_eq (crc32cAppend : Checksum) (seed : UInt32) (es : List ByteSlice) (start : Nat) :
    header seed ++ encode crc32cAppend seed es =
      header seed ++ encode crc32cAppend seed (es.take start) ++
        encode crc32cAppend (chain crc32cAppend seed (es.take start)) (es.drop start) := by
  rw [append_assoc, ← encode_append, take_append_drop]

/-! ## Represented entries -/

/-- The segment holds these entries: the bytes, the index and the running checksum agree, and
the rest of the file is zero. -/
structure Represents (crc32cAppend : Checksum) (s : Segment) (seed : UInt32)
    (es : List ByteSlice) : Prop where
  mmap : ∃ n, s.mmap = header seed ++ encode crc32cAppend seed es ++ zeros n
  index : s.index = layout headerLen es
  crc : s.crc = chain crc32cAppend seed es
  aligned : s.mmap.length % 8 = 0
  bounded : s.mmap.length < usizeLimit

namespace Represents

variable {s : Segment} {seed : UInt32} {es : List ByteSlice}

section

variable (h : s.Represents crc32cAppend seed es)

include h

theorem size_eq : s.size = layoutEnd headerLen es := size_eq_layoutEnd h.index

theorem size_eq_length : s.size = (header seed ++ encode crc32cAppend seed es).length := by
  rw [h.size_eq, length_append]
  exact (offset_add_length_encode seed headerLen es).symm

theorem len_eq : s.len = es.length := by
  rw [len, h.index, length_layout]

theorem isEmpty_eq : s.isEmpty = es.isEmpty := by
  rw [isEmpty, h.index]
  cases es <;> rfl

theorem size_mod : s.size % 8 = 0 := by
  rw [h.size_eq]
  exact layoutEnd_mod (by decide) es

/-- The free space behind the entries. -/
theorem exists_free : ∃ n, s.mmap = header seed ++ encode crc32cAppend seed es ++ zeros n ∧
      s.capacity = s.size + n := by
  obtain ⟨n, hn⟩ := h.mmap
  refine ⟨n, hn, ?_⟩
  have hlen := congrArg List.length hn
  rw [length_append, length_zeros, ← h.size_eq_length] at hlen
  exact hlen

theorem size_le : s.size ≤ s.capacity := by
  obtain ⟨n, _, hcap⟩ := h.exists_free
  omega

end

/-! ### Operations -/

theorem of_create {capacity : UInt64} (h : create capacity seed = .ok s) :
    s.Represents crc32cAppend seed [] := by
  unfold create at h
  dsimp only at h
  split at h
  · cases h
  next hcap =>
    cases h
    have hlt := capacity.toNat_lt
    have hmod : alignDown capacity.toNat % 8 = 0 := Nat.mul_mod_left _ _
    have hle : alignDown capacity.toNat ≤ capacity.toNat := Nat.div_mul_le_self _ _
    generalize alignDown capacity.toNat = n at *
    have hn : 8 ≤ n := not_lt.mp hcap
    have hmagic : writeAt ([] ++ zeros n) 0 segmentMagic = [] ++ segmentMagic ++ zeros (n - 3) :=
      writeAt_zeros rfl (Nat.le_trans (by decide) hn)
    have hversion : writeAt (segmentMagic ++ zeros (n - 3)) 3 [segmentVersion] =
        segmentMagic ++ [segmentVersion] ++ zeros (n - 3 - 1) :=
      writeAt_zeros rfl (by simp only [length_singleton]; omega)
    have hseed : writeU32 (segmentMagic ++ [segmentVersion] ++ zeros (n - 3 - 1)) 4 seed =
        header seed ++ zeros (n - 3 - 1 - 4) :=
      writeAt_zeros rfl (by rw [length_toLE]; omega)
    have hmmap : writeU32 (writeAt (writeAt (zeros n) 0 segmentMagic) 3 [segmentVersion]) 4 seed =
        header seed ++ zeros (n - 3 - 1 - 4) := by
      rw [nil_append, nil_append] at hmagic
      rw [hmagic, hversion, hseed]
    have hlen : (header seed ++ zeros (n - 3 - 1 - 4)).length = n := by
      rw [length_append, length_header, length_zeros, headerLen]
      omega
    refine ⟨⟨n - 3 - 1 - 4, ?_⟩, rfl, rfl, ?_, ?_⟩
    · rw [hmmap, encode, append_nil]
    · rw [hmmap, hlen]
      exact hmod
    · rw [hmmap, hlen]
      exact hle.trans_lt hlt

theorem sufficientCapacity_iff {entryLen n : Nat} (hcap : s.capacity = s.size + n) :
    s.sufficientCapacity entryLen = true ↔ footprint entryLen ≤ n := by
  have hfree : s.capacity - s.size = n := by omega
  simp only [sufficientCapacity, hfree, decide_eq_true_eq, footprint, headerLen]
  omega

/-- An entry that fits is appended to the entries that the segment holds. -/
theorem append (h : s.Represents crc32cAppend seed es) {data : ByteSlice}
    (hfit : s.sufficientCapacity data.len = true) :
    ∃ s', Segment.append crc32cAppend s data = some (s', es.length) ∧
      s'.Represents crc32cAppend seed (es ++ [data]) := by
  obtain ⟨n, hmmap, hcap⟩ := h.exists_free
  have hroom : footprint data.len ≤ n := (sufficientCapacity_iff hcap).mp hfit
  have hbodyLen : (body data).length + 4 = footprint data.len := by
    rw [length_body]
    rfl
  have hbody : writeBody s.mmap s.size data =
      header seed ++ encode crc32cAppend seed es ++ body data ++ zeros (n - (body data).length) := by
    rw [hmmap]
    exact writeBody_zeros h.size_eq_length data (by omega)
  have hslice : slice (writeBody s.mmap s.size data) s.size
      (headerLen + (data.len + padding data.len)) = body data := by
    rw [hbody]
    exact slice_append h.size_eq_length (length_body data).symm
  have hcrc : s.crc = chain crc32cAppend seed es := h.crc
  have hwrite : writeU32 (writeBody s.mmap s.size data)
      (s.size + headerLen + (data.len + padding data.len)) (nextCrc crc32cAppend s.crc (body data)) =
      header seed ++ encode crc32cAppend seed (es ++ [data]) ++ zeros (n - footprint data.len) := by
    rw [hbody, writeU32, writeAt_zeros, length_toLE]
    · rw [encode_append, hcrc]
      simp only [encode, encodeEntry, append_nil, append_assoc]
      rw [Nat.sub_sub, hbodyLen]
    · rw [length_append, ← h.size_eq_length, length_body, Nat.add_assoc]
    · rw [length_toLE]
      omega
  refine ⟨{ s with
      mmap := header seed ++ encode crc32cAppend seed (es ++ [data]) ++
        zeros (n - footprint data.len)
      crc := nextCrc crc32cAppend s.crc (body data)
      index := s.index ++ [(s.size + headerLen, data.len)] }, ?_, ?_⟩
  · simp only [Segment.append, hfit, not_true_eq_false, if_false, hslice, hwrite,
      length_append, length_singleton, Nat.add_sub_cancel, h.index, length_layout]
  · have hlen : (header seed ++ encode crc32cAppend seed (es ++ [data]) ++
        zeros (n - footprint data.len)).length = s.mmap.length := by
      rw [hmmap, encode_append]
      simp only [encode, encodeEntry, append_nil, length_append, length_toLE, length_zeros]
      omega
    refine ⟨⟨_, rfl⟩, ?_, ?_, ?_, ?_⟩
    · rw [h.size_eq, layout_append]
      simp only [h.index, layout]
    · rw [chain_append, hcrc]
      rfl
    · rw [hlen]
      exact h.aligned
    · rw [hlen]
      exact h.bounded

/-- The running checksum can be read back from the last entry, or from the header. -/
theorem readCrc_last {mmap post : List UInt8}
    (h : mmap = header seed ++ encode crc32cAppend seed es ++ post) :
    (match (layout headerLen es).getLast? with
      | none => readU32 mmap 4
      | some last => readU32 mmap (last.1 + (last.2 + padding last.2))) =
      chain crc32cAppend seed es := by
  rcases eq_nil_or_concat es with rfl | ⟨es, data, rfl⟩
  · have hseed : mmap = segmentMagic ++ [segmentVersion] ++ toLE 4 seed.toNat ++ post := by
      rw [h, encode, append_nil, header]
    rw [hseed]
    exact readU32_append rfl seed
  · rw [concat_eq_append] at h ⊢
    rw [layout_append, chain_append]
    simp only [layout, getLast?_append, getLast?_singleton]
    rw [encode_append] at h
    simp only [encode, encodeEntry, append_nil] at h
    rw [← append_assoc, ← append_assoc] at h
    rw [h]
    apply readU32_append
    rw [length_append, length_append, length_header, offset_add_length_encode,
      length_body, Nat.add_assoc]

section

variable (h : s.Represents crc32cAppend seed es)

include h

/-- Truncation keeps a prefix of the entries. -/
theorem truncate (start : Nat) :
    (s.truncate start).Represents crc32cAppend seed (es.take start) := by
  have hlen : s.index.length = es.length := h.len_eq
  unfold Segment.truncate
  split
  next hge =>
    rw [take_of_length_le (by omega)]
    exact h
  next hlt =>
    obtain ⟨n, hmmap, hcap⟩ := h.exists_free
    have hwritten := written_eq crc32cAppend seed es start
    have hsize := h.size_eq_length
    rw [hwritten] at hmmap hsize
    generalize encode crc32cAppend _ (es.drop start) = dropped at hmmap hsize
    rw [length_append] at hsize
    have hindex : s.index.take start = layout headerLen (es.take start) := by
      rw [layout_take, h.index]
    have hstart (t : Segment) (ht : t.index = s.index.take start) :
        t.size = (header seed ++ encode crc32cAppend seed (es.take start)).length := by
      rw [size_eq_layoutEnd (ht.trans hindex), length_append]
      exact (offset_add_length_encode seed headerLen _).symm
    have hcrc := readCrc_last (hmmap.trans (append_assoc _ _ _))
    dsimp only
    rw [hstart _ rfl, hsize, Nat.add_sub_cancel_left]
    have hclear : writeAt s.mmap (header seed ++ encode crc32cAppend seed (es.take start)).length
        (zeros dropped.length) =
        header seed ++ encode crc32cAppend seed (es.take start) ++ zeros (dropped.length + n) := by
      rw [hmmap, writeAt_append rfl (by simp), zeros_add, append_assoc]
    have hlength := congrArg List.length hclear
    have hold := congrArg List.length hmmap
    simp only [length_append, length_zeros] at hlength hold
    refine ⟨⟨_, hclear⟩, hindex, ?_, ?_, ?_⟩
    · rw [← hcrc, ← hindex]
      rfl
    · have := h.aligned
      simp only [length_append]
      omega
    · have := h.bounded
      simp only [length_append]
      omega

/-- Reading an entry gives back the data that was appended. -/
theorem entry (i : Nat) : s.entry i = .ok (es[i]?.map ByteSlice.bytes) := by
  rw [Segment.entry, h.index, getElem?_layout]
  cases hi : es[i]? with
  | none => rfl
  | some data =>
    obtain ⟨n, hmmap, _⟩ := h.exists_free
    obtain ⟨hlt, rfl⟩ := List.getElem?_eq_some_iff.mp hi
    have hdrop : es.drop i = es[i] :: es.drop (i + 1) := List.drop_eq_getElem_cons hlt
    rw [written_eq crc32cAppend seed es i, hdrop] at hmmap
    simp only [encode, encodeEntry, body] at hmmap
    obtain ⟨post, hsplit⟩ : ∃ post, s.mmap = header seed ++ encode crc32cAppend seed (es.take i) ++
        toLE 8 es[i].len ++ es[i].bytes ++ post :=
      ⟨_, by rw [hmmap]; simp only [List.append_assoc]; rfl⟩
    have hoffset : layoutEnd headerLen (es.take i) + headerLen =
        (header seed ++ encode crc32cAppend seed (es.take i) ++ toLE 8 es[i].len).length := by
      rw [List.length_append, List.length_append, offset_add_length_encode]
      rfl
    have hbound : layoutEnd headerLen (es.take i) + headerLen + es[i].len ≤ s.capacity := by
      have hlength := congrArg List.length hsplit
      rw [List.length_append, List.length_append] at hlength
      simp only [capacity, ByteSlice.len]
      omega
    have hslice : slice s.mmap (layoutEnd headerLen (es.take i) + headerLen) es[i].len =
        es[i].bytes := by
      rw [hsplit]
      exact slice_append hoffset rfl
    simp only [Option.map_some, hbound, if_true, hslice]

/-- Growing the file leaves the entries alone, and then an entry of this size fits. -/
theorem ensureCapacity {entrySize : Nat} {s' : Segment} (hs : s.ensureCapacity entrySize = .ok s') :
    s'.Represents crc32cAppend seed es ∧ s'.sufficientCapacity entrySize = true := by
  obtain ⟨n, hmmap, hcap⟩ := h.exists_free
  simp only [Segment.ensureCapacity, required_eq] at hs
  split at hs
  · cases hs
  next hlimit =>
  split at hs
  · cases hs
  next haligned =>
  split at hs
  · cases hs
    next hgrow =>
    have hmmap' : s.mmap ++ zeros (s.size + footprint entrySize - s.capacity) =
        header seed ++ encode crc32cAppend seed es ++ zeros (footprint entrySize) := by
      have hfree : footprint entrySize = n + (s.size + footprint entrySize - s.capacity) := by omega
      rw [hfree, zeros_add, ← append_assoc, ← hmmap, ← hfree]
    have hlength : (s.mmap ++ zeros (s.size + footprint entrySize - s.capacity)).length =
        s.size + footprint entrySize := by
      rw [hmmap', length_append, ← h.size_eq_length, length_zeros]
    refine ⟨⟨⟨_, hmmap'⟩, h.index, h.crc, ?_, ?_⟩, ?_⟩
    · have := footprint_mod entrySize
      have := h.size_mod
      simp only [flush, capacity] at hlength ⊢
      omega
    · simp only [flush, capacity] at hlength ⊢
      omega
    · refine (sufficientCapacity_iff ?_).mpr le_rfl
      exact hlength
  next hfits =>
    cases hs
    refine ⟨h, (sufficientCapacity_iff hcap).mpr ?_⟩
    omega

theorem exists_ensureCapacity {entrySize : Nat}
    (hlimit : s.size + footprint entrySize < usizeLimit) :
    ∃ s', s.ensureCapacity entrySize = .ok s' := by
  have haligned : alignDown (s.size + footprint entrySize) = s.size + footprint entrySize := by
    have := footprint_mod entrySize
    have := h.size_mod
    simp only [alignDown]
    omega
  simp only [Segment.ensureCapacity, required_eq, haligned, not_le.mpr hlimit, if_false,
    ne_eq, not_true_eq_false]
  split
  · exact ⟨_, rfl⟩
  · exact ⟨_, rfl⟩

end

end Represents

/-! ### Opening the file -/

/-- The space behind the last entry does not parse as an entry. -/
def TailBreaksChain (crc32cAppend : Checksum) (crc : UInt32) : Prop :=
  nextCrc crc32cAppend crc (zeros (headerLen + padding 0)) ≠ 0

instance (crc32cAppend : Checksum) (crc : UInt32) : Decidable (TailBreaksChain crc32cAppend crc) :=
  inferInstanceAs (Decidable (_ ≠ _))

/-- The zeroed space is read as an empty entry with checksum zero. -/
theorem parse_tail {crc : UInt32} (rounds : Nat)
    (index : List (Nat × Nat)) (hpre : pre.length % 8 = 0) (hn : n % 8 = 0)
    (hlimit : (pre ++ zeros n).length < usizeLimit) (htail : TailBreaksChain crc32cAppend crc) :
    parse crc32cAppend (pre ++ zeros n) rounds pre.length crc index = .ok (index, crc) := by
  cases rounds with
  | zero => rfl
  | succ rounds =>
    have hlength : (pre ++ zeros n).length = pre.length + n := by
      rw [length_append, length_zeros]
    rw [parse, hlength]
    split
    next hroom =>
      -- Both lengths are multiples of 8, so there is room for a whole empty entry.
      have hn16 : 16 ≤ n := by
        simp only [headerLen] at hroom
        omega
      have hlen : readU64 (pre ++ zeros n) pre.length = 0 := by
        rw [readU64, slice_zeros le_rfl (by omega), ofLE_zeros]
      have hbody : slice (pre ++ zeros n) pre.length (headerLen + (0 + padding 0)) =
          zeros (headerLen + padding 0) := by
        exact slice_zeros le_rfl (Nat.add_le_add_left (Nat.le_trans (by decide) hn16) _)
      have hstored : readU32 (pre ++ zeros n) (pre.length + headerLen + (0 + padding 0)) = 0 := by
        have hsize : headerLen + (0 + padding 0) = 12 := rfl
        rw [readU32, slice_zeros (by omega) (by omega)]
        rfl
      have hfits : pre.length + headerLen + (0 + padding 0) + crcLen = pre.length + 16 := rfl
      have hnoOverflow : ¬ usizeLimit ≤ pre.length + 16 := by omega
      have hinside : ¬ pre.length + 16 > pre.length + n := by omega
      simp only [hlen, hbody, hstored, hfits, hnoOverflow, hinside]
      exact if_pos htail
    · rfl

/-- Parsing finds the entries of a represented file, and stops behind them. -/
theorem parse_encode {crc : UInt32} (es : List ByteSlice)
    {rounds : Nat} (index : List (Nat × Nat)) (hrounds : es.length ≤ rounds)
    (hpre : pre.length % 8 = 0) (hn : n % 8 = 0)
    (hlimit : (pre ++ encode crc32cAppend crc es ++ zeros n).length < usizeLimit)
    (htail : TailBreaksChain crc32cAppend (chain crc32cAppend crc es)) :
    parse crc32cAppend (pre ++ encode crc32cAppend crc es ++ zeros n) rounds pre.length crc index =
      .ok (index ++ layout pre.length es, chain crc32cAppend crc es) := by
  induction es generalizing pre crc rounds index with
  | nil =>
    rw [encode, append_nil, layout, append_nil]
    rw [encode, append_nil] at hlimit
    exact parse_tail rounds index hpre hn hlimit htail
  | cons data rest ih =>
    cases rounds with
    | zero => cases hrounds
    | succ rounds =>
      generalize hfile : pre ++ encode crc32cAppend crc (data :: rest) ++ zeros n = file at *
      have hlenFile : readU64 file pre.length = data.len := by
        obtain ⟨post, rfl⟩ : ∃ post, file = pre ++ toLE 8 data.len ++ post :=
          ⟨_, by rw [← hfile]; simp only [append_assoc]; rfl⟩
        exact ofLE_slice_toLE rfl (data.length_lt.trans (by decide))
      have hbody : slice file pre.length (headerLen + (data.len + padding data.len)) =
          body data := by
        obtain ⟨post, rfl⟩ : ∃ post, file = pre ++ body data ++ post :=
          ⟨_, by rw [← hfile]; simp only [encode, encodeEntry, append_assoc]; rfl⟩
        exact slice_append rfl (length_body data).symm
      have hstored : readU32 file (pre.length + headerLen + (data.len + padding data.len)) =
          nextCrc crc32cAppend crc (body data) := by
        obtain ⟨post, rfl⟩ : ∃ post, file = pre ++ body data ++
            toLE 4 (nextCrc crc32cAppend crc (body data)).toNat ++ post :=
          ⟨_, by rw [← hfile]; simp only [encode, encodeEntry, append_assoc]; rfl⟩
        apply readU32_append
        rw [length_append, length_body, Nat.add_assoc]
      have hnext : file = pre ++ encodeEntry crc32cAppend crc data ++
          encode crc32cAppend (nextCrc crc32cAppend crc (body data)) rest ++ zeros n := by
        rw [← hfile, encode, ← append_assoc pre]
      have hend : (pre ++ encodeEntry crc32cAppend crc data).length =
          pre.length + (headerLen + (data.len + padding data.len) + crcLen) := by
        rw [length_append, length_encodeEntry]
        rfl
      have hsize : pre.length + headerLen + (data.len + padding data.len) + crcLen =
          pre.length + footprint data.len := by
        simp only [footprint]
        omega
      have hlength : pre.length + footprint data.len ≤ file.length := by
        rw [hnext, length_append, length_append]
        omega
      have hge := footprint_ge data.len
      have hroom : pre.length + headerLen + crcLen < file.length := by
        simp only [headerLen, crcLen]
        omega
      have hnoOverflow : ¬ usizeLimit ≤ pre.length + footprint data.len := by omega
      have hinside : ¬ pre.length + footprint data.len > file.length := by omega
      rw [parse]
      simp only [hroom, hlenFile, hsize, hnoOverflow, hinside, hbody, hstored, ne_eq]
      have hmod := footprint_mod data.len
      rw [hnext] at hlimit
      have hrest := ih (index ++ [(pre.length + headerLen, data.len)])
        (Nat.le_of_succ_le_succ hrounds) (by rw [hend]; simp only [footprint] at hmod; omega)
        hlimit htail
      rw [← hnext, hend] at hrest
      rw [hrest, append_assoc]
      rfl

namespace Represents

variable {s : Segment} {seed : UInt32} {es : List ByteSlice}

/-- Opening the file of a segment gives the segment back, as after a flush. -/
theorem openFile (h : s.Represents crc32cAppend seed es)
    (htail : TailBreaksChain crc32cAppend s.crc) :
    Segment.openFile crc32cAppend s.mmap = .ok s.flush := by
  obtain ⟨n, hmmap, hcap⟩ := h.exists_free
  have hle := h.size_le
  have haligned := h.aligned
  have hmod := h.size_mod
  have hlimit := h.bounded
  have hsizeEnd := layoutEnd_add_le headerLen es
  rw [← h.size_eq] at hsizeEnd
  simp only [capacity] at hle hcap
  have hwhole : s.mmap.take (alignDown s.mmap.length) = s.mmap := by
    apply take_of_length_le
    simp only [alignDown]
    omega
  have hvalid : ¬ (usizeLimit ≤ s.mmap.length ∨ s.mmap.length < headerLen) := by omega
  obtain ⟨post, hpost⟩ : ∃ post, s.mmap = segmentMagic ++ [segmentVersion] ++
      toLE 4 seed.toNat ++ post :=
    ⟨_, by rw [hmmap]; simp only [append_assoc]; rfl⟩
  have hmagic : slice s.mmap 0 3 = segmentMagic := by
    rw [hpost]
    rfl
  have hversion : slice s.mmap 3 1 = [segmentVersion] := by
    rw [hpost]
    rfl
  have hseed : readU32 s.mmap 4 = seed := by
    rw [hpost]
    exact readU32_append rfl seed
  have hparse : parse crc32cAppend s.mmap s.mmap.length headerLen seed [] =
      .ok (s.index, s.crc) := by
    have hrounds : es.length ≤ s.mmap.length := by omega
    rw [hmmap] at hlimit hrounds
    rw [h.crc] at htail
    have hfound := parse_encode es [] hrounds (by rw [length_header]; rfl) (by omega) hlimit htail
    rw [length_header, nil_append, ← hmmap] at hfound
    rw [hfound, h.index, h.crc]
  simp only [Segment.openFile, hvalid, hwhole, hmagic, hversion, hseed, hparse, ne_eq]
  rfl

end Represents

/-! ## Round trip -/

/-- The calls that change a segment. -/
inductive Call where
  | append (data : ByteSlice)
  | truncate (start : Nat)
  | ensureCapacity (entrySize : Nat)

/-- The segment after a call. A call that fails leaves it as it is. -/
def call (crc32cAppend : Checksum) (s : Segment) : Call → Segment
  | .append data =>
    match s.append crc32cAppend data with
    | some (s', _) => s'
    | none => s
  | .truncate start => s.truncate start
  | .ensureCapacity entrySize =>
    match s.ensureCapacity entrySize with
    | .ok s' => s'
    | .error _ => s

def calls (crc32cAppend : Checksum) (s : Segment) (cs : List Call) : Segment :=
  cs.foldl (call crc32cAppend) s

theorem Represents.call {seed : UInt32} (h : s.Represents crc32cAppend seed es) (c : Call) :
    ∃ es', (s.call crc32cAppend c).Represents crc32cAppend seed es' := by
  cases c with
  | append data =>
    cases hfit : s.sufficientCapacity data.len with
    | false =>
      have hnone : s.append crc32cAppend data = none := by
        simp [Segment.append, hfit]
      exact ⟨es, by simpa only [Segment.call, hnone] using h⟩
    | true =>
      obtain ⟨s', hs', h'⟩ := h.append hfit
      exact ⟨_, by simpa only [Segment.call, hs'] using h'⟩
  | truncate start => exact ⟨_, h.truncate start⟩
  | ensureCapacity entrySize =>
    cases hs : s.ensureCapacity entrySize with
    | error e => exact ⟨es, by simpa only [Segment.call, hs] using h⟩
    | ok s' => exact ⟨es, by simpa only [Segment.call, hs] using (h.ensureCapacity hs).1⟩

theorem Represents.calls {seed : UInt32} (h : s.Represents crc32cAppend seed es) (cs : List Call) :
    ∃ es', (s.calls crc32cAppend cs).Represents crc32cAppend seed es' := by
  induction cs generalizing s es with
  | nil => exact ⟨es, h⟩
  | cons c cs ih =>
    obtain ⟨_, h'⟩ := h.call c
    exact ih h'

/-- A segment file that was written by any calls opens as the same segment: the entries, the
running checksum and the size are those of the segment that wrote it, and the next append
writes the same bytes to both. -/
theorem open_calls {capacity : UInt64} {seed : UInt32} {s₀ : Segment} (cs : List Call)
    (hcreate : create capacity seed = .ok s₀)
    (htail : nextCrc crc32cAppend (s₀.calls crc32cAppend cs).crc (zeros 12) ≠ 0) :
    ∃ s, openFile crc32cAppend (s₀.calls crc32cAppend cs).mmap = .ok s ∧
      s.len = (s₀.calls crc32cAppend cs).len ∧
      (∀ i, s.entry i = (s₀.calls crc32cAppend cs).entry i) ∧
      s.crc = (s₀.calls crc32cAppend cs).crc ∧
      s.size = (s₀.calls crc32cAppend cs).size ∧
      ∀ data, (s.append crc32cAppend data).map (fun (t, i) => (t.mmap, t.index, t.crc, i)) =
        ((s₀.calls crc32cAppend cs).append crc32cAppend data).map
          fun (t, i) => (t.mmap, t.index, t.crc, i) := by
  have h₀ : s₀.Represents crc32cAppend seed [] := .of_create hcreate
  obtain ⟨es, h⟩ := h₀.calls cs
  refine ⟨_, h.openFile htail, rfl, fun _ => rfl, rfl, rfl, fun data => ?_⟩
  unfold Segment.append
  cases hfit : (s₀.calls crc32cAppend cs).sufficientCapacity data.len <;>
    simp only [show (Segment.flush _).sufficientCapacity data.len = _ from hfit] <;> rfl

/-- A new segment of 40 bytes. -/
def newSegment : Segment where
  mmap := header 7 ++ zeros 32
  index := []
  crc := 7
  flushOffset := 0

/-- One entry is kept and one is dropped again, for which the file has grown. -/
def growAndDrop : List Call :=
  [.append ⟨[1, 2], by decide⟩, .ensureCapacity 3, .append ⟨[3, 4, 5], by decide⟩, .truncate 1]

theorem open_calls_growAndDrop : create 40 7 = .ok newSegment ∧
      ∃ s, openFile crc32c (newSegment.calls crc32c growAndDrop).mmap = .ok s ∧ s.len = 1 ∧
        s.entry 0 = .ok (some [1, 2]) := by
  have hcreate : create 40 7 = .ok newSegment := by decide
  have htail : nextCrc crc32c (newSegment.calls crc32c growAndDrop).crc (zeros 12) ≠ 0 := by
    decide +kernel
  obtain ⟨s, hopen, hlen, hentry, _⟩ := open_calls growAndDrop hcreate htail
  refine ⟨hcreate, s, hopen, hlen.trans (by decide), (hentry 0).trans ?_⟩
  decide +kernel

end Segment

end Qdrant.Wal
