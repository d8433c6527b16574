-- SUMMARY: A file of graph links loads, and gives back the links, their levels and their vectors.
import Mathlib.Algebra.Order.BigOperators.Group.List
import Qdrant.Hnsw.GraphLinksFile

/-!
# Round trip of graph links

A file that the serializer wrote loads into a view of the same sections (`load_file`). In this
view a list of links is found at its place, and its record is taken apart again.
-/

namespace Qdrant.GraphLinks

open List Bytes Records GraphLinksView

/-! ## Sections -/

/-- Past the first part of what is left of a file. -/
theorem total_skip {total pos : Nat} {part rest : List UInt8} (h : total = pos + (part ++ rest).length) :
    total = pos + part.length + rest.length := by
  rw [h, length_append, Nat.add_assoc]

section

variable {total pos width align length : Nat} {part : List UInt8} (hpart : part.length = width * length)
  (rest : List UInt8) (htotal : total = pos + (part ++ rest).length) (halign : pos % align = 0)

include hpart htotal halign

theorem getSlice_append : getSlice total width align (part ++ rest) length = .ok (part, rest) := by
  have hpos : total - (part ++ rest).length = pos := by omega
  rw [getSlice, hpos, if_pos ⟨halign, by rw [length_append]; omega⟩,
    take_left' hpart, drop_left' hpart]

theorem getNumbers_append :
    getNumbers total width align (part ++ rest) length = .ok (decodeSection width part length, rest) := by
  rw [getNumbers, getSlice_append hpart rest htotal halign]
  rfl

end

theorem getNumbers_section {total pos width align length : Nat} {values : List Nat}
    (hfits : ∀ value ∈ values, value < 256 ^ width) (hlength : values.length = length)
    (rest : List UInt8) (htotal : total = pos + (encodeSection width values ++ rest).length)
    (halign : pos % align = 0) :
    getNumbers total width align (encodeSection width values ++ rest) length = .ok (values, rest) := by
  subst hlength
  have hdecode := decodeSection_encodeSection hfits []
  rw [append_nil] at hdecode
  rw [getNumbers_append (length_encodeSection ..) rest htotal halign, hdecode]

theorem HeaderPlain.ofBytes_toBytes {header : HeaderPlain}
    (h : ∀ field ∈ header.fields, field.1 < 256 ^ field.2) (rest : List UInt8) :
    HeaderPlain.ofBytes (header.toBytes ++ rest) = some header := by
  have hdecode : decode [8, 8, 8, 8, 8] (encode header.fields ++ (zeros 24 ++ rest)) =
      [header.pointCount, header.levelsCount, header.totalNeighborsCount, header.totalOffsetCount,
        header.offsetsPaddingBytes] := decode_encode h _
  rw [HeaderPlain.ofBytes, HeaderPlain.toBytes, append_assoc, hdecode]

theorem HeaderCompressed.ofBytes_encode {header : HeaderCompressed}
    (h : ∀ field ∈ header.fields, field.1 < 256 ^ field.2) (rest : List UInt8) :
    HeaderCompressed.ofBytes (encode header.fields ++ rest) = some header := by
  have hdecode : decode [8, 8, 8, 8, 8, 1, 1, 1, 8, 8] (encode header.fields ++ rest) =
      [header.pointCount, header.version, header.levelsCount, header.totalNeighborsBytes,
        header.offsetsParameters.length, header.offsetsParameters.baseBits,
        header.offsetsParameters.deltaBits, header.offsetsParameters.chunkLenLog2, header.m,
        header.m0] := decode_encode h _
  rw [HeaderCompressed.ofBytes, hdecode]

theorem HeaderCompressedWithVectors.ofBytes_toBytes {header : HeaderCompressedWithVectors}
    (h : ∀ field ∈ header.fields, field.1 < 256 ^ field.2) (rest : List UInt8) :
    HeaderCompressedWithVectors.ofBytes (header.toBytes ++ rest) = some header := by
  obtain ⟨layouts, hlayouts⟩ : ∃ layouts, layouts = [(header.baseVectorLayout.size, 8),
      (header.baseVectorLayout.alignment, 1), (header.linkVectorLayout.size, 8),
      (header.linkVectorLayout.alignment, 1)] := ⟨_, rfl⟩
  have hfields : header.fields = header.toHeaderCompressed.fields ++ layouts := by
    rw [hlayouts, HeaderCompressedWithVectors.fields]
  rw [hfields, forall_mem_append] at h
  have hsplit : header.toBytes ++ rest =
      encode header.toHeaderCompressed.fields ++ (encode layouts ++ (zeros 3 ++ rest)) := by
    simp only [HeaderCompressedWithVectors.toBytes, hfields, encode, flatMap_append, append_assoc]
  have hlength : (encode header.toHeaderCompressed.fields).length = 59 := by
    simp [length_encode, HeaderCompressed.fields]
  have hdecode : decode (layouts.map Prod.snd) (encode layouts ++ (zeros 3 ++ rest)) =
      layouts.map Prod.fst := decode_encode h.2 _
  subst hlayouts
  dsimp only [List.map] at hdecode
  rw [HeaderCompressedWithVectors.ofBytes, hsplit, HeaderCompressed.ofBytes_encode h.1,
    drop_left' hlength, hdecode]

theorem getHeader_append {H : Type} {size : Nat} {ofBytes : List UInt8 → Option H} {header : H}
    {bytes rest : List UInt8} (hsize : bytes.length = size)
    (hheader : ofBytes (bytes ++ rest) = some header) :
    getHeader size ofBytes (bytes ++ rest) = .ok (header, rest) := by
  have hroom : ¬ (bytes ++ rest).length < size := by
    rw [length_append]
    omega
  rw [getHeader, if_neg hroom, hheader, drop_left' hsize]

/-! ## Loading -/

variable {edges : Edges} {backIndex : BackIndex edges} {hnswM : HnswM}

/-- A view with the index sections of the edges. -/
def viewOf (backIndex : BackIndex edges) (compression : CompressionInfo) : GraphLinksView where
  reindex := reindex backIndex.order
  compression := compression
  levelOffsets := (List.range (backIndex.levelsCount + 1)).map (levelStart edges)

theorem levelStart_mono (edges : Edges) {a b : Nat} (h : a ≤ b) : levelStart edges a ≤ levelStart edges b := by
  induction h with
  | refl => exact le_rfl
  | step _ ih => exact ih.trans (levelStart_succ edges _ ▸ Nat.le_add_right ..)

theorem levelStart_lt (h : WellFormed edges) :
    ∀ value ∈ (List.range backIndex.levelsCount).map (levelStart edges), value < 256 ^ 8 := by
  have hmemory := h.memory
  have htotal := levelStart_eq_sum backIndex.length_le_levelsCount
  intro value hvalue
  obtain ⟨level, hlevel, rfl⟩ := mem_map.mp hvalue
  have hle := levelStart_mono edges (mem_range.mp hlevel).le
  omega

theorem reindex_lt (h : WellFormed edges) : ∀ place ∈ reindex backIndex.order, place < 256 ^ 4 := by
  have hpoints := h.points
  intro place hplace
  obtain ⟨pointId, hpointId⟩ := List.getElem?_of_mem hplace
  have hlt := (List.getElem?_eq_some_iff.mp hpointId).1
  rw [backIndex.length_reindex] at hlt
  obtain ⟨place', horder, hplace'⟩ := backIndex.exists_place hlt
  obtain rfl : place = place' := Option.some.inj (hpointId.symm.trans hplace')
  have hin := (List.getElem?_eq_some_iff.mp horder).1
  rw [backIndex.length_order] at hin
  omega

theorem levelsCount_le_sum (backIndex : BackIndex edges) :
    backIndex.levelsCount ≤ (edges.map List.length).sum := by
  unfold BackIndex.levelsCount
  cases horder : backIndex.order with
  | nil => exact Nat.zero_le _
  | cons id rest =>
    have hid : id < edges.length := backIndex.mem_order.mp (horder ▸ mem_cons_self ..)
    have hmem : (edges.getD id []).length ∈ edges.map List.length := by
      rw [getD_eq_getElem?_getD, getElem?_eq_getElem hid]
      exact mem_map_of_mem (getElem_mem hid)
    exact le_sum_of_mem hmem

section

variable {total pos : Nat} {rest : List UInt8} (h : WellFormed edges)
  (htotal : total = pos + (indexSections backIndex ++ rest).length) (halign : pos % 8 = 0)

include h htotal halign

theorem load_levelOffsets {totalOffsetCount : Nat} (hcount : totalOffsetCount = (allVisits backIndex).length + 1) :
    readLevelOffsets total (indexSections backIndex ++ rest) backIndex.levelsCount totalOffsetCount =
      .ok ((List.range (backIndex.levelsCount + 1)).map (levelStart edges),
        encodeSection 4 (reindex backIndex.order) ++ rest) := by
  have hlevels : (List.range (backIndex.levelsCount + 1)).map (levelStart edges) =
      (List.range backIndex.levelsCount).map (levelStart edges) ++ [totalOffsetCount - 1] := by
    rw [range_succ, map_append, hcount]
    exact congrArg (_ ++ [·]) (length_visits backIndex).symm
  rw [indexSections, append_assoc] at htotal ⊢
  rw [readLevelOffsets, getNumbers_section (levelStart_lt h) (by simp) _ htotal halign, hlevels]
  subst hcount
  rfl

theorem load_reindex :
    getNumbers total 4 4 (encodeSection 4 (reindex backIndex.order) ++ rest) edges.length =
      .ok (reindex backIndex.order, rest) := by
  rw [indexSections, append_assoc, length_append, length_encodeSection, length_map] at htotal
  exact getNumbers_section (reindex_lt h) backIndex.length_reindex _
    (htotal.trans (Nat.add_assoc ..).symm) (by omega)

end

/-- The view of a file with vectors. -/
def viewWithVectors (backIndex : BackIndex edges) (hnswM : HnswM) (vectors : GraphLinksVectors)
    (neighbors : List UInt8) (reader : BitPackingOrdered.Reader) : GraphLinksView :=
  viewOf backIndex (.compressedWithVectors neighbors reader hnswM (unsortedBits edges)
    vectors.vectorsLayout.base vectors.vectorsLayout.link.size vectors.vectorsLayout.link.align)

/-- Link vectors have bytes. -/
def GraphLinksFormatParam.LinkVectorsNonempty : GraphLinksFormatParam → Prop
  | .compressedWithVectors vectors => vectors.vectorsLayout.link.size ≠ 0
  | _ => True

section

variable {neighbors compressed : List UInt8} {offsets : List Nat} {last pad : Nat} {file : List UInt8}
  {parameters : BitPackingOrdered.Parameters}

theorem load_plain_file [Varint] (h : WellFormed edges)
    (hlaid : Laid (RecordOf edges .plain hnswM) (allVisits backIndex) neighbors offsets last)
    (hpad : pad < 8)
    (hfile : file = HeaderPlain.toBytes ⟨edges.length, backIndex.levelsCount, last, offsets.length, pad⟩ ++
      (indexSections backIndex ++ (neighbors ++ (zeros pad ++ (encodeSection 8 offsets ++ [])))))
    (hsize : file.length < 2 ^ 64) :
    loadPlain file = .ok (viewOf backIndex (.uncompressed (decodeSection 4 neighbors last) offsets)) := by
  have hneighbors : neighbors.length = 4 * last := hlaid.length_data record_sized
  have hindex := length_indexSections backIndex
  have hoffsets := hlaid.length_offsets
  have htotal : file.length = 64 + (indexSections backIndex ++
      (neighbors ++ (zeros pad ++ (encodeSection 8 offsets ++ [])))).length := by
    rw [hfile, length_append, HeaderPlain.length_toBytes]
  have htotal₁ := total_skip htotal
  have htotal₂ := total_skip htotal₁
  have htotal₃ := total_skip htotal₂
  have hlast : last < 256 ^ 8 := by omega
  have hall : ∀ offset ∈ offsets, offset < 256 ^ 8 := fun offset hoffset =>
    (hlaid.le_last record_sized offset hoffset).trans_lt hlast
  have hlength : offsets.length < 256 ^ 8 := by
    rw [append_nil, length_encodeSection] at htotal₃
    omega
  have hfields : ∀ field ∈ HeaderPlain.fields
      ⟨edges.length, backIndex.levelsCount, last, offsets.length, pad⟩, field.1 < 256 ^ field.2 := by
    simp only [HeaderPlain.fields, forall_mem_cons, not_mem_nil, false_imp_iff, implies_true,
      and_true]
    omega
  unfold loadPlain
  rw [hfile, getHeader_append (HeaderPlain.length_toBytes _) (HeaderPlain.ofBytes_toBytes hfields _),
    ← hfile]
  dsimp only [bind, Except.bind]
  rw [load_levelOffsets h htotal (by decide) hoffsets]
  dsimp only
  rw [load_reindex h htotal (by decide)]
  dsimp only
  rw [getNumbers_append hneighbors _ htotal₁ (by omega)]
  dsimp only
  rw [getSlice_append ((length_zeros pad).trans (Nat.one_mul pad).symm) _ htotal₂ (Nat.mod_one _)]
  dsimp only
  rw [getNumbers_section hall rfl _ htotal₃ (Nat.mod_one _)]
  rfl

/-- The numbers in a header of the compressed formats fit. -/
theorem compressedHeader_fits (h : WellFormed edges) {version : Nat} (hversion : version < 2 ^ 64)
    (hlast : last < 2 ^ 64) (hparameters : parameters.Suits offsets)
    (hoffsets : offsets.length = (allVisits backIndex).length + 1) :
    ∀ field ∈ (compressedHeader backIndex hnswM version last parameters).fields,
      field.1 < 256 ^ field.2 := by
  have hpoints := h.points
  have hmemory := h.memory
  have hcount := levelsCount_le_sum backIndex
  have hlength := hparameters.length
  have hbase := hparameters.baseLe
  have hdelta := hparameters.deltaLe
  have hchunk := hparameters.chunkLe
  have hm := hnswM.m.toNat_lt
  have hm0 := hnswM.m0.toNat_lt
  have hvisits := length_allVisits backIndex
  simp only [HeaderCompressed.fields, compressedHeader, forall_mem_cons, not_mem_nil,
    false_imp_iff, implies_true, and_true]
  omega

theorem bitsPerUnsortedOf_eq (h : WellFormed edges) :
    bitsPerUnsortedOf edges.length = .ok (unsortedBits edges) := by
  have hpoints := h.points
  rw [bitsPerUnsortedOf, if_neg (by omega), unsortedBits, Nat.max_comm]

theorem exists_reader [Varint] {param : GraphLinksFormatParam} (h : WellFormed edges)
    (hlaid : Laid (RecordOf edges param hnswM) (allVisits backIndex) neighbors offsets last)
    (hroom : neighbors.length < 2 ^ 64)
    (hcompress : BitPackingOrdered.compress offsets = some (compressed, parameters)) :
    ∃ reader, parameters.Suits offsets ∧ offsetsReader parameters compressed = .ok reader ∧
      ∀ i, reader.get i = offsets[i]? := by
  obtain ⟨_, _, reader, hcompress', hparameters, hnew, -, hget⟩ := exists_compress h hlaid hroom
  obtain ⟨rfl, rfl⟩ := Prod.mk.inj (Option.some.inj (hcompress.symm.trans hcompress'))
  have hreader := hnew []
  rw [append_nil] at hreader
  exact ⟨reader, hparameters, by rw [offsetsReader, hreader], hget⟩

theorem load_compressed_file [Varint] (h : WellFormed edges)
    (hlaid : Laid (RecordOf edges .compressed hnswM) (allVisits backIndex) neighbors offsets last)
    (hcompress : BitPackingOrdered.compress offsets = some (compressed, parameters))
    (hfile : file = (compressedHeader backIndex hnswM headerVersionCompressed last parameters).toBytes ++
      (indexSections backIndex ++ (neighbors ++ compressed)))
    (hsize : file.length < 2 ^ 64) :
    ∃ reader, (∀ i, reader.get i = offsets[i]?) ∧ loadCompressed file =
        .ok (viewOf backIndex (.compressed neighbors reader hnswM (unsortedBits edges))) := by
  have hneighbors : neighbors.length = 1 * last := hlaid.length_data record_sized
  have hoffsets := hlaid.length_offsets
  have htotal : file.length = 64 + (indexSections backIndex ++ (neighbors ++ compressed)).length := by
    rw [hfile, length_append, HeaderCompressed.length_toBytes]
  have htotal₁ := total_skip htotal
  have hroom := total_skip htotal₁
  obtain ⟨reader, hparameters, hreader, hget⟩ := exists_reader h hlaid (by omega) hcompress
  have hfields : ∀ field ∈ (compressedHeader backIndex hnswM headerVersionCompressed last
      parameters).fields, field.1 < 256 ^ field.2 :=
    compressedHeader_fits h (by decide) (by omega) hparameters hoffsets
  refine ⟨reader, hget, ?_⟩
  unfold loadCompressed
  rw [hfile, getHeader_append (HeaderCompressed.length_toBytes _) (HeaderCompressed.ofBytes_encode hfields _),
    ← hfile]
  dsimp only [bind, Except.bind, compressedHeader]
  rw [load_levelOffsets h htotal (by decide) (hparameters.length.trans hoffsets)]
  dsimp only
  rw [load_reindex h htotal (by decide)]
  dsimp only
  rw [getSlice_append hneighbors _ htotal₁ (Nat.mod_one _)]
  dsimp only
  rw [hreader, bitsPerUnsortedOf_eq h]
  rw [UInt64.ofNat_toNat, UInt64.ofNat_toNat]
  rfl

theorem Layout.bounds (layout : Layout) : layout.size < 2 ^ 63 ∧ 0 < layout.align := by
  have hvalid := layout.valid
  simp only [isLayout, Bool.and_eq_true, decide_eq_true_eq] at hvalid
  omega

theorem tryIntoLayout_eq (layout : Layout) :
    PackedVectorLayout.tryIntoLayout ⟨layout.size, layout.align⟩ = .ok layout := by
  rw [PackedVectorLayout.tryIntoLayout, Layout.fromSizeAlign, dif_pos layout.valid]

/-- The header of a file with vectors. -/
def headerWithVectors (backIndex : BackIndex edges) (hnswM : HnswM) (vectors : GraphLinksVectors)
    (last : Nat) (parameters : BitPackingOrdered.Parameters) : HeaderCompressedWithVectors :=
  { compressedHeader backIndex hnswM headerVersionCompressedWithVectors last parameters with
    baseVectorLayout := ⟨vectors.vectorsLayout.base.size, vectors.vectorsLayout.base.align⟩
    linkVectorLayout := ⟨vectors.vectorsLayout.link.size, vectors.vectorsLayout.link.align⟩ }

theorem load_withVectors_file [Varint] (h : WellFormed edges) {vectors : GraphLinksVectors}
    (hvectors : vectors.Provides edges)
    (hlaid : Laid (RecordOf edges (.compressedWithVectors vectors) hnswM) (allVisits backIndex)
      neighbors offsets last)
    (hcompress : BitPackingOrdered.compress offsets = some (compressed, parameters))
    (hfile : file = (headerWithVectors backIndex hnswM vectors last parameters).toBytes ++
      (indexSections backIndex ++ (zeros (neighborsPadding backIndex vectors.vectorsLayout) ++
        (neighbors ++ compressed))))
    (hsize : file.length < 2 ^ 64) :
    ∃ reader, (∀ i, reader.get i = offsets[i]?) ∧ loadCompressedWithVectors file =
        if vectors.vectorsLayout.link.size = 0 then
          .error (serviceError "Zero link vector size in GraphLinks file")
        else .ok (viewWithVectors backIndex hnswM vectors neighbors reader) := by
  have hneighbors : neighbors.length = 1 * last := hlaid.length_data record_sized
  have hindex := length_indexSections backIndex
  have hoffsets := hlaid.length_offsets
  have htotal : file.length = 80 + (indexSections backIndex ++
      (zeros (neighborsPadding backIndex vectors.vectorsLayout) ++ (neighbors ++ compressed))).length := by
    rw [hfile, length_append, HeaderCompressedWithVectors.length_toBytes]
  have htotal₁ := total_skip htotal
  have htotal₂ := total_skip htotal₁
  have hroom := total_skip htotal₂
  obtain ⟨reader, hparameters, hreader, hget⟩ := exists_reader h hlaid (by omega) hcompress
  have hfields : ∀ field ∈ (headerWithVectors backIndex hnswM vectors last parameters).fields,
      field.1 < 256 ^ field.2 := by
    have hbase := vectors.vectorsLayout.base.bounds
    have hlink := vectors.vectorsLayout.link.bounds
    have hbaseAlign := hvectors.baseAlign
    have hlinkAlign := hvectors.linkAlign
    refine forall_mem_append.mpr
      ⟨compressedHeader_fits h (by decide) (by omega) hparameters hoffsets, ?_⟩
    simp only [headerWithVectors, forall_mem_cons, not_mem_nil, false_imp_iff, implies_true,
      and_true]
    omega
  have hpos : file.length - (zeros (neighborsPadding backIndex vectors.vectorsLayout) ++
      (neighbors ++ compressed)).length = 80 + (8 * backIndex.levelsCount + 4 * edges.length) := by
    omega
  have hpadding : padding (80 + (8 * backIndex.levelsCount + 4 * edges.length))
      (max vectors.vectorsLayout.base.align vectors.vectorsLayout.link.align) =
      neighborsPadding backIndex vectors.vectorsLayout := rfl
  refine ⟨reader, hget, ?_⟩
  unfold loadCompressedWithVectors
  rw [hfile, getHeader_append (HeaderCompressedWithVectors.length_toBytes _)
    (HeaderCompressedWithVectors.ofBytes_toBytes hfields _), ← hfile]
  dsimp only [bind, Except.bind, headerWithVectors, compressedHeader]
  rw [tryIntoLayout_eq, tryIntoLayout_eq]
  rw [load_levelOffsets h htotal (by decide) (hparameters.length.trans hoffsets)]
  dsimp only
  rw [load_reindex h htotal (by decide)]
  dsimp only
  rw [hpos, Nat.max_comm, hpadding,
    getSlice_append ((length_zeros _).trans (Nat.one_mul _).symm) _ htotal₁ (Nat.mod_one _)]
  dsimp only
  rw [getSlice_append hneighbors _ htotal₂ (Nat.mod_one _)]
  dsimp only
  rw [hreader, bitsPerUnsortedOf_eq h]
  dsimp only
  rw [UInt64.ofNat_toNat, UInt64.ofNat_toNat]
  split <;> rfl

end

/-! ## Finding a record -/

theorem sliceOf_eq {α : Type} {data part : List α} {start stop : Nat} (pre post : List α)
    (hdata : data = pre ++ part ++ post) (hstart : pre.length = start)
    (hstop : start + part.length = stop) : sliceOf data start stop = some part := by
  subst hdata
  have hle : stop ≤ (pre ++ part ++ post).length := by
    rw [length_append, length_append]
    omega
  have hlen : stop - start = part.length := by omega
  rw [sliceOf, if_pos ⟨by omega, hle⟩, append_assoc, drop_left' hstart, hlen, take_left]

theorem chunksExact_flatten {size : Nat} (hsize : 0 < size) {pieces : List (List UInt8)}
    (h : ∀ piece ∈ pieces, piece.length = size) : chunksExact size pieces.flatten = pieces := by
  have hlength := length_flatten_of_length h
  apply ext_getElem?
  intro i
  rw [chunksExact, hlength, Nat.mul_div_cancel _ hsize, getElem?_map]
  rcases Nat.lt_or_ge i pieces.length with hi | hi
  · rw [getElem?_range hi, getElem?_eq_getElem hi, Option.map_some, slice,
      drop_flatten_of_length h, drop_eq_getElem_cons hi, flatten_cons,
      take_left' (h _ (getElem_mem hi))]
  · rw [getElem?_eq_none (by simpa using hi), getElem?_eq_none hi, Option.map_none]

section

variable {neighbors : List UInt8} {offsets : List Nat} {last pointId level : Nat}
  {point : List (List Nat)} {rawLinks : List Nat} {param : GraphLinksFormatParam}

theorem toList_rawLinks (h : WellFormed edges) (hlinks : ∀ link ∈ rawLinks, link < edges.length) (sortedCount : Nat) :
    (iteratePackedLinks (BitFields.pack (linkFields rawLinks (unsortedBits edges) sortedCount))
      (unsortedBits edges) sortedCount).toList = sortFirst sortedCount rawLinks := by
  obtain ⟨hmin, hmax, hfits⟩ := unsortedBits_spec h
  exact toList_iteratePackedLinks (fun link hlink => hfits link (hlinks link hlink)) hmin hmax sortedCount

section

variable (h : WellFormed edges) (hpoint : edges[pointId]? = some point)

include h hpoint

section

variable (hraw : point[level]? = some rawLinks)

include hraw

/-- The record of the links of a point on a level. -/
theorem lookup_links [Varint]
    (hlaid : Laid (RecordOf edges param hnswM) (allVisits backIndex) neighbors offsets last) :
    ∃ idx a b bytes pre post,
      (∀ compression, (viewOf backIndex compression).offsetIdx pointId level = some idx) ∧
      offsets[idx]? = some a ∧ offsets[idx + 1]? = some b ∧
      record param (unsortedBits edges) hnswM level pointId rawLinks a = .ok (bytes, b) ∧
      neighbors = pre ++ bytes ++ post ∧ pre.length = param.unit * a := by
  have hid := (List.getElem?_eq_some_iff.mp hpoint).1
  have hlevel := (List.getElem?_eq_some_iff.mp hraw).1
  obtain ⟨place, hplace, hreindex⟩ := backIndex.exists_place hid
  have hcount := backIndex.length_le_levelsCount point (List.mem_of_getElem? hpoint)
  have hvisit := getElem?_visits backIndex h.levels hplace hpoint hlevel
  obtain ⟨a, b, bytes, pre, post, ha, hb, ⟨rawLinks', hraw', hrecord⟩, hdata, hpre⟩ :=
    hlaid.lookup record_sized hvisit
  rw [hpoint, Option.bind_some, hraw] at hraw'
  obtain rfl := Option.some.inj hraw'
  refine ⟨_, a, b, bytes, pre, post, fun compression => ?_, ha, hb, hrecord, hdata, hpre⟩
  have hstart : (viewOf backIndex compression).levelOffsets[level]? = some (levelStart edges level) := by
    rw [viewOf, List.getElem?_map, List.getElem?_range (by omega), Option.map_some]
  have hplace' : (viewOf backIndex compression).reindex[pointId]? = some place := hreindex
  unfold offsetIdx
  rw [hstart, hplace']
  split <;> rfl

theorem links_plain [Varint]
    (hlaid : Laid (RecordOf edges .plain hnswM) (allVisits backIndex) neighbors offsets last) :
    (viewOf backIndex (.uncompressed (decodeSection 4 neighbors last) offsets)).links pointId level =
        some rawLinks ∧
      (viewOf backIndex (.uncompressed (decodeSection 4 neighbors last) offsets)).linksEmpty pointId level =
        some rawLinks.isEmpty := by
  obtain ⟨idx, a, b, bytes, pre, post, hidx, ha, hb, hrecord, hdata, hpre⟩ := lookup_links h hpoint hraw hlaid
  obtain ⟨rfl, rfl⟩ := Prod.mk.inj (Except.ok.inj hrecord)
  have hlast := hlaid.le_last record_sized _ (mem_of_getElem? hb)
  have hfits : ∀ link ∈ rawLinks, link < 256 ^ 4 := by
    exact fun link hlink => (h.links_lt hpoint hraw link hlink).trans_le h.points
  have hslice : sliceOf (decodeSection 4 neighbors last) a (a + rawLinks.length) = some rawLinks := by
    rw [sliceOf, if_pos ⟨Nat.le_add_right .., by rwa [length_decodeSection]⟩, Nat.add_sub_cancel_left,
      hdata, slice_decodeSection hfits (hpre.trans (Nat.mul_comm ..)) hlast]
  constructor
  · simp only [links, hidx, Option.bind_eq_bind]
    rw [viewOf]
    simp only [ha, hb, Option.bind_some, hslice]
  · simp only [linksEmpty, hidx, Option.bind_eq_bind, Option.bind_some]
    rw [viewOf]
    simp only [ha, hb]
    cases rawLinks <;> simp

theorem links_compressed [Varint]
    (hlaid : Laid (RecordOf edges .compressed hnswM) (allVisits backIndex) neighbors offsets last)
    {reader : BitPackingOrdered.Reader} (hreader : ∀ i, reader.get i = offsets[i]?) :
    (viewOf backIndex (.compressed neighbors reader hnswM (unsortedBits edges))).links pointId level =
        some (sortFirst (hnswM.levelM level) rawLinks) ∧
      (viewOf backIndex (.compressed neighbors reader hnswM (unsortedBits edges))).linksEmpty pointId level =
        some rawLinks.isEmpty := by
  obtain ⟨idx, a, b, bytes, pre, post, hidx, ha, hb, hrecord, hdata, hpre⟩ := lookup_links h hpoint hraw hlaid
  have hlinks := h.links_lt hpoint hraw
  rw [record, packLinks_rawLinks h hlinks] at hrecord
  obtain ⟨rfl, rfl⟩ := Prod.mk.inj (Except.ok.inj hrecord)
  have hslice := sliceOf_eq pre post hdata (hpre.trans (Nat.one_mul a)) rfl
  constructor
  · simp only [links, hidx, Option.bind_eq_bind]
    rw [viewOf]
    simp only [hreader, ha, hb, Option.bind_some, hslice, toList_rawLinks h hlinks]
    rfl
  · simp only [linksEmpty, hidx, Option.bind_eq_bind]
    rw [viewOf]
    simp only [hreader, ha, hb, Option.bind_some]
    have hlength : rawLinks.length ≤ 8 * _ := length_pack_linkFields (unsortedBits_spec h).1 (hnswM.levelM level)
    cases rawLinks with
    | nil => simp [linkFields]
    | cons link links =>
      rw [length_cons] at hlength
      simp only [isEmpty_cons, pure, Option.some.injEq, decide_eq_false_iff_not]
      omega

end

theorem pointLevel_viewOf (compression : CompressionInfo) :
    (viewOf backIndex compression).pointLevel pointId = some (point.length - 1) := by
  have hid := (List.getElem?_eq_some_iff.mp hpoint).1
  have hmem := List.mem_of_getElem? hpoint
  have hpos := List.length_pos_iff.mpr (h.levels point hmem)
  obtain ⟨place, hplace, hreindex⟩ := backIndex.exists_place hid
  have hcount := backIndex.length_le_levelsCount point hmem
  have hreindex' : (viewOf backIndex compression).reindex[pointId]? = some place := hreindex
  have hoffsets : (viewOf backIndex compression).levelOffsets.drop 1 =
      (List.range' 1 backIndex.levelsCount).map (levelStart edges) := by
    rw [viewOf, ← List.map_drop, List.range_eq_range']
    simp
  have hlast : (viewOf backIndex compression).levelOffsets.length - 2 = backIndex.levelsCount - 1 := by
    simp [viewOf]
  have hlevel := pointLevelFrom_eq hcount (backIndex.place_lt_iff hplace hpoint) backIndex.levelsCount 0
    (Nat.zero_add _) hpos
  rw [pointLevel, hreindex', hoffsets, hlast]
  exact congrArg some hlevel

end

theorem nextMultipleOf_eq (n : Nat) {multiple : Nat} (h : 0 < multiple) :
    nextMultipleOf n multiple = n + padding n multiple := by
  have hle : n ≤ nextMultipleOf n multiple := by
    have hdiv := Nat.div_add_mod (n + multiple - 1) multiple
    have hmod := Nat.mod_lt (n + multiple - 1) h
    rw [nextMultipleOf, Nat.mul_comm]
    omega
  exact (Nat.add_sub_of_le hle).symm

/-- A record with vectors is taken apart into what it was made from. -/
theorem readRecord_eq [Varint] {bytes head pre base count packed gap tail post : List UInt8}
    {pieces : List (List UInt8)} {bitsPerUnsorted sortedCount size align start stop : Nat}
    (hdata : neighbors = pre ++ bytes ++ post) (hpre : pre.length = start)
    (hstop : start + bytes.length = stop) (hbytes : bytes = head ++ gap ++ pieces.flatten ++ tail)
    (hhead : head = base ++ count ++ packed) (hcount : count = Varint.encode pieces.length)
    (hpacked : ∀ rest, packedLinksSize (packed ++ rest) bitsPerUnsorted sortedCount pieces.length =
      packed.length)
    (hgap : nextMultipleOf (start + head.length) align = start + head.length + gap.length)
    (hpieces : ∀ piece ∈ pieces, piece.length = size) (hsize : 0 < size)
    (hneighbors : neighbors.length < 2 ^ 64) :
    readRecord neighbors bitsPerUnsorted sortedCount base.length size align start stop =
      some (base, iteratePackedLinks packed bitsPerUnsorted sortedCount, pieces) := by
  have hflatten := length_flatten_of_length hpieces
  subst hbytes hhead
  have hlt : pieces.length < 2 ^ 64 := by
    have hle := Nat.le_mul_of_pos_right pieces.length hsize
    simp only [hdata, length_append] at hneighbors
    omega
  have hdecode : ∀ rest, Varint.decode (count ++ rest) = some (pieces.length, count.length) :=
    hcount ▸ Varint.decode_encode _ hlt
  have hslice : ∀ before part after,
      base ++ count ++ packed ++ gap ++ pieces.flatten ++ tail = before ++ part ++ after →
      sliceOf neighbors (start + before.length) (start + before.length + part.length) = some part := by
    intro before part after hparts
    apply sliceOf_eq (pre ++ before) (after ++ post) _ (by rw [length_append, hpre]) rfl
    rw [hdata, hparts]
    simp only [append_assoc]
  have hbase := hslice [] base (count ++ packed ++ gap ++ pieces.flatten ++ tail) (by simp)
  have hlength := hslice base (count ++ (packed ++ gap ++ pieces.flatten ++ tail)) [] (by simp)
  have hlinks := hslice (base ++ count) (packed ++ (gap ++ pieces.flatten ++ tail)) [] (by simp)
  have hpackedSlice := hslice (base ++ count) packed (gap ++ pieces.flatten ++ tail) (by simp)
  have hvectors := hslice (base ++ count ++ packed ++ gap) pieces.flatten tail rfl
  simp only [length_append, length_nil, ← Nat.add_assoc, Nat.add_zero, hflatten]
    at hstop hgap hbase hlength hlinks hpackedSlice hvectors
  rw [hstop] at hlength hlinks
  simp only [readRecord, hbase, hlength, hdecode, hlinks, hpacked, hpackedSlice, hgap, hvectors,
    chunksExact_flatten hsize hpieces, Option.bind_eq_bind, Option.bind_some]
  rfl

section WithVectors

variable [Varint] {vectors : GraphLinksVectors} {reader : BitPackingOrdered.Reader} (h : WellFormed edges)
  (hvectors : vectors.Provides edges) (hsize : vectors.vectorsLayout.link.size ≠ 0)
  (hlaid : Laid (RecordOf edges (.compressedWithVectors vectors) hnswM) (allVisits backIndex)
    neighbors offsets last)
  (hneighbors : neighbors.length < 2 ^ 64) (hreader : ∀ i, reader.get i = offsets[i]?)
  (hpoint : edges[pointId]? = some point) (hraw : point[level]? = some rawLinks)

include h hvectors hsize hlaid hneighbors hreader hpoint hraw

theorem linksWithVectors_eq :
    (viewWithVectors backIndex hnswM vectors neighbors reader).linksWithVectors pointId level =
      some (if level = 0 then vectors.baseVectorOf pointId else [],
        iteratePackedLinks (BitFields.pack (linkFields rawLinks (unsortedBits edges) (hnswM.levelM level)))
          (unsortedBits edges) (hnswM.levelM level),
        (sortFirst (hnswM.levelM level) rawLinks).map vectors.linkVectorOf) := by
  have hid := (List.getElem?_eq_some_iff.mp hpoint).1
  have hlinks := h.links_lt hpoint hraw
  obtain ⟨idx, a, b, bytes, pre, post, hidx, ha, hb, hrecord, hdata, hpre⟩ := lookup_links h hpoint hraw hlaid
  obtain ⟨bytes', tail, hrecord', hbytes⟩ := record_withVectors h hvectors hid hlinks a
  obtain ⟨rfl, hstop⟩ := Prod.mk.inj (Except.ok.inj (hrecord.symm.trans hrecord'))
  -- The parts of the record.
  generalize hbase : (if level = 0 then vectors.baseVectorOf pointId else []) = base
  generalize hpacked : BitFields.pack (linkFields rawLinks (unsortedBits edges) (hnswM.levelM level)) = packed
  generalize hpieces : (sortFirst (hnswM.levelM level) rawLinks).map vectors.linkVectorOf = pieces at hbytes ⊢
  have hbaseSize : (if level = 0 then vectors.vectorsLayout.base.size else 0) = base.length := by
    rw [← hbase]
    split
    · exact (hvectors.length_baseVectorOf hid).2.symm
    · rfl
  have hpiece : ∀ piece ∈ pieces, piece.length = vectors.vectorsLayout.link.size := by
    intro piece hmem
    obtain ⟨link, hlink, rfl⟩ := List.mem_map.mp (hpieces.symm ▸ hmem)
    exact (hvectors.length_linkVectorOf (hlinks link ((sortFirst_perm _ _).mem_iff.mp hlink))).2
  have hcount : rawLinks.length = pieces.length := by
    rw [← hpieces, List.length_map, length_sortFirst]
  have hpackedSize : ∀ rest, packedLinksSize (packed ++ rest) (unsortedBits edges) (hnswM.levelM level)
      pieces.length = packed.length := by
    obtain ⟨hmin, hmax, hfits⟩ := unsortedBits_spec h
    rw [← hpacked, ← hcount]
    exact packedLinksSize_eq (fun link hlink => hfits link (hlinks link hlink)) hmin hmax _
  have hhead : recordHead edges vectors hnswM level pointId rawLinks =
      base ++ Varint.encode pieces.length ++ packed := by
    rw [recordHead, hbase, hpacked, hcount]
  have hgap := nextMultipleOf_eq (a + (recordHead edges vectors hnswM level pointId rawLinks).length)
    vectors.vectorsLayout.link.bounds.2
  rw [← length_zeros (padding _ _)] at hgap
  have hread := readRecord_eq hdata (hpre.trans (Nat.one_mul a)) hstop.symm hbytes hhead rfl hpackedSize
    hgap hpiece (Nat.pos_of_ne_zero hsize) hneighbors
  simp only [viewWithVectors, GraphLinksView.linksWithVectors, hidx, Option.bind_eq_bind, Option.bind_some]
  rw [viewOf]
  simp only [hreader, ha, hb, hbaseSize]
  exact hread

theorem linksWithVectors_zip :
    linksWithVectors (viewWithVectors backIndex hnswM vectors neighbors reader) pointId level =
      some (if level = 0 then vectors.baseVectorOf pointId else [],
        (sortFirst (hnswM.levelM level) rawLinks).map fun link => (link, vectors.linkVectorOf link)) := by
  have hlinks := h.links_lt hpoint hraw
  have hzip : ∀ links : List Nat, links.zip (links.map vectors.linkVectorOf) =
      links.map fun link => (link, vectors.linkVectorOf link) := by
    intro links
    rw [zip_map_right, zip_eq_zipWith, zipWith_self, map_map]
    rfl
  rw [linksWithVectors, linksWithVectors_eq h hvectors hsize hlaid hneighbors hreader hpoint hraw]
  simp only [Option.bind_eq_bind, Option.bind_some, toList_rawLinks h hlinks, hzip]
  rfl

theorem links_withVectors :
    (viewWithVectors backIndex hnswM vectors neighbors reader).links pointId level =
        some (sortFirst (hnswM.levelM level) rawLinks) ∧
      (viewWithVectors backIndex hnswM vectors neighbors reader).linksEmpty pointId level =
        some rawLinks.isEmpty := by
  have hlinks := h.links_lt hpoint hraw
  obtain ⟨idx, -, -, -, -, -, hidx, -⟩ := lookup_links h hpoint hraw hlaid
  have hidx' : (viewWithVectors backIndex hnswM vectors neighbors reader).offsetIdx pointId level = some idx :=
    hidx _
  have hget : (viewWithVectors backIndex hnswM vectors neighbors reader).links pointId level =
      some (sortFirst (hnswM.levelM level) rawLinks) := by
    simp only [links, hidx', linksWithVectors_eq h hvectors hsize hlaid hneighbors hreader
      hpoint hraw, Option.bind_eq_bind, Option.bind_some, toList_rawLinks h hlinks]
    rfl
  refine ⟨hget, ?_⟩
  simp only [linksEmpty, hidx', hget, Option.bind_eq_bind]
  exact congrArg some (sortFirst_perm _ _).isEmpty_eq

end WithVectors

end

/-! ## Round trip -/

/-- A list of links as a format gives it back: the compressed formats sort the first links. -/
def GraphLinksFormatParam.storedLinks (param : GraphLinksFormatParam) (hnswM : HnswM) (level : Nat)
    (rawLinks : List Nat) : List Nat :=
  match param with
  | .plain => rawLinks
  | _ => sortFirst (hnswM.levelM level) rawLinks

/-- The view shows these edges. -/
structure Represents [Varint] (param : GraphLinksFormatParam) (hnswM : HnswM) (edges : Edges)
    (view : GraphLinksView) : Prop where
  pointLevel : ∀ pointId point, edges[pointId]? = some point →
    view.pointLevel pointId = some (point.length - 1)
  links : ∀ pointId point level rawLinks, edges[pointId]? = some point → point[level]? = some rawLinks →
    view.links pointId level = some (param.storedLinks hnswM level rawLinks) ∧
      view.linksEmpty pointId level = some rawLinks.isEmpty
  vectors : ∀ vectors, param = .compressedWithVectors vectors →
    ∀ pointId point level rawLinks, edges[pointId]? = some point → point[level]? = some rawLinks →
      linksWithVectors view pointId level =
        some (if level = 0 then vectors.baseVectorOf pointId else [],
          (param.storedLinks hnswM level rawLinks).map fun link => (link, vectors.linkVectorOf link))

variable {param : GraphLinksFormatParam} {file : List UInt8}

/-- A file of the serializer loads, and the view shows the edges. -/
theorem load_file [Varint] (h : WellFormed edges) (hparam : param.Usable edges) (hnonempty : param.LinkVectorsNonempty)
    (hfile : FileOf backIndex hnswM param file) (hsize : file.length < 2 ^ 64) :
    ∃ view, load file param.asFormat = .ok view ∧ Represents param hnswM edges view := by
  cases hfile with
  | plain hlaid hpad =>
    refine ⟨_, load_plain_file h hlaid hpad (by rw [append_nil]) hsize,
      fun _ _ hpoint => pointLevel_viewOf h hpoint _, fun _ _ _ _ hpoint hraw => ?_, nofun⟩
    exact links_plain h hpoint hraw hlaid
  | compressed hlaid hoffsets =>
    obtain ⟨reader, hreader, hload⟩ := load_compressed_file h hlaid hoffsets rfl hsize
    refine ⟨_, hload, fun _ _ hpoint => pointLevel_viewOf h hpoint _,
      fun _ _ _ _ hpoint hraw => ?_, nofun⟩
    exact links_compressed h hpoint hraw hlaid hreader
  | @compressedWithVectors vectors neighbors _ _ _ _ hlaid hoffsets =>
    obtain ⟨reader, hreader, hload⟩ := load_withVectors_file h hparam hlaid hoffsets rfl hsize
    rw [if_neg hnonempty] at hload
    have hneighbors : neighbors.length < 2 ^ 64 := by
      simp only [length_append] at hsize
      omega
    refine ⟨_, hload, fun _ _ hpoint => pointLevel_viewOf h hpoint _,
      fun _ _ _ _ hpoint hraw => ?_, fun vectors' heq pointId point level rawLinks hpoint hraw => ?_⟩
    · exact links_withVectors h hparam hnonempty hlaid hneighbors hreader hpoint hraw
    · cases heq
      exact linksWithVectors_zip h hparam hnonempty hlaid hneighbors hreader hpoint hraw

/-- Numbers in eight bytes. -/
instance eightBytes : Varint where
  encode := toLE 8
  decode bytes := some (ofLE (bytes.take 8), 8)
  decode_encode n h rest := by
    rw [take_left' (length_toLE 8 n), ofLE_toLE h, length_toLE]

/-- Two points, one of which has two levels. -/
def twoPoints : Edges := [[[1], []], [[0]]]

def twoPointsIndex : BackIndex twoPoints where
  order := [0, 1]
  perm := List.Perm.refl _
  sorted := by decide

/-- Vectors of bytes, with link vectors of this size. -/
def byteVectors (linkSize : Nat) (h : isLayout linkSize 1 = true) : GraphLinksVectors where
  vectorsLayout := { base := ⟨2, 1, rfl⟩, link := ⟨linkSize, 1, h⟩ }
  forBaseVector id := .ok [UInt8.ofNat id, 7]
  getLinkVector id := .ok (List.replicate linkSize (UInt8.ofNat id))

theorem byteVectors_provides {linkSize : Nat} (h : isLayout linkSize 1 = true) :
    (byteVectors linkSize h).Provides twoPoints where
  baseMultiple := Nat.mod_one _
  linkMultiple := Nat.mod_one _
  baseAlign := Nat.one_lt_ofNat
  linkAlign := Nat.one_lt_ofNat
  base _ _ := ⟨_, rfl, rfl⟩
  link _ _ := ⟨_, rfl, length_replicate⟩

theorem twoPoints_wellFormed : WellFormed twoPoints := ⟨by decide, by decide, by decide, by decide⟩

end Qdrant.GraphLinks
