-- SUMMARY: What the serializer of graph links writes, and that the file loads.
import Qdrant.Hnsw.LevelOrder

/-!
# Files of graph links

The serializer writes the records of all lists of links, with a table of the offsets between
them, and sections that tell where a record is (`serialize_writes`). Loading splits the file
into the same sections.
-/

namespace Qdrant.GraphLinks

open List Bytes Records Wp

/-! ## Writing -/

/-- The computation writes what `Q` says, unless that is more than a stream can have. -/
structure Writes {α : Type} (x : Writer α) (Q : α → List UInt8 → Prop) (written : List UInt8) : Prop where
  spec : wp x Q (fun e stream => e = .io ∧ 2 ^ 64 ≤ stream.length) written

variable {written : List UInt8} {α : Type} {Q : α → List UInt8 → Prop} {x : Writer α}

theorem Writes.mono {Q' : α → List UInt8 → Prop}
    (h : Writes x Q written) (hQ : ∀ a stream, Q a stream → Q' a stream) : Writes x Q' written :=
  ⟨wp_mono h.spec hQ fun _ _ hfull => hfull⟩

theorem Writes.exists_ok (h : Writes x Q written) (hx : succeeds x written = true) :
    ∃ a stream, x written = .ok a stream ∧ Q a stream :=
  Wp.exists_ok h.spec hx

theorem writes_bind {β : Type} {f : α → Writer β} {Q : β → List UInt8 → Prop}
    (h : Writes x (fun a => Writes (f a) Q) written) :
    Writes (x >>= f) Q written := by
  constructor
  rw [wp_bind]
  exact wp_mono h.spec (fun _ _ hrest => hrest.spec) fun _ _ hfull => hfull

theorem writes_get {Q : List UInt8 → List UInt8 → Prop} (h : Q written written) :
    Writes get Q written := ⟨h⟩

theorem writes_writeAll {data : List UInt8} {Q : PUnit → List UInt8 → Prop}
    (h : (written ++ data).length < 2 ^ 64 → Q ⟨⟩ (written ++ data)) : Writes (writeAll data) Q written := by
  rw [length_append] at h
  constructor
  unfold wp writeAll
  split
  next a s heq =>
    split at heq
    next hlt =>
      cases heq
      exact h hlt
    next => cases heq
  next e s heq =>
    split at heq
    next => cases heq
    next hfull =>
      cases heq
      exact ⟨rfl, by rw [length_append]; omega⟩

theorem writes_ofExcept {x : Except GraphLinksError α} {a : α} (hx : x = .ok a) (h : Q a written) :
    Writes (Writer.ofExcept x) Q written := by
  subst hx
  exact ⟨h⟩

/-! ## Records -/

/-- Vectors that fit their layouts, for all points. -/
structure GraphLinksVectors.Provides (vectors : GraphLinksVectors) (edges : Edges) : Prop where
  baseMultiple : vectors.vectorsLayout.base.size % vectors.vectorsLayout.base.align = 0
  linkMultiple : vectors.vectorsLayout.link.size % vectors.vectorsLayout.link.align = 0
  baseAlign : vectors.vectorsLayout.base.align < 256
  linkAlign : vectors.vectorsLayout.link.align < 256
  base : ∀ id < edges.length, ∃ vector, vectors.forBaseVector id = .ok vector ∧
    vector.length = vectors.vectorsLayout.base.size
  link : ∀ id < edges.length, ∃ vector, vectors.getLinkVector id = .ok vector ∧
    vector.length = vectors.vectorsLayout.link.size

/-- The parameters of a format are usable for these edges. -/
def GraphLinksFormatParam.Usable (edges : Edges) : GraphLinksFormatParam → Prop
  | .compressedWithVectors vectors => vectors.Provides edges
  | _ => True

/-- The width of unsorted links. -/
def unsortedBits (edges : Edges) : Nat := max (packedBits (edges.length - 1)) minBitsPerValue

/-- The record of a list of links. -/
def RecordOf [Varint] (edges : Edges) (param : GraphLinksFormatParam) (hnswM : HnswM) :
    Nat × Nat → Nat → List UInt8 → Nat → Prop
  | (level, id), start, bytes, stop =>
    ∃ rawLinks, edges[id]?.bind (·[level]?) = some rawLinks ∧
      record param (unsortedBits edges) hnswM level id rawLinks start = .ok (bytes, stop)

/-- The number of bytes that an offset counts. -/
def GraphLinksFormatParam.unit : GraphLinksFormatParam → Nat
  | .plain => 4
  | _ => 1

variable {edges : Edges} {param : GraphLinksFormatParam} {hnswM : HnswM}

theorem record_sized [Varint] : Sized param.unit (RecordOf edges param hnswM) := by
  rintro ⟨level, id⟩ start bytes stop ⟨rawLinks, -, hrecord⟩
  cases param with
  | plain =>
    obtain ⟨rfl, rfl⟩ : encodeSection 4 rawLinks = bytes ∧ start + rawLinks.length = stop := by
      simpa [record] using hrecord
    refine ⟨Nat.le_add_right .., ?_⟩
    rw [length_encodeSection, GraphLinksFormatParam.unit, Nat.mul_add]
  | compressed =>
    obtain ⟨rfl, rfl⟩ := Prod.mk.inj (Except.ok.inj hrecord)
    exact ⟨Nat.le_add_right .., by simp only [GraphLinksFormatParam.unit, Nat.one_mul]⟩
  | compressedWithVectors vectors =>
    simp only [record, bind, Except.bind] at hrecord
    split at hrecord
    next => cases hrecord
    next base _ =>
      split at hrecord
      next => cases hrecord
      next links _ =>
        obtain ⟨rfl, rfl⟩ := Prod.mk.inj (Except.ok.inj hrecord)
        exact ⟨Nat.le_add_right .., by simp only [GraphLinksFormatParam.unit, Nat.one_mul]⟩

/-! ## Vectors -/

namespace GraphLinksVectors

/-- The base vector of a point. -/
def baseVectorOf (vectors : GraphLinksVectors) (id : Nat) : List UInt8 :=
  (vectors.forBaseVector id).toOption.getD []

/-- The link vector of a point. -/
def linkVectorOf (vectors : GraphLinksVectors) (id : Nat) : List UInt8 :=
  (vectors.getLinkVector id).toOption.getD []

variable {vectors : GraphLinksVectors}
variable {id : Nat}

theorem ok_getD {ε : Type} {x : Except ε (List UInt8)} {size : Nat}
    (h : ∃ vector, x = .ok vector ∧ vector.length = size) :
    x = .ok (x.toOption.getD []) ∧ (x.toOption.getD []).length = size := by
  obtain ⟨vector, rfl, hlength⟩ := h
  exact ⟨rfl, hlength⟩

section

variable (h : vectors.Provides edges)

include h

theorem Provides.length_baseVectorOf (hid : id < edges.length) :
    vectors.forBaseVector id = .ok (vectors.baseVectorOf id) ∧
      (vectors.baseVectorOf id).length = vectors.vectorsLayout.base.size :=
  ok_getD (h.base id hid)

theorem Provides.length_linkVectorOf (hid : id < edges.length) :
    vectors.getLinkVector id = .ok (vectors.linkVectorOf id) ∧
      (vectors.linkVectorOf id).length = vectors.vectorsLayout.link.size :=
  ok_getD (h.link id hid)

theorem Provides.baseVector_eq (hid : id < edges.length) (level : Nat) :
    baseVector vectors level id = .ok (if level = 0 then vectors.baseVectorOf id else []) := by
  obtain ⟨hvector, hlength⟩ := h.length_baseVectorOf hid
  unfold baseVector
  split
  · rw [hvector]
    exact if_neg (not_not.mpr hlength)
  · rfl

theorem Provides.linkVectors_eq {links : List Nat} (hlinks : ∀ link ∈ links, link < edges.length) :
    linkVectors vectors links = .ok (links.map vectors.linkVectorOf) := by
  unfold linkVectors
  induction links with
  | nil => rfl
  | cons link links ih =>
    obtain ⟨hvector, hlength⟩ := h.length_linkVectorOf (hlinks link mem_cons_self)
    rw [mapM_cons, ih fun l hl => hlinks l (mem_cons_of_mem _ hl), hvector]
    dsimp only
    rw [if_neg (not_not.mpr hlength)]
    rfl

end

end GraphLinksVectors

/-! ## The records of all formats -/

theorem unsortedBits_spec (h : WellFormed edges) :
    8 ≤ unsortedBits edges ∧ unsortedBits edges ≤ 32 ∧ ∀ id < edges.length, id < 2 ^ unsortedBits edges := by
  have hpoints := h.points
  refine ⟨Nat.le_max_right .., Nat.max_le.mpr ⟨packedBits_le_iff.mpr (by omega), by decide⟩,
    fun id hid => ?_⟩
  have hle : packedBits (edges.length - 1) ≤ unsortedBits edges := Nat.le_max_left ..
  exact Nat.lt_of_le_of_lt (by omega) (packedBits_le_iff.mp hle)

section

variable {id level : Nat} {rawLinks : List Nat}

theorem packLinks_rawLinks (h : WellFormed edges) (hlinks : ∀ link ∈ rawLinks, link < edges.length)
    (sortedCount : Nat) :
    packLinks [] rawLinks (unsortedBits edges) sortedCount =
      (BitFields.pack (linkFields rawLinks (unsortedBits edges) sortedCount),
        sortFirst sortedCount rawLinks) := by
  obtain ⟨-, hmax, hfits⟩ := unsortedBits_spec h
  rw [packLinks_eq (fun link hlink => hfits link (hlinks link hlink)) hmax, nil_append]

/-- The bytes of a record before the link vectors. -/
def recordHead [Varint] (edges : Edges) (vectors : GraphLinksVectors) (hnswM : HnswM) (level id : Nat)
    (rawLinks : List Nat) : List UInt8 :=
  (if level = 0 then vectors.baseVectorOf id else []) ++ Varint.encode rawLinks.length ++
    BitFields.pack (linkFields rawLinks (unsortedBits edges) (hnswM.levelM level))

/-- A record with vectors. -/
theorem record_withVectors [Varint] (h : WellFormed edges) {vectors : GraphLinksVectors}
    (hvectors : vectors.Provides edges) (hid : id < edges.length)
    (hlinks : ∀ link ∈ rawLinks, link < edges.length) (start : Nat) :
    ∃ bytes tail, record (.compressedWithVectors vectors) (unsortedBits edges) hnswM level id rawLinks
        start = .ok (bytes, start + bytes.length) ∧
      bytes = recordHead edges vectors hnswM level id rawLinks ++
        zeros (padding (start + (recordHead edges vectors hnswM level id rawLinks).length)
          vectors.vectorsLayout.link.align) ++
        ((sortFirst (hnswM.levelM level) rawLinks).map vectors.linkVectorOf).flatten ++ tail := by
  have hsorted : ∀ link ∈ sortFirst (hnswM.levelM level) rawLinks, link < edges.length :=
    fun link hlink => hlinks link ((sortFirst_perm _ _).mem_iff.mp hlink)
  simp only [record, hvectors.baseVector_eq hid, packLinks_rawLinks h hlinks,
    hvectors.linkVectors_eq hsorted, bind]
  by_cases hlevel : level = 0
  · subst hlevel
    exact ⟨_, _, rfl, rfl⟩
  · refine ⟨_, [], rfl, ?_⟩
    rw [append_nil, recordHead, if_neg hlevel]

end

/-! ## The file -/

section

variable (backIndex : BackIndex edges)

/-- The level offsets and the map from points to their places. -/
def indexSections : List UInt8 :=
  encodeSection 8 ((List.range backIndex.levelsCount).map (levelStart edges)) ++
    encodeSection 4 (reindex backIndex.order)

theorem length_indexSections :
    (indexSections backIndex).length = 8 * backIndex.levelsCount + 4 * edges.length := by
  rw [indexSections, length_append, length_encodeSection, length_encodeSection, length_map,
    length_range, backIndex.length_reindex]

/-- The header of the compressed formats. -/
def compressedHeader (hnswM : HnswM) (version last : Nat) (parameters : BitPackingOrdered.Parameters) :
    HeaderCompressed where
  pointCount := edges.length
  version := version
  levelsCount := backIndex.levelsCount
  totalNeighborsBytes := last
  offsetsParameters := parameters
  m := hnswM.m.toNat
  m0 := hnswM.m0.toNat

/-- The padding before the neighbors. -/
def neighborsPadding (layout : GraphLinksVectorsLayout) : Nat :=
  padding (80 + (8 * backIndex.levelsCount + 4 * edges.length)) (max layout.base.align layout.link.align)

/-- The files of the edges: the records with their offsets, behind the index sections. -/
inductive FileOf [Varint] (hnswM : HnswM) : GraphLinksFormatParam → List UInt8 → Prop where
  | plain {neighbors : List UInt8} {offsets : List Nat} {last pad : Nat}
      (laid : Laid (RecordOf edges .plain hnswM) (allVisits backIndex) neighbors offsets last)
      (hpad : pad < 8) :
      FileOf hnswM .plain
        (HeaderPlain.toBytes ⟨edges.length, backIndex.levelsCount, last, offsets.length, pad⟩ ++
          (indexSections backIndex ++ (neighbors ++ (zeros pad ++ encodeSection 8 offsets))))
  | compressed {neighbors compressed : List UInt8} {offsets : List Nat} {last : Nat}
      {parameters : BitPackingOrdered.Parameters}
      (laid : Laid (RecordOf edges .compressed hnswM) (allVisits backIndex) neighbors offsets last)
      (hoffsets : BitPackingOrdered.compress offsets = some (compressed, parameters)) :
      FileOf hnswM .compressed
        ((compressedHeader backIndex hnswM headerVersionCompressed last parameters).toBytes ++
          (indexSections backIndex ++ (neighbors ++ compressed)))
  | compressedWithVectors {vectors : GraphLinksVectors} {neighbors compressed : List UInt8}
      {offsets : List Nat} {last : Nat} {parameters : BitPackingOrdered.Parameters}
      (laid : Laid (RecordOf edges (.compressedWithVectors vectors) hnswM) (allVisits backIndex)
        neighbors offsets last)
      (hoffsets : BitPackingOrdered.compress offsets = some (compressed, parameters)) :
      FileOf hnswM (.compressedWithVectors vectors)
        (HeaderCompressedWithVectors.toBytes
          { compressedHeader backIndex hnswM headerVersionCompressedWithVectors last parameters with
            baseVectorLayout := ⟨vectors.vectorsLayout.base.size, vectors.vectorsLayout.base.align⟩
            linkVectorLayout := ⟨vectors.vectorsLayout.link.size, vectors.vectorsLayout.link.align⟩ } ++
          (indexSections backIndex ++ (zeros (neighborsPadding backIndex vectors.vectorsLayout) ++
            (neighbors ++ compressed))))

variable {backIndex}

/-- The points of the visits are points of the graph, and have the level. -/
theorem rawLinks_of_mem_visits (h : WellFormed edges) {level id : Nat}
    (hmem : (level, id) ∈ allVisits backIndex) :
    id < edges.length ∧ ∃ rawLinks, edges[id]?.bind (·[level]?) = some rawLinks := by
  have hpoint : ∀ {point : List (List Nat)}, edges[id]? = some point → level < point.length →
      ∃ rawLinks, edges[id]?.bind (·[level]?) = some rawLinks := by
    intro point hpoint hlt
    exact ⟨point[level], by rw [hpoint, Option.bind_some, List.getElem?_eq_getElem hlt]⟩
  rw [visits_eq] at hmem
  obtain ⟨level', -, hpair⟩ := List.mem_flatMap.mp hmem
  obtain ⟨id', hid, heq⟩ := List.mem_map.mp hpair
  obtain ⟨rfl, rfl⟩ := Prod.mk.inj heq
  unfold levelPoints at hid
  split at hid
  next hzero =>
    have hlt := (List.mem_range.mp hid).trans_le (levelSize_le edges level')
    have hget := List.getElem?_eq_getElem hlt
    have hne := h.levels _ (List.getElem_mem hlt)
    exact ⟨hlt, hpoint hget (hzero ▸ List.length_pos_iff.mpr hne)⟩
  next =>
    obtain ⟨place, hplace⟩ := List.getElem?_of_mem hid
    have hlen := (List.getElem?_eq_some_iff.mp hplace).1
    rw [List.length_take] at hlen
    have hlt : place < levelSize edges level' := by omega
    rw [List.getElem?_take_of_lt hlt] at hplace
    have hid := backIndex.mem_order.mp (List.mem_of_getElem? hplace)
    have hget := List.getElem?_eq_getElem hid
    exact ⟨hid, hpoint hget ((backIndex.place_lt_iff hplace hget level').mp hlt)⟩

/-- All visits but `rest` have been made. -/
def WrittenUpTo [Varint] (param : GraphLinksFormatParam) (hnswM : HnswM) (backIndex : BackIndex edges)
    (start : List UInt8) (rest : List (Nat × Nat)) (result : Nat × List Nat) (written : List UInt8) :
    Prop :=
  ∃ done neighbors, allVisits backIndex = done ++ rest ∧
    Laid (RecordOf edges param hnswM) done neighbors result.2 result.1 ∧
    written = start ++ neighbors ∧ written.length < 2 ^ 64

theorem writes_record [Varint] (h : WellFormed edges) (hparam : param.Usable edges) {start written : List UInt8}
    {visit : Nat × Nat} {rest : List (Nat × Nat)} {result : Nat × List Nat}
    (hwritten : WrittenUpTo param hnswM backIndex start (visit :: rest) result written) :
    Writes (writeRecord edges param (unsortedBits edges) hnswM result visit)
      (WrittenUpTo param hnswM backIndex start rest) written := by
  obtain ⟨level, id⟩ := visit
  obtain ⟨offset, offsets⟩ := result
  obtain ⟨done, neighbors, hall, hlaid, rfl, -⟩ := hwritten
  have hmem : (level, id) ∈ allVisits backIndex := hall ▸ mem_append_right _ mem_cons_self
  obtain ⟨hid, rawLinks, hraw⟩ := rawLinks_of_mem_visits h hmem
  obtain ⟨bytes, stop, hrecord⟩ : ∃ bytes stop,
      record param (unsortedBits edges) hnswM level id rawLinks offset = .ok (bytes, stop) := by
    cases param with
    | plain | compressed => exact ⟨_, _, rfl⟩
    | compressedWithVectors vectors =>
      obtain ⟨point, hpoint, hlevel⟩ := Option.bind_eq_some_iff.mp hraw
      obtain ⟨_, _, hrecord, -⟩ := record_withVectors h hparam hid (h.links_lt hpoint hlevel) offset
      exact ⟨_, _, hrecord⟩
  simp only [writeRecord, hraw]
  apply writes_bind
  apply writes_ofExcept hrecord
  apply writes_bind
  apply writes_writeAll
  intro hlt
  refine ⟨done ++ [(level, id)], neighbors ++ bytes, ?_, ?_, ?_, hlt⟩
  · rw [hall, append_assoc, singleton_append]
  · exact hlaid.snoc ⟨rawLinks, hraw, hrecord⟩
  · rw [append_assoc]

/-! ## The offsets and the header -/

theorem length_allVisits (backIndex : BackIndex edges) :
    (allVisits backIndex).length = (edges.map List.length).sum :=
  (length_visits backIndex).trans (levelStart_eq_sum backIndex.length_le_levelsCount)

/-- The offsets are such as `compress` takes. -/
theorem exists_compress [Varint] (h : WellFormed edges) {neighbors : List UInt8} {offsets : List Nat} {last : Nat}
    (hlaid : Laid (RecordOf edges param hnswM) (allVisits backIndex) neighbors offsets last)
    (hsize : neighbors.length < 2 ^ 64) :
    ∃ compressed parameters reader,
      BitPackingOrdered.compress offsets = some (compressed, parameters) ∧ parameters.Suits offsets ∧
      (∀ rest, BitPackingOrdered.Reader.new parameters (compressed ++ rest) = .ok (reader, rest)) ∧
      reader.len = offsets.length ∧ ∀ i, reader.get i = offsets[i]? := by
  have hmemory := h.memory
  have hlast : last < 2 ^ 64 := by
    have hlength := hlaid.length_data record_sized
    have hunit : 1 ≤ param.unit := by cases param <;> simp [GraphLinksFormatParam.unit]
    have hle := Nat.mul_le_mul_right last hunit
    omega
  apply BitPackingOrdered.compress_readable (hlaid.sorted record_sized)
  · intro offset hoffset
    exact (hlaid.le_last record_sized offset hoffset).trans_lt hlast
  · rw [hlaid.length_offsets, length_allVisits]
    omega

theorem padding_lt {n multiple : Nat} (h : 0 < multiple) : padding n multiple < multiple := by
  have hdiv := Nat.div_mul_le_self (n + multiple - 1) multiple
  unfold padding nextMultipleOf
  omega

/-- The header takes the place of the zeros at the start. -/
theorem writeAt_start {data : List UInt8} {size : Nat} (h : data.length = size) (body : List UInt8) :
    writeAt (zeros size ++ body) 0 data = data ++ body := by
  rw [writeAt, take_zero, nil_append, Nat.zero_add, h, drop_left' (length_zeros size)]

theorem length_encode (fields : List (Nat × Nat)) : (encode fields).length = (fields.map (·.2)).sum := by
  induction fields with
  | nil => rfl
  | cons field fields ih =>
    have hcons : encode (field :: fields) = toLE field.2 field.1 ++ encode fields := rfl
    rw [hcons, length_append, length_toLE, ih, map_cons, sum_cons]

@[simp] theorem HeaderPlain.length_toBytes (header : HeaderPlain) : header.toBytes.length = 64 := by
  simp [HeaderPlain.toBytes, HeaderPlain.fields, length_encode]

@[simp] theorem HeaderCompressed.length_toBytes (header : HeaderCompressed) :
    header.toBytes.length = 64 := by
  simp [HeaderCompressed.toBytes, HeaderCompressed.fields, length_encode]

@[simp] theorem HeaderCompressedWithVectors.length_toBytes (header : HeaderCompressedWithVectors) :
    header.toBytes.length = 80 := by
  simp [HeaderCompressedWithVectors.toBytes, HeaderCompressedWithVectors.fields, HeaderCompressed.fields,
    length_encode]

theorem writes_header [Varint] {header body : List UInt8} {size : Nat} (h : header.length = size)
    (hsize : (zeros size ++ body).length < 2 ^ 64) (hfile : FileOf backIndex hnswM param (header ++ body)) :
    Writes (rewriteStart header) (fun _ file => FileOf backIndex hnswM param file ∧ file.length < 2 ^ 64)
      (zeros size ++ body) := by
  rw [length_append, length_zeros, ← h, ← length_append] at hsize
  have hwritten := And.intro hfile hsize
  rw [← writeAt_start h] at hwritten
  exact ⟨hwritten⟩

/-- What stands before the records. -/
def fileStart (backIndex : BackIndex edges) : GraphLinksFormatParam → List UInt8
  | .compressedWithVectors vectors =>
    zeros 80 ++ (indexSections backIndex ++ zeros (neighborsPadding backIndex vectors.vectorsLayout))
  | _ => zeros 64 ++ indexSections backIndex

section

variable [Varint] (h : WellFormed edges) (hparam : param.Usable edges)

include h hparam

theorem writes_offsets {neighbors : List UInt8} {offsets : List Nat} {last : Nat}
    (hneighbors : neighbors.length < 2 ^ 64)
    (hlaid : Laid (RecordOf edges param hnswM) (allVisits backIndex) neighbors offsets last) :
    Writes (writeOffsets param hnswM edges.length backIndex.levelsCount last offsets)
      (fun _ file => FileOf backIndex hnswM param file ∧ file.length < 2 ^ 64)
      (fileStart backIndex param ++ neighbors) := by
  obtain ⟨compressed, parameters, -, hcompress, -⟩ := exists_compress h hlaid hneighbors
  cases param with
  | plain =>
    apply writes_bind
    apply writes_get
    apply writes_bind
    apply writes_writeAll
    intro _
    apply writes_bind
    apply writes_writeAll
    intro hsize
    simp only [fileStart, append_assoc] at hsize ⊢
    apply writes_header (HeaderPlain.length_toBytes _) hsize
    exact .plain hlaid (padding_lt (by decide))
  | compressed =>
    unfold writeOffsets
    simp only [hcompress]
    apply writes_bind
    apply writes_writeAll
    intro hsize
    simp only [fileStart, append_assoc] at hsize ⊢
    apply writes_header (HeaderCompressed.length_toBytes _) hsize
    exact .compressed hlaid hcompress
  | compressedWithVectors vectors =>
    have hvectors : vectors.Provides edges := hparam
    unfold writeOffsets
    simp only [hcompress]
    apply writes_bind
    apply writes_writeAll
    intro hsize
    apply writes_bind
    apply writes_ofExcept (if_pos hvectors.baseAlign)
    apply writes_bind
    apply writes_ofExcept (if_pos hvectors.linkAlign)
    simp only [fileStart, append_assoc] at hsize ⊢
    apply writes_header (HeaderCompressedWithVectors.length_toBytes _) hsize
    exact .compressedWithVectors hlaid hcompress

/-- The records and what follows them. -/
theorem writes_links (hstart : (fileStart backIndex param).length < 2 ^ 64) :
    Writes (do
        let (offset, offsets) ← (allVisits backIndex).foldlM
          (writeRecord edges param (unsortedBits edges) hnswM) (0, [0])
        writeOffsets param hnswM edges.length backIndex.levelsCount offset offsets)
      (fun _ file => FileOf backIndex hnswM param file ∧ file.length < 2 ^ 64)
      (fileStart backIndex param) := by
  apply writes_bind
  refine Writes.mono ⟨wp_foldlM (WrittenUpTo param hnswM backIndex (fileStart backIndex param))
    (fun _ _ _ _ hstep => (writes_record h hparam hstep).spec) _
    ⟨[], [], rfl, .nil, (append_nil _).symm, hstart⟩⟩ ?_
  rintro ⟨offset, offsets⟩ written ⟨done, neighbors, hall, hlaid, rfl, hsize⟩
  rw [append_nil] at hall
  rw [length_append] at hsize
  exact writes_offsets h hparam (by omega) (hall ▸ hlaid)

/-- The serializer writes a file of the edges, unless the stream is full. -/
theorem serialize_writes :
    Writes (serializeGraphLinks edges param hnswM backIndex)
      (fun _ file => FileOf backIndex hnswM param file ∧ file.length < 2 ^ 64) [] := by
  have hpoints := h.points
  have hcounts := pointCountByLevel_eq h.levels backIndex.length_le_levelsCount
  have hlayouts : checkLayouts param = .ok ⟨⟩ := by
    cases param with
    | plain | compressed => rfl
    | compressedWithVectors vectors =>
      have hvectors : vectors.Provides edges := hparam
      simp [checkLayouts, hvectors.baseMultiple, hvectors.linkMultiple]
  unfold serializeGraphLinks
  rw [if_neg (by omega)]
  apply writes_bind
  apply writes_ofExcept hlayouts
  apply writes_bind
  apply writes_ofExcept hcounts
  apply writes_bind
  apply writes_writeAll
  intro _
  apply writes_bind
  apply writes_writeAll
  intro _
  apply writes_bind
  apply writes_writeAll
  intro hindex
  rw [levelOffsets_eq backIndex.length_le_levelsCount, nil_append, append_assoc, ← indexSections] at hindex ⊢
  cases param with
  | plain | compressed => exact writes_links h hparam hindex
  | compressedWithVectors vectors =>
    apply writes_bind
    apply writes_bind
    apply writes_get
    apply writes_writeAll
    intro hlt
    have hpos : (zeros 80 ++ indexSections backIndex).length =
        80 + (8 * backIndex.levelsCount + 4 * edges.length) := by
      rw [length_append, length_zeros, length_indexSections]
    have hstart : fileStart backIndex (.compressedWithVectors vectors) = zeros 80 ++ indexSections backIndex ++
        zeros (padding (zeros 80 ++ indexSections backIndex).length
          (max vectors.vectorsLayout.base.align vectors.vectorsLayout.link.align)) := by
      rw [hpos, append_assoc]
      rfl
    exact hstart ▸ writes_links h hparam (hstart ▸ hlt)

end

end

end Qdrant.GraphLinks
