-- SUMMARY: A plain segment: its points, their versions, and the operations on points and field indexes.
import Mathlib.Data.String.Basic
import Qdrant.Base.HashMap
import Qdrant.Common.Types
import Qdrant.Segment.Json

/-!
# Segments

A segment stores points: their vectors and payloads, and for every point the version
of the last operation that changed it (`lib/segment/src/segment/entry.rs`,
`segment_ops.rs`). Operations carry the number of the update operation they belong
to. An operation on a point that is newer than the operation is skipped; so is an
operation on the segment as a whole if the segment is newer.

Internal ids are handed out in ascending order and never used again, so the data of a
point is kept under its external id, with the internal id beside it. Failures of the disk
are not modelled. A vector storage still rejects what it cannot keep, and then the
vectors that were written before stay written.
-/

namespace Qdrant

/-! ## Named vectors

A point has one vector for some of the vector names of its collection. Before
vectors are stored they are checked against the segment configuration
(`lib/segment/src/common/mod.rs`) and preprocessed (`NamedVectors::preprocess`):
dense vectors by the distance function of their name, sparse ones by sorting.

`E` is the type of vector elements. The arithmetic of the distance functions is not
modelled: a configuration comes with the function that preprocesses one dense vector.
-/

abbrev VectorName := String

/-! ## Errors -/

inductive OperationError where
  | wrongVectorDimension (expectedDim receivedDim : Nat)
  | vectorNameNotExists (receivedName : VectorName)
  | pointIdError (missedPointId : PointId)
  | typeInferenceError (fieldName : JsonPath)
  | serviceError (description : String)
  | cancelled (description : String)
  | validationError (description : String)
  | wrongSparse
  | wrongMulti
deriving DecidableEq

/-- The text of an error. -/
def OperationError.message : OperationError → String
  | .wrongVectorDimension expectedDim receivedDim =>
    s!"Vector dimension error: expected dim: {expectedDim}, got {receivedDim}"
  | .vectorNameNotExists receivedName => s!"Not existing vector name error: {receivedName}"
  | .pointIdError missedPointId => s!"No point with id {missedPointId}"
  | .typeInferenceError fieldName =>
    s!"Unable to infer type for the field '{fieldName.text}'. Please specify `field_type`"
  | .serviceError description => s!"Service runtime error: {description}"
  | .cancelled description => s!"Operation cancelled: {description}"
  | .validationError description => s!"Validation failed: {description}"
  | .wrongSparse => "Wrong usage of sparse vectors"
  | .wrongMulti => "Wrong usage of multi vectors"

/-- `get_service_error`: the errors that stop a segment until it is recovered. -/
def OperationError.isServiceError : OperationError → Bool
  | .serviceError _ => true
  | _ => false

/-! ## Vectors -/

inductive VectorInternal (E : Type) where
  | dense (vector : List E)
  | sparse (elements : List (Nat × E))
  | multiDense (vectors : List (List E))
deriving DecidableEq

abbrev NamedVectors (E : Type) := HashMap VectorName (VectorInternal E)

/-- How several vectors of a point are kept under one name: the bytes of an element, and the
bytes that a chunk of the storage has for all of them. -/
structure MultiVectorStorage where
  elementSize : Nat
  maxVectorSizeBytes : Nat

/-- The configuration of a dense vector name. `preprocess` stands for the distance function
and the data type, and keeps the dimension. -/
structure VectorDataConfig (E : Type) where
  size : Nat
  /-- Set if points have several vectors of this name. -/
  multivector : Option MultiVectorStorage
  preprocess : List E → List E
  length_preprocess : ∀ v, (preprocess v).length = v.length

structure SegmentConfig (E : Type) where
  vectorData : HashMap VectorName (VectorDataConfig E)
  sparseVectorData : Finset VectorName

variable {E : Type}

namespace SegmentConfig

/-- The names a segment stores vectors for. -/
def hasVectorName (config : SegmentConfig E) (name : VectorName) : Bool :=
  (config.vectorData.get? name).isSome || decide (name ∈ config.sparseVectorData)

def checkVectorName (config : SegmentConfig E) (name : VectorName) : Except OperationError Unit :=
  if config.hasVectorName name then .ok () else .error (.vectorNameNotExists name)

/-- Check that all dense vectors of a list have the dimension. -/
def checkDimensions (dim : Nat) : List (List E) → Except OperationError Unit
  | [] => .ok ()
  | v :: vs =>
    if v.length = dim then checkDimensions dim vs
    else .error (.wrongVectorDimension dim v.length)

def checkVectorAgainstConfig (config : VectorDataConfig E) :
    VectorInternal E → Except OperationError Unit
  | .dense v => checkDimensions config.size [v]
  | .sparse _ => .error .wrongSparse
  | .multiDense vs => checkDimensions config.size vs

def checkSparseVectorAgainstConfig : VectorInternal E → Except OperationError Unit
  | .dense _ => .error .wrongSparse
  | .sparse _ => .ok ()
  | .multiDense _ => .error .wrongMulti

section

variable (config : SegmentConfig E)

def checkVector (name : VectorName) (vector : VectorInternal E) : Except OperationError Unit :=
  match config.vectorData.get? name with
  | some vectorConfig => checkVectorAgainstConfig vectorConfig vector
  | none =>
    if name ∈ config.sparseVectorData then checkSparseVectorAgainstConfig vector
    else .error (.vectorNameNotExists name)

/-- Check all vectors. The order of the names only decides which of several errors is
reported. -/
def checkNamedVectors (vectors : NamedVectors E) : Except OperationError Unit :=
  (IterOrder.ascending.walk vectors.keys).forM fun name =>
    match vectors.get? name with
    | some vector => config.checkVector name vector
    | none => .ok ()

/-- Preprocess the vector of a name: the form in which it is stored. -/
def preprocessVector (name : VectorName) : VectorInternal E → VectorInternal E
  | .dense v =>
    match config.vectorData.get? name with
    | some vectorConfig => .dense (vectorConfig.preprocess v)
    | none => .dense v
  | .sparse elements =>
    if elements.map Prod.fst |>.Pairwise (· < ·) then .sparse elements
    else .sparse (elements.mergeSort fun a b => a.1 ≤ b.1)
  | .multiDense vs =>
    match config.vectorData.get? name with
    | some vectorConfig => .multiDense (vs.map vectorConfig.preprocess)
    | none => .multiDense vs

def preprocess (vectors : NamedVectors E) : NamedVectors E :=
  vectors.mapVal config.preprocessVector

/-- All vectors pass the check. -/
def Accepts (vectors : NamedVectors E) : Prop :=
  ∀ name vector, vectors.get? name = some vector → config.checkVector name vector = .ok ()

end

/-! ### Vector storages -/

/-- `insert_vector` of a storage for several vectors. -/
def insertMultiVector (storage : MultiVectorStorage) (vs : List (List E)) :
    Except OperationError (VectorInternal E) :=
  let size := storage.elementSize * vs.flatten.length
  let maxSize := storage.maxVectorSizeBytes
  if size ≥ maxSize then
    .error (.serviceError (s!"Cannot insert multi vector of size {size} to the mmap vector storage." ++
      s!"It's too large, maximum size is {maxSize}."))
  else .ok (.multiDense vs)

def insertDenseVector (config : VectorDataConfig E) :
    VectorInternal E → Except OperationError (VectorInternal E)
  | .dense v =>
    match config.multivector with
    | none => .ok (.dense v)
    | some storage => insertMultiVector storage [v]
  | .sparse _ => .error .wrongSparse
  | .multiDense vs =>
    match config.multivector with
    | none => .error .wrongMulti
    | some storage => insertMultiVector storage vs

def insertSparseVector : VectorInternal E → Except OperationError (VectorInternal E)
  | .dense _ => .error .wrongSparse
  | .sparse elements => .ok (.sparse elements)
  | .multiDense _ => .error .wrongMulti

section

variable (config : SegmentConfig E)

/-- `insert_vector` of the storage of a name, with what the storage then has. The checks do not
know whether a name has several vectors, so a multi vector for a plain dense name gets here. -/
def insertVector (name : VectorName) (vector : VectorInternal E) :
    Except OperationError (VectorInternal E) :=
  match config.vectorData.get? name with
  | some vectorConfig => insertDenseVector vectorConfig vector
  | none => insertSparseVector vector

/-- Write vectors into the storages of the names, one after the other. Vectors that are not
given are deleted. An error ends the loop. -/
def writeVectors (vectors : NamedVectors E) :
    List VectorName → NamedVectors E → Except OperationError Unit × NamedVectors E
  | [], stored => (.ok (), stored)
  | name :: names, stored =>
    match vectors.get? name with
    | none => writeVectors vectors names (stored.erase name)
    | some vector =>
      match config.insertVector name vector with
      | .ok kept => writeVectors vectors names (stored.insert name kept)
      | .error err => (.error err, stored)

def vectorNames : Finset VectorName :=
  config.vectorData.keys ∪ config.sparseVectorData

/-- The names that are written when all vectors of a point are replaced. Every stored name is one
of the configuration. -/
def replacedNames (order : IterOrder VectorName) (stored : NamedVectors E) : List VectorName :=
  order.walk (config.vectorNames ∪ stored.keys)

/-- The storages take the vectors of a request. -/
def Storable (vectors : NamedVectors E) : Prop :=
  ∀ name vector, vectors.get? name = some vector →
    ∃ kept, config.insertVector name (config.preprocessVector name vector) = .ok kept

/-- The vectors pass the checks and the storages take them. -/
structure Fits (vectors : NamedVectors E) : Prop where
  accepts : config.Accepts vectors
  storable : config.Storable vectors

/-- What the storage of a name has after a vector of a request was written. -/
def storedVector (name : VectorName) (vector : VectorInternal E) : VectorInternal E :=
  match config.insertVector name (config.preprocessVector name vector) with
  | .ok kept => kept
  | .error _ => vector

def storedVectors (vectors : NamedVectors E) : NamedVectors E :=
  vectors.mapVal config.storedVector

end

/-- A loop of checks succeeds if every check does. -/
theorem forM_eq_ok_iff {ε α : Type} {f : α → Except ε Unit} {l : List α} :
    l.forM f = .ok () ↔ ∀ a ∈ l, f a = .ok () := by
  induction l with
  | nil => exact ⟨fun _ => List.forall_mem_nil _, fun _ => rfl⟩
  | cons a l ih =>
    rw [List.forall_mem_cons, ← ih]
    change (f a >>= fun _ => l.forM f) = _ ↔ _
    cases f a <;> simp [bind, Except.bind]

variable {config : SegmentConfig E} {vectors : NamedVectors E}

theorem checkNamedVectors_eq_ok :
    config.checkNamedVectors vectors = .ok () ↔ config.Accepts vectors := by
  rw [checkNamedVectors, forM_eq_ok_iff]
  constructor
  · intro h name vector hget
    have hname := h name ((IterOrder.ascending.mem_walk _ _).mpr
      (HashMap.mem_keys_iff.mpr ⟨vector, hget⟩))
    rwa [hget] at hname
  · intro h name _
    cases hget : vectors.get? name with
    | none => rfl
    | some vector => exact h name vector hget

theorem checkNamedVectors_eq_error
    (h : ¬ config.Accepts vectors) : ∃ err, config.checkNamedVectors vectors = .error err := by
  cases hcheck : config.checkNamedVectors vectors with
  | error err => exact ⟨err, rfl⟩
  | ok _ => exact absurd (checkNamedVectors_eq_ok.mp hcheck) h

@[simp] theorem get?_preprocess (config : SegmentConfig E) (vectors : NamedVectors E)
    (name : VectorName) :
    (config.preprocess vectors).get? name = (vectors.get? name).map (config.preprocessVector name) :=
  HashMap.get?_mapVal _ _ _

@[simp] theorem get?_storedVectors (config : SegmentConfig E) (vectors : NamedVectors E)
    (name : VectorName) :
    (config.storedVectors vectors).get? name = (vectors.get? name).map (config.storedVector name) :=
  HashMap.get?_mapVal _ _ _

theorem checkDimensions_map (dim : Nat) {f : List E → List E} (hf : ∀ v, (f v).length = v.length)
    (vs : List (List E)) : checkDimensions dim (vs.map f) = checkDimensions dim vs := by
  induction vs with
  | nil => rfl
  | cons v vs ih => simp only [List.map_cons, checkDimensions, hf, ih]

theorem checkVector_preprocessVector (name : VectorName) (vector : VectorInternal E) :
    config.checkVector name (config.preprocessVector name vector) = config.checkVector name vector := by
  unfold checkVector
  cases vector with
  | sparse elements =>
    simp only [preprocessVector]
    split_ifs <;> rfl
  | dense v =>
    cases hget : config.vectorData.get? name with
    | none => simp only [preprocessVector, hget]
    | some vectorConfig =>
      simp only [preprocessVector, hget]
      exact checkDimensions_map _ vectorConfig.length_preprocess [v]
  | multiDense vs =>
    cases hget : config.vectorData.get? name with
    | none => simp only [preprocessVector, hget]
    | some vectorConfig =>
      simp only [preprocessVector, hget]
      exact checkDimensions_map _ vectorConfig.length_preprocess vs

/-- Preprocessing keeps dimensions, so the checks may be repeated. -/
theorem Accepts.preprocess (h : config.Accepts vectors) : config.Accepts (config.preprocess vectors) := by
  intro name vector hget
  rw [get?_preprocess, Option.map_eq_some_iff] at hget
  obtain ⟨given, hgiven, rfl⟩ := hget
  rw [checkVector_preprocessVector]
  exact h name given hgiven

theorem Accepts.mem_vectorNames (h : config.Accepts vectors) {name : VectorName}
    (hname : name ∈ vectors.keys) : name ∈ config.vectorNames := by
  obtain ⟨vector, hget⟩ := HashMap.mem_keys_iff.mp hname
  have hcheck := h name vector hget
  unfold checkVector at hcheck
  rw [vectorNames, Finset.mem_union]
  split at hcheck
  · next vectorConfig hconfig => exact .inl (HashMap.mem_keys_iff.mpr ⟨vectorConfig, hconfig⟩)
  · split at hcheck
    · next hsparse => exact .inr hsparse
    · cases hcheck

/-! ### What the storages have -/

variable {names : List VectorName} {stored stored' : NamedVectors E}

/-- The loop fails if one of the storages does. -/
theorem writeVectors_ok (h : config.writeVectors vectors names stored = (.ok (), stored')) :
    ∀ name ∈ names, ∀ vector, vectors.get? name = some vector →
      ∃ kept, config.insertVector name vector = .ok kept := by
  induction names generalizing stored with
  | nil => exact fun _ hmem => absurd hmem List.not_mem_nil
  | cons first names ih =>
    rw [writeVectors] at h
    rw [List.forall_mem_cons]
    cases hget : vectors.get? first with
    | none =>
      rw [hget] at h
      exact ⟨fun vector hvector => (by cases hvector), ih h⟩
    | some vector =>
      simp only [hget] at h
      cases hinsert : config.insertVector first vector with
      | error err =>
        rw [hinsert] at h
        cases h
      | ok kept =>
        rw [hinsert] at h
        refine ⟨fun vector' hvector => ?_, ih h⟩
        cases hvector
        exact ⟨kept, hinsert⟩

/-- A request that the storages take is written completely. -/
theorem writeVectors_of_storable (h : config.Storable vectors) (names : List VectorName)
    (stored : NamedVectors E) :
    ∃ stored', config.writeVectors (config.preprocess vectors) names stored = (.ok (), stored') ∧
      ∀ name, stored'.get? name =
        if name ∈ names then (config.storedVectors vectors).get? name else stored.get? name := by
  induction names generalizing stored with
  | nil => exact ⟨stored, rfl, fun name => rfl⟩
  | cons first names ih =>
    rw [writeVectors]
    cases hget : vectors.get? first with
    | none =>
      obtain ⟨stored', hwrite, hstored⟩ := ih (stored.erase first)
      refine ⟨stored', ?_, fun name => ?_⟩
      · simp only [get?_preprocess, hget, Option.map_none, hwrite]
      · rw [hstored, HashMap.get?_erase]
        by_cases hname : name = first <;> simp [hname, hget]
    | some vector =>
      obtain ⟨kept, hinsert⟩ := h first vector hget
      have hkept : config.storedVector first vector = kept := by rw [storedVector, hinsert]
      obtain ⟨stored', hwrite, hstored⟩ := ih (stored.insert first kept)
      refine ⟨stored', ?_, fun name => ?_⟩
      · simp only [get?_preprocess, hget, Option.map_some, hinsert, hwrite]
      · rw [hstored, HashMap.get?_insert]
        by_cases hname : name = first <;> simp [hname, hget, hkept]

/-- A loop over all names that are given finds the vector that is not taken. -/
theorem writeVectors_of_not_storable (h : ¬ config.Storable vectors)
    (hnames : ∀ name ∈ vectors.keys, name ∈ names) (stored : NamedVectors E) :
    ∃ err written,
      config.writeVectors (config.preprocess vectors) names stored = (.error err, written) := by
  rcases hresult : config.writeVectors (config.preprocess vectors) names stored with
    ⟨err | _, written⟩
  · exact ⟨err, written, rfl⟩
  · refine absurd (fun name vector hget => ?_) h
    have hmem := hnames name (HashMap.mem_keys_iff.mpr ⟨vector, hget⟩)
    exact writeVectors_ok hresult name hmem _ (by rw [get?_preprocess, hget]; rfl)

theorem Accepts.mem_replacedNames (h : config.Accepts vectors) (order : IterOrder VectorName)
    (stored : NamedVectors E) : ∀ name ∈ vectors.keys, name ∈ config.replacedNames order stored :=
  fun _ hname => (order.mem_walk _ _).mpr (Finset.mem_union_left _ (h.mem_vectorNames hname))

/-- Replacing all vectors leaves those of the request. -/
theorem Fits.writeVectors_replaced (h : config.Fits vectors) (order : IterOrder VectorName)
    (stored : NamedVectors E) :
    config.writeVectors (config.preprocess vectors) (config.replacedNames order stored) stored =
      (.ok (), config.storedVectors vectors) := by
  obtain ⟨stored', hwrite, hstored⟩ := writeVectors_of_storable h.storable
    (config.replacedNames order stored) stored
  rw [hwrite]
  refine Prod.ext rfl (HashMap.ext fun name => ?_)
  rw [hstored]
  split
  · rfl
  · next hname =>
    have hgiven : vectors.get? name = none :=
      HashMap.notMem_keys_iff.mp fun hmem => hname (h.accepts.mem_replacedNames order stored name hmem)
    have hkept : stored.get? name = none :=
      HashMap.notMem_keys_iff.mp fun hmem =>
        hname ((order.mem_walk _ _).mpr (Finset.mem_union_right _ hmem))
    rw [hkept, get?_storedVectors, hgiven]
    rfl

theorem mem_walk_preprocess (order : IterOrder VectorName) :
    ∀ name ∈ vectors.keys, name ∈ order.walk (config.preprocess vectors).keys := by
  intro name hname
  obtain ⟨vector, hget⟩ := HashMap.mem_keys_iff.mp hname
  rw [order.mem_walk, HashMap.mem_keys_iff, get?_preprocess, hget]
  exact ⟨_, rfl⟩

/-- Writing only the given vectors keeps the others. -/
theorem Fits.writeVectors_overwritten (h : config.Fits vectors) (order : IterOrder VectorName)
    (stored : NamedVectors E) :
    config.writeVectors (config.preprocess vectors) (order.walk (config.preprocess vectors).keys)
      stored = (.ok (), (config.storedVectors vectors).union stored) := by
  obtain ⟨stored', hwrite, hstored⟩ := writeVectors_of_storable h.storable
    (order.walk (config.preprocess vectors).keys) stored
  rw [hwrite]
  refine Prod.ext rfl (HashMap.ext fun name => ?_)
  have hmem : name ∈ order.walk (config.preprocess vectors).keys ↔ vectors.get? name ≠ none := by
    rw [order.mem_walk, ← not_iff_not, HashMap.notMem_keys_iff, get?_preprocess,
      Option.map_eq_none_iff, not_not]
  rw [hstored, HashMap.get?_union, get?_storedVectors]
  cases hget : vectors.get? name with
  | none => exact if_neg fun h => hmem.mp h hget
  | some vector => exact if_pos (hmem.mpr (hget.trans_ne (Option.some_ne_none _)))

end SegmentConfig

/-! ## Points -/

/-- The schema of a field index. Schemas are only compared. -/
abbrev PayloadFieldSchema := String

/-- A point as it is stored. A point without stored payload reads as one with an empty payload. -/
structure StoredPoint (E : Type) where
  internalId : Nat
  version : SeqNumber
  vectors : NamedVectors E
  payload : Option Payload

structure SegmentFailedState where
  version : SeqNumber
  pointId : Option PointId
  error : OperationError

structure Segment (E : Type) where
  config : SegmentConfig E
  /-- The order of the vector names in the hash map of vector storages. -/
  storageOrder : IterOrder VectorName
  appendable : Bool
  version : Option SeqNumber
  points : HashMap PointId (StoredPoint E)
  totalPointCount : Nat
  /-- Points from this internal id on are deferred: not searched before they are optimized. -/
  deferredInternalId : Option Nat
  /-- How many deferred points were deleted. -/
  deferredDeletedCount : Nat
  indexedFields : HashMap JsonPath PayloadFieldSchema
  errorStatus : Option SegmentFailedState

/-- What users see of a point. -/
@[ext] structure Record (E : Type) where
  vectors : NamedVectors E
  payload : Payload

/-- What a segment shows of a point. -/
structure Copy (E : Type) where
  version : SeqNumber
  record : Record E
  deferred : Bool

def StoredPoint.record (p : StoredPoint E) : Record E :=
  { vectors := p.vectors, payload := p.payload.getD .empty }

/-- The result of an operation that reports whether it changed something, with the state it
leaves behind, also when it fails. -/
abbrev OpResult (σ : Type) := Except OperationError Bool × σ

namespace Segment

/-- A new segment without points. -/
def empty (config : SegmentConfig E) (appendable : Bool) : Segment E where
  config := config
  storageOrder := .ascending
  appendable := appendable
  version := none
  points := ∅
  totalPointCount := 0
  deferredInternalId := none
  deferredDeletedCount := 0
  indexedFields := ∅
  errorStatus := none

/-! ## Reading -/

section

variable (s : Segment E)

def currentVersion : SeqNumber :=
  s.version.getD 0

def hasPoint (id : PointId) : Bool :=
  (s.points.get? id).isSome

def pointVersion (id : PointId) : Option SeqNumber :=
  (s.points.get? id).map StoredPoint.version

def isDeferred (internalId : Nat) : Bool :=
  match s.deferredInternalId with
  | some deferredFrom => s.appendable && decide (deferredFrom ≤ internalId)
  | none => false

def pointIsDeferred (id : PointId) : Bool :=
  match s.points.get? id with
  | some p => s.isDeferred p.internalId
  | none => false

/-- There were more points than are not deferred. -/
def hasDeferredPoints : Bool :=
  match s.deferredInternalId with
  | some deferredFrom => decide (deferredFrom < s.totalPointCount)
  | none => false

/-- `all_vectors` and `payload` of a point. -/
def retrieve (id : PointId) : Except OperationError (Record E) :=
  match s.points.get? id with
  | some p => .ok p.record
  | none => .error (.pointIdError id)

/-- All a segment shows of a point. -/
def copy (id : PointId) : Option (Copy E) :=
  (s.points.get? id).map fun p =>
    { version := p.version, record := p.record, deferred := s.isDeferred p.internalId }

end

/-! ## Versions and failures -/

def bumpSegmentVersion (s : Segment E) (opNum : SeqNumber) : Segment E :=
  { s with version := some (max opNum (s.version.getD 0)) }

/-- Set the version of a point, if it is still there. -/
def setInternalVersion (s : Segment E) (id : PointId) (version : SeqNumber) : Segment E :=
  match s.points.get? id with
  | some p => { s with points := s.points.insert id { p with version } }
  | none => s

/-- An operation on points: whether it changed something, and the point whose version it sets.
What it did before an error stays. -/
abbrev PointClosure (E : Type) := Segment E → Except OperationError (Bool × Option PointId) × Segment E

/-- Skip the operation if the point is newer, else run it and update the versions of the
segment and of the point it changed. -/
def handlePointVersion (opNum : SeqNumber) (opPoint : Option PointId)
    (operation : PointClosure E) (s : Segment E) : OpResult (Segment E) :=
  if (opPoint.bind s.pointVersion).any (· > opNum) then (.ok false, s)
  else
    match operation s with
    | (.error err, s') => (.error err, s')
    | (.ok (applied, changed), s') =>
      let s' := s'.bumpSegmentVersion opNum
      (.ok applied, match changed with
        | some id => s'.setInternalVersion id opNum
        | none => s')

/-- Skip the operation if the segment is newer, else run it and update its version. -/
def handleSegmentVersion (opNum : SeqNumber)
    (operation : Segment E → Except OperationError (Bool × Segment E))
    (s : Segment E) : Except OperationError (Bool × Segment E) :=
  if s.currentVersion > opNum then .ok (false, s)
  else
    match operation s with
    | .error err => .error err
    | .ok (applied, s') => .ok (applied, s'.bumpSegmentVersion opNum)

/-- The error of a newer operation on a segment that has not recovered from a failure. -/
def notRecovered (s : Segment E) (opNum : SeqNumber) : Option OperationError :=
  match s.errorStatus with
  | some failed =>
    if failed.version < opNum then
      some (.serviceError s!"Not recovered from previous error: {failed.error.message}")
    else none
  | none => none

/-- The failure is recovered when an operation on the point that failed succeeds. -/
def recover (s : Segment E) (opPoint : Option PointId) : Segment E :=
  match s.errorStatus with
  | some failed =>
    if failed.pointId = opPoint.filter s.hasPoint then { s with errorStatus := none } else s
  | none => s

def handlePointVersionAndFailure (opNum : SeqNumber) (opPoint : Option PointId)
    (operation : PointClosure E) (s : Segment E) : OpResult (Segment E) :=
  match s.notRecovered opNum with
  | some err => (.error err, s)
  | none =>
    match handlePointVersion opNum opPoint operation s with
    | (.ok applied, s') => (.ok applied, s'.recover opPoint)
    | (.error err, s') =>
      if err.isServiceError then
        (.error err, { s' with
          errorStatus := some
            { version := opNum, pointId := opPoint.filter s'.hasPoint, error := err } })
      else (.error err, s'.recover opPoint)

def handleSegmentVersionAndFailure (opNum : SeqNumber)
    (operation : Segment E → Except OperationError (Bool × Segment E))
    (s : Segment E) : OpResult (Segment E) :=
  match s.notRecovered opNum with
  | some err => (.error err, s)
  | none =>
    match handleSegmentVersion opNum operation s with
    | .ok (applied, s') => (.ok applied, s')
    | .error err =>
      if err.isServiceError then
        (.error err, { s with
          errorStatus := some { version := opNum, pointId := none, error := err } })
      else (.error err, s)

/-! ## Operations on points -/

/-- The point of an operation, if the segment has it. -/
def stored (s : Segment E) (id : PointId) : Option PointId :=
  if s.hasPoint id then some id else none

/-- `delete_point_internal`: remove the point and count it if it was deferred. -/
def deletePointInternal (id : PointId) (s : Segment E) : Segment E :=
  { s with
    points := s.points.erase id
    deferredDeletedCount :=
      if s.deferredInternalId.any (fun deferredFrom =>
          (s.points.get? id).any fun p => decide (deferredFrom ≤ p.internalId)) then
        s.deferredDeletedCount + 1
      else s.deferredDeletedCount }

def deletePoint (opNum : SeqNumber) (id : PointId) (s : Segment E) : OpResult (Segment E) :=
  if s.hasPoint id then
    handlePointVersionAndFailure opNum (some id)
      (fun s => (.ok (true, some id), s.deletePointInternal id)) s
  else (.ok false, s)

section

variable (opNum : SeqNumber) (id : PointId) (vectors : NamedVectors E) (s : Segment E)

/-- `replace_all_vectors` of a stored point, or `insert_new_vectors`. The storages are written in
the order of their hash map. A new point is linked at the end: what an error leaves of it in the
storages is never read. -/
def replaceOrInsert : Except OperationError (Bool × Option PointId) × Segment E :=
  match s.config.checkNamedVectors vectors, s.points.get? id with
  | .error err, _ => (.error err, s)
  | .ok (), some p =>
    let (result, vectors) := s.config.writeVectors vectors
      (s.config.replacedNames s.storageOrder p.vectors) p.vectors
    (result.map fun _ => (true, some id),
      { s with points := s.points.insert id { p with vectors } })
  | .ok (), none =>
    match s.config.writeVectors vectors (s.storageOrder.walk s.config.vectorNames) ∅ with
    | (.error err, _) => (.error err, s)
    | (.ok (), vectors) =>
      (.ok (false, some id), { s with
        points := s.points.insert id
          { internalId := s.totalPointCount, version := opNum, vectors, payload := none }
        totalPointCount := s.totalPointCount + 1 })

/-- Replace all vectors of a point, or insert a new point. Vectors that are not given are
deleted. -/
def upsertPoint : OpResult (Segment E) :=
  match s.config.checkNamedVectors vectors with
  | .error err => (.error err, s)
  | .ok () =>
    handlePointVersionAndFailure opNum (s.stored id)
      (replaceOrInsert opNum id (s.config.preprocess vectors)) s

end

/-- Change the data of a point that must be there. -/
def modifyStored (id : PointId) (f : StoredPoint E → Bool × StoredPoint E) : PointClosure E :=
  fun s =>
    match s.points.get? id with
    | some p => (.ok ((f p).1, some id), { s with points := s.points.insert id (f p).2 })
    | none => (.error (.pointIdError id), s)

/-- Replace the given vectors of a point, in the order of the request. -/
def overwriteVectors (id : PointId) (order : IterOrder VectorName) (vectors : NamedVectors E) :
    PointClosure E := fun s =>
  match s.config.checkNamedVectors vectors, s.points.get? id with
  | .error err, _ => (.error err, s)
  | .ok (), some p =>
    let (result, vectors) := s.config.writeVectors vectors (order.walk vectors.keys) p.vectors
    (result.map fun _ => (true, some id),
      { s with points := s.points.insert id { p with vectors } })
  | .ok (), none => (.error (.pointIdError id), s)

section

variable (opNum : SeqNumber) (id : PointId)

def modifyPoint (f : StoredPoint E → Bool × StoredPoint E) (s : Segment E) : OpResult (Segment E) :=
  handlePointVersionAndFailure opNum (s.stored id) (modifyStored id f) s

/-- Replace the given vectors of a point and keep the others. -/
def updateVectors (order : IterOrder VectorName) (vectors : NamedVectors E) (s : Segment E) :
    OpResult (Segment E) :=
  match s.config.checkNamedVectors vectors with
  | .error err => (.error err, s)
  | .ok () =>
    if s.hasPoint id then
      handlePointVersionAndFailure opNum (s.stored id)
        (overwriteVectors id order (s.config.preprocess vectors)) s
    else (.error (.pointIdError id), s)

def deleteVector (name : VectorName) (s : Segment E) : OpResult (Segment E) :=
  match s.config.checkVectorName name with
  | .error err => (.error err, s)
  | .ok () =>
    if s.hasPoint id then
      modifyPoint opNum id (fun p =>
        ((p.vectors.get? name).isSome, { p with vectors := p.vectors.erase name })) s
    else (.error (.pointIdError id), s)

/-- Change the stored payload of a point. -/
def modifyPayload (f : Option Payload → Option Payload) (s : Segment E) : OpResult (Segment E) :=
  modifyPoint opNum id (fun p => (true, { p with payload := f p.payload })) s

def setFullPayload (payload : Payload) : Segment E → OpResult (Segment E) :=
  modifyPayload opNum id fun _ => some payload

/-- Merge a payload into the stored one. Without a stored payload it is stored as it is, or,
with a key, merged into an empty one. -/
def setPayload (payload : Payload) (key : Option JsonPath) : Segment E → OpResult (Segment E) :=
  modifyPayload opNum id fun stored =>
    match key, stored with
    | some key, some old => some (old.mergeByKey payload key)
    | some key, none => some (Payload.empty.mergeByKey payload key)
    | none, some old => some (old.merge payload)
    | none, none => some payload

def deletePayload (key : JsonPath) : Segment E → OpResult (Segment E) :=
  modifyPayload opNum id fun stored => stored.map fun old => old.remove key

def clearPayload : Segment E → OpResult (Segment E) :=
  modifyPayload opNum id fun _ => none

end

/-! ## Operations on field indexes -/

section

variable (opNum : SeqNumber) (key : JsonPath)

def deleteFieldIndex : Segment E → OpResult (Segment E) :=
  handleSegmentVersionAndFailure opNum fun s =>
    .ok (true, { s with indexedFields := s.indexedFields.erase key })

def deleteFieldIndexIfIncompatible
    (schema : PayloadFieldSchema) : Segment E → OpResult (Segment E) :=
  handleSegmentVersionAndFailure opNum fun s =>
    .ok (true,
      match s.indexedFields.get? key with
      | some current =>
        if current = schema then s else { s with indexedFields := s.indexedFields.erase key }
      | none => s)

def applyFieldIndex (schema : PayloadFieldSchema) : Segment E → OpResult (Segment E) :=
  handleSegmentVersionAndFailure opNum fun s =>
    .ok (true, { s with indexedFields := s.indexedFields.insert key schema })

end

end Segment

/-- What building a field index can find. -/
inductive BuildFieldIndexResult where
  | skippedByVersion
  | alreadyExists
  | incompatibleSchema
  | built (schema : PayloadFieldSchema)

def Segment.buildFieldIndex (opNum : SeqNumber) (key : JsonPath) (schema : PayloadFieldSchema)
    (s : Segment E) : BuildFieldIndexResult :=
  if s.currentVersion > opNum then .skippedByVersion
  else
    match s.indexedFields.get? key with
    | some current => if current = schema then .alreadyExists else .incompatibleSchema
    | none => .built schema

end Qdrant
