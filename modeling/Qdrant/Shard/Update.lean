-- SUMMARY: The update operations of a shard, as programs over its segment holder.
import Qdrant.Base.Chunks
import Qdrant.Shard.PointOperation

/-!
# Update operations

An update names its points by id or by filter and changes them in batches
(`lib/shard/src/update.rs`). An error stops the operation, and what was changed before
stays changed.

A filter is modelled by what it selects in a segment, which may depend on all of the
segment: its field indexes decide how conditions are evaluated, and the number of points
that are expected to match decides between index and scan. How floats and JSON documents
are compared is not modelled either: `RecordEquality` says which vectors and payloads
count as equal.
-/

namespace Qdrant

variable {E : Type}

/-- A point as it is given in a request. -/
structure PointStruct (E : Type) where
  id : PointId
  vectors : NamedVectors E
  payload : Option Payload

/-- The points that a filter selects in a segment. -/
abbrev Filter (E : Type) := LockedSegment E → PointId → Bool

inductive UpdateMode where
  | upsert
  | insertOnly
  | updateOnly

/-- What hash orders and locks decide while an operation is processed. -/
structure Schedule where
  /-- The order of points in hash maps and sets of points. -/
  points : IterOrder PointId
  /-- The order of segments in hash maps of segments. -/
  segments : IterOrder SegmentId
  /-- The order of vector names in the vectors of a request. -/
  names : IterOrder VectorName
  /-- What is chosen in each of the batches. -/
  batch : Nat → Choices

structure RecordEquality (E : Type) where
  vector : VectorInternal E → VectorInternal E → Bool
  payload : Payload → Payload → Bool

/-- The request asks for what is stored. Missing and empty payloads are the same. -/
def PointStruct.isEqualTo (equal : RecordEquality E) (point : PointStruct E) (record : Record E) :
    Bool :=
  decide (point.vectors.keys.card = record.vectors.keys.card) &&
    !(record.vectors.any fun name vector =>
      !(point.vectors.get? name).any fun given => equal.vector given vector) &&
    match point.payload.filter (fun payload => !payload.fields.isEmpty),
      (some record.payload).filter (fun payload => !payload.fields.isEmpty) with
    | some given, some stored => equal.payload given stored
    | none, none => true
    | _, _ => false

namespace SegmentHolder

/-! ## Upserts -/

def updateOpChunkSize : Nat := 32

/-- The points of a request by id. The last of several points with the same id counts. -/
def pointsMap (points : List (PointStruct E)) : HashMap PointId (PointStruct E) :=
  points.foldl (fun map point => map.insert point.id point) ∅

/-- The upsert of a point of the request. -/
def pointUpsert (points : HashMap PointId (PointStruct E)) (id : PointId) : PointOperation E :=
  match points.get? id with
  | some point => .upsert point.vectors point.payload
  | none => .upsert ∅ none

section

variable (c : Choices) (opNum : SeqNumber) (points : HashMap PointId (PointStruct E))
  (ids : List PointId)

/-- Insert points that no segment has. -/
def insertPoints : HolderM E Nat := do
  let h ← get
  if h.appendableSegmentsIds = [] then
    throw (.serviceError "No appendable segments exist, expected at least one")
  else
    let target := c.smallest h.appendableSegmentsIds
    ids.foldlM (fun count id => do
      let isReplaced ← writeSegment target ((pointUpsert points id).inPlace opNum id)
      pure (count + isReplaced.toNat)) 0

def upsertChunk : HolderM E Nat := do
  let updatedPoints ← applyPointsWithConditionalMove c opNum ids
    (PointOperation.update opNum (pointUpsert points))
  let inserted ← insertPoints c opNum points (ids.filter (· ∉ updatedPoints))
  pure (updatedPoints.card + inserted)

end

def upsertPoints (sched : Schedule) (opNum : SeqNumber) (points : List (PointStruct E)) :
    HolderM E Nat :=
  let map := pointsMap points
  let ids := sched.points.walk map.keys
  (ids.chunks updateOpChunkSize).zipIdx.foldlM (fun res (ids, i) => do
    let count ← upsertChunk (sched.batch i) opNum map ids
    pure (res + count)) 0

/-! ## Filters -/

/-- `read_filtered`, with deferred points. -/
def readFiltered (order : IterOrder PointId) (filter : Filter E) (segment : LockedSegment E) :
    List PointId :=
  (order.walk segment.pointIds).filter (filter segment)

/-- The points of a segment that match. -/
def matchedIn (sched : Schedule) (filter : Filter E) (h : SegmentHolder E) (segmentId : SegmentId) :
    List PointId :=
  match h.segments.get? segmentId with
  | some segment => readFiltered sched.points filter segment
  | none => []

def hasDeferred (h : SegmentHolder E) : Bool :=
  h.iter.any fun (_, segment) => segment.hasDeferredPoints

/-- A point is excluded from a filtered operation if it has a deferred copy that is newer than all
copies that match. -/
def deferredPointsToExcludeByFilter (h : SegmentHolder E) (matchedIn : SegmentId → List PointId)
    (id : PointId) : Bool :=
  let matching := h.segmentIds.filter fun s => id ∈ matchedIn s
  let maxVersion := (matching.filterMap fun s =>
    (h.segments.get? s).bind fun segment => segment.pointVersion id).max?
  !matching.isEmpty && h.iter.any fun (_, segment) =>
    segment.hasDeferredPoints && (segment.hasPoint id &&
      ((segment.pointVersion id).any (fun version => maxVersion.all (· < version)) &&
        segment.pointIsDeferred id))

def pointsByFilter (sched : Schedule) (filter : Filter E) (h : SegmentHolder E) : List PointId :=
  let affected := (sched.segments.walk h.segments.keys).flatMap (h.matchedIn sched filter)
  if h.hasDeferred then
    affected.filter fun id => !h.deferredPointsToExcludeByFilter (h.matchedIn sched filter) id
  else affected

/-- The points that exist and do not match. -/
def selectExcludedByFilterIds (sched : Schedule) (ids : List PointId) (filter : Filter E)
    (h : SegmentHolder E) : Finset PointId :=
  (h.pointsByFilter sched fun segment id => decide (id ∈ ids) && !filter segment id).toFinset

/-- An operation that touches no point still has to be acknowledged. -/
def bumpIfUntouched (opNum : SeqNumber) (count : Nat) : HolderM E Nat := do
  if count = 0 then bumpMaxSegmentVersionOverwrite opNum
  pure count

/-- The points of a conditional upsert that are upserted. -/
def selectConditional (sched : Schedule) (points : List (PointStruct E)) (condition : Filter E)
    (mode : UpdateMode) (h : SegmentHolder E) : List (PointStruct E) :=
  let ids := points.map PointStruct.id
  let excluded := h.selectExcludedByFilterIds sched ids condition
  let existing := h.selectExistingPoints ids
  match mode with
  | .upsert => points.filter fun point => point.id ∉ excluded
  | .insertOnly => points.filter fun point => point.id ∉ existing
  | .updateOnly => points.filter fun point => point.id ∈ existing ∧ point.id ∉ excluded

def conditionalUpsert (sched : Schedule) (opNum : SeqNumber) (points : List (PointStruct E))
    (condition : Filter E) (mode : UpdateMode) : HolderM E Nat := do
  let h ← get
  let upserted ← upsertPoints sched opNum (h.selectConditional sched points condition mode)
  bumpIfUntouched opNum upserted

/-! ## Deletes -/

def deletionBatchSize : Nat := 512

/-- Delete all copies of points. -/
def deletePoints (opNum : SeqNumber) (ids : List PointId) : HolderM E Nat :=
  (ids.chunks deletionBatchSize).foldlM (fun total batch => do
    let h ← get
    h.segmentIds.foldlM (fun total segmentId =>
      batch.foldlM (fun total id => do
        let isDeleted ← writeSegment segmentId (LockedSegment.deletePoint opNum id)
        pure (total + isDeleted.toNat)) total) total) 0

/-- Delete points of one segment until a batch is full. What is left comes back. -/
def deleteBatch (opNum : SeqNumber) (segmentId : SegmentId) :
    List PointId → Nat → HolderM E (List PointId × Nat)
  | [], deleted => pure ([], deleted)
  | id :: rest, deleted => do
    let isDeleted ← writeSegment segmentId (LockedSegment.deletePoint opNum id)
    let deleted := deleted + isDeleted.toNat
    if deleted ≥ deletionBatchSize then pure (rest, deleted)
    else deleteBatch opNum segmentId rest deleted

/-- One batch in every segment. -/
def deleteRound (opNum : SeqNumber) (points : HashMap SegmentId (List PointId)) :
    HolderM E (HashMap SegmentId (List PointId) × Nat × Bool) := do
  let h ← get
  h.segmentIds.foldlM (fun (points, total, didApply) segmentId =>
    match (points.get? segmentId).getD [] with
    | [] => pure (points, total, didApply)
    | id :: rest => do
      let (left, deleted) ← deleteBatch opNum segmentId (id :: rest) 0
      pure (points.insert segmentId left, total + deleted, true)) (points, 0, false)

/-- `apply_segments_batched`: rounds until nothing is left to do. -/
def deleteRounds (opNum : SeqNumber) :
    Nat → HashMap SegmentId (List PointId) → Nat → HolderM E Nat
  | 0, _, total => pure total
  | fuel + 1, points, total => do
    let (points, deleted, didApply) ← deleteRound opNum points
    if didApply then deleteRounds opNum fuel points (total + deleted)
    else pure (total + deleted)

/-- The points to delete in every segment, the next one first. If there are deferred points, all
copies of the points that match are deleted. -/
def pointsToDeleteByFilter (sched : Schedule) (filter : Filter E) (h : SegmentHolder E) :
    HashMap SegmentId (List PointId) :=
  let matched := h.matchedIn sched filter
  h.segments.mapVal fun segmentId segment =>
    if h.hasDeferred then
      ((sched.points.walk (h.segmentIds.flatMap matched).toFinset).filter fun id =>
        segment.hasPoint id && !h.deferredPointsToExcludeByFilter matched id).reverse
    else (matched segmentId).reverse

def deletePointsByFilter (sched : Schedule) (opNum : SeqNumber) (filter : Filter E) :
    HolderM E Nat := do
  let h ← get
  let points := h.pointsToDeleteByFilter sched filter
  -- every round deletes at least one point, and the last one finds none
  let rounds := (h.segmentIds.flatMap fun s => (points.get? s).getD []).length + 1
  let deleted ← deleteRounds opNum rounds points 0
  bumpIfUntouched opNum deleted

/-! ## Synchronizing a range -/

/-- `read_range`: the points from an id up to but not including another. -/
def readRange (fromId toId : Option PointId) (segment : LockedSegment E) : Finset PointId :=
  segment.pointIds.filter fun id => fromId.all (· ≤ id) = true ∧ toId.all (id < ·) = true

def storedInRange (fromId toId : Option PointId) (h : SegmentHolder E) : Finset PointId :=
  (h.iter.flatMap fun (_, segment) =>
    IterOrder.ascending.walk (readRange fromId toId segment)).toFinset

/-- The given points that some copy differs from, in the order in which segments are read. -/
def changedPoints (equal : RecordEquality E) (points : HashMap PointId (PointStruct E))
    (ids : List PointId) (h : SegmentHolder E) : List (PointStruct E) :=
  (h.nonAppendableSegmentsIds ++ h.appendableSegmentsIds).flatMap fun segmentId =>
    ids.filterMap fun id =>
      match h.segments.get? segmentId, points.get? id with
      | some segment, some point =>
        if segment.hasPoint id then
          match segment.retrieve id with
          | .ok record => if point.isEqualTo equal record then none else some point
          | .error _ => none
        else none
      | _, _ => none

def syncPoints (equal : RecordEquality E) (sched : Schedule) (opNum : SeqNumber)
    (fromId toId : Option PointId) (points : List (PointStruct E)) : HolderM E (Nat × Nat × Nat) := do
  let idToPoint := pointsMap points
  let h ← get
  let stored := h.storedInRange fromId toId
  let deleted ← deletePoints opNum (sched.points.walk (stored \ idToPoint.keys))
  let h ← get
  let changed := h.changedPoints equal idToPoint (sched.points.walk (stored ∩ idToPoint.keys))
  let new := (sched.points.walk (idToPoint.keys \ stored)).filterMap idToPoint.get?
  let _ ← upsertPoints sched opNum (changed ++ new)
  pure (deleted, new.length, changed.length)

/-! ## Vectors and payloads -/

def vectorOpBatchSize : Nat := 32

def payloadOpBatchSize : Nat := 32

def checkUnprocessedPoints (points : List PointId) (processed : Finset PointId) : HolderM E Unit :=
  match points.find? (· ∉ processed) with
  | none => pure ()
  | some missedPointId => throw (.pointIdError missedPointId)

/-- Change points that must exist, batch by batch. -/
def applyBatched (size : Nat) (sched : Schedule) (opNum : SeqNumber) (ids : List PointId)
    (operation : PointId → PointOperation E) : HolderM E Nat :=
  (ids.chunks size).zipIdx.foldlM (fun total (batch, i) => do
    let updatedPoints ← applyPointsWithConditionalMove (sched.batch i) opNum batch
      (PointOperation.update opNum operation)
    checkUnprocessedPoints batch updatedPoints
    pure (total + updatedPoints.card)) 0

/-- The vectors to update by id. Several updates of a point are merged. -/
def vectorsMap (points : List (PointId × NamedVectors E)) : HashMap PointId (NamedVectors E) :=
  points.foldl (fun map (id, vectors) => map.insert id (vectors.union ((map.get? id).getD ∅))) ∅

section

variable (sched : Schedule) (opNum : SeqNumber)

def updateVectors (points : List (PointId × NamedVectors E)) : HolderM E Nat :=
  let map := vectorsMap points
  applyBatched vectorOpBatchSize sched opNum (sched.points.walk map.keys) fun id =>
    .updateVectors sched.names ((map.get? id).getD ∅)

def updateVectorsConditional
    (points : List (PointId × NamedVectors E)) (filter : Option (Filter E)) : HolderM E Nat := do
  match filter with
  | none => updateVectors sched opNum points
  | some filter =>
    let h ← get
    let excluded := h.selectExcludedByFilterIds sched (points.map Prod.fst) filter
    updateVectors sched opNum (points.filter fun point => point.1 ∉ excluded)

def deleteVectors (ids : List PointId) (names : List VectorName) : HolderM E Nat :=
  applyBatched vectorOpBatchSize sched opNum ids fun _ => .deleteVectors names

def setPayload (payload : Payload) (ids : List PointId) (key : Option JsonPath) : HolderM E Nat :=
  applyBatched payloadOpBatchSize sched opNum ids fun _ => .setPayload payload key

def deletePayload (ids : List PointId) (keys : List JsonPath) : HolderM E Nat :=
  applyBatched payloadOpBatchSize sched opNum ids fun _ => .deletePayload keys

def clearPayload (ids : List PointId) : HolderM E Nat :=
  applyBatched payloadOpBatchSize sched opNum ids fun _ => .clearPayload

def overwritePayload (payload : Payload) (ids : List PointId) : HolderM E Nat :=
  applyBatched payloadOpBatchSize sched opNum ids fun _ => .overwritePayload payload

/-- An operation on the points that match a filter. -/
def byFilter (filter : Filter E) (operation : List PointId → HolderM E Nat) : HolderM E Nat := do
  let h ← get
  let count ← operation (h.pointsByFilter sched filter)
  bumpIfUntouched opNum count

def deleteVectorsByFilter (filter : Filter E) (names : List VectorName) : HolderM E Nat :=
  byFilter sched opNum filter fun ids => deleteVectors sched opNum ids names

def setPayloadByFilter (payload : Payload)
    (filter : Filter E) (key : Option JsonPath) : HolderM E Nat :=
  byFilter sched opNum filter fun ids => setPayload sched opNum payload ids key

def deletePayloadByFilter (filter : Filter E) (keys : List JsonPath) : HolderM E Nat :=
  byFilter sched opNum filter fun ids => deletePayload sched opNum ids keys

def clearPayloadByFilter (filter : Filter E) : HolderM E Nat :=
  byFilter sched opNum filter fun ids => clearPayload sched opNum ids

def overwritePayloadByFilter (payload : Payload) (filter : Filter E) : HolderM E Nat :=
  byFilter sched opNum filter fun ids => overwritePayload sched opNum payload ids

end

/-! ## Field indexes -/

/-- `apply_segments`: an operation on every segment. -/
def applySegments (operation : LockedSegment E → OpResult (LockedSegment E)) : HolderM E Nat := do
  let h ← get
  h.segmentIds.foldlM (fun processed segmentId => do
    let isApplied ← writeSegment segmentId operation
    pure (processed + isApplied.toNat)) 0

def createFieldIndex (opNum : SeqNumber) (fieldName : JsonPath)
    (fieldSchema : Option PayloadFieldSchema) : HolderM E Nat :=
  match fieldSchema with
  | none => throw (.typeInferenceError fieldName)
  | some schema => applySegments (LockedSegment.createFieldIndex opNum fieldName schema)

def deleteFieldIndex (opNum : SeqNumber) (fieldName : JsonPath) : HolderM E Nat :=
  applySegments (LockedSegment.deleteFieldIndex opNum fieldName)

end SegmentHolder

/-! ## Requests -/

inductive PointOperations (E : Type) where
  | upsertPoints (points : List (PointStruct E))
  | upsertPointsConditional (points : List (PointStruct E)) (condition : Filter E)
      (updateMode : UpdateMode)
  | deletePoints (ids : List PointId)
  | deletePointsByFilter (filter : Filter E)
  | syncPoints (fromId toId : Option PointId) (points : List (PointStruct E))

inductive VectorOperations (E : Type) where
  | updateVectors (points : List (PointId × NamedVectors E)) (updateFilter : Option (Filter E))
  | deleteVectors (ids : List PointId) (names : List VectorName)
  | deleteVectorsByFilter (filter : Filter E) (names : List VectorName)

inductive PayloadOps (E : Type) where
  | setPayload (payload : Payload) (points : Option (List PointId)) (filter : Option (Filter E))
      (key : Option JsonPath)
  | deletePayload (keys : List JsonPath) (points : Option (List PointId))
      (filter : Option (Filter E))
  | clearPayload (points : List PointId)
  | clearPayloadByFilter (filter : Filter E)
  | overwritePayload (payload : Payload) (points : Option (List PointId))
      (filter : Option (Filter E))

inductive FieldIndexOperations where
  | createIndex (fieldName : JsonPath) (fieldSchema : Option PayloadFieldSchema)
  | deleteIndex (fieldName : JsonPath)

inductive CollectionUpdateOperations (E : Type) where
  | pointOperation (operation : PointOperations E)
  | vectorOperation (operation : VectorOperations E)
  | payloadOperation (operation : PayloadOps E)
  | fieldIndexOperation (operation : FieldIndexOperations)

namespace SegmentHolder

section Process

variable (equal : RecordEquality E) (sched : Schedule) (opNum : SeqNumber)

def processPointOperation : PointOperations E → HolderM E Nat
  | .upsertPoints points => upsertPoints sched opNum points
  | .upsertPointsConditional points condition mode =>
    conditionalUpsert sched opNum points condition mode
  | .deletePoints ids => deletePoints opNum ids
  | .deletePointsByFilter filter => deletePointsByFilter sched opNum filter
  | .syncPoints fromId toId points => do
    let (deleted, new, updated) ← syncPoints equal sched opNum fromId toId points
    pure (deleted + new + updated)

def processVectorOperation : VectorOperations E → HolderM E Nat
  | .updateVectors points filter => updateVectorsConditional sched opNum points filter
  | .deleteVectors ids names => deleteVectors sched opNum ids names
  | .deleteVectorsByFilter filter names => deleteVectorsByFilter sched opNum filter names

/-- Points come before a filter. -/
def pointsOrFilter (points : Option (List PointId)) (filter : Option (Filter E))
    (byPoints : List PointId → HolderM E Nat) (byFilter : Filter E → HolderM E Nat) :
    HolderM E Nat :=
  match points, filter with
  | some points, _ => byPoints points
  | none, some filter => byFilter filter
  | none, none => throw (.validationError "No points or filter specified")

def processPayloadOperation : PayloadOps E → HolderM E Nat
  | .setPayload payload points filter key =>
    pointsOrFilter points filter (fun ids => setPayload sched opNum payload ids key)
      (fun filter => setPayloadByFilter sched opNum payload filter key)
  | .deletePayload keys points filter =>
    pointsOrFilter points filter (fun ids => deletePayload sched opNum ids keys)
      (fun filter => deletePayloadByFilter sched opNum filter keys)
  | .clearPayload points => clearPayload sched opNum points
  | .clearPayloadByFilter filter => clearPayloadByFilter sched opNum filter
  | .overwritePayload payload points filter =>
    pointsOrFilter points filter (fun ids => overwritePayload sched opNum payload ids)
      (fun filter => overwritePayloadByFilter sched opNum payload filter)

def processFieldIndexOperation : FieldIndexOperations → HolderM E Nat
  | .createIndex fieldName fieldSchema => createFieldIndex opNum fieldName fieldSchema
  | .deleteIndex fieldName => deleteFieldIndex opNum fieldName

/-- `CollectionUpdater::update`. -/
def processOperation : CollectionUpdateOperations E → HolderM E Nat
  | .pointOperation operation => processPointOperation equal sched opNum operation
  | .vectorOperation operation => processVectorOperation sched opNum operation
  | .payloadOperation operation => processPayloadOperation sched opNum operation
  | .fieldIndexOperation operation => processFieldIndexOperation opNum operation

end Process

/-! ## Runs of operations -/

section Run

variable (equal : RecordEquality E) (sched : SeqNumber → Schedule)

/-- Apply an operation with its number. What it did stays, also if it fails. -/
def applyOperation (entry : SeqNumber × CollectionUpdateOperations E) (h : SegmentHolder E) :
    SegmentHolder E :=
  Wp.finalState (processOperation equal (sched entry.1) entry.1 entry.2) h

def applyAll (entries : List (SeqNumber × CollectionUpdateOperations E)) (h : SegmentHolder E) :
    SegmentHolder E :=
  entries.foldl (fun h entry => applyOperation equal sched entry h) h

end Run

end SegmentHolder

end Qdrant
