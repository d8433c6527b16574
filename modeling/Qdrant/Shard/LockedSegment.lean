-- SUMMARY: Segments of a shard: plain ones, and proxies that keep the changes made to a wrapped segment.
import Qdrant.Segment.Effects

/-!
# Proxy segments

While a segment is optimized or snapshotted it cannot be written. It is then wrapped
in a proxy (`lib/shard/src/proxy_segment`) that remembers which points were deleted and
which field indexes were created or deleted meanwhile. Reads see the wrapped segment
through these changes; the wrapped segment itself stays as it is. A wrapped segment
can be a proxy again.

The bit mask of deleted points is not modelled: it only speeds up the lookup of
deleted points.
-/

namespace Qdrant

open Segment

variable {E : Type}

structure ProxyDeletedPoint where
  /-- The version of the delete as the proxy itself compares it. -/
  localVersion : SeqNumber
  /-- The version of the delete when it is propagated. -/
  operationVersion : SeqNumber

inductive ProxyIndexChange where
  | create (schema : PayloadFieldSchema) (version : SeqNumber)
  | delete (version : SeqNumber)
  | deleteIfIncompatible (version : SeqNumber) (schema : PayloadFieldSchema)

namespace ProxyIndexChange

/-- The schema of a field after the change. -/
def apply : ProxyIndexChange → Option PayloadFieldSchema → Option PayloadFieldSchema
  | .create schema _, _ => some schema
  | .delete _, _ => none
  | .deleteIfIncompatible _ schema, current => current.filter fun existing => existing = schema

end ProxyIndexChange

/-- What a proxy keeps beside the wrapped segment. -/
structure ProxyChanges where
  changedIndexes : HashMap JsonPath ProxyIndexChange
  deletedPoints : HashMap PointId ProxyDeletedPoint
  deletedDeferredCount : Nat
  version : SeqNumber

inductive LockedSegment (E : Type) where
  | original (segment : Segment E)
  | proxy (wrapped : LockedSegment E) (changes : ProxyChanges)

/-- The outcome of an operation on a part of the state. -/
def OpResult.map {σ τ : Type} (f : σ → τ) (r : OpResult σ) : OpResult τ :=
  (r.1, f r.2)

/-- Two operations under one lock. The second is not run if the first fails. -/
def OpResult.andThen {σ : Type} (first second : σ → OpResult σ) (s : σ) : OpResult σ :=
  match first s with
  | (.error err, s) => (.error err, s)
  | (.ok applied, s) =>
    match second s with
    | (.error err, s) => (.error err, s)
    | (.ok applied', s) => (.ok (applied && applied'), s)

variable {σ : Type} {first : σ → OpResult σ}
variable {second : σ → OpResult σ}

theorem OpResult.andThen_ok {s s' : σ} {applied : Bool}
    (h : OpResult.andThen first second s = (.ok applied, s')) :
    ∃ b b' t, first s = (.ok b, t) ∧ second t = (.ok b', s') := by
  unfold OpResult.andThen at h
  split at h
  · cases h
  · next b t hfirst =>
    split at h
    · cases h
    · next b' s₂ hsecond =>
      cases h
      exact ⟨b, b', t, hfirst, hsecond⟩

theorem OpResult.andThen_of_ok {s t s' : σ} {b b' : Bool}
    (hfirst : first s = (.ok b, t)) (hsecond : second t = (.ok b', s')) :
    OpResult.andThen first second s = (.ok (b && b'), s') := by
  simp only [OpResult.andThen, hfirst, hsecond]

theorem OpResult.andThen_of_first_ok (second : σ → OpResult σ)
    {s t : σ} {b : Bool} (hfirst : first s = (.ok b, t)) :
    (OpResult.andThen first second s).2 = (second t).2 ∧
      ∀ err, (OpResult.andThen first second s).1 = .error err → (second t).1 = .error err := by
  simp only [OpResult.andThen, hfirst]
  rcases second t with ⟨e | b', s'⟩
  · exact ⟨rfl, fun err herr => herr⟩
  · exact ⟨rfl, fun err herr => by cases herr⟩

namespace LockedSegment

/-! ## Reading -/

def version : LockedSegment E → SeqNumber
  | .original s => s.currentVersion
  | .proxy wrapped changes => max wrapped.version changes.version

/-- `ProxySegment::new`. -/
def newProxy (wrapped : LockedSegment E) : LockedSegment E :=
  .proxy wrapped
    { changedIndexes := ∅, deletedPoints := ∅, deletedDeferredCount := 0,
      version := wrapped.version }

def isOriginal : LockedSegment E → Bool
  | .original _ => true
  | .proxy _ _ => false

def isAppendable : LockedSegment E → Bool
  | .original s => s.appendable
  | .proxy _ _ => false

def config : LockedSegment E → SegmentConfig E
  | .original s => s.config
  | .proxy wrapped _ => wrapped.config

def hasPoint : LockedSegment E → PointId → Bool
  | .original s, id => s.hasPoint id
  | .proxy wrapped changes, id => (changes.deletedPoints.get? id).isNone && wrapped.hasPoint id

def pointVersion : LockedSegment E → PointId → Option SeqNumber
  | .original s, id => s.pointVersion id
  | .proxy wrapped changes, id =>
    (wrapped.pointVersion id).filter fun wrappedVersion =>
      !(changes.deletedPoints.get? id).any fun deleted => wrappedVersion ≤ deleted.localVersion

def pointIsDeferred : LockedSegment E → PointId → Bool
  | .original s, id => s.pointIsDeferred id
  | .proxy wrapped changes, id =>
    (changes.deletedPoints.get? id).isNone && wrapped.pointIsDeferred id

/-- `all_vectors` and `payload` of a point. A proxy shows a deleted point as an empty one. -/
def retrieve : LockedSegment E → PointId → Except OperationError (Record E)
  | .original s, id => s.retrieve id
  | .proxy wrapped changes, id =>
    if (changes.deletedPoints.get? id).isSome then .ok { vectors := ∅, payload := .empty }
    else wrapped.retrieve id

def hasDeferredPoints : LockedSegment E → Bool
  | .original s => s.hasDeferredPoints
  | .proxy wrapped _ => wrapped.hasDeferredPoints

/-- The ids of all points that a segment shows: `read_range` without bounds. -/
def pointIds : LockedSegment E → Finset PointId
  | .original s => s.points.keys
  | .proxy wrapped changes =>
    wrapped.pointIds.filter fun id => (changes.deletedPoints.get? id).isNone

def indexedFields : LockedSegment E → HashMap JsonPath PayloadFieldSchema
  | .original s => s.indexedFields
  | .proxy wrapped changes => wrapped.indexedFields.overlay ProxyIndexChange.apply changes.changedIndexes

/-- All a segment shows of a point. -/
def copy : LockedSegment E → PointId → Option (Copy E)
  | .original s, id => s.copy id
  | .proxy wrapped changes, id =>
    if (changes.deletedPoints.get? id).isSome then none else wrapped.copy id

/-! ## Writing points -/

/-- An operation that proxies reject. -/
def onOriginal (what : String) (opNum : SeqNumber) (id : PointId)
    (operation : Segment E → OpResult (Segment E)) :
    LockedSegment E → OpResult (LockedSegment E)
  | .original s => (operation s).map .original
  | .proxy wrapped changes =>
    (.error (.serviceError
      s!"{what} is disabled for proxy segments: operation {opNum} on point {id}"),
      .proxy wrapped changes)

section

variable (opNum : SeqNumber) (id : PointId)

def upsertPoint (vectors : NamedVectors E) : LockedSegment E → OpResult (LockedSegment E) :=
  onOriginal "Upsert" opNum id (Segment.upsertPoint opNum id vectors)

def updateVectors (order : IterOrder VectorName) (vectors : NamedVectors E) :
    LockedSegment E → OpResult (LockedSegment E) :=
  onOriginal "Update vectors" opNum id (Segment.updateVectors opNum id order vectors)

def deleteVector (name : VectorName) : LockedSegment E → OpResult (LockedSegment E) :=
  onOriginal "Delete vector" opNum id (Segment.deleteVector opNum id name)

def setFullPayload (payload : Payload) : LockedSegment E → OpResult (LockedSegment E) :=
  onOriginal "Set full payload" opNum id (Segment.setFullPayload opNum id payload)

def setPayload (payload : Payload) (key : Option JsonPath) :
    LockedSegment E → OpResult (LockedSegment E) :=
  onOriginal "Set payload" opNum id (Segment.setPayload opNum id payload key)

def deletePayload (key : JsonPath) : LockedSegment E → OpResult (LockedSegment E) :=
  onOriginal "Delete payload" opNum id (Segment.deletePayload opNum id key)

def clearPayload : LockedSegment E → OpResult (LockedSegment E) :=
  onOriginal "Clear payload" opNum id (Segment.clearPayload opNum id)

/-- `upsert_with_payload`. Without a payload the stored one is cleared. -/
def upsertWithPayload (vectors : NamedVectors E)
    (payload : Option Payload) : LockedSegment E → OpResult (LockedSegment E) :=
  OpResult.andThen (upsertPoint opNum id vectors) <|
    match payload with
    | some payload => setFullPayload opNum id payload
    | none => clearPayload opNum id

/-- What a proxy remembers of a delete. Deletes are remembered for all points of the wrapped
segment, also when they are deleted already. -/
def rememberDelete (wrapped : LockedSegment E) (changes : ProxyChanges) : ProxyChanges :=
  let wasDeleted := (changes.deletedPoints.get? id).isNone
  { changes with
    version := max changes.version opNum
    deletedPoints := changes.deletedPoints.insert id
      { localVersion := opNum, operationVersion := opNum }
    deletedDeferredCount :=
      if wasDeleted && wrapped.pointIsDeferred id then changes.deletedDeferredCount + 1
      else changes.deletedDeferredCount }

def deletePoint : LockedSegment E → OpResult (LockedSegment E)
  | .original s => (s.deletePoint opNum id).map .original
  | .proxy wrapped changes =>
    if wrapped.hasPoint id then
      (.ok (changes.deletedPoints.get? id).isNone,
        .proxy wrapped (rememberDelete opNum id wrapped changes))
    else
      (.ok false, .proxy wrapped { changes with version := max changes.version opNum })

end

/-! ## Writing field indexes -/

/-- Remember an index change unless the proxy is newer. -/
def rememberIndexChange (opNum : SeqNumber) (key : JsonPath) (change : ProxyIndexChange)
    (wrapped : LockedSegment E) (changes : ProxyChanges) : OpResult (LockedSegment E) :=
  if (LockedSegment.proxy wrapped changes).version > opNum then (.ok false, .proxy wrapped changes)
  else
    (.ok true, .proxy wrapped { changes with
      version := max changes.version opNum
      changedIndexes := changes.changedIndexes.insert key change })

def deleteFieldIndex (opNum : SeqNumber) (key : JsonPath) :
    LockedSegment E → OpResult (LockedSegment E)
  | .original s => (s.deleteFieldIndex opNum key).map .original
  | .proxy wrapped changes => rememberIndexChange opNum key (.delete opNum) wrapped changes

section

variable (opNum : SeqNumber) (key : JsonPath) (schema : PayloadFieldSchema)

def deleteFieldIndexIfIncompatible : LockedSegment E → OpResult (LockedSegment E)
  | .original s => (s.deleteFieldIndexIfIncompatible opNum key schema).map .original
  | .proxy wrapped changes =>
    rememberIndexChange opNum key (.deleteIfIncompatible opNum schema) wrapped changes

/-- No index is built in a proxy. -/
def buildFieldIndex : LockedSegment E → BuildFieldIndexResult
  | .original s => s.buildFieldIndex opNum key schema
  | .proxy wrapped changes =>
    if (LockedSegment.proxy wrapped changes).version > opNum then .skippedByVersion
    else .built schema

def applyFieldIndex : LockedSegment E → OpResult (LockedSegment E)
  | .original s => (s.applyFieldIndex opNum key schema).map .original
  | .proxy wrapped changes => rememberIndexChange opNum key (.create schema opNum) wrapped changes

/-- `create_field_index` with a schema: drop an index with another schema, build the index and
apply it. -/
def createFieldIndex (segment : LockedSegment E) : OpResult (LockedSegment E) :=
  match segment.deleteFieldIndexIfIncompatible opNum key schema with
  | (.error err, segment) => (.error err, segment)
  | (.ok _, segment) =>
    match segment.buildFieldIndex opNum key schema with
    | .skippedByVersion => (.ok false, segment)
    | .alreadyExists => (.ok false, segment)
    | .incompatibleSchema =>
      (.error (.serviceError
        s!"Incompatible schema for field index on field {key.text}"), segment)
    | .built schema => segment.applyFieldIndex opNum key schema

end

/-! ## What a segment shows -/

section Copies

variable {opNum : SeqNumber} {id : PointId} {segment segment' : LockedSegment E} {c : Copy E}
  {applied : Bool}

theorem hasPoint_eq_copy : segment.hasPoint id = (segment.copy id).isSome := by
  induction segment with
  | original s => exact Segment.hasPoint_eq_copy
  | proxy wrapped changes ih =>
    rw [hasPoint, copy, ih]
    cases changes.deletedPoints.get? id <;> simp

/-- A proxy shows what the wrapped segment does, apart from the points it has deleted. -/
theorem copy_proxy {changes : ProxyChanges} (h : (proxy segment changes).copy id = some c) :
    changes.deletedPoints.get? id = none ∧ segment.copy id = some c := by
  rw [copy] at h
  split at h
  · cases h
  · next hkept => exact ⟨by simpa using hkept, h⟩

theorem pointVersion_of_copy (h : segment.copy id = some c) :
    segment.pointVersion id = some c.version := by
  induction segment with
  | original s =>
    rw [pointVersion, pointVersion_eq_copy]
    exact congrArg (Option.map Copy.version) h
  | proxy wrapped changes ih =>
    obtain ⟨hnone, h⟩ := copy_proxy h
    rw [pointVersion, ih h, hnone]
    rfl

theorem pointIsDeferred_of_copy (h : segment.copy id = some c) :
    segment.pointIsDeferred id = c.deferred := by
  induction segment with
  | original s => exact Segment.pointIsDeferred_of_copy h
  | proxy wrapped changes ih =>
    obtain ⟨hnone, h⟩ := copy_proxy h
    rw [pointIsDeferred, ih h, hnone]
    rfl

theorem retrieve_of_copy (h : segment.copy id = some c) : segment.retrieve id = .ok c.record := by
  induction segment with
  | original s => exact Segment.retrieve_of_copy h
  | proxy wrapped changes ih =>
    obtain ⟨hnone, h⟩ := copy_proxy h
    rw [retrieve, hnone, ih h]
    rfl

end Copies

/-! ## What deleting a point does -/

/-- What no point operation changes. -/
def SameShape : LockedSegment E → LockedSegment E → Prop
  | .original s, .original s' => Segment.SameShape s s'
  | .proxy wrapped changes, .proxy wrapped' changes' =>
    wrapped = wrapped' ∧ changes.changedIndexes = changes'.changedIndexes
  | _, _ => False

/-- The segment has not failed. Proxies are written without the wrapped segment. -/
def Healthy : LockedSegment E → Prop
  | .original s => s.errorStatus = none
  | .proxy _ _ => True

section Writing

variable {opNum : SeqNumber} {id : PointId} {segment segment' segment'' : LockedSegment E}
  {applied : Bool}

theorem SameShape.refl (segment : LockedSegment E) : SameShape segment segment := by
  cases segment with
  | original s => exact Segment.SameShape.refl s
  | proxy wrapped changes => exact ⟨rfl, rfl⟩

section

variable (h : SameShape segment segment')

include h

theorem SameShape.trans (h' : SameShape segment' segment'') : SameShape segment segment'' := by
  match segment, segment', segment'', h, h' with
  | .original _, .original _, .original _, h, h' => exact Segment.SameShape.trans h h'
  | .proxy _ _, .proxy _ _, .proxy _ _, h, h' => exact ⟨h.1.trans h'.1, h.2.trans h'.2⟩

theorem SameShape.symm : SameShape segment' segment := by
  match segment, segment', h with
  | .original _, .original _, h =>
    exact ⟨h.config.symm, h.appendable.symm, h.deferredInternalId.symm, h.indexedFields.symm⟩
  | .proxy _ _, .proxy _ _, h => exact ⟨h.1.symm, h.2.symm⟩

theorem SameShape.isAppendable : segment.isAppendable = segment'.isAppendable := by
  match segment, segment', h with
  | .original _, .original _, h => exact h.appendable
  | .proxy _ _, .proxy _ _, _ => rfl

theorem SameShape.config : segment.config = segment'.config := by
  match segment, segment', h with
  | .original _, .original _, h => exact Segment.SameShape.config h
  | .proxy _ _, .proxy _ _, h => rw [h.1]; rfl

end

/-- An appendable segment is not a proxy. -/
theorem eq_original_of_isAppendable (h : segment.isAppendable = true) :
    ∃ s, segment = .original s ∧ s.appendable = true := by
  cases segment with
  | original s => exact ⟨s, rfl, h⟩
  | proxy wrapped changes => cases h

/-- What a delete leaves behind when it succeeds: the copy is gone, unless it is newer. -/
theorem deletePoint_ok (h : segment.deletePoint opNum id = (.ok applied, segment'))
    (hle : ∀ c, segment.copy id = some c → c.version ≤ opNum) :
    SameShape segment' segment ∧
      ∀ id', segment'.copy id' = if id' = id then none else segment.copy id' := by
  cases segment with
  | original s =>
    obtain ⟨hresult, rfl⟩ := Prod.mk.inj h
    have hdata := deletePoint_ok (Prod.ext hresult rfl)
    refine ⟨hdata.shape.trans touches_deleted.shape, fun id' => ?_⟩
    change (s.deletePoint opNum id).2.copy id' = _
    rw [hdata.copy]
    split
    · next heq =>
      subst heq
      exact copy_deleted_self hle
    · next hne => exact touches_deleted.copy id' hne
  | proxy wrapped changes =>
    rw [deletePoint] at h
    split at h
    · obtain ⟨-, rfl⟩ := Prod.mk.inj h
      refine ⟨⟨rfl, rfl⟩, fun id' => ?_⟩
      unfold copy rememberDelete
      simp only [HashMap.get?_insert]
      split <;> rfl
    · next hmissing =>
      obtain ⟨-, rfl⟩ := Prod.mk.inj h
      refine ⟨⟨rfl, rfl⟩, fun id' => ?_⟩
      split
      · next heq =>
        subst heq
        rw [hasPoint_eq_copy, Bool.not_eq_true, Option.isSome_eq_false_iff,
          Option.isNone_iff_eq_none] at hmissing
        rw [copy, hmissing, ite_self]
      · rfl

theorem deletePoint_of_healthy (h : segment.Healthy) :
    ∃ b segment', segment.deletePoint opNum id = (.ok b, segment') ∧ segment'.Healthy := by
  cases segment with
  | original s =>
    obtain ⟨b, hb⟩ := deletePoint_of_healthy opNum id h
    refine ⟨b, .original (s.deleted opNum id), ?_, touches_deleted.errorStatus.trans h⟩
    rw [deletePoint, hb]
    rfl
  | proxy wrapped changes =>
    rw [deletePoint]
    split
    · exact ⟨_, _, rfl, trivial⟩
    · exact ⟨_, _, rfl, trivial⟩

variable {s : Segment E} {vectors : NamedVectors E} {payload : Option Payload}

/-- Both kinds of payload that go with an upsert replace the stored one. -/
theorem upsertWithPayload_original :
    (LockedSegment.original s).upsertWithPayload opNum id vectors payload =
      (OpResult.andThen (Segment.upsertPoint opNum id vectors)
        (Segment.modifyPayload opNum id fun _ => payload) s).map .original := by
  unfold upsertWithPayload OpResult.andThen
  cases payload <;>
  · simp only [upsertPoint, onOriginal, OpResult.map]
    rcases s.upsertPoint opNum id vectors with ⟨_ | _, s₁⟩
    · rfl
    · simp only [setFullPayload, clearPayload, onOriginal, Segment.setFullPayload,
        Segment.clearPayload]
      rcases s₁.modifyPayload opNum id _ with ⟨_ | _, _⟩ <;> rfl

/-- What an upsert leaves behind when it succeeds. -/
theorem upsertWithPayload_ok
    (h : (LockedSegment.original s).upsertWithPayload opNum id vectors payload =
      (.ok applied, segment'))
    (hle : ∀ c, s.copy id = some c → c.version ≤ opNum) :
    ∃ s', segment' = .original s' ∧ Segment.SameShape s' s ∧
      (s.errorStatus = none → s'.errorStatus = none) ∧
      ∃ deferred, (∀ c, s.copy id = some c → c.deferred = deferred) ∧ ∀ id', s'.copy id' =
          if id' = id then
            some { version := opNum, deferred,
                   record := { vectors := s.config.storedVectors vectors,
                               payload := payload.getD .empty } }
          else s.copy id' := by
  rw [upsertWithPayload_original] at h
  obtain ⟨hresult, rfl⟩ := Prod.mk.inj h
  obtain ⟨b, b', s₁, h₁, h₂⟩ := OpResult.andThen_ok (Prod.ext hresult rfl)
  obtain ⟨hshape, -, deferred, -, -, hdeferred, hcopy⟩ := upsertPoint_modifyPayload_ok h₁ h₂ hle
  refine ⟨_, rfl, hshape, fun hs => ?_, deferred, hdeferred, hcopy⟩
  have hfits := (upsertPoint_ok h₁ (Segment.version_le_of_copy hle)).1
  obtain ⟨_, _, t₁, t₂, ht₁, ht₂, hstatus⟩ :=
    upsertPoint_modifyPayload_of_healthy opNum id (fun _ => payload) hs hfits hle
  rw [h₁] at ht₁
  cases ht₁
  rw [h₂] at ht₂
  cases ht₂
  exact hstatus

theorem upsertWithPayload_of_healthy (opNum : SeqNumber) (id : PointId) (payload : Option Payload)
    (hs : s.errorStatus = none) (hv : s.config.Fits vectors)
    (hle : ∀ c, s.copy id = some c → c.version ≤ opNum) :
    ∃ b segment', (LockedSegment.original s).upsertWithPayload opNum id vectors payload =
      (.ok b, segment') := by
  obtain ⟨b, b', s₁, s₂, h₁, h₂, -⟩ :=
    upsertPoint_modifyPayload_of_healthy opNum id (fun _ => payload) hs hv hle
  refine ⟨b && b', .original s₂, ?_⟩
  rw [upsertWithPayload_original, OpResult.andThen_of_ok h₁ h₂]
  rfl

end Writing

end LockedSegment

end Qdrant
