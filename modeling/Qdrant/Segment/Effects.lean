-- SUMMARY: What each point operation of a segment leaves behind, and what the segment then shows.
import Qdrant.Segment.Segment

/-!
# Effects of segment operations

Every point operation of a segment goes through `handlePointVersionAndFailure`. Here
its outcome is said once for each kind of operation: `deleted`, `modified` and
`upserted` are the segments that a successful operation leaves behind, up to the
failure status, which an operation may also clear. In a segment that has not failed
the operations succeed whenever their checks pass and the storages take the vectors.

What a segment shows of its points is `copy`; the lemmas about it are all that the
layers above use.
-/

namespace Qdrant

variable {E : Type}

namespace Segment

/-! ## The segments that operations leave behind -/

section

variable (opNum : SeqNumber) (id : PointId)

/-- Store a point with the version of the operation. -/
def store (p : StoredPoint E) (s : Segment E) : Segment E :=
  { s.bumpSegmentVersion opNum with points := s.points.insert id { p with version := opNum } }

/-- Remove a point. -/
def forget (s : Segment E) : Segment E :=
  (s.deletePointInternal id).bumpSegmentVersion opNum

def deleted (s : Segment E) : Segment E :=
  match s.points.get? id with
  | some p => if opNum < p.version then s else s.forget opNum id
  | none => s

def modified (f : StoredPoint E → StoredPoint E) (s : Segment E) : Segment E :=
  match s.points.get? id with
  | some p => if opNum < p.version then s else s.store opNum id (f p)
  | none => s

end

/-- A point as it is first inserted. -/
def newPoint (opNum : SeqNumber) (vectors : NamedVectors E) (s : Segment E) : StoredPoint E :=
  { internalId := s.totalPointCount, version := opNum, vectors, payload := none }

def upserted (opNum : SeqNumber) (id : PointId) (vectors : NamedVectors E) (s : Segment E) :
    Segment E :=
  match s.points.get? id with
  | some p => if opNum < p.version then s else s.store opNum id { p with vectors }
  | none =>
    { s.store opNum id (s.newPoint opNum vectors) with totalPointCount := s.totalPointCount + 1 }

/-- What no point operation changes. -/
structure SameShape (s t : Segment E) : Prop where
  config : s.config = t.config
  appendable : s.appendable = t.appendable
  deferredInternalId : s.deferredInternalId = t.deferredInternalId
  indexedFields : s.indexedFields = t.indexedFields

theorem SameShape.refl (s : Segment E) : SameShape s s := ⟨rfl, rfl, rfl, rfl⟩

theorem SameShape.trans {s t u : Segment E} (h : SameShape s t) (h' : SameShape t u) :
    SameShape s u :=
  ⟨h.config.trans h'.config, h.appendable.trans h'.appendable,
    h.deferredInternalId.trans h'.deferredInternalId, h.indexedFields.trans h'.indexedFields⟩

/-- The segments are the same except for the failure status. -/
def SameData (s t : Segment E) : Prop :=
  ∃ status, s = { t with errorStatus := status }

theorem SameData.shape {s t : Segment E} (h : SameData s t) : SameShape s t := by
  obtain ⟨status, rfl⟩ := h
  exact ⟨rfl, rfl, rfl, rfl⟩

theorem SameData.points {s t : Segment E} (h : SameData s t) : s.points = t.points := by
  obtain ⟨status, rfl⟩ := h
  rfl

theorem SameData.copy {s t : Segment E} (h : SameData s t) (id : PointId) :
    s.copy id = t.copy id := by
  obtain ⟨status, rfl⟩ := h
  rfl

theorem sameData_recover (s : Segment E) (opPoint : Option PointId) : SameData (s.recover opPoint) s := by
  unfold recover
  split
  · next failed _ =>
    split
    · exact ⟨none, rfl⟩
    · exact ⟨s.errorStatus, rfl⟩
  · exact ⟨s.errorStatus, rfl⟩

/-! ## What an operation on one point leaves as it was -/

/-- The segments differ in one point only. -/
structure Touches (s t : Segment E) (id : PointId) : Prop where
  shape : SameShape t s
  errorStatus : t.errorStatus = s.errorStatus
  copy : ∀ id', id' ≠ id → t.copy id' = s.copy id'

section Touches

variable {opNum : SeqNumber} {id : PointId} {s : Segment E} {p : StoredPoint E}

theorem Touches.refl : Touches s s id := ⟨.refl s, rfl, fun _ _ => rfl⟩

theorem copy_store (p : StoredPoint E) (id' : PointId) : (s.store opNum id p).copy id' =
      if id' = id then
        some { version := opNum, record := p.record, deferred := s.isDeferred p.internalId }
      else s.copy id' := by
  unfold copy store
  simp only [HashMap.get?_insert]
  split <;> rfl

theorem get?_forget (id' : PointId) :
    (s.forget opNum id).points.get? id' = if id' = id then none else s.points.get? id' :=
  HashMap.get?_erase _ _ _

theorem copy_forget (id' : PointId) :
    (s.forget opNum id).copy id' = if id' = id then none else s.copy id' := by
  unfold copy
  rw [get?_forget]
  split <;> rfl

theorem touches_store : Touches s (s.store opNum id p) id :=
  ⟨⟨rfl, rfl, rfl, rfl⟩, rfl, fun id' hne => (copy_store p id').trans (if_neg hne)⟩

theorem touches_deleted : Touches s (s.deleted opNum id) id := by
  unfold deleted
  split
  · split
    · exact .refl
    · exact ⟨⟨rfl, rfl, rfl, rfl⟩, rfl, fun id' hne => (copy_forget id').trans (if_neg hne)⟩
  · exact .refl

theorem touches_modified {f : StoredPoint E → StoredPoint E} :
    Touches s (s.modified opNum id f) id := by
  unfold modified
  split
  · split
    · exact .refl
    · exact touches_store
  · exact .refl

theorem touches_upserted {vectors : NamedVectors E} :
    Touches s (s.upserted opNum id vectors) id := by
  unfold upserted
  split
  · split
    · exact .refl
    · exact touches_store
  · exact ⟨⟨rfl, rfl, rfl, rfl⟩, rfl, touches_store.copy⟩

theorem modified_of_le (hp : s.points.get? id = some p) (hle : p.version ≤ opNum)
    (f : StoredPoint E → StoredPoint E) :
    s.modified opNum id f = s.store opNum id (f p) := by
  rw [modified, hp]
  exact if_neg (not_lt.mpr hle)

end Touches

/-! ## Outcomes -/

section Outcomes

variable {opNum : SeqNumber} {id : PointId} {opPoint : Option PointId} {applied : Bool}
  {operation : PointClosure E} {s s' : Segment E}

theorem handlePointVersionAndFailure_ok
    (h : handlePointVersionAndFailure opNum opPoint operation s = (.ok applied, s')) :
    ∃ t, handlePointVersion opNum opPoint operation s = (.ok applied, t) ∧ SameData s' t := by
  unfold handlePointVersionAndFailure at h
  split at h
  · cases h
  · split at h
    · next b t ht =>
      cases h
      exact ⟨t, ht, sameData_recover t opPoint⟩
    · split at h <;> cases h

theorem handlePointVersionAndFailure_of_ok {t : Segment E} (hs : s.errorStatus = none)
    (h : handlePointVersion opNum opPoint operation s = (.ok applied, t))
    (ht : t.errorStatus = none) :
    handlePointVersionAndFailure opNum opPoint operation s = (.ok applied, t) := by
  rw [handlePointVersionAndFailure, notRecovered, hs, h]
  change (Except.ok applied, t.recover opPoint) = _
  rw [recover, ht]

variable {p : StoredPoint E} {err : OperationError}

/-- An error leaves what the operation wrote before. -/
theorem handlePointVersionAndFailure_of_error {t : Segment E} (hs : s.errorStatus = none)
    (hold : (opPoint.bind s.pointVersion).any (· > opNum) = false)
    (h : operation s = (.error err, t)) :
    ∃ t', handlePointVersionAndFailure opNum opPoint operation s = (.error err, t') ∧
      SameData t' t := by
  have hversion : handlePointVersion opNum opPoint operation s = (.error err, t) := by
    rw [handlePointVersion, hold, h]
    rfl
  rw [handlePointVersionAndFailure, notRecovered, hs, hversion]
  by_cases hservice : err.isServiceError = true
  · exact ⟨_, if_pos hservice, _, rfl⟩
  · exact ⟨_, if_neg hservice, sameData_recover t opPoint⟩

/-- The version check keeps the point if it is newer. -/
theorem any_pointVersion (opNum : SeqNumber) (hp : s.points.get? id = some p) :
    (Option.bind (some id) s.pointVersion).any (· > opNum) = decide (opNum < p.version) := by
  simp [pointVersion, hp]

theorem handlePointVersion_of_some (opNum : SeqNumber) (operation : PointClosure E)
    {t : Segment E} (hp : s.points.get? id = some p)
    (h : operation s = (.ok (applied, some id), t)) :
    ∃ b, handlePointVersion opNum (some id) operation s = (.ok b, if opNum < p.version then s
        else (t.bumpSegmentVersion opNum).setInternalVersion id opNum) := by
  rw [handlePointVersion, any_pointVersion opNum hp, h]
  by_cases hnew : opNum < p.version
  · exact ⟨false, by simp [hnew]⟩
  · exact ⟨applied, by simp [hnew]⟩

variable {m : HashMap PointId (StoredPoint E)}

theorem setInternalVersion_insert (h : s.points = m.insert id p) : s.setInternalVersion id opNum =
      { s with points := m.insert id { p with version := opNum } } := by
  simp only [setInternalVersion, h, HashMap.get?_insert, if_true, HashMap.insert_insert]

theorem setInternalVersion_erase (h : s.points = m.erase id) :
    s.setInternalVersion id opNum = s := by
  simp only [setInternalVersion, h, HashMap.get?_erase, if_true]

theorem stored_of_some (hp : s.points.get? id = some p) : s.stored id = some id := by
  rw [stored, hasPoint, hp]
  rfl

theorem stored_of_none (hp : s.points.get? id = none) : s.stored id = none := by
  rw [stored, hasPoint, hp]
  rfl

/-- What the version check makes of an operation that changes one stored point. -/
theorem handlePointVersion_modify (opNum : SeqNumber)
    (hp : s.points.get? id = some p) (f : StoredPoint E → StoredPoint E)
    (hoperation : operation s = (.ok (applied, some id), { s with points := s.points.insert id (f p) })) :
    ∃ b, handlePointVersion opNum (some id) operation s = (.ok b, s.modified opNum id f) := by
  obtain ⟨b, hb⟩ := handlePointVersion_of_some opNum operation hp hoperation
  rw [setInternalVersion_insert rfl] at hb
  rw [modified, hp]
  exact ⟨b, hb⟩

theorem handlePointVersion_delete (opNum : SeqNumber) (hp : s.points.get? id = some p) :
    ∃ b, handlePointVersion opNum (some id)
      (fun s => (.ok (true, some id), s.deletePointInternal id)) s = (.ok b, s.deleted opNum id) := by
  obtain ⟨b, hb⟩ := handlePointVersion_of_some opNum
    (fun s => (.ok (true, some id), s.deletePointInternal id)) hp rfl
  rw [setInternalVersion_erase rfl] at hb
  rw [deleted, hp]
  exact ⟨b, hb⟩

theorem deletePoint_ok (h : s.deletePoint opNum id = (.ok applied, s')) :
    SameData s' (s.deleted opNum id) := by
  unfold deletePoint hasPoint at h
  cases hp : s.points.get? id with
  | none =>
    rw [hp] at h
    cases h
    rw [deleted, hp]
    exact ⟨s.errorStatus, rfl⟩
  | some p =>
    rw [hp] at h
    obtain ⟨t, ht, hdata⟩ := handlePointVersionAndFailure_ok h
    obtain ⟨b, hb⟩ := handlePointVersion_delete opNum hp
    rw [hb] at ht
    cases ht
    exact hdata

theorem deletePoint_of_healthy (opNum : SeqNumber) (id : PointId) (hs : s.errorStatus = none) :
    ∃ b, s.deletePoint opNum id = (.ok b, s.deleted opNum id) := by
  unfold deletePoint hasPoint
  cases hp : s.points.get? id with
  | none => exact ⟨false, by rw [deleted, hp]; rfl⟩
  | some p =>
    obtain ⟨b, hb⟩ := handlePointVersion_delete opNum hp
    exact ⟨b, handlePointVersionAndFailure_of_ok hs hb (touches_deleted.errorStatus.trans hs)⟩

variable {f : StoredPoint E → Bool × StoredPoint E}

theorem modifyStored_of_some (hp : s.points.get? id = some p) : modifyStored id f s =
      (.ok ((f p).1, some id), { s with points := s.points.insert id (f p).2 }) := by
  rw [modifyStored, hp]

theorem modifyPoint_ok (h : s.modifyPoint opNum id f = (.ok applied, s')) :
    (∃ p, s.points.get? id = some p) ∧ SameData s' (s.modified opNum id fun p => (f p).2) := by
  obtain ⟨t, ht, hdata⟩ := handlePointVersionAndFailure_ok h
  cases hp : s.points.get? id with
  | none =>
    rw [stored_of_none hp] at ht
    simp [handlePointVersion, modifyStored, hp] at ht
  | some p =>
    rw [stored_of_some hp] at ht
    obtain ⟨b, hb⟩ := handlePointVersion_modify opNum hp (fun p => (f p).2)
      (modifyStored_of_some hp)
    rw [hb] at ht
    cases ht
    exact ⟨⟨p, rfl⟩, hdata⟩

theorem modifyPoint_of_healthy (opNum : SeqNumber) (f : StoredPoint E → Bool × StoredPoint E)
    (hs : s.errorStatus = none) (hp : s.points.get? id = some p) :
    ∃ b, s.modifyPoint opNum id f = (.ok b, s.modified opNum id fun p => (f p).2) := by
  obtain ⟨b, hb⟩ := handlePointVersion_modify opNum hp (fun p => (f p).2) (modifyStored_of_some hp)
  refine ⟨b, ?_⟩
  rw [modifyPoint, stored_of_some hp]
  exact handlePointVersionAndFailure_of_ok hs hb (touches_modified.errorStatus.trans hs)

variable {vectors : NamedVectors E}

/-- The closure of an upsert whose vectors fit. -/
theorem replaceOrInsert_of_fits (opNum : SeqNumber) (id : PointId) (hv : s.config.Fits vectors) :
    replaceOrInsert opNum id (s.config.preprocess vectors) s = match s.points.get? id with
      | some p => (.ok (true, some id), { s with
          points := s.points.insert id { p with vectors := s.config.storedVectors vectors } })
      | none => (.ok (false, some id), { s with
          points := s.points.insert id (s.newPoint opNum (s.config.storedVectors vectors))
          totalPointCount := s.totalPointCount + 1 }) := by
  unfold replaceOrInsert
  rw [SegmentConfig.checkNamedVectors_eq_ok.mpr hv.accepts.preprocess]
  cases s.points.get? id with
  | some p =>
    dsimp only
    rw [hv.writeVectors_replaced]
    rfl
  | none =>
    have hnew := hv.writeVectors_replaced s.storageOrder ∅
    have hkeys : (∅ : NamedVectors E).keys = ∅ := rfl
    rw [SegmentConfig.replacedNames, hkeys, Finset.union_empty] at hnew
    dsimp only
    rw [hnew]
    rfl

theorem handlePointVersion_upsert (opNum : SeqNumber) (id : PointId) (hv : s.config.Fits vectors) :
    ∃ b, handlePointVersion opNum (s.stored id)
        (replaceOrInsert opNum id (s.config.preprocess vectors)) s =
      (.ok b, s.upserted opNum id (s.config.storedVectors vectors)) := by
  have hclosure := replaceOrInsert_of_fits opNum id hv
  unfold upserted
  cases hp : s.points.get? id with
  | none =>
    refine ⟨false, ?_⟩
    rw [hp] at hclosure
    rw [stored_of_none hp, handlePointVersion, hclosure]
    dsimp only [Option.bind_none, Option.any_none]
    rw [if_neg Bool.false_ne_true, setInternalVersion_insert rfl]
    rfl
  | some p =>
    rw [hp] at hclosure
    rw [stored_of_some hp]
    obtain ⟨b, hb⟩ := handlePointVersion_modify opNum hp
      (fun p => { p with vectors := s.config.storedVectors vectors }) hclosure
    rw [modified, hp] at hb
    exact ⟨b, hb⟩

theorem not_newer (hle : ∀ q, s.points.get? id = some q → q.version ≤ opNum) :
    ((s.stored id).bind s.pointVersion).any (· > opNum) = false := by
  cases hp : s.points.get? id with
  | none =>
    rw [stored_of_none hp]
    rfl
  | some p =>
    rw [stored_of_some hp, any_pointVersion opNum hp]
    exact decide_eq_false (not_lt.mpr (hle p hp))

/-- The closure of an upsert with a vector that its storage does not take. -/
theorem replaceOrInsert_of_not_storable (opNum : SeqNumber) (id : PointId)
    (haccepts : s.config.Accepts vectors) (hv : ¬ s.config.Storable vectors) :
    ∃ err, replaceOrInsert opNum id (s.config.preprocess vectors) s = (.error err,
      match s.points.get? id with
      | some p => { s with points := s.points.insert id { p with
          vectors := (s.config.writeVectors (s.config.preprocess vectors)
            (s.config.replacedNames s.storageOrder p.vectors) p.vectors).2 } }
      | none => s) := by
  unfold replaceOrInsert
  rw [SegmentConfig.checkNamedVectors_eq_ok.mpr haccepts.preprocess]
  cases s.points.get? id with
  | some p =>
    obtain ⟨err, written, herr⟩ := SegmentConfig.writeVectors_of_not_storable hv
      (haccepts.mem_replacedNames s.storageOrder p.vectors) p.vectors
    refine ⟨err, ?_⟩
    dsimp only
    rw [herr]
    rfl
  | none =>
    obtain ⟨err, written, herr⟩ := SegmentConfig.writeVectors_of_not_storable hv
      (fun name hname => (s.storageOrder.mem_walk _ _).mpr (haccepts.mem_vectorNames hname)) ∅
    refine ⟨err, ?_⟩
    dsimp only
    rw [herr]

theorem upsertPoint_ok (h : s.upsertPoint opNum id vectors = (.ok applied, s'))
    (hle : ∀ q, s.points.get? id = some q → q.version ≤ opNum) :
    s.config.Fits vectors ∧ SameData s' (s.upserted opNum id (s.config.storedVectors vectors)) := by
  unfold upsertPoint at h
  cases hcheck : s.config.checkNamedVectors vectors with
  | error err =>
    rw [hcheck] at h
    cases h
  | ok _ =>
    rw [hcheck] at h
    obtain ⟨t, ht, hdata⟩ := handlePointVersionAndFailure_ok h
    have haccepts := SegmentConfig.checkNamedVectors_eq_ok.mp hcheck
    by_cases hstorable : s.config.Storable vectors
    · obtain ⟨b, hb⟩ := handlePointVersion_upsert opNum id ⟨haccepts, hstorable⟩
      rw [hb] at ht
      cases ht
      exact ⟨⟨haccepts, hstorable⟩, hdata⟩
    · obtain ⟨err, herr⟩ := replaceOrInsert_of_not_storable opNum id haccepts hstorable
      rw [handlePointVersion, not_newer hle, herr] at ht
      cases ht

theorem upsertPoint_of_healthy (opNum : SeqNumber) (id : PointId) (hs : s.errorStatus = none)
    (hv : s.config.Fits vectors) :
    ∃ b, s.upsertPoint opNum id vectors =
      (.ok b, s.upserted opNum id (s.config.storedVectors vectors)) := by
  obtain ⟨b, hb⟩ := handlePointVersion_upsert opNum id hv
  refine ⟨b, ?_⟩
  rw [upsertPoint, SegmentConfig.checkNamedVectors_eq_ok.mpr hv.accepts]
  exact handlePointVersionAndFailure_of_ok hs hb (touches_upserted.errorStatus.trans hs)

/-- The closure of an update whose vectors fit. -/
theorem overwriteVectors_of_fits (order : IterOrder VectorName) (hv : s.config.Fits vectors)
    (hp : s.points.get? id = some p) :
    overwriteVectors id order (s.config.preprocess vectors) s = (.ok (true, some id), { s with
      points := s.points.insert id
        { p with vectors := (s.config.storedVectors vectors).union p.vectors } }) := by
  unfold overwriteVectors
  rw [SegmentConfig.checkNamedVectors_eq_ok.mpr hv.accepts.preprocess, hp]
  dsimp only
  rw [hv.writeVectors_overwritten]
  rfl

/-- The closure of an update with a vector that its storage does not take. -/
theorem overwriteVectors_of_not_storable (order : IterOrder VectorName)
    (haccepts : s.config.Accepts vectors) (hv : ¬ s.config.Storable vectors)
    (hp : s.points.get? id = some p) :
    ∃ err, overwriteVectors id order (s.config.preprocess vectors) s = (.error err, { s with
      points := s.points.insert id { p with
        vectors := (s.config.writeVectors (s.config.preprocess vectors)
          (order.walk (s.config.preprocess vectors).keys) p.vectors).2 } }) := by
  obtain ⟨err, written, herr⟩ := SegmentConfig.writeVectors_of_not_storable hv
    (SegmentConfig.mem_walk_preprocess order) p.vectors
  refine ⟨err, ?_⟩
  unfold overwriteVectors
  rw [SegmentConfig.checkNamedVectors_eq_ok.mpr haccepts.preprocess, hp]
  dsimp only
  rw [herr]
  rfl

theorem updateVectors_of_accepts (opNum : SeqNumber) (order : IterOrder VectorName)
    (haccepts : s.config.Accepts vectors) (hp : s.points.get? id = some p) :
    s.updateVectors opNum id order vectors = handlePointVersionAndFailure opNum (some id)
      (overwriteVectors id order (s.config.preprocess vectors)) s := by
  rw [updateVectors, SegmentConfig.checkNamedVectors_eq_ok.mpr haccepts, hasPoint, stored_of_some hp,
    hp]
  rfl

variable {order : IterOrder VectorName}

theorem updateVectors_of_healthy (opNum : SeqNumber) (order : IterOrder VectorName)
    (hs : s.errorStatus = none) (hv : s.config.Fits vectors) (hp : s.points.get? id = some p) :
    ∃ b, s.updateVectors opNum id order vectors = (.ok b, s.modified opNum id fun p =>
      { p with vectors := (s.config.storedVectors vectors).union p.vectors }) := by
  obtain ⟨b, hb⟩ := handlePointVersion_modify opNum hp
    (fun p => { p with vectors := (s.config.storedVectors vectors).union p.vectors })
    (overwriteVectors_of_fits order hv hp)
  refine ⟨b, ?_⟩
  rw [updateVectors_of_accepts opNum order hv.accepts hp]
  exact handlePointVersionAndFailure_of_ok hs hb (touches_modified.errorStatus.trans hs)

theorem updateVectors_ok (h : s.updateVectors opNum id order vectors = (.ok applied, s'))
    (hp : s.points.get? id = some p) (hle : p.version ≤ opNum) :
    s.config.Fits vectors ∧ SameData s' (s.modified opNum id fun p =>
      { p with vectors := (s.config.storedVectors vectors).union p.vectors }) := by
  by_cases haccepts : s.config.Accepts vectors
  · rw [updateVectors_of_accepts opNum order haccepts hp] at h
    obtain ⟨t, ht, hdata⟩ := handlePointVersionAndFailure_ok h
    by_cases hstorable : s.config.Storable vectors
    · obtain ⟨b, hb⟩ := handlePointVersion_modify opNum hp
        (fun p => { p with vectors := (s.config.storedVectors vectors).union p.vectors })
        (overwriteVectors_of_fits order ⟨haccepts, hstorable⟩ hp)
      rw [hb] at ht
      cases ht
      exact ⟨⟨haccepts, hstorable⟩, hdata⟩
    · obtain ⟨err, herr⟩ := overwriteVectors_of_not_storable order haccepts hstorable hp
      have hold : ¬ opNum < p.version := not_lt.mpr hle
      rw [handlePointVersion, any_pointVersion opNum hp, decide_eq_false hold, herr] at ht
      cases ht
  · obtain ⟨err, herr⟩ := SegmentConfig.checkNamedVectors_eq_error haccepts
    rw [updateVectors, herr] at h
    cases h

/-- Vectors that the configuration does not accept change nothing. -/
theorem upsertPoint_of_error (opNum : SeqNumber) (id : PointId) {err : OperationError}
    (herr : s.config.checkNamedVectors vectors = .error err) :
    s.upsertPoint opNum id vectors = (.error err, s) := by
  rw [upsertPoint, herr]

end Outcomes

/-! ## What the segment shows -/

section Copies

variable {opNum : SeqNumber} {id : PointId} {s : Segment E}

theorem copy_eq_none : s.copy id = none ↔ s.points.get? id = none := by
  rw [copy, Option.map_eq_none_iff]

theorem copy_of_some {p : StoredPoint E} (hp : s.points.get? id = some p) : s.copy id =
      some { version := p.version, record := p.record, deferred := s.isDeferred p.internalId } := by
  rw [copy, hp]
  rfl

theorem hasPoint_eq_copy : s.hasPoint id = (s.copy id).isSome := by
  rw [hasPoint, copy, Option.isSome_map]

theorem pointVersion_eq_copy : s.pointVersion id = (s.copy id).map Copy.version := by
  rw [copy, Option.map_map]
  rfl

theorem pointIsDeferred_of_copy {c : Copy E} (h : s.copy id = some c) :
    s.pointIsDeferred id = c.deferred := by
  obtain ⟨p, hp, rfl⟩ := Option.map_eq_some_iff.mp h
  rw [pointIsDeferred, hp]

theorem retrieve_of_copy {c : Copy E} (h : s.copy id = some c) : s.retrieve id = .ok c.record := by
  obtain ⟨p, hp, rfl⟩ := Option.map_eq_some_iff.mp h
  rw [retrieve, hp]

theorem copy_deleted_self (hle : ∀ c, s.copy id = some c → c.version ≤ opNum) :
    (s.deleted opNum id).copy id = none := by
  unfold deleted
  split
  · next p hp =>
    have hnew : ¬ opNum < p.version := not_lt.mpr (hle _ (copy_of_some hp))
    rw [if_neg hnew, copy_forget, if_pos rfl]
  · next hp => exact copy_eq_none.mpr hp

variable {vectors : NamedVectors E}

/-! ## Upserting a point with its payload -/

/-- The point that an upsert stores: an existing point keeps its place and its payload. -/
theorem get?_upserted_self (vectors : NamedVectors E)
    (hle : ∀ q, s.points.get? id = some q → q.version ≤ opNum) :
    ∃ p, (s.upserted opNum id vectors).points.get? id = some p ∧ p.version = opNum ∧
      p.vectors = vectors ∧ (s.points.get? id = none → p.payload = none) ∧
      ∀ q, s.points.get? id = some q → p.internalId = q.internalId ∧ p.payload = q.payload := by
  unfold upserted
  cases hq : s.points.get? id with
  | none =>
    refine ⟨s.newPoint opNum vectors, ?_, rfl, rfl, fun _ => rfl, fun q h => (by cases h)⟩
    exact (HashMap.get?_insert _ _ _ _).trans (if_pos rfl)
  | some q =>
    simp only [if_neg (not_lt.mpr (hle q hq))]
    refine ⟨{ q with vectors, version := opNum }, ?_, rfl, rfl, fun h => (by cases h), ?_⟩
    · exact (HashMap.get?_insert _ _ _ _).trans (if_pos rfl)
    · intro q' hq'
      cases hq'
      exact ⟨rfl, rfl⟩

theorem version_le_of_copy (hle : ∀ c, s.copy id = some c → c.version ≤ opNum) :
    ∀ q, s.points.get? id = some q → q.version ≤ opNum :=
  fun _ hq => hle _ (copy_of_some hq)

/-- Upserting vectors and changing the payload afterwards, as all upserts and moves do. -/
theorem upsertPoint_modifyPayload_ok {f : Option Payload → Option Payload}
    {applied applied' : Bool} {s₁ s₂ : Segment E}
    (h₁ : s.upsertPoint opNum id vectors = (.ok applied, s₁))
    (h₂ : s₁.modifyPayload opNum id f = (.ok applied', s₂))
    (hle : ∀ c, s.copy id = some c → c.version ≤ opNum) :
    SameShape s₂ s ∧ ∃ payload deferred, (∀ q, s.points.get? id = some q → payload = q.payload) ∧
      (s.points.get? id = none → payload = none) ∧
      (∀ c, s.copy id = some c → c.deferred = deferred) ∧
      ∀ id', s₂.copy id' = if id' = id then
          some { version := opNum, deferred,
                 record := { vectors := s.config.storedVectors vectors,
                             payload := (f payload).getD .empty } }
        else s.copy id' := by
  obtain ⟨-, hupsert⟩ := upsertPoint_ok h₁ (version_le_of_copy hle)
  obtain ⟨-, hmodify⟩ := modifyPoint_ok h₂
  obtain ⟨p, hp, hversion, hvectors, hnew, hold⟩ :=
    get?_upserted_self (s.config.storedVectors vectors) (version_le_of_copy hle)
  have hshape : SameShape s₁ s := hupsert.shape.trans touches_upserted.shape
  have hp₁ : s₁.points.get? id = some p := by rw [hupsert.points, hp]
  refine ⟨(hmodify.shape.trans touches_modified.shape).trans hshape, p.payload, s.isDeferred p.internalId,
    fun q hq => (hold q hq).2, hnew, ?_, ?_⟩
  · intro c hc
    obtain ⟨q, hq, rfl⟩ := Option.map_eq_some_iff.mp hc
    rw [(hold q hq).1]
  · intro id'
    rw [hmodify.copy]
    split
    · next heq =>
      subst heq
      rw [modified_of_le hp₁ hversion.le, copy_store, if_pos rfl]
      simp only [StoredPoint.record, isDeferred, hshape.deferredInternalId, hshape.appendable,
        hvectors]
    · next hne => rw [touches_modified.copy id' hne, hupsert.copy, touches_upserted.copy id' hne]

theorem upsertPoint_modifyPayload_of_healthy (opNum : SeqNumber)
    (id : PointId) (f : Option Payload → Option Payload) (hs : s.errorStatus = none)
    (hv : s.config.Fits vectors) (hle : ∀ c, s.copy id = some c → c.version ≤ opNum) :
    ∃ b b' s₁ s₂, s.upsertPoint opNum id vectors = (.ok b, s₁) ∧
      s₁.modifyPayload opNum id f = (.ok b', s₂) ∧ s₂.errorStatus = none := by
  obtain ⟨b, h₁⟩ := upsertPoint_of_healthy opNum id hs hv
  obtain ⟨p, hp, -⟩ := get?_upserted_self (s.config.storedVectors vectors) (version_le_of_copy hle)
  have hs₁ : (s.upserted opNum id (s.config.storedVectors vectors)).errorStatus = none :=
    touches_upserted.errorStatus.trans hs
  obtain ⟨b', h₂⟩ := modifyPoint_of_healthy opNum
    (fun p => (true, { p with payload := f p.payload })) hs₁ hp
  exact ⟨b, b', _, _, h₁, h₂, touches_modified.errorStatus.trans hs₁⟩

end Copies

end Segment

end Qdrant
