-- SUMMARY: The segments of a shard, and how an update finds, moves and changes the copies of points.
import Qdrant.Base.Wp
import Qdrant.Common.TopoSort
import Qdrant.Shard.LockedSegment

/-!
# Segment holder

A shard keeps its points in several segments, and a point can have copies of
different versions in several of them (`lib/shard/src/segment_holder/mod.rs`). An
update looks for the newest copies of its points. Copies in appendable segments are
updated in place; the others are moved to an appendable segment by copy on write.

Locks are not modelled, since an update runs alone. What does depend on them and on
the order of hash maps is an argument of type `Choices`.
-/

namespace Qdrant

variable {E : Type}

structure SegmentHolder (E : Type) where
  segments : HashMap SegmentId (LockedSegment E)
  /-- Source for the ids of new segments. -/
  idSource : SegmentId
  maxPersistedSegmentVersionOverwrite : SeqNumber
  flushDependency : TopoSort SegmentId SeqNumber

/-- A computation on a segment holder. When it fails, the changes made so far stay. -/
abbrev HolderM (E : Type) (α : Type) := EStateM OperationError (SegmentHolder E) α

/-- What hash orders and locks decide while an update runs. -/
structure Choices where
  /-- The order in which the points that were found are visited. -/
  occurrences : IterOrder PointId
  /-- The order of the segments with points to delete. -/
  toDelete : IterOrder SegmentId
  /-- The order of the segments with points to update. -/
  toUpdate : IterOrder SegmentId
  /-- The segment that is locked for moving a point of another segment. -/
  randomWrite : SegmentId → PointId → List SegmentId → SegmentId
  randomWrite_mem : ∀ source id ids, ids ≠ [] → randomWrite source id ids ∈ ids
  /-- The smallest segment. -/
  smallest : List SegmentId → SegmentId
  smallest_mem : ∀ ids, ids ≠ [] → smallest ids ∈ ids

/-- Ascending orders and always the first segment. -/
def Choices.first : Choices where
  occurrences := IterOrder.ascending
  toDelete := IterOrder.ascending
  toUpdate := IterOrder.ascending
  randomWrite _ _ ids := ids.headD 0
  randomWrite_mem _ _ ids hne := by
    cases ids with
    | nil => exact absurd rfl hne
    | cons id ids => exact List.mem_cons_self
  smallest ids := ids.headD 0
  smallest_mem ids hne := by
    cases ids with
    | nil => exact absurd rfl hne
    | cons id ids => exact List.mem_cons_self

namespace SegmentHolder

/-! ## Segments -/

/-- A holder of the given segments. -/
def ofSegments (segments : List (SegmentId × LockedSegment E)) : SegmentHolder E where
  segments := segments.foldl (fun map (id, segment) => map.insert id segment) ∅
  idSource := segments.length
  maxPersistedSegmentVersionOverwrite := 0
  flushDependency := { dependencies := ∅ }

section

variable (h : SegmentHolder E)

def appendableSegmentsIds : List SegmentId :=
  IterOrder.ascending.walk
    (h.segments.keys.filter fun id => (h.segments.get? id).any LockedSegment.isAppendable = true)

def nonAppendableSegmentsIds : List SegmentId :=
  IterOrder.ascending.walk
    (h.segments.keys.filter fun id => (h.segments.get? id).any LockedSegment.isAppendable = false)

/-- Appendable segments first. -/
def segmentIds : List SegmentId :=
  h.appendableSegmentsIds ++ h.nonAppendableSegmentsIds

def iter : List (SegmentId × LockedSegment E) :=
  h.segmentIds.filterMap fun id => (h.segments.get? id).map (Prod.mk id)

def put (id : SegmentId) (segment : LockedSegment E) : SegmentHolder E :=
  { h with segments := h.segments.insert id segment }

end

/-- Write to a segment. Only ids of segments in the holder are used. -/
def writeSegment (id : SegmentId) (operation : LockedSegment E → OpResult (LockedSegment E)) :
    HolderM E Bool := fun h =>
  match h.segments.get? id with
  | none => .ok false h
  | some segment =>
    match operation segment with
    | (.ok applied, segment) => .ok applied (h.put id segment)
    | (.error err, segment) => .error err (h.put id segment)

def bumpMaxSegmentVersionOverwrite (opNum : SeqNumber) : HolderM E Unit :=
  modify fun h => { h with
    maxPersistedSegmentVersionOverwrite := max h.maxPersistedSegmentVersionOverwrite opNum }

/-! ## Finding points -/

/-- One copy of a point. -/
structure PointOccurrence where
  segmentId : SegmentId
  version : SeqNumber
  isDeferred : Bool

/-- The ids that a segment has. -/
def segmentPoints (ids : List PointId) (segment : LockedSegment E) : List PointId :=
  ids.filter segment.hasPoint

/-- The copies of a point in all segments, for the ids of an update. -/
def occurrences (h : SegmentHolder E) (ids : List PointId) (id : PointId) : List PointOccurrence :=
  h.iter.flatMap fun (segmentId, segment) =>
    ((segmentPoints ids segment).filter (· = id)).filterMap fun id =>
      (segment.pointVersion id).map fun version =>
        { segmentId, version, isDeferred := segment.pointIsDeferred id }

def latestVersion (occurrences : List PointOccurrence) : SeqNumber :=
  (occurrences.map PointOccurrence.version).max?.getD 0

def latestHasNonDeferred (occurrences : List PointOccurrence) : Bool :=
  occurrences.any fun o => o.version = latestVersion occurrences && !o.isDeferred

/-- The selected copies by segment, in the order in which they are visited. -/
def selectPoints (segments : IterOrder SegmentId) (c : Choices) (ids : List PointId)
    (select : List PointOccurrence → PointOccurrence → Bool) (h : SegmentHolder E) :
    List (SegmentId × PointId) :=
  (segments.walk h.segments.keys).flatMap fun segmentId =>
    (c.occurrences.walk ids.toFinset).flatMap fun id =>
      ((h.occurrences ids id).filter fun o =>
        o.segmentId = segmentId && select (h.occurrences ids id) o).map fun _ => (segmentId, id)

/-- `find_points_to_update_and_delete`, the copies to update: those of the latest version. -/
def pointsToUpdate (c : Choices) (ids : List PointId) (h : SegmentHolder E) :
    List (SegmentId × PointId) :=
  h.selectPoints c.toUpdate c ids fun occurrences o => o.version = latestVersion occurrences

/-- `find_points_to_update_and_delete`, the copies to delete: older ones, if neither they nor
all of the latest copies are deferred. -/
def pointsToDelete (c : Choices) (ids : List PointId) (h : SegmentHolder E) :
    List (SegmentId × PointId) :=
  h.selectPoints c.toDelete c ids fun occurrences o =>
    o.version ≠ latestVersion occurrences && (!o.isDeferred && latestHasNonDeferred occurrences)

/-- Out of a list of ids, those that exist in some segment. -/
def selectExistingPoints (ids : List PointId) (h : SegmentHolder E) : Finset PointId :=
  ids.toFinset.filter fun id => h.iter.any (fun (_, segment) => segment.hasPoint id) = true

/-! ## Applying operations to points -/

def deletePointsFromSegments (points : List (SegmentId × PointId)) : HolderM E Unit :=
  points.forM fun (segmentId, id) => do
    let h ← get
    match (h.segments.get? segmentId).bind fun segment => segment.pointVersion id with
    | some version => discard (writeSegment segmentId (LockedSegment.deletePoint version id))
    | none => pure ()

/-- Apply an operation to the latest copies of points, after deleting older copies. The operation
carries its own state. -/
def applyPoints {α : Type} (c : Choices) (ids : List PointId)
    (pointOperation : α → PointId → SegmentId → HolderM E (Bool × α)) (init : α) :
    HolderM E (Nat × α) := do
  let h ← get
  deletePointsFromSegments (h.pointsToDelete c ids)
  (h.pointsToUpdate c ids).foldlM (fun (appliedPoints, state) (segmentId, id) => do
    let (isApplied, state) ← pointOperation state id segmentId
    pure (appliedPoints + isApplied.toNat, state)) (0, init)

/-- An update of single points: `inPlace` changes the segment that has the point, `cow` changes
the data of a point that is moved. -/
structure PointUpdate (E : Type) where
  inPlace : PointId → LockedSegment E → OpResult (LockedSegment E)
  cow : PointId → Record E → Record E

/-- Move a point to an appendable segment and change it there. The source is kept if the point is
deferred in the new place. -/
def movePoint (c : Choices) (opNum : SeqNumber) (update : PointUpdate E)
    (appendableSegments : List SegmentId) (id : PointId) (source : SegmentId)
    (segment : LockedSegment E) : HolderM E Unit := do
  if appendableSegments = [] then
    throw (.serviceError "No appendable segments exists, expected at least one")
  else
    let target := c.randomWrite source id appendableSegments
    modify fun h =>
      { h with flushDependency := h.flushDependency.addDependency source target opNum }
    match segment.retrieve id with
    | .error err => throw err
    | .ok record =>
      let record := update.cow id record
      let _ ← writeSegment target
        (LockedSegment.upsertWithPayload opNum id record.vectors (some record.payload))
      let h ← get
      if (h.segments.get? target).any (fun segment => segment.pointIsDeferred id) then pure ()
      else discard (writeSegment source (LockedSegment.deletePoint opNum id))

/-- What `apply_points_with_conditional_move` does with one copy of a point. -/
def updatePoint (c : Choices) (opNum : SeqNumber) (update : PointUpdate E)
    (appendableSegments : List SegmentId) (appliedPoints : Finset PointId) (id : PointId)
    (segmentId : SegmentId) : HolderM E (Bool × Finset PointId) := do
  let h ← get
  match h.segments.get? segmentId with
  | none => pure (false, appliedPoints)
  | some segment =>
    if (segment.pointVersion id).any (fun pointVersion => opNum ≤ pointVersion) then
      pure (false, insert id appliedPoints)
    else if segment.isOriginal && segment.isAppendable then
      let isApplied ← writeSegment segmentId (update.inPlace id)
      pure (isApplied, insert id appliedPoints)
    else
      movePoint c opNum update appendableSegments id segmentId segment
      pure (true, insert id appliedPoints)

def applyPointsWithConditionalMove (c : Choices) (opNum : SeqNumber) (ids : List PointId)
    (update : PointUpdate E) : HolderM E (Finset PointId) := do
  let h ← get
  let (_, appliedPoints) ← applyPoints c ids
    (updatePoint c opNum update h.appendableSegmentsIds) ∅
  pure appliedPoints

/-! ## Copies of points

All that the holder shows of its points is `copy segmentId id`. The newest copies of a
point are what users see of it: `Newest`. The lemmas here say which copies
`find_points_to_update_and_delete` selects and what deleting and moving copies does.
-/

open LockedSegment List Wp

def copy (h : SegmentHolder E) (segmentId : SegmentId) (id : PointId) : Option (Copy E) :=
  (h.segments.get? segmentId).bind fun segment => segment.copy id

/-- No copy of the point is newer. -/
def Latest (h : SegmentHolder E) (id : PointId) (version : SeqNumber) : Prop :=
  ∀ s c, h.copy s id = some c → c.version ≤ version

/-- The newest copies of a point have this version and this content. -/
structure Newest (h : SegmentHolder E) (id : PointId) (version : SeqNumber) (record : Record E) :
    Prop where
  exists_copy : ∃ s c, h.copy s id = some c ∧ c.version = version ∧ c.record = record
  latest : h.Latest id version
  unique : ∀ s c, h.copy s id = some c → c.version = version → c.record = record

/-- Copies of the same version have the same content. -/
def Coherent (h : SegmentHolder E) : Prop :=
  ∀ id s t c c', h.copy s id = some c → h.copy t id = some c' → c.version = c'.version →
    c.record = c'.record

/-- The point has a copy that is not deferred. -/
def Visible (h : SegmentHolder E) (id : PointId) : Prop :=
  ∃ s c, h.copy s id = some c ∧ c.deferred = false

variable {h h' : SegmentHolder E} {c : Choices} {ids : List PointId} {id : PointId}
  {s : SegmentId}
variable {segment : LockedSegment E}

theorem copy_of_get (hs : h.segments.get? s = some segment) : h.copy s id = segment.copy id := by
  rw [copy, hs, Option.bind_some]

theorem copy_eq_some {copy : Copy E} :
    h.copy s id = some copy ↔ ∃ segment, h.segments.get? s = some segment ∧
      segment.copy id = some copy := by
  rw [SegmentHolder.copy, Option.bind_eq_some_iff]

theorem get?_put (t : SegmentId) (segment : LockedSegment E) :
    (h.put s segment).segments.get? t = if t = s then some segment else h.segments.get? t :=
  HashMap.get?_insert _ _ _ _

theorem copy_put (segment : LockedSegment E) (t : SegmentId) (id : PointId) :
    (h.put s segment).copy t id = if t = s then segment.copy id else h.copy t id := by
  unfold copy
  rw [get?_put]
  split <;> rfl

variable {segment' : LockedSegment E}

/-- Writing one point of a segment. -/
theorem copy_put_of {x : Option (Copy E)} (hs : h.segments.get? s = some segment)
    (hcopies : ∀ id', segment'.copy id' = if id' = id then x else segment.copy id') (t : SegmentId)
    (id' : PointId) :
    (h.put s segment').copy t id' = if t = s ∧ id' = id then x else h.copy t id' := by
  rw [copy_put]
  by_cases ht : t = s
  · rw [if_pos ht, ht, copy_of_get hs, hcopies]
    simp only [true_and]
  · rw [if_neg ht, if_neg fun hand => ht hand.1]

/-- A point has at most one newest content. -/
theorem Newest.eq {v v' : SeqNumber} {r r' : Record E} (hnewest : h.Newest id v r)
    (hnewest' : h.Newest id v' r') : v = v' ∧ r = r' := by
  obtain ⟨⟨s, c, hcopy, hversion, hrecord⟩, hlatest, -⟩ := hnewest
  obtain ⟨⟨s', c', hcopy', hversion', -⟩, hlatest', hunique'⟩ := hnewest'
  have hle : v ≤ v' := hversion ▸ hlatest' s c hcopy
  have hle' : v' ≤ v := hversion' ▸ hlatest s' c' hcopy'
  have heq : v = v' := Nat.le_antisymm hle hle'
  exact ⟨heq, hrecord ▸ hunique' s c hcopy (hversion.trans heq)⟩

/-! ## Finding copies -/

theorem mem_iter : (s, segment) ∈ h.iter ↔ h.segments.get? s = some segment := by
  unfold iter segmentIds
  simp only [mem_filterMap, mem_append, appendableSegmentsIds, nonAppendableSegmentsIds,
    IterOrder.mem_walk, Finset.mem_filter, HashMap.mem_keys_iff, Option.map_eq_some_iff,
    Prod.mk.injEq]
  constructor
  · rintro ⟨t, -, seg, hseg, rfl, rfl⟩
    exact hseg
  · intro hs
    refine ⟨s, ?_, segment, hs, rfl, rfl⟩
    rw [← and_or_left]
    exact ⟨⟨segment, hs⟩, Bool.eq_false_or_eq_true _⟩

variable {o : PointOccurrence}

theorem mem_occurrences :
    o ∈ h.occurrences ids id ↔ id ∈ ids ∧ ∃ copy, h.copy o.segmentId id = some copy ∧
      o.version = copy.version ∧ o.isDeferred = copy.deferred := by
  unfold occurrences segmentPoints
  simp only [mem_flatMap, Prod.exists, mem_iter, mem_filterMap, mem_filter,
    decide_eq_true_eq, Option.map_eq_some_iff]
  constructor
  · rintro ⟨s, segment, hs, id', ⟨⟨hid, hhas⟩, rfl⟩, version, hversion, rfl⟩
    rw [hasPoint_eq_copy, Option.isSome_iff_exists] at hhas
    obtain ⟨copy, hcopy⟩ := hhas
    refine ⟨hid, copy, ?_, ?_, pointIsDeferred_of_copy hcopy⟩
    · exact (copy_of_get hs).trans hcopy
    · rw [pointVersion_of_copy hcopy] at hversion
      exact (Option.some.inj hversion).symm
  · rintro ⟨hid, copy, hcopy, hversion, hdeferred⟩
    obtain ⟨segment, hs, hcopy⟩ := copy_eq_some.mp hcopy
    refine ⟨o.segmentId, segment, hs, id, ⟨⟨hid, ?_⟩, rfl⟩, copy.version,
      pointVersion_of_copy hcopy, ?_⟩
    · rw [hasPoint_eq_copy, hcopy]
      rfl
    · rw [pointIsDeferred_of_copy hcopy, ← hversion, ← hdeferred]

theorem mem_occurrences_of_copy {copy : Copy E} (hid : id ∈ ids) (hcopy : h.copy s id = some copy) :
    ⟨s, copy.version, copy.deferred⟩ ∈ h.occurrences ids id :=
  mem_occurrences.mpr ⟨hid, copy, hcopy, rfl, rfl⟩

theorem exists_latestVersion (ho : o ∈ h.occurrences ids id) :
    ∃ o' ∈ h.occurrences ids id, o'.version = latestVersion (h.occurrences ids id) := by
  have hmem := mem_map_of_mem (f := PointOccurrence.version) ho
  obtain ⟨version, hversion⟩ := Option.isSome_iff_exists.mp (isSome_max?_of_mem hmem)
  obtain ⟨o', ho', rfl⟩ := mem_map.mp (max?_mem hversion)
  refine ⟨o', ho', ?_⟩
  rw [latestVersion, hversion, Option.getD_some]

/-- The latest of the copies that were found is the latest of all copies. -/
theorem eq_latestVersion (ho : o ∈ h.occurrences ids id) :
    o.version = latestVersion (h.occurrences ids id) ↔ h.Latest id o.version := by
  constructor
  · intro hlatest s copy hcopy
    rw [hlatest]
    exact le_max?_getD_of_mem (mem_map.mpr
      ⟨_, mem_occurrences_of_copy (mem_occurrences.mp ho).1 hcopy, rfl⟩)
  · intro hlatest
    obtain ⟨o', ho', hversion⟩ := exists_latestVersion ho
    obtain ⟨-, copy, hcopy, hcopyVersion, -⟩ := mem_occurrences.mp ho'
    refine Nat.le_antisymm (le_max?_getD_of_mem (mem_map_of_mem ho)) ?_
    exact (hversion.symm.trans hcopyVersion).trans_le (hlatest _ _ hcopy)

variable {select : List PointOccurrence → PointOccurrence → Bool}

variable {order : IterOrder SegmentId}

theorem mem_selectPoints : (s, id) ∈ h.selectPoints order c ids select ↔
      ∃ o ∈ h.occurrences ids id, o.segmentId = s ∧ select (h.occurrences ids id) o = true := by
  unfold selectPoints
  simp only [mem_flatMap, IterOrder.mem_walk, mem_toFinset, mem_map,
    mem_filter, Bool.and_eq_true, decide_eq_true_eq, Prod.mk.injEq]
  constructor
  · rintro ⟨s', -, id', -, o, ⟨ho, hs, hselect⟩, rfl, rfl⟩
    exact ⟨o, ho, hs, hselect⟩
  · rintro ⟨o, ho, rfl, hselect⟩
    obtain ⟨hid, copy, hcopy, -⟩ := mem_occurrences.mp ho
    obtain ⟨segment, hsegment, -⟩ := copy_eq_some.mp hcopy
    exact ⟨_, HashMap.mem_keys_iff.mpr ⟨segment, hsegment⟩, id, hid, o, ⟨ho, rfl, hselect⟩, rfl, rfl⟩

theorem nodup_segmentIds : h.segmentIds.Nodup := by
  apply List.Nodup.append (IterOrder.nodup _ _) (IterOrder.nodup _ _)
  intro s happ hnon
  rw [IterOrder.mem_walk, Finset.mem_filter] at happ hnon
  rw [happ.2] at hnon
  cases hnon.2

theorem segmentPoints_filter_eq (hids : ids.Nodup) (segment : LockedSegment E) :
    (segmentPoints ids segment).filter (· = id) = [] ∨
      (segmentPoints ids segment).filter (· = id) = [id] := by
  have hle := nodup_iff_count_le_one.mp (hids.filter segment.hasPoint) id
  rw [segmentPoints, filter_eq]
  rcases Nat.le_one_iff_eq_zero_or_eq_one.mp hle with hcount | hcount
  · exact .inl (by rw [hcount]; rfl)
  · exact .inr (by rw [hcount]; rfl)

/-- An update without repeated ids finds a point at most once in every segment. -/
theorem nodup_occurrences (h : SegmentHolder E) (id : PointId) (hids : ids.Nodup) :
    ((h.occurrences ids id).map PointOccurrence.segmentId).Nodup := by
  have hsub : ((h.occurrences ids id).map PointOccurrence.segmentId).Sublist h.segmentIds := by
    unfold occurrences iter
    induction h.segmentIds with
    | nil => exact List.Sublist.slnil
    | cons s rest ih =>
      cases hs : h.segments.get? s with
      | none =>
        rw [filterMap_cons_none (by rw [hs]; rfl)]
        exact ih.cons s
      | some segment =>
        rw [filterMap_cons_some (b := (s, segment)) (by rw [hs]; rfl), flatMap_cons,
          map_append, ← singleton_append]
        refine List.Sublist.append ?_ ih
        dsimp only
        rcases segmentPoints_filter_eq hids segment with hnone | hone
        · rw [hnone]
          exact nil_sublist _
        · rw [hone, filterMap_cons]
          cases segment.pointVersion id with
          | none => exact nil_sublist _
          | some version => exact List.Sublist.refl _
  exact hsub.nodup nodup_segmentIds

theorem nodup_selectPoints (hids : ids.Nodup) : (h.selectPoints order c ids select).Nodup := by
  refine nodup_flatMap.mpr ⟨fun s _ => nodup_flatMap.mpr ⟨fun id _ => ?_, ?_⟩, ?_⟩
  · have hmap : ∀ o ∈ (h.occurrences ids id).filter (fun o =>
        o.segmentId = s && select (h.occurrences ids id) o), (s, id) = (o.segmentId, id) := by
      intro o ho
      have hselected := (mem_filter.mp ho).2
      rw [Bool.and_eq_true, decide_eq_true_eq] at hselected
      rw [hselected.1]
    have hpairs : ((h.occurrences ids id).map fun o => (o.segmentId, id)).Nodup := by
      have hnodup := (nodup_occurrences h id hids).map
        (f := fun s => (s, id)) fun _ _ heq => (Prod.mk.inj heq).1
      rwa [map_map] at hnodup
    rw [map_congr_left hmap]
    exact (filter_sublist.map _).nodup hpairs
  · refine (c.occurrences.nodup _).imp fun hne => ?_
    intro x hx hx'
    obtain ⟨o, -, rfl⟩ := mem_map.mp hx
    obtain ⟨o', -, heq⟩ := mem_map.mp hx'
    exact hne (Prod.mk.inj heq).2.symm
  · refine (order.nodup _).imp fun hne => ?_
    intro x hx hx'
    obtain ⟨id, -, hid⟩ := mem_flatMap.mp hx
    obtain ⟨id', -, hid'⟩ := mem_flatMap.mp hx'
    obtain ⟨o, -, rfl⟩ := mem_map.mp hid
    obtain ⟨o', -, heq⟩ := mem_map.mp hid'
    exact hne (Prod.mk.inj heq).1.symm

theorem mem_pointsToUpdate : (s, id) ∈ h.pointsToUpdate c ids ↔
      id ∈ ids ∧ ∃ copy, h.copy s id = some copy ∧ h.Latest id copy.version := by
  unfold pointsToUpdate
  rw [mem_selectPoints]
  constructor
  · rintro ⟨o, ho, rfl, hlatest⟩
    rw [decide_eq_true_eq, eq_latestVersion ho] at hlatest
    obtain ⟨hid, copy, hcopy, hversion, -⟩ := mem_occurrences.mp ho
    exact ⟨hid, copy, hcopy, hversion ▸ hlatest⟩
  · rintro ⟨hid, copy, hcopy, hlatest⟩
    have ho := mem_occurrences_of_copy hid hcopy
    exact ⟨_, ho, rfl, decide_eq_true ((eq_latestVersion ho).mpr hlatest)⟩

/-- Copies that are deleted are not deferred, and there is a newer copy that is not deferred. -/
theorem mem_pointsToDelete : (s, id) ∈ h.pointsToDelete c ids ↔
      id ∈ ids ∧ ∃ copy, h.copy s id = some copy ∧ copy.deferred = false ∧
        ∃ t latest, h.copy t id = some latest ∧ h.Latest id latest.version ∧
          latest.deferred = false ∧ copy.version < latest.version := by
  unfold pointsToDelete latestHasNonDeferred
  rw [mem_selectPoints]
  simp only [Bool.and_eq_true, decide_eq_true_eq, Bool.not_eq_true', any_eq_true]
  constructor
  · rintro ⟨o, ho, rfl, hold, hdeferred, o', ho', hlatest, hdeferred'⟩
    obtain ⟨hid, copy, hcopy, hversion, hcopyDeferred⟩ := mem_occurrences.mp ho
    obtain ⟨-, latest, hlatestCopy, hlatestVersion, hlatestDeferred⟩ := mem_occurrences.mp ho'
    have hLatest := (eq_latestVersion ho').mp hlatest
    refine ⟨hid, copy, hcopy, hcopyDeferred ▸ hdeferred, o'.segmentId, latest, hlatestCopy,
      hlatestVersion ▸ hLatest, hlatestDeferred ▸ hdeferred', ?_⟩
    rw [← hversion, ← hlatestVersion]
    exact Nat.lt_of_le_of_ne (hversion.trans_le (hLatest _ _ hcopy)) (hlatest.symm ▸ hold)
  · rintro ⟨hid, copy, hcopy, hdeferred, t, latest, hlatestCopy, hLatest, hlatestDeferred, hlt⟩
    have ho := mem_occurrences_of_copy hid hcopy
    have ho' := mem_occurrences_of_copy hid hlatestCopy
    have hlatest := (eq_latestVersion ho').mpr hLatest
    refine ⟨_, ho, rfl, ?_, hdeferred, _, ho', hlatest, hlatestDeferred⟩
    rw [← hlatest]
    exact Nat.ne_of_lt hlt

/-! ## What no update of points changes -/

/-- The same segments up to what point operations change. -/
def SameShape (h h' : SegmentHolder E) : Prop :=
  ∀ s, Option.Rel LockedSegment.SameShape (h.segments.get? s) (h'.segments.get? s)

def Healthy (h : SegmentHolder E) : Prop :=
  ∀ s segment, h.segments.get? s = some segment → segment.Healthy

theorem SameShape.refl (h : SegmentHolder E) : SameShape h h := by
  intro s
  cases h.segments.get? s with
  | none => exact .none
  | some segment => exact .some (.refl segment)

theorem SameShape.trans {h₁ h₂ h₃ : SegmentHolder E} (h : SameShape h₁ h₂) (h' : SameShape h₂ h₃) :
    SameShape h₁ h₃ := by
  intro s
  have hs := h s
  have hs' := h' s
  revert hs hs'
  cases h₁.segments.get? s <;> cases h₂.segments.get? s <;> cases h₃.segments.get? s <;>
    intro hs hs' <;> cases hs <;> cases hs'
  · exact .none
  · next hs hs' => exact .some (hs.trans hs')

theorem SameShape.symm (hshape : SameShape h h') : SameShape h' h := by
  intro s
  have hs := hshape s
  revert hs
  cases h.segments.get? s <;> cases h'.segments.get? s <;> intro hs <;> cases hs
  · exact .none
  · next hs => exact .some hs.symm

theorem SameShape.exists_of_get (hshape : SameShape h' h) (hs : h.segments.get? s = some segment) :
    ∃ segment', h'.segments.get? s = some segment' ∧ segment'.SameShape segment := by
  have hrel := hshape s
  rw [hs] at hrel
  cases hs' : h'.segments.get? s with
  | none =>
    rw [hs'] at hrel
    cases hrel
  | some segment' =>
    rw [hs'] at hrel
    cases hrel with
    | some hrel => exact ⟨segment', rfl, hrel⟩

theorem sameShape_put (hs : h.segments.get? s = some segment)
    (hshape : segment'.SameShape segment) : SameShape (h.put s segment') h := by
  intro t
  rw [get?_put]
  split
  · next heq =>
    rw [heq, hs]
    exact .some hshape
  · exact SameShape.refl h t

theorem Healthy.put (hh : h.Healthy) (hsegment : segment.Healthy) : (h.put s segment).Healthy := by
  intro t seg hseg
  rw [get?_put] at hseg
  split at hseg
  · cases hseg
    exact hsegment
  · exact hh t seg hseg

/-! ## Writing to segments -/

section Writing

variable {R : OperationError → SegmentHolder E → Prop}
variable {segment : LockedSegment E}

theorem wp_writeSegment {operation : LockedSegment E → OpResult (LockedSegment E)}
    {Q : Bool → SegmentHolder E → Prop} (hs : h.segments.get? s = some segment) :
    wp (writeSegment s operation) Q R h = match operation segment with
      | (.ok applied, segment) => Q applied (h.put s segment)
      | (.error err, segment) => R err (h.put s segment) := by
  unfold wp writeSegment
  simp only [hs]
  rcases operation segment with ⟨_ | _, _⟩ <;> rfl

/-- Delete a copy. Deletes only fail in failed segments. -/
theorem wp_deletePoint {opNum : SeqNumber}
    (hs : h.segments.get? s = some segment) (hle : ∀ c, h.copy s id = some c → c.version ≤ opNum)
    (hR : (∀ e h, R e h) ∨ h.Healthy) :
    wp (writeSegment s (LockedSegment.deletePoint opNum id)) (fun _ h' =>
      SameShape h' h ∧ (h.Healthy → h'.Healthy) ∧
        (∀ t, t ≠ s → h'.segments.get? t = h.segments.get? t) ∧
        ∀ t id', h'.copy t id' = if t = s ∧ id' = id then none else h.copy t id') R h := by
  rw [wp_writeSegment hs]
  have hle' : ∀ c, segment.copy id = some c → c.version ≤ opNum := by
    rwa [copy_of_get hs] at hle
  have hhealthy : h.Healthy → ∃ b segment', segment.deletePoint opNum id = (.ok b, segment') ∧
      segment'.Healthy := fun hh => deletePoint_of_healthy (hh s segment hs)
  rcases hdelete : segment.deletePoint opNum id with ⟨_ | b, segment'⟩
  · rcases hR with hR | hh
    · exact hR _ _
    · obtain ⟨b, seg, hok, -⟩ := hhealthy hh
      rw [hdelete] at hok
      cases hok
  · obtain ⟨hshape, hcopy⟩ := deletePoint_ok hdelete hle'
    refine ⟨sameShape_put hs hshape, fun hh => ?_, fun t ht => (get?_put t _).trans (if_neg ht),
      fun t id' => ?_⟩
    · obtain ⟨b', seg, hok, hseg⟩ := hhealthy hh
      rw [hdelete] at hok
      cases hok
      exact hh.put hseg
    · exact copy_put_of hs hcopy t id'

theorem wp_deletePointsFromSegments (points : List (SegmentId × PointId))
    (hR : (∀ e h, R e h) ∨ h.Healthy) :
    wp (deletePointsFromSegments points) (fun _ h' =>
      SameShape h' h ∧ (h.Healthy → h'.Healthy) ∧
        (∀ s, (∀ id, (s, id) ∉ points) → h'.segments.get? s = h.segments.get? s) ∧
        ∀ s id, h'.copy s id = if (s, id) ∈ points then none else h.copy s id) R h := by
  let inv : List (SegmentId × PointId) → SegmentHolder E → Prop := fun rest h' =>
    rest ⊆ points ∧ SameShape h' h ∧ (h.Healthy → h'.Healthy) ∧
      (∀ s, (∀ id, (s, id) ∉ points) → h'.segments.get? s = h.segments.get? s) ∧
      ∀ s id, (s, id) ∉ rest → h'.copy s id = if (s, id) ∈ points then none else h.copy s id
  have hstart : inv points h :=
    ⟨List.Subset.refl _, .refl h, id, fun _ _ => rfl, fun _ _ hs => (if_neg hs).symm⟩
  refine wp_conseq (wp_forM inv ?_ points hstart) ?_
  · rintro ⟨s, id⟩ rest h₁ ⟨hsub, hshape, hhealthy, hframe, hcopies⟩
    obtain ⟨hmem, hsub⟩ := cons_subset.mp hsub
    -- what is left to show once the copy is gone
    have hgone : ∀ h₂ : SegmentHolder E, SameShape h₂ h₁ → (h₁.Healthy → h₂.Healthy) →
        (∀ t, t ≠ s → h₂.segments.get? t = h₁.segments.get? t) →
        (∀ t id', h₂.copy t id' = if t = s ∧ id' = id then none else h₁.copy t id') →
        inv rest h₂ := by
      intro h₂ hshape₂ hhealthy₂ hframe₂ hcopies₂
      refine ⟨hsub, hshape₂.trans hshape, hhealthy₂ ∘ hhealthy, fun t ht => ?_,
        fun t id' hrest => ?_⟩
      · have hne : t ≠ s := by
          rintro rfl
          exact ht id hmem
        rw [hframe₂ t hne, hframe t ht]
      rw [hcopies₂]
      split
      · next heq =>
        obtain ⟨rfl, rfl⟩ := heq
        rw [if_pos hmem]
      · next hne =>
        apply hcopies
        rw [mem_cons, Prod.mk.injEq]
        exact not_or.mpr ⟨hne, hrest⟩
    simp only [wp_bind, wp_get]
    cases hversion : (h₁.segments.get? s).bind fun segment => segment.pointVersion id with
    | none =>
      have hnone : h₁.copy s id = none := by
        cases hcopy : h₁.copy s id with
        | none => rfl
        | some copy =>
          obtain ⟨segment, hs, hcopy⟩ := copy_eq_some.mp hcopy
          rw [hs, Option.bind_some, pointVersion_of_copy hcopy] at hversion
          cases hversion
      refine hgone h₁ (.refl h₁) (fun hh => hh) (fun _ _ => rfl) fun t id' => ?_
      split
      · next heq => rw [heq.1, heq.2, hnone]
      · rfl
    | some version =>
      obtain ⟨segment, hs, hsegment⟩ := Option.bind_eq_some_iff.mp hversion
      have hle : ∀ c, h₁.copy s id = some c → c.version ≤ version := by
        intro c hc
        rw [copy_of_get hs] at hc
        rw [pointVersion_of_copy hc] at hsegment
        exact (Option.some.inj hsegment).le
      rw [wp_discard]
      apply wp_conseq (wp_deletePoint hs hle (hR.imp_right hhealthy))
      rintro - h₂ ⟨hshape₂, hhealthy₂, hframe₂, hcopies₂⟩
      exact hgone h₂ hshape₂ hhealthy₂ hframe₂ hcopies₂
  · rintro - h' ⟨-, hshape, hhealthy, hframe, hcopies⟩
    exact ⟨hshape, hhealthy, hframe, fun s id => hcopies s id not_mem_nil⟩

end Writing

end SegmentHolder

end Qdrant
