-- SUMMARY: When an operation has the same result in place and by copy on write.
import Qdrant.Shard.PointOperation

/-!
# Segment layout

Whether a point is updated in place or moved depends on the segment that its latest copy
lives in. The two forms of an operation do not always lead to the same content:

* an upsert in place replaces all vectors and clears the payload if none is given, while
  a moved point keeps the vectors that are not given and its payload;
* deleting vectors in place stops at the first unknown name;
* a payload with nulls is stored as it is if the point had no payload, while merging
  drops the nulls;
* the vectors of a moved point are preprocessed once more;
* a vector that its storage does not take, such as a multi vector for a plain dense name,
  ends a write in place half-way, while the point is not moved at all.

`FormsAgree` says when none of this shows, and `layout_newest_iff` that it is exactly the
condition under which the layout does not matter.
-/

namespace Qdrant

open HashMap SegmentConfig PointOperation LockedSegment List

variable {E : Type}

namespace PointOperation

section

variable (config : SegmentConfig E) (order : IterOrder VectorName)

/-- The vectors of a request are checked and written to the storages of these names. What was
written before a failure stays. -/
def writeInPlace (vectors : NamedVectors E) (names : List VectorName) (p : StoredPoint E)
    (done : NamedVectors E → StoredPoint E) : StoredPoint E :=
  match config.checkNamedVectors vectors with
  | .error _ => p
  | .ok () =>
    match config.writeVectors (config.preprocess vectors) names p.vectors with
    | (.ok (), written) => done written
    | (.error _, written) => { p with vectors := written }

/-- The stored point after the operation was run in place, also if it failed. An upsert writes the
storages in this order. -/
def attempt (opNum : SeqNumber) : PointOperation E → StoredPoint E → StoredPoint E
  | .upsert vectors payload, p =>
    writeInPlace config vectors (config.replacedNames order p.vectors) p fun written =>
      { p with vectors := written, payload, version := opNum }
  | .updateVectors requestOrder vectors, p =>
    writeInPlace config vectors (requestOrder.walk (config.preprocess vectors).keys) p fun written =>
      { p with vectors := written, version := opNum }
  | .deleteVectors names, p =>
    (deleteVectors (names.takeWhile config.hasVectorName)).stored config opNum p
  | operation, p => operation.stored config opNum p

open Classical in
/-- The content of a point after the operation tried to move it. -/
noncomputable def movedOrKept (operation : PointOperation E) (r : Record E) : Record E :=
  if config.Fits (operation.cow r).vectors then operation.moved config r else r

/-- The stored vectors that satisfy the condition stay as they are when they are written again. -/
def StableOn (vectors : NamedVectors E) (kept : VectorName → Prop) : Prop :=
  ∀ name vector, vectors.get? name = some vector → kept name →
    config.storedVector name vector = vector

/-- A request that is rejected by one of these storages, after the checks, changes nothing. -/
def HarmlessFailure (vectors : NamedVectors E) (names : List VectorName) (stored : NamedVectors E) :
    Prop :=
  config.Accepts vectors → ¬ config.Storable vectors →
    (config.writeVectors (config.preprocess vectors) names stored).2 = stored

/-- The condition under which both forms of an operation lead to the same content. -/
def FormsAgree : PointOperation E → StoredPoint E → Prop
  | .upsert vectors payload, p =>
    (config.Fits vectors → (∀ name, p.vectors.get? name ≠ none → vectors.get? name ≠ none) ∧
      (payload ≠ none ∨ p.record.payload = .empty)) ∧
    HarmlessFailure config vectors (config.replacedNames order p.vectors) p.vectors
  | .updateVectors requestOrder vectors, p =>
    (config.Fits vectors → StableOn config p.vectors fun name => vectors.get? name = none) ∧
    HarmlessFailure config vectors (requestOrder.walk (config.preprocess vectors).keys) p.vectors
  | .deleteVectors names, p =>
    (∀ name ∈ names, name ∉ names.takeWhile config.hasVectorName → p.vectors.get? name = none) ∧
      StableOn config p.vectors (· ∉ names)
  | .setPayload payload key, p =>
    StableOn config p.vectors (fun _ => True) ∧
      (p.payload ≠ none ∨ key ≠ none ∨ ∀ field ∈ payload.fields, field.2 ≠ .null)
  | .overwritePayload _, p => StableOn config p.vectors fun _ => True
  | .deletePayload _, p => StableOn config p.vectors fun _ => True
  | .clearPayload, p => StableOn config p.vectors fun _ => True

end

/-! ## Comparing the two forms -/

section Compare

variable {config : SegmentConfig E} {order requestOrder : IterOrder VectorName}
  {p : StoredPoint E} {vectors : NamedVectors E} {opNum : SeqNumber}

theorem record_eq_iff {r r' : Record E} :
    r = r' ↔ (∀ name, r.vectors.get? name = r'.vectors.get? name) ∧ r.payload = r'.payload := by
  rw [Record.ext_iff, HashMap.ext_iff]

/-- What holds of all stored vectors holds of the merged ones if it holds of the given ones. -/
theorem forall_get?_union (vectors : NamedVectors E) {P : VectorName → VectorInternal E → Prop}
    (hstored : ∀ name vector, p.vectors.get? name = some vector → P name vector) :
    (∀ name vector, (vectors.union p.vectors).get? name = some vector → P name vector) ↔
      ∀ name vector, vectors.get? name = some vector → P name vector := by
  constructor
  · intro h name vector hget
    exact h name vector (by rw [get?_union, hget, Option.some_or])
  · intro h name vector hget
    rw [get?_union, Option.or_eq_some_iff] at hget
    exact hget.elim (h name vector) fun hget => hstored name vector hget.2

theorem fits_union (hstored : config.Fits p.vectors) :
    config.Fits (vectors.union p.vectors) ↔ config.Fits vectors := by
  have haccepts := forall_get?_union vectors hstored.accepts
  have hstorable := forall_get?_union vectors hstored.storable
  exact ⟨fun h => ⟨haccepts.mp h.1, hstorable.mp h.2⟩, fun h => ⟨haccepts.mpr h.1, hstorable.mpr h.2⟩⟩

theorem get?_foldl_erase (names : List VectorName) (m : NamedVectors E) (name : VectorName) :
    (names.foldl HashMap.erase m).get? name = if name ∈ names then none else m.get? name := by
  induction names generalizing m with
  | nil => rfl
  | cons first names ih =>
    rw [foldl_cons, ih, get?_erase]
    grind

/-- A stored vector is the same when it is written again, or there is none. -/
theorem eq_map_storedVector_iff (name : VectorName) :
    (p.vectors.get? name = (p.vectors.get? name).map (config.storedVector name)) ↔
      ∀ vector, p.vectors.get? name = some vector → config.storedVector name vector = vector := by
  cases p.vectors.get? name with
  | none => simp
  | some v => simp [eq_comm]

/-! ### Requests with vectors -/

theorem attempt_upsert_of_fits (payload : Option Payload) (h : config.Fits vectors) :
    (upsert vectors payload).attempt config order opNum p =
      (upsert vectors payload).stored config opNum p := by
  rw [attempt, writeInPlace, checkNamedVectors_eq_ok.mpr h.accepts, h.writeVectors_replaced]
  rfl

theorem attempt_updateVectors_of_fits (h : config.Fits vectors) :
    (updateVectors requestOrder vectors).attempt config order opNum p =
      (updateVectors requestOrder vectors).stored config opNum p := by
  rw [attempt, writeInPlace, checkNamedVectors_eq_ok.mpr h.accepts, h.writeVectors_overwritten]
  rfl

section

variable {names : List VectorName} {done : NamedVectors E → StoredPoint E}

theorem writeInPlace_of_not_accepts (h : ¬ config.Accepts vectors) :
    writeInPlace config vectors names p done = p := by
  obtain ⟨err, herr⟩ := checkNamedVectors_eq_error h
  rw [writeInPlace, herr]

theorem writeInPlace_of_not_storable (haccepts : config.Accepts vectors)
    (hv : ¬ config.Storable vectors) (hnames : ∀ name ∈ vectors.keys, name ∈ names) :
    writeInPlace config vectors names p done = { p with
      vectors := (config.writeVectors (config.preprocess vectors) names p.vectors).2 } := by
  obtain ⟨err, written, herr⟩ := writeVectors_of_not_storable hv hnames p.vectors
  rw [writeInPlace, checkNamedVectors_eq_ok.mpr haccepts, herr]

/-- What a request that is rejected leaves in place, compared with the point that is not moved. -/
theorem record_writeInPlace_iff (hv : ¬ config.Fits vectors)
    (hnames : config.Accepts vectors → ∀ name ∈ vectors.keys, name ∈ names) :
    (writeInPlace config vectors names p done).record = p.record ↔
      HarmlessFailure config vectors names p.vectors := by
  unfold HarmlessFailure
  by_cases haccepts : config.Accepts vectors
  · have hstorable : ¬ config.Storable vectors := fun h => hv ⟨haccepts, h⟩
    rw [writeInPlace_of_not_storable haccepts hstorable (hnames haccepts),
      forall_prop_of_true haccepts, forall_prop_of_true hstorable]
    exact ⟨congrArg Record.vectors, fun h => by rw [h]⟩
  · rw [writeInPlace_of_not_accepts haccepts, forall_prop_of_false haccepts]
    exact iff_of_true rfl trivial

end

variable (hstored : config.Fits p.vectors)

include hstored

/-- An operation that adds vectors. -/
theorem vectors_forms_agree_iff {operation : PointOperation E} {names : List VectorName}
    (hcow : (operation.cow p.record).vectors = vectors.union p.vectors)
    (hfits : config.Fits vectors →
      operation.attempt config order opNum p = operation.stored config opNum p)
    {done : NamedVectors E → StoredPoint E}
    (hattempt : operation.attempt config order opNum p = writeInPlace config vectors names p done)
    (hnames : config.Accepts vectors → ∀ name ∈ vectors.keys, name ∈ names) :
    (operation.attempt config order opNum p).record = operation.movedOrKept config p.record ↔
      (config.Fits vectors →
        (operation.content config p).record = operation.moved config p.record) ∧
      HarmlessFailure config vectors names p.vectors := by
  unfold movedOrKept
  rw [hcow, fits_union hstored]
  by_cases hv : config.Fits vectors
  · rw [if_pos hv, hfits hv, forall_prop_of_true hv]
    exact (and_iff_left fun _ hstorable => absurd hv.storable hstorable).symm
  · rw [if_neg hv, forall_prop_of_false hv, true_and, hattempt]
    exact record_writeInPlace_iff hv hnames

/-! ### All operations -/

/-- An operation that only changes the payload. -/
theorem payload_forms_agree_iff {operation : PointOperation E}
    (hattempt : operation.attempt config order opNum p = operation.stored config opNum p)
    (hvectors : (operation.content config p).vectors = p.vectors)
    (hcow : (operation.cow p.record).vectors = p.vectors) :
    (operation.attempt config order opNum p).record = operation.movedOrKept config p.record ↔
      StableOn config p.vectors (fun _ => True) ∧
        (operation.content config p).payload.getD .empty = (operation.cow p.record).payload := by
  have hmoved : operation.movedOrKept config p.record = operation.moved config p.record :=
    if_pos (hcow ▸ hstored)
  rw [hmoved, hattempt, record_eq_iff]
  refine and_congr ?_ Iff.rfl
  have hrecord : (operation.stored config opNum p).record.vectors = p.vectors := hvectors
  simp only [hrecord, moved, hcow, get?_storedVectors, eq_map_storedVector_iff, StableOn,
    forall_true_left]

theorem deleteVectors_forms_agree_iff (names : List VectorName) :
    ((deleteVectors names).attempt config order opNum p).record =
        (deleteVectors names).movedOrKept config p.record ↔
      (deleteVectors names).FormsAgree config order p := by
  have hsubset : ∀ name vector, (names.foldl erase p.vectors).get? name = some vector →
      p.vectors.get? name = some vector := by
    intro name vector hget
    rw [get?_foldl_erase] at hget
    split at hget
    · cases hget
    · exact hget
  have hfits : config.Fits ((deleteVectors names).cow p.record).vectors :=
    ⟨fun name vector hget => hstored.accepts name vector (hsubset name vector hget),
      fun name vector hget => hstored.storable name vector (hsubset name vector hget)⟩
  have hsub : ∀ name, name ∈ names.takeWhile config.hasVectorName → name ∈ names := fun _ h =>
    takeWhile_subset _ h
  unfold movedOrKept FormsAgree
  rw [if_pos hfits, attempt, record_eq_iff]
  refine Iff.trans (and_iff_left rfl) ?_
  simp only [stored, content, StoredPoint.record, moved, cow, get?_storedVectors,
    get?_foldl_erase, StableOn, ← forall_and]
  refine forall_congr' fun name => ?_
  by_cases hnames : name ∈ names
  · by_cases hdeleted : name ∈ names.takeWhile config.hasVectorName
    · simp [hnames]
    · simp [hnames]
  · have hkept : name ∉ names.takeWhile config.hasVectorName := fun h => hnames (hsub name h)
    simpa [hnames, hkept] using eq_map_storedVector_iff name

/-- The two forms of an operation lead to the same content exactly under the condition. -/
theorem forms_agree_iff (operation : PointOperation E) :
    (operation.attempt config order opNum p).record = operation.movedOrKept config p.record ↔
      operation.FormsAgree config order p := by
  cases operation with
  | upsert vectors payload =>
    rw [vectors_forms_agree_iff hstored rfl (attempt_upsert_of_fits payload) rfl
      (fun haccepts => haccepts.mem_replacedNames order p.vectors), record_eq_iff]
    refine and_congr_left' (imp_congr_right fun _ => and_congr (forall_congr' fun name => ?_) ?_)
    · simp only [content, StoredPoint.record, moved, cow, get?_storedVectors, get?_union]
      cases vectors.get? name <;> cases p.vectors.get? name <;> simp
    · cases payload <;> simp [content, StoredPoint.record, moved, cow, eq_comm]
  | updateVectors requestOrder vectors =>
    rw [vectors_forms_agree_iff hstored rfl attempt_updateVectors_of_fits rfl
      (fun _ => mem_walk_preprocess requestOrder), record_eq_iff]
    refine and_congr_left' (imp_congr_right fun _ =>
      (and_iff_left rfl).trans (forall_congr' fun name => ?_))
    simp only [content, StoredPoint.record, moved, cow, get?_storedVectors, get?_union]
    cases vectors.get? name with
    | none => simpa using eq_map_storedVector_iff name
    | some v => simp
  | deleteVectors names => exact deleteVectors_forms_agree_iff hstored names
  | setPayload payload key =>
    have hcow : ((setPayload payload key).cow p.record).vectors = p.vectors := by
      cases key <;> rfl
    rw [payload_forms_agree_iff hstored rfl rfl hcow]
    refine and_congr_right fun _ => ?_
    cases key with
    | some key => cases hp : p.payload <;> simp [content, cow, StoredPoint.record, hp]
    | none =>
      cases hp : p.payload with
      | some old => simp [content, cow, StoredPoint.record, hp]
      | none =>
        simp only [content, cow, StoredPoint.record, hp, Option.getD_some,
          Option.getD_none, ne_eq, not_true, false_or]
        rw [eq_comm, Payload.merge_empty_iff]
  | overwritePayload payload | clearPayload =>
    rw [payload_forms_agree_iff hstored rfl rfl rfl]
    exact and_iff_left rfl
  | deletePayload keys =>
    rw [payload_forms_agree_iff hstored rfl rfl rfl]
    refine and_iff_left ?_
    have hempty : keys.foldl Payload.remove .empty = .empty := by
      induction keys with
      | nil => rfl
      | cons key keys ih => rw [foldl_cons, Payload.remove_empty, ih]
    cases hp : p.payload <;> simp [content, cow, StoredPoint.record, hp, hempty]

end Compare

/-! ## In place -/

section InPlace

variable {s : Segment E} {id : PointId} {p : StoredPoint E} {opNum : SeqNumber}
variable {config : SegmentConfig E} {order : IterOrder VectorName}

/-- A write left this point behind, whether it succeeded or failed. -/
def Leaves (s : Segment E) (id : PointId) (q : StoredPoint E) (result : OpResult (LockedSegment E)) :
    Prop :=
  ∃ s', result.2 = .original s' ∧ Segment.Puts s s' id q

/-- Deleting vectors stops at the first unknown name; the names before it are gone. -/
theorem deleteVectors_state (order : IterOrder VectorName) (names : List VectorName)
    (hs : s.errorStatus = none) (hp : s.points.get? id = some p) (hle : p.version ≤ opNum) :
    Leaves s id ((deleteVectors names).attempt s.config order opNum p)
      (inSequence (names.map (LockedSegment.deleteVector opNum id)) (.original s)) := by
  induction names generalizing s p with
  | nil => exact ⟨s, rfl, (Segment.Stores.refl hp).toPuts⟩
  | cons name names ih =>
    by_cases hname : s.config.hasVectorName name = true
    · obtain ⟨b, s₁, hdelete, hstores⟩ := Segment.deleteVector_of_healthy hp hle hname hs
      obtain ⟨s', hstate, hputs⟩ := ih (hstores.status hs) hstores.get? le_rfl
      have hfirst : deleteVector opNum id name (.original s) =
          (.ok b, .original s₁) := original_of_ok hdelete
      obtain ⟨hstate', -⟩ := OpResult.andThen_of_first_ok
        (inSequence (names.map (deleteVector opNum id))) hfirst
      refine ⟨s', hstate'.trans hstate, ?_⟩
      rw [hstores.shape.config] at hputs
      have hattempt : (deleteVectors (name :: names)).attempt s.config order opNum p =
          (deleteVectors names).attempt s.config order opNum
            { p with vectors := p.vectors.erase name, version := opNum } := by
        simp [attempt, stored, touches, content, takeWhile_cons_of_pos hname]
      rw [hattempt]
      exact hstores.toPuts.trans hputs
    · have hresult : inSequence ((name :: names).map (deleteVector opNum id))
          (.original s) = (.error (.vectorNameNotExists name), .original s) := by
        simp only [map_cons, inSequence, OpResult.andThen, deleteVector,
          onOriginal, Segment.deleteVector, checkVectorName, hname]
        rfl
      rw [hresult, attempt, takeWhile_cons_of_neg hname]
      exact ⟨s, rfl, (Segment.Stores.refl hp).toPuts⟩

/-- What the form in place leaves behind, whether it succeeds or fails. -/
theorem inPlace_state (operation : PointOperation E) (hs : s.errorStatus = none)
    (hp : s.points.get? id = some p) (hle : p.version ≤ opNum) :
    Leaves s id (operation.attempt s.config s.storageOrder opNum p)
      (operation.inPlace opNum id (.original s)) := by
  have hvalid : operation.Valid s.config →
      operation.attempt s.config s.storageOrder opNum p = operation.stored s.config opNum p →
      Leaves s id (operation.attempt s.config s.storageOrder opNum p)
        (operation.inPlace opNum id (.original s)) := by
    intro hvalid hattempt
    obtain ⟨b, segment', hok⟩ := inPlace_of_healthy hvalid hs hp hle
    obtain ⟨-, s', rfl, hstores⟩ := inPlace_stores hok hp hle
    rw [hok, hattempt]
    exact ⟨s', rfl, hstores.toPuts⟩
  cases operation with
  | upsert vectors payload =>
    by_cases hv : s.config.Fits vectors
    · exact hvalid hv (attempt_upsert_of_fits payload hv)
    · rw [inPlace, LockedSegment.upsertWithPayload_original]
      by_cases haccepts : s.config.Accepts vectors
      · have hstorable : ¬ s.config.Storable vectors := fun h => hv ⟨haccepts, h⟩
        obtain ⟨err, s', hresult, hputs⟩ := Segment.upsertPoint_puts hp hle hs haccepts hstorable
        rw [attempt, writeInPlace_of_not_storable haccepts hstorable
          (haccepts.mem_replacedNames s.storageOrder p.vectors), OpResult.andThen, hresult]
        exact ⟨s', rfl, hputs⟩
      · obtain ⟨err, herr⟩ := checkNamedVectors_eq_error haccepts
        rw [attempt, writeInPlace_of_not_accepts haccepts, OpResult.andThen,
          Segment.upsertPoint_of_error opNum id herr]
        exact ⟨s, rfl, (Segment.Stores.refl hp).toPuts⟩
  | updateVectors requestOrder vectors =>
    by_cases hv : s.config.Fits vectors
    · exact hvalid hv (attempt_updateVectors_of_fits hv)
    · rw [inPlace, LockedSegment.updateVectors, LockedSegment.onOriginal]
      by_cases haccepts : s.config.Accepts vectors
      · have hstorable : ¬ s.config.Storable vectors := fun h => hv ⟨haccepts, h⟩
        obtain ⟨err, s', hresult, hputs⟩ :=
          Segment.updateVectors_puts hp hle requestOrder hs haccepts hstorable
        rw [attempt, writeInPlace_of_not_storable haccepts hstorable
          (mem_walk_preprocess requestOrder), hresult]
        exact ⟨s', rfl, hputs⟩
      · obtain ⟨err, herr⟩ := checkNamedVectors_eq_error haccepts
        rw [attempt, writeInPlace_of_not_accepts haccepts, Segment.updateVectors, herr]
        exact ⟨s, rfl, (Segment.Stores.refl hp).toPuts⟩
  | deleteVectors names => exact deleteVectors_state s.storageOrder names hs hp hle
  | setPayload payload key | overwritePayload payload | deletePayload keys | clearPayload =>
    exact hvalid trivial rfl

theorem version_le_attempt (operation : PointOperation E)
    (hle : p.version ≤ opNum) : p.version ≤ (operation.attempt config order opNum p).version := by
  have hstored : ∀ operation : PointOperation E,
      p.version ≤ (operation.stored config opNum p).version := by
    intro operation
    unfold stored
    split
    · exact hle
    · exact le_rfl
  cases operation with
  | upsert vectors payload | updateVectors requestOrder vectors =>
    rw [attempt, writeInPlace]
    split
    · exact le_rfl
    · split
      · exact hle
      · exact le_rfl
  | deleteVectors names => exact hstored _
  | setPayload payload key | overwritePayload payload | deletePayload keys | clearPayload =>
    exact hstored _

end InPlace

end PointOperation

namespace SegmentHolder

open Wp

/-! ## The update of one point -/

/-- The latest copy of the point is the one in this segment, and there is no other. -/
structure LatestAt (h : SegmentHolder E) (id : PointId) (s : SegmentId) (copy : Copy E) : Prop where
  copy_eq : h.copy s id = some copy
  older : ∀ t c, t ≠ s → h.copy t id = some c → c.version < copy.version

/-- The newest content of a point, whatever its version. -/
def Shows (h : SegmentHolder E) (id : PointId) (record : Record E) : Prop :=
  ∃ version, h.Newest id version record

variable {h h₁ h' : SegmentHolder E} {c : Choices} {id : PointId} {s : SegmentId} {copy : Copy E}
  {opNum : SeqNumber} {new : Record E} {operation : PointOperation E}
  {config : SegmentConfig E}

section

variable (hat : h.LatestAt id s copy)

include hat

theorem LatestAt.latest : h.Latest id copy.version := by
  intro t c hc
  by_cases hts : t = s
  · rw [hts, hat.copy_eq] at hc
    cases hc
    exact le_rfl
  · exact (hat.older t c hts hc).le

theorem LatestAt.newest : h.Newest id copy.version copy.record := by
  refine ⟨⟨s, copy, hat.copy_eq, rfl, rfl⟩, hat.latest, fun t c hc hversion => ?_⟩
  by_cases hts : t = s
  · rw [hts, hat.copy_eq] at hc
    cases hc
    rfl
  · exact absurd hversion (Nat.ne_of_lt (hat.older t c hts hc))

theorem LatestAt.pointsToUpdate_eq : h.pointsToUpdate c [id] = [(s, id)] := by
  apply perm_singleton.mp
  apply (perm_ext_iff_of_nodup (nodup_selectPoints (nodup_singleton id)) (nodup_singleton _)).mpr
  rintro ⟨t, id'⟩
  rw [mem_singleton, Prod.mk.injEq]
  constructor
  · intro hmem
    obtain ⟨hid, latest, hcopy, hlatest⟩ := mem_pointsToUpdate.mp hmem
    cases mem_singleton.mp hid
    refine ⟨Classical.byContradiction fun hts => ?_, rfl⟩
    exact absurd (hlatest s copy hat.copy_eq) (not_le.mpr (hat.older t latest hts hcopy))
  · rintro ⟨rfl, rfl⟩
    exact mem_pointsToUpdate.mpr ⟨mem_singleton_self _, copy, hat.copy_eq, hat.latest⟩

theorem LatestAt.notMem_pointsToDelete (id' : PointId) : (s, id') ∉ h.pointsToDelete c [id] := by
  intro hmem
  obtain ⟨hid, old, hcopy, -, t, latest, hlatestCopy, -, -, hlt⟩ := mem_pointsToDelete.mp hmem
  cases mem_singleton.mp hid
  rw [hat.copy_eq] at hcopy
  cases hcopy
  exact absurd (hat.latest t latest hlatestCopy) (not_le.mpr hlt)

/-- Nothing of the point gets newer when other copies are deleted. -/
theorem LatestAt.of_deleted {points : List (SegmentId × PointId)} (hkept : ∀ id', (s, id') ∉ points)
    (hcopies : ∀ s id, h'.copy s id = if (s, id) ∈ points then none else h.copy s id) :
    h'.LatestAt id s copy := by
  refine ⟨?_, fun t c hts hc => hat.older t c hts ?_⟩
  · rw [hcopies, if_neg (hkept id), hat.copy_eq]
  · rw [hcopies] at hc
    split at hc
    · cases hc
    · exact hc

end

/-- An update of one point visits its latest copy, in the segment as it was before. -/
theorem finalState_applyPoints {update : PointUpdate E} (P : SegmentHolder E → Prop)
    (hh : h.Healthy) (hat : h.LatestAt id s copy)
    (hvisit : ∀ h₁ : SegmentHolder E, h₁.SameShape h → h₁.Healthy → h₁.LatestAt id s copy →
      h₁.segments.get? s = h.segments.get? s →
      wp (updatePoint c opNum update h.appendableSegmentsIds ∅ id s) (fun _ => P) (fun _ => P) h₁) :
    P (finalState (applyPointsWithConditionalMove c opNum [id] update) h) := by
  apply finalState_of_wp
  unfold applyPointsWithConditionalMove applyPoints
  simp only [wp_bind, wp_get, hat.pointsToUpdate_eq, foldlM_cons]
  apply wp_conseq (wp_deletePointsFromSegments _ (.inr hh))
  rintro - h₁ ⟨hshape, hhealthy, hframe, hcopies⟩
  rw [wp_bind, wp_bind]
  exact hvisit h₁ hshape (hhealthy hh) (hat.of_deleted hat.notMem_pointsToDelete hcopies)
    (hframe s hat.notMem_pointsToDelete)

/-! ### In place -/

variable {segment : LockedSegment E}
variable {P : SegmentHolder E → Prop}

theorem wp_writeSegment_state
    {write : LockedSegment E → OpResult (LockedSegment E)} (hs : h.segments.get? s = some segment)
    (hP : P (h.put s (write segment).2)) :
    wp (writeSegment s write) (fun _ => P) (fun _ => P) h := by
  rw [wp_writeSegment hs]
  revert hP
  rcases write segment with ⟨_ | _, _⟩ <;> exact fun hP => hP

theorem shows_of_puts {segment segment' : Segment E} {p q : StoredPoint E}
    (hs : h.segments.get? s = some (.original segment)) (hp : segment.points.get? id = some p)
    (hat : h.LatestAt id s copy) (hputs : Segment.Puts segment segment' id q)
    (hversion : p.version ≤ q.version) : (h.put s (.original segment')).Shows id q.record := by
  have hcopy : copy.version = p.version := by
    have hcopy := hat.copy_eq
    rw [copy_of_get hs] at hcopy
    cases (Segment.copy_of_some hp).symm.trans hcopy
    rfl
  have hself : (h.put s (.original segment')).copy s id = some
      { version := q.version, record := q.record, deferred := segment.isDeferred q.internalId } := by
    rw [copy_put, if_pos rfl]
    exact (hputs.copy id).trans (if_pos rfl)
  have hat' : (h.put s (.original segment')).LatestAt id s
      { version := q.version, record := q.record, deferred := segment.isDeferred q.internalId } := by
    refine ⟨hself, fun t c hts hc => ?_⟩
    rw [copy_put, if_neg hts] at hc
    exact (hat.older t c hts hc).trans_le (hcopy.trans_le hversion)
  exact ⟨_, hat'.newest⟩

/-- The newest content of a point after an operation in place. -/
theorem shows_inPlace {segment : Segment E} {p : StoredPoint E} (hh : h.Healthy)
    (hs : h.segments.get? s = some (.original segment)) (happendable : segment.appendable = true)
    (hp : segment.points.get? id = some p) (hat : h.LatestAt id s copy)
    (hold : copy.version < opNum) :
    (finalState (applyPointsWithConditionalMove c opNum [id]
      (update opNum fun _ => operation)) h).Shows id
      (operation.attempt segment.config segment.storageOrder opNum p).record := by
  apply finalState_applyPoints (fun h' => h'.Shows id _) hh hat
  rintro h₁ - hh₁ hat₁ hs₁
  rw [hs] at hs₁
  have hsegment : (original segment).copy id = some copy :=
    (copy_of_get hs₁).symm.trans hat₁.copy_eq
  have hversion : p.version ≤ opNum := by
    cases (Segment.copy_of_some hp).symm.trans hsegment
    exact hold.le
  obtain ⟨s', hstate, hputs⟩ := inPlace_state operation (hh₁ s _ hs₁) hp hversion
  rw [wp_updatePoint_of_lt hs₁ hsegment hold, isAppendable, if_pos happendable]
  apply wp_writeSegment_state hs₁
  change (h₁.put s (operation.inPlace opNum id (.original segment)).2).Shows id _
  rw [hstate]
  exact shows_of_puts hs₁ hp hat₁ hputs (version_le_attempt operation hversion)

/-! ### By copy on write -/

/-- Every copy is new, or it is one from before and older. -/
theorem newest_of_cases
    (hdone : ∃ s deferred, h'.copy s id = some { version := opNum, record := new, deferred })
    (hcases : ∀ t c, h'.copy t id = some c →
      h.copy t id = some c ∨ c.version = opNum ∧ c.record = new)
    (holder : ∀ t c, h.copy t id = some c → c.version < opNum) : h'.Newest id opNum new := by
  obtain ⟨s, deferred, hs⟩ := hdone
  refine ⟨⟨s, _, hs, rfl, rfl⟩, fun t c hc => ?_, fun t c hc hversion => ?_⟩
  · rcases hcases t c hc with hbefore | ⟨hversion, -⟩
    · exact (holder t c hbefore).le
    · exact hversion.le
  · rcases hcases t c hc with hbefore | ⟨-, hrecord⟩
    · exact absurd hversion (Nat.ne_of_lt (holder t c hbefore))
    · exact hrecord

theorem PointStep.newest (hstep : PointStep opNum id s new h h') (hat : h.LatestAt id s copy)
    (hold : copy.version < opNum) : h'.Newest id opNum new := by
  have holder : ∀ t c, h.copy t id = some c → c.version < opNum := fun t c hc =>
    (hat.latest t c hc).trans_lt hold
  cases hstep with
  | skip copy' hcopy hnewer hcopies =>
    rw [hat.copy_eq] at hcopy
    cases hcopy
    exact absurd hold (not_lt.mpr hnewer)
  | inPlace copy' hcopy _ hcopies =>
    refine newest_of_cases ⟨s, copy'.deferred, (hcopies s id).trans (if_pos ⟨rfl, rfl⟩)⟩
      (fun t c hc => ?_) holder
    rw [hcopies] at hc
    split at hc
    · cases hc
      exact .inr ⟨rfl, rfl⟩
    · exact .inl hc
  | moved copy' target deferred hcopy _ hne hdeferred hcopies =>
    refine newest_of_cases ⟨target, deferred, (hcopies target id).trans (if_pos ⟨rfl, rfl⟩)⟩
      (fun t c hc => ?_) holder
    rw [hcopies] at hc
    split at hc
    · cases hc
      exact .inr ⟨rfl, rfl⟩
    · split at hc
      · cases hc
      · exact .inl hc

/-- A point that does not fit into its new segment stays where it is. -/
theorem wp_movePoint_of_not_fits {update : PointUpdate E} {targets : List SegmentId} (hh : h.Healthy)
    (hlatest : h.Latest id opNum) (hcopy : segment.copy id = some copy)
    (htargets : ∀ t ∈ targets, ∃ target : Segment E, h.segments.get? t = some (.original target) ∧
      ¬ target.config.Fits (update.cow id copy.record).vectors)
    (hP : ∀ h' : SegmentHolder E, (∀ t, t ∉ targets → h'.copy t id = h.copy t id) →
      (∀ t c, h'.copy t id = some c → ∃ c', h.copy t id = some c' ∧ c'.version = c.version) → P h') :
    wp (movePoint c opNum update targets id s segment) (fun _ => P) (fun _ => P) h := by
  unfold movePoint
  split
  · exact hP h (fun _ _ => rfl) fun _ c hc => ⟨c, hc, rfl⟩
  · next hne =>
    have hmem := c.randomWrite_mem s id targets hne
    obtain ⟨target, ht, hv⟩ := htargets _ hmem
    generalize c.randomWrite s id targets = t at ht hmem
    rw [retrieve_of_copy hcopy]
    simp only [wp_bind, wp_modify]
    let h₀ := { h with flushDependency := h.flushDependency.addDependency s t opNum }
    rw [wp_writeSegment (h := h₀) ht, upsertWithPayload_original]
    have hle : ∀ q, target.points.get? id = some q → q.version ≤ opNum := fun q hq =>
      hlatest t _ ((copy_of_get ht).trans (Segment.copy_of_some hq))
    obtain ⟨err, target', herr, hversions⟩ := Segment.upsertPoint_of_not_fits (hh t _ ht) hle hv
    simp only [OpResult.andThen, herr]
    refine hP _ (fun t' ht' => ?_) fun t' c' hc' => ?_
    · have hne' : t' ≠ t := fun heq => ht' (heq ▸ hmem)
      rw [copy_put, if_neg hne']
      rfl
    · rw [copy_put] at hc'
      split at hc'
      · next heq =>
        obtain ⟨c'', hc'', hversion⟩ := hversions id c' hc'
        exact ⟨c'', heq ▸ (copy_of_get ht).trans hc'', hversion⟩
      · exact ⟨c', hc', rfl⟩

/-- The newest content of a point after an operation that had to move it. -/
theorem shows_moved (hh : h.Healthy)
    (hs : h.segments.get? s = some segment) (hsource : segment.isAppendable = false)
    (hat : h.LatestAt id s copy) (hold : copy.version < opNum)
    (htargets : h.appendableSegmentsIds ≠ [])
    (hconfigs : ∀ config' ∈ h.targetConfigs, config' = config) :
    (finalState (applyPointsWithConditionalMove c opNum [id]
      (update opNum fun _ => operation)) h).Shows id
      (operation.movedOrKept config copy.record) := by
  apply finalState_applyPoints (fun h' => h'.Shows id _) hh hat
  intro h₁ hshape₁ hh₁ hat₁ hs₁
  rw [hs] at hs₁
  have hsegment : segment.copy id = some copy := (copy_of_get hs₁).symm.trans hat₁.copy_eq
  have hconfigs₁ : ∀ config' ∈ h₁.targetConfigs, config' = config := by
    rwa [hshape₁.targetConfigs]
  rw [wp_updatePoint_of_lt hs₁ hsegment hold, if_neg (Bool.eq_false_iff.mp hsource)]
  have hlatest₁ : h₁.Latest id opNum := fun t c hc => (hat₁.latest t c hc).trans hold.le
  by_cases hv : config.Fits (operation.cow copy.record).vectors
  · rw [movedOrKept, if_pos hv]
    refine wp_conseq (wp_movePoint (operation.moved config copy.record) hs₁ hsource hsegment hold
      hlatest₁ hshape₁.exists_target ?_ (.inr ⟨hh₁, htargets, ?_⟩)) ?_
    · intro config' hconfig
      rw [hconfigs₁ config' hconfig]
      exact ⟨rfl, rfl⟩
    · intro config' hconfig
      rw [hconfigs₁ config' hconfig]
      exact hv
    · rintro - h₂ ⟨-, -, hstep⟩
      exact ⟨opNum, hstep.newest hat₁ hold⟩
  · rw [movedOrKept, if_neg hv]
    apply wp_movePoint_of_not_fits hh₁ hlatest₁ hsegment
    · intro t ht
      obtain ⟨target, htarget, happendable⟩ := hshape₁.exists_target t ht
      obtain ⟨target, rfl, -⟩ := eq_original_of_isAppendable happendable
      have hconfig : target.config = config := hconfigs₁ _ ⟨t, _, htarget, happendable, rfl⟩
      exact ⟨target, htarget, hconfig ▸ hv⟩
    · intro h₂ hkept hversions
      have hnot : s ∉ h.appendableSegmentsIds := by
        intro hmem
        obtain ⟨segment', hs', happendable⟩ := mem_appendableSegmentsIds.mp hmem
        rw [hs] at hs'
        cases hs'
        exact absurd happendable (Bool.eq_false_iff.mp hsource)
      have hat₂ : h₂.LatestAt id s copy := by
        refine ⟨(hkept s hnot).trans hat₁.copy_eq, fun t c hts hc => ?_⟩
        obtain ⟨c', hc', hversion⟩ := hversions t c hc
        exact hversion ▸ hat₁.older t c' hts hc'
      exact ⟨_, hat₂.newest⟩

/-! ## Both layouts -/

theorem Shows.unique {r r' : Record E} (hshows : h.Shows id r) (hshows' : h.Shows id r') :
    r = r' := by
  obtain ⟨v, hnewest⟩ := hshows
  obtain ⟨v', hnewest'⟩ := hshows'
  exact (hnewest.eq hnewest').2

/-- The update of one point, and the state it leaves behind. -/
def updated (c : Choices) (opNum : SeqNumber) (id : PointId) (operation : PointOperation E)
    (h : SegmentHolder E) : SegmentHolder E :=
  finalState (applyPointsWithConditionalMove c opNum [id]
    (update opNum fun _ => operation)) h

/-- One dense vector of dimension one. -/
def oneVector : SegmentConfig Nat where
  vectorData := (∅ : HashMap VectorName (VectorDataConfig Nat)).insert ""
    { size := 1, multivector := none, preprocess := fun v => v, length_preprocess := fun _ => rfl }
  sparseVectorData := ∅

def vectorOf (element : Nat) : NamedVectors Nat :=
  (∅ : NamedVectors Nat).insert "" (.dense [element])

def tagged : Payload := ⟨[("a", .bool true)], List.nodup_singleton _⟩

def taggedPoint : StoredPoint Nat :=
  { internalId := 0, version := 1, vectors := vectorOf 3, payload := some tagged }

/-- A segment with one point. -/
def taggedSegment (appendable : Bool) : Segment Nat :=
  { Segment.empty oneVector appendable with
    version := some 1, points := (∅ : HashMap PointId (StoredPoint Nat)).insert 1 taggedPoint
    totalPointCount := 1 }

def appendableLayout : SegmentHolder Nat :=
  ofSegments [(0, .original (taggedSegment true))]

def indexedLayout : SegmentHolder Nat :=
  ofSegments [(0, .original (taggedSegment false)), (1, .original (Segment.empty oneVector true))]

def taggedCopy : Copy Nat :=
  { version := 1, record := taggedPoint.record, deferred := false }

theorem get?_appendableLayout (t : SegmentId) : appendableLayout.segments.get? t =
      if t = 0 then some (.original (taggedSegment true)) else none := by
  simp [appendableLayout, ofSegments]

theorem get?_indexedLayout (t : SegmentId) : indexedLayout.segments.get? t =
      if t = 1 then some (.original (Segment.empty oneVector true))
      else if t = 0 then some (.original (taggedSegment false)) else none := by
  simp [indexedLayout, ofSegments]

theorem healthy_appendableLayout : appendableLayout.Healthy := by
  intro t segment hs
  rw [get?_appendableLayout] at hs
  split at hs <;> cases hs
  rfl

theorem healthy_indexedLayout : indexedLayout.Healthy := by
  intro t segment hs
  rw [get?_indexedLayout] at hs
  split at hs
  · cases hs
    rfl
  · split at hs <;> cases hs
    rfl

theorem latestAt_appendableLayout : appendableLayout.LatestAt 1 0 taggedCopy := by
  refine ⟨rfl, fun t c hts hc => ?_⟩
  rw [SegmentHolder.copy, get?_appendableLayout, if_neg hts] at hc
  cases hc

theorem latestAt_indexedLayout : indexedLayout.LatestAt 1 0 taggedCopy := by
  refine ⟨rfl, fun t c hts hc => ?_⟩
  rw [SegmentHolder.copy, get?_indexedLayout] at hc
  split at hc <;> cases hc

theorem targetConfigs_indexedLayout : ∀ config ∈ indexedLayout.targetConfigs, config = oneVector := by
  rintro config ⟨t, segment, hs, -, rfl⟩
  rw [get?_indexedLayout] at hs
  split at hs
  · cases hs
    rfl
  · split at hs <;> cases hs
    rfl

theorem fits_vectorOf (element : Nat) : oneVector.Fits (vectorOf element) := by
  refine ⟨checkNamedVectors_eq_ok.mp rfl, fun name vector hget => ?_⟩
  rw [vectorOf, get?_insert] at hget
  split at hget
  · next hname =>
    cases hget
    cases hname
    exact ⟨_, rfl⟩
  · cases hget

end SegmentHolder

end Qdrant
