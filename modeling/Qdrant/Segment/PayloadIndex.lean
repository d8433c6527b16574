-- SUMMARY: Field indexes of a segment, and when they mirror the stored payloads.
import Qdrant.Base.HashMap
import Qdrant.Base.Run
import Qdrant.Segment.RemovedValues

/-!
# Payload index

A segment stores the payloads of its points and keeps indexes of some of their fields
(`lib/segment/src/index/struct_payload_index.rs`). Every payload operation updates the
stored payload and decides on its own which indexes to touch. The indexes of one field
get the same calls: they are modelled by the values that they were given for each point.

Only the deletion of a key goes wrong: it touches the index of exactly that key, but
the values of other indexed fields may be below or above it, and an array element is
not deleted at all. `Harmless` says of a deletion, from the paths and the payload before
it, that neither happens.
-/

namespace Qdrant

/-- The values of each point that an index holds. -/
abbrev FieldIndex := Nat → List Value

namespace FieldIndex

section

variable (index : FieldIndex) (pointId : Nat)

def addPoint (values : List Value) : FieldIndex :=
  Function.update index pointId values

def removePoint : FieldIndex :=
  Function.update index pointId []

/-- A point is only added with values. -/
def refreshPoint (values : List Value) : FieldIndex :=
  if values ≠ [] then index.addPoint pointId values else index.removePoint pointId

theorem refreshPoint_eq (values : List Value) :
    index.refreshPoint pointId values = Function.update index pointId values := by
  unfold refreshPoint
  split
  · rfl
  next hempty => rw [not_not.mp hempty]; rfl

end

end FieldIndex

/-- A JSON document, with distinct keys in every object. -/
abbrev JsonDocument := { payload : Payload // payload.WellFormed }

namespace JsonDocument

def empty : JsonDocument := ⟨.empty, .object List.nodup_nil (by simp [Payload.empty])⟩

variable (document : JsonDocument)

def merge (value : JsonDocument) : JsonDocument :=
  ⟨document.1.merge value.1, document.2.merge value.2⟩

def mergeByKey (value : JsonDocument) (key : JsonPath) : JsonDocument :=
  ⟨document.1.mergeByKey value.1 key, document.2.mergeByKey value.2⟩

def remove (path : JsonPath) : JsonDocument :=
  ⟨document.1.remove path, document.2.remove⟩

def getValue (path : JsonPath) : List Value :=
  document.1.getValue path

end JsonDocument

structure StructPayloadIndex where
  payload : Nat → Option JsonDocument
  fieldIndexes : HashMap JsonPath FieldIndex

namespace StructPayloadIndex

def getPayload (s : StructPayloadIndex) (pointId : Nat) : JsonDocument :=
  (s.payload pointId).getD .empty

def store (s : StructPayloadIndex) (pointId : Nat) (payload : Option JsonDocument) : StructPayloadIndex :=
  { s with payload := Function.update s.payload pointId payload }

def overwritePayload (pointId : Nat) (payload : JsonDocument) (s : StructPayloadIndex) :
    StructPayloadIndex :=
  { s.store pointId (some payload) with
    fieldIndexes := s.fieldIndexes.mapVal fun field index =>
      index.refreshPoint pointId (payload.getValue field) }

/-- What the storage makes of a payload that is set. -/
def setStored (stored : Option JsonDocument) (payload : JsonDocument) (key : Option JsonPath) :
    JsonDocument :=
  match key, stored with
  | some key, some old => old.mergeByKey payload key
  | some key, none => JsonDocument.empty.mergeByKey payload key
  | none, some old => old.merge payload
  | none, none => payload

def setPayload (pointId : Nat) (payload : JsonDocument) (key : Option JsonPath)
    (s : StructPayloadIndex) : StructPayloadIndex :=
  let updatedPayload := setStored (s.payload pointId) payload key
  { s.store pointId (some updatedPayload) with
    fieldIndexes := s.fieldIndexes.mapVal fun field index =>
      if !field.isAffectedByValueSet payload.1 key then index
      else index.refreshPoint pointId (updatedPayload.getValue field) }

def deletePayload (pointId : Nat) (key : JsonPath) (s : StructPayloadIndex) : StructPayloadIndex :=
  { s.store pointId ((s.payload pointId).map fun payload => payload.remove key) with
    fieldIndexes :=
      match s.fieldIndexes.get? key with
      | some index => s.fieldIndexes.insert key (index.removePoint pointId)
      | none => s.fieldIndexes }

def clearPayload (pointId : Nat) (s : StructPayloadIndex) : StructPayloadIndex :=
  { s.store pointId none with
    fieldIndexes := s.fieldIndexes.mapVal fun _ index => index.removePoint pointId }

inductive Call where
  | setPayload (pointId : Nat) (payload : JsonDocument) (key : Option JsonPath)
  | overwritePayload (pointId : Nat) (payload : JsonDocument)
  | deletePayload (pointId : Nat) (key : JsonPath)
  | clearPayload (pointId : Nat)

def step (s : StructPayloadIndex) : Call → StructPayloadIndex
  | .setPayload pointId payload key => s.setPayload pointId payload key
  | .overwritePayload pointId payload => s.overwritePayload pointId payload
  | .deletePayload pointId key => s.deletePayload pointId key
  | .clearPayload pointId => s.clearPayload pointId

/-- Every index holds the values that the stored payloads have at its field. -/
def Mirrors (s : StructPayloadIndex) : Prop :=
  ∀ field index, s.fieldIndexes.get? field = some index →
    ∀ pointId, index pointId = (s.getPayload pointId).getValue field

/-- A key that is indexed itself does not end in an index, or has no value in the payload. The path
of every other indexed field meets the key at no value, unless the key ends in an index. -/
def Harmless (s : StructPayloadIndex) : Call → Prop
  | .deletePayload pointId key => ∀ field index, s.fieldIndexes.get? field = some index →
    if field = key then
      endsInIndex key.rest = false ∨ (s.getPayload pointId).getValue key = []
    else
      field.isAffectedByValueRemove key = false ∨ endsInIndex key.rest = true ∨
        (s.getPayload pointId).getValue (key.meet field) = []
  | _ => True

variable {s : StructPayloadIndex} {pointId : Nat}

theorem Mirrors.index_eq {field : JsonPath} {values : List Value} (h : s.Mirrors)
    (hindex : (s.fieldIndexes.get? field).map (fun index => index pointId) = some values) :
    values = (s.getPayload pointId).getValue field := by
  obtain ⟨index, hget, rfl⟩ := Option.map_eq_some_iff.mp hindex
  exact h field index hget pointId

/-- What it takes for the indexes to mirror the payloads after one payload is stored. -/
theorem mirrors_store_iff (h : s.Mirrors) (stored : Option JsonDocument)
    (update : JsonPath → FieldIndex → List Value) {fieldIndexes : HashMap JsonPath FieldIndex}
    (hindexes : ∀ field, fieldIndexes.get? field = (s.fieldIndexes.get? field).map fun index =>
        Function.update index pointId (update field index)) :
    Mirrors { s.store pointId stored with fieldIndexes } ↔
      ∀ field index, s.fieldIndexes.get? field = some index →
        update field index = (stored.getD .empty).getValue field := by
  have hpayload (p : Nat) : getPayload { s.store pointId stored with fieldIndexes } p =
      if p = pointId then stored.getD .empty else s.getPayload p := by
    unfold getPayload store
    by_cases hp : p = pointId
    · subst hp
      simp
    · simp [hp]
  constructor
  · intro hmirrors field index hget
    have hfield := hmirrors field (Function.update index pointId (update field index))
      ((hindexes field).trans (by rw [hget]; rfl)) pointId
    rw [hpayload, if_pos rfl, Function.update_self] at hfield
    exact hfield
  · intro hupdate field index' hget p
    rw [hindexes] at hget
    obtain ⟨index, hold, rfl⟩ := Option.map_eq_some_iff.mp hget
    rw [hpayload]
    by_cases hp : p = pointId
    · subst hp
      rw [if_pos rfl, Function.update_self]
      exact hupdate field index hold
    · rw [if_neg hp, Function.update_of_ne hp]
      exact h field index hold p

theorem mirrors_overwritePayload (h : s.Mirrors) (payload : JsonDocument) :
    (s.overwritePayload pointId payload).Mirrors := by
  refine (mirrors_store_iff h _ (fun field _ => payload.getValue field) fun field => ?_).mpr
    fun _ _ _ => rfl
  rw [HashMap.get?_mapVal]
  simp only [FieldIndex.refreshPoint_eq]

/-- Setting a payload leaves the values of a field alone that it does not affect. -/
theorem getValue_setStored {stored : Option JsonDocument} {payload : JsonDocument}
    {key : Option JsonPath} {field : JsonPath} (h : field.isAffectedByValueSet payload.1 key = false) :
    (setStored stored payload key).getValue field = (stored.getD .empty).getValue field := by
  cases key with
  | some key =>
    cases stored with
    | some old => exact JsonPath.getValue_set h old.1
    | none => exact JsonPath.getValue_set h .empty
  | none =>
    cases stored with
    | some old => exact JsonPath.getValue_set h old.1
    | none =>
      rw [JsonPath.isAffectedByValueSet, JsonMap.containsKey, decide_eq_false_iff_not] at h
      have hnone : payload.1.fields.get? field.firstKey = none := JsonMap.get?_eq_none h
      rw [setStored, JsonDocument.getValue, Payload.getValue, hnone]
      rfl

theorem mirrors_setPayload (h : s.Mirrors) (payload : JsonDocument) (key : Option JsonPath) :
    (s.setPayload pointId payload key).Mirrors := by
  refine (mirrors_store_iff h _ (fun field index =>
    if !field.isAffectedByValueSet payload.1 key then index pointId
    else (setStored (s.payload pointId) payload key).getValue field) fun field => ?_).mpr ?_
  · rw [HashMap.get?_mapVal]
    congr 1
    funext index
    split
    · exact (Function.update_eq_self pointId index).symm
    · exact FieldIndex.refreshPoint_eq _ _ _
  · intro field index hget
    split
    next haffected =>
      rw [h field index hget pointId]
      exact (getValue_setStored (by simpa using haffected)).symm
    next => rfl

theorem mirrors_clearPayload (h : s.Mirrors) : (s.clearPayload pointId).Mirrors :=
  (mirrors_store_iff h _ (fun _ _ => []) fun field => HashMap.get?_mapVal _ _ field).mpr
    fun _ _ _ => rfl

theorem mirrors_deletePayload_iff (h : s.Mirrors) (key : JsonPath) :
    (s.deletePayload pointId key).Mirrors ↔ s.Harmless (.deletePayload pointId key) := by
  have hstored : ((s.payload pointId).map fun payload => payload.remove key).getD .empty =
      (s.getPayload pointId).remove key := by
    unfold getPayload
    cases s.payload pointId with
    | none => exact Subtype.ext (Payload.remove_empty key).symm
    | some payload => rfl
  refine (mirrors_store_iff h _ (fun field index =>
    if field = key then [] else index pointId) fun field => ?_).trans ?_
  · cases hkey : s.fieldIndexes.get? key with
    | none =>
      by_cases hfield : field = key
      · rw [hfield, hkey]
        rfl
      · simp only [hfield, if_false, Function.update_eq_self]
        exact Option.map_id'.symm
    | some index =>
      rw [HashMap.get?_insert]
      by_cases hfield : field = key
      · rw [if_pos hfield, hfield, hkey]
        simp [FieldIndex.removePoint]
      · simp only [hfield, if_false, Function.update_eq_self]
        exact Option.map_id'.symm
  · refine forall_congr' fun field => forall_congr' fun index => imp_congr_right fun hget => ?_
    have hdocument := (s.getPayload pointId).2
    rw [hstored, h field index hget pointId, eq_comm]
    by_cases hfield : field = key
    · rw [if_pos hfield, if_pos hfield, hfield]
      exact Payload.getValue_remove_self_iff hdocument
    · rw [if_neg hfield, if_neg hfield]
      exact Payload.getValue_remove_iff hdocument

/-- A call keeps the indexes in step with the payloads if and only if it is harmless. -/
theorem mirrors_step_iff (h : s.Mirrors) (call : Call) : (s.step call).Mirrors ↔ s.Harmless call := by
  cases call with
  | setPayload pointId payload key => exact iff_of_true (mirrors_setPayload h payload key) trivial
  | overwritePayload pointId payload => exact iff_of_true (mirrors_overwritePayload h payload) trivial
  | deletePayload pointId key => exact mirrors_deletePayload_iff h key
  | clearPayload pointId => exact iff_of_true (mirrors_clearPayload h) trivial

/-- In every run of harmless calls the indexes mirror the payloads. The next call breaks this if
and only if it is not harmless. -/
theorem mirrors_of_harmless {s' : StructPayloadIndex} {calls : List Call} (h : s.Mirrors)
    (hharmless : Run.Guarded (fun s call => some (s.step call)) Harmless s calls)
    (hrun : Run.run (fun s call => some (s.step call)) s calls = some s') :
    s'.Mirrors ∧ ∀ call, (s'.step call).Mirrors ↔ s'.Harmless call := by
  have hmirrors : s'.Mirrors := Run.run_invariant (P := Mirrors) (fun s call t hs hcall hstep => by
    cases hstep
    exact (mirrors_step_iff hs call).mpr hcall) hrun hharmless h
  exact ⟨hmirrors, mirrors_step_iff hmirrors⟩

/-- A segment without payloads and with an index of one field. -/
def indexed (field : JsonPath) : StructPayloadIndex :=
  { payload := fun _ => none, fieldIndexes := (∅ : HashMap JsonPath FieldIndex).insert field fun _ => [] }

theorem mirrors_indexed (field : JsonPath) : (indexed field).Mirrors := by
  intro field' index hget pointId
  have hnil : index = fun _ => [] := by
    change HashMap.get? (HashMap.insert _ _ _) field' = some index at hget
    rw [HashMap.get?_insert] at hget
    split at hget
    · exact (Option.some.inj hget).symm
    · exact absurd hget (by simp)
  rw [hnil]
  rfl

/-- The path `a.b`. -/
def pathAB : JsonPath := ⟨"a", [.key "b"]⟩

/-- The payload `{"a": {"b": 1}}`. -/
def payloadAB : JsonDocument :=
  ⟨⟨[("a", .object [("b", .number "1")])], List.nodup_singleton _⟩,
    .object (List.nodup_singleton _) (by
      simpa using .object (List.nodup_singleton _) (by simpa using .number "1"))⟩

theorem mirrors_of_harmless_exact :
    ∃ s', Run.run (fun s call => some (s.step call)) (indexed pathAB)
      [.setPayload 0 payloadAB none, .deletePayload 0 pathAB] = some s' ∧ s'.Mirrors := by
  have hharmless : Run.Guarded (fun s call => some (s.step call)) Harmless (indexed pathAB)
      [.setPayload 0 payloadAB none, .deletePayload 0 pathAB] := by
    refine Run.Guarded.cons trivial rfl (Run.Guarded.cons ?_ rfl trivial)
    intro field index hget
    have hfield : field = pathAB := by
      by_contra hne
      simp [step, setPayload, indexed, hne] at hget
    subst hfield
    decide +kernel
  exact ⟨_, rfl, (mirrors_of_harmless (mirrors_indexed pathAB) hharmless rfl).1⟩

/-- Deleting `a` leaves the value of `a.b` in its index. -/
theorem index_keeps_deleted_value : (indexed pathAB).Mirrors ∧
      ∃ s', Run.run (fun s call => some (s.step call)) (indexed pathAB)
        [.setPayload 0 payloadAB none, .deletePayload 0 ⟨"a", []⟩] = some s' ∧
        (s'.fieldIndexes.get? pathAB).map (fun index => index 0) = some [.number "1"] ∧
        (s'.getPayload 0).getValue pathAB = [] ∧ ¬ s'.Mirrors := by
  have hindex : ((((indexed pathAB).step (.setPayload 0 payloadAB none)).step
      (.deletePayload 0 ⟨"a", []⟩)).fieldIndexes.get? pathAB).map (fun index => index 0) =
      some [.number "1"] := by decide +kernel
  refine ⟨mirrors_indexed pathAB, _, rfl, hindex, by decide +kernel, fun hmirrors => ?_⟩
  exact absurd (hmirrors.index_eq hindex) (by decide +kernel)

end StructPayloadIndex

end Qdrant
