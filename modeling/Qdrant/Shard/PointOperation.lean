-- SUMMARY: The operations on single points in their two forms, in place and on the data of a moved point.
import Qdrant.Shard.ConditionalMove

/-!
# Operations on single points

Every point, vector and payload operation of `lib/shard/src/update.rs` is written twice:
as a sequence of calls on the segment that has the point, and as a change of the
vectors and the payload of a point that is moved. `inPlace` and `cow` are these two
forms.
-/

namespace Qdrant

open Segment

variable {E : Type}

inductive PointOperation (E : Type) where
  | upsert (vectors : NamedVectors E) (payload : Option Payload)
  | updateVectors (order : IterOrder VectorName) (vectors : NamedVectors E)
  | deleteVectors (names : List VectorName)
  | setPayload (payload : Payload) (key : Option JsonPath)
  | overwritePayload (payload : Payload)
  | deletePayload (keys : List JsonPath)
  | clearPayload

namespace PointOperation

/-- Operations one after the other under one lock. -/
def inSequence {σ : Type} : List (σ → OpResult σ) → σ → OpResult σ
  | [], s => (.ok true, s)
  | operation :: rest, s => OpResult.andThen operation (inSequence rest) s

def inPlace (opNum : SeqNumber) (id : PointId) :
    PointOperation E → LockedSegment E → OpResult (LockedSegment E)
  | .upsert vectors payload => LockedSegment.upsertWithPayload opNum id vectors payload
  | .updateVectors order vectors => LockedSegment.updateVectors opNum id order vectors
  | .deleteVectors names => inSequence (names.map (LockedSegment.deleteVector opNum id))
  | .setPayload payload key => LockedSegment.setPayload opNum id payload key
  | .overwritePayload payload => LockedSegment.setFullPayload opNum id payload
  | .deletePayload keys => inSequence (keys.map (LockedSegment.deletePayload opNum id))
  | .clearPayload => LockedSegment.clearPayload opNum id

def cow : PointOperation E → Record E → Record E
  | .upsert vectors payload, r =>
    { vectors := vectors.union r.vectors, payload := payload.getD r.payload }
  | .updateVectors _ vectors, r => { r with vectors := vectors.union r.vectors }
  | .deleteVectors names, r => { r with vectors := names.foldl HashMap.erase r.vectors }
  | .setPayload payload (some key), r => { r with payload := r.payload.mergeByKey payload key }
  | .setPayload payload none, r => { r with payload := r.payload.merge payload }
  | .overwritePayload payload, r => { r with payload }
  | .deletePayload keys, r => { r with payload := keys.foldl Payload.remove r.payload }
  | .clearPayload, r => { r with payload := .empty }

/-- The two forms of an operation on each of several points. -/
def update (opNum : SeqNumber) (operation : PointId → PointOperation E) :
    SegmentHolder.PointUpdate E where
  inPlace id := (operation id).inPlace opNum id
  cow id := (operation id).cow

/-! ## What the form in place stores -/

/-- The form in place finds nothing to reject. -/
def Valid (config : SegmentConfig E) : PointOperation E → Prop
  | .upsert vectors _ => config.Fits vectors
  | .updateVectors _ vectors => config.Fits vectors
  | .deleteVectors names => ∀ name ∈ names, config.hasVectorName name = true
  | _ => True

/-- An operation without vector names or keys does not even touch the version of the point. -/
def touches : PointOperation E → Bool
  | .deleteVectors names => !names.isEmpty
  | .deletePayload keys => !keys.isEmpty
  | _ => true

/-- The stored point after the operation, but for its version. -/
def content (config : SegmentConfig E) : PointOperation E → StoredPoint E → StoredPoint E
  | .upsert vectors payload, p => { p with vectors := config.storedVectors vectors, payload }
  | .updateVectors _ vectors, p =>
    { p with vectors := (config.storedVectors vectors).union p.vectors }
  | .deleteVectors names, p => { p with vectors := names.foldl HashMap.erase p.vectors }
  | .setPayload payload key, p =>
    { p with payload := match key, p.payload with
        | some key, some old => some (old.mergeByKey payload key)
        | some key, none => some (Payload.empty.mergeByKey payload key)
        | none, some old => some (old.merge payload)
        | none, none => some payload }
  | .overwritePayload payload, p => { p with payload := some payload }
  | .deletePayload keys, p =>
    { p with payload := p.payload.map fun old => keys.foldl Payload.remove old }
  | .clearPayload, p => { p with payload := none }

def stored (config : SegmentConfig E) (opNum : SeqNumber) (operation : PointOperation E)
    (p : StoredPoint E) : StoredPoint E :=
  { operation.content config p with version := if operation.touches then opNum else p.version }

end PointOperation

namespace Segment

/-- `s'` is `s` with another point stored under the id. -/
structure Puts (s s' : Segment E) (id : PointId) (p : StoredPoint E) : Prop where
  shape : SameShape s' s
  points : ∀ id', s'.points.get? id' = if id' = id then some p else s.points.get? id'

/-- The point was stored without a failure. -/
structure Stores (s s' : Segment E) (id : PointId) (p : StoredPoint E) : Prop extends
    Puts s s' id p where
  status : s.errorStatus = none → s'.errorStatus = none

section Stores

variable {s s' s'' : Segment E} {id : PointId} {p q : StoredPoint E} {opNum : SeqNumber}
  {applied : Bool}

theorem Puts.trans (h : Puts s s' id p) (h' : Puts s' s'' id q) : Puts s s'' id q := by
  refine ⟨h'.shape.trans h.shape, fun id' => ?_⟩
  rw [h'.points]
  split
  · rfl
  · next hne => rw [h.points, if_neg hne]

theorem Stores.refl (hp : s.points.get? id = some p) : Stores s s id p := by
  refine ⟨⟨.refl s, fun id' => ?_⟩, fun hs => hs⟩
  split
  · next heq => rw [heq, hp]
  · rfl

theorem Stores.trans (h : Stores s s' id p) (h' : Stores s' s'' id q) : Stores s s'' id q :=
  ⟨h.toPuts.trans h'.toPuts, h'.status ∘ h.status⟩

theorem Puts.get? (h : Puts s s' id p) : s'.points.get? id = some p :=
  (h.points id).trans (if_pos rfl)

theorem Puts.copy (h : Puts s s' id p) (id' : PointId) : s'.copy id' = if id' = id then
        some { version := p.version, record := p.record, deferred := s.isDeferred p.internalId }
      else s.copy id' := by
  have hdeferred : ∀ i, s'.isDeferred i = s.isDeferred i := by
    intro i
    rw [isDeferred, isDeferred, h.shape.deferredInternalId, h.shape.appendable]
  unfold Segment.copy
  rw [h.points]
  simp only [hdeferred]
  split <;> rfl

theorem stores_store {t : Segment E} (ht : t = s.store opNum id q) (hdata : SameData s' t)
    (hs : s.errorStatus = none → s' = t) : Stores s s' id { q with version := opNum } := by
  subst ht
  refine ⟨⟨hdata.shape.trans touches_store.shape, fun id' => ?_⟩, fun h => ?_⟩
  · rw [hdata.points]
    exact HashMap.get?_insert _ _ _ _
  · rw [hs h]
    exact h

/-- Data that were written before an error. -/
theorem puts_of_sameData {t : Segment E} (ht : SameData t { s with points := s.points.insert id q }) :
    Puts s t id q := by
  refine ⟨ht.shape.trans ⟨rfl, rfl, rfl, rfl⟩, fun id' => ?_⟩
  rw [ht.points]
  exact HashMap.get?_insert _ _ _ _

section

variable {vectors : NamedVectors E} (hp : s.points.get? id = some p) (hle : p.version ≤ opNum)

include hp hle

theorem modifyPoint_stores {f : StoredPoint E → Bool × StoredPoint E}
    (h : s.modifyPoint opNum id f = (.ok applied, s')) :
    Stores s s' id { (f p).2 with version := opNum } := by
  refine stores_store (modified_of_le hp hle fun p => (f p).2) (modifyPoint_ok h).2 fun hs => ?_
  obtain ⟨b, hb⟩ := modifyPoint_of_healthy opNum f hs hp
  exact (Prod.mk.inj (h.symm.trans hb)).2

theorem version_le_of_get? : ∀ q, s.points.get? id = some q → q.version ≤ opNum := by
  intro q hq
  cases hp.symm.trans hq
  exact hle

theorem upsertPoint_stores (h : s.upsertPoint opNum id vectors = (.ok applied, s')) :
    s.config.Fits vectors ∧
      Stores s s' id { p with vectors := s.config.storedVectors vectors, version := opNum } := by
  have hstore : s.upserted opNum id (s.config.storedVectors vectors) =
      s.store opNum id { p with vectors := s.config.storedVectors vectors } := by
    rw [upserted, hp]
    exact if_neg (not_lt.mpr hle)
  obtain ⟨hfits, hdata⟩ := upsertPoint_ok h (version_le_of_get? hp hle)
  refine ⟨hfits, stores_store hstore hdata fun hs => ?_⟩
  obtain ⟨b, hb⟩ := upsertPoint_of_healthy opNum id hs hfits
  exact (Prod.mk.inj (h.symm.trans hb)).2

theorem updateVectors_stores {order : IterOrder VectorName}
    (h : s.updateVectors opNum id order vectors = (.ok applied, s')) :
    s.config.Fits vectors ∧ Stores s s' id
      { p with vectors := (s.config.storedVectors vectors).union p.vectors, version := opNum } := by
  obtain ⟨hfits, hdata⟩ := updateVectors_ok h hp hle
  refine ⟨hfits, stores_store (modified_of_le hp hle _) hdata fun hs => ?_⟩
  obtain ⟨b, hb⟩ := updateVectors_of_healthy opNum order hs hfits hp
  exact (Prod.mk.inj (h.symm.trans hb)).2

/-- A request with a vector that is not taken leaves those written before. -/
theorem upsertPoint_puts (hs : s.errorStatus = none) (haccepts : s.config.Accepts vectors)
    (hv : ¬ s.config.Storable vectors) :
    ∃ err s', s.upsertPoint opNum id vectors = (.error err, s') ∧ Puts s s' id
      { p with vectors := (s.config.writeVectors (s.config.preprocess vectors)
        (s.config.replacedNames s.storageOrder p.vectors) p.vectors).2 } := by
  obtain ⟨err, herr⟩ := replaceOrInsert_of_not_storable opNum id haccepts hv
  rw [hp] at herr
  obtain ⟨s', hresult, hdata⟩ := handlePointVersionAndFailure_of_error hs
    (not_newer (version_le_of_get? hp hle)) herr
  refine ⟨err, s', ?_, puts_of_sameData hdata⟩
  rw [upsertPoint, SegmentConfig.checkNamedVectors_eq_ok.mpr haccepts]
  exact hresult

theorem updateVectors_puts (order : IterOrder VectorName) (hs : s.errorStatus = none)
    (haccepts : s.config.Accepts vectors) (hv : ¬ s.config.Storable vectors) :
    ∃ err s', s.updateVectors opNum id order vectors = (.error err, s') ∧ Puts s s' id
      { p with vectors := (s.config.writeVectors (s.config.preprocess vectors)
        (order.walk (s.config.preprocess vectors).keys) p.vectors).2 } := by
  obtain ⟨err, herr⟩ := overwriteVectors_of_not_storable order haccepts hv hp
  have hold := not_newer (version_le_of_get? hp hle)
  rw [stored_of_some hp] at hold
  obtain ⟨s', hresult, hdata⟩ := handlePointVersionAndFailure_of_error hs hold herr
  refine ⟨err, s', ?_, puts_of_sameData hdata⟩
  rw [updateVectors_of_accepts opNum order haccepts hp]
  exact hresult

variable {name : VectorName}

theorem deleteVector_stores (h : s.deleteVector opNum id name = (.ok applied, s')) :
    s.config.hasVectorName name = true ∧
      Stores s s' id { p with vectors := p.vectors.erase name, version := opNum } := by
  unfold deleteVector SegmentConfig.checkVectorName at h
  by_cases hname : s.config.hasVectorName name = true
  · simp only [hname, hasPoint, hp, Option.isSome_some] at h
    exact ⟨hname, modifyPoint_stores hp hle h⟩
  · simp only [hname] at h
    cases h

theorem deleteVector_of_healthy (hname : s.config.hasVectorName name = true)
    (hs : s.errorStatus = none) :
    ∃ b s', s.deleteVector opNum id name = (.ok b, s') ∧
      Stores s s' id { p with vectors := p.vectors.erase name, version := opNum } := by
  obtain ⟨b, hb⟩ := modifyPoint_of_healthy opNum (fun p : StoredPoint E =>
    ((p.vectors.get? name).isSome, { p with vectors := p.vectors.erase name })) hs hp
  refine ⟨b, _, ?_, modifyPoint_stores hp hle hb⟩
  simp only [deleteVector, SegmentConfig.checkVectorName, hname, hasPoint, hp, Option.isSome_some]
  exact hb

end

/-- An upsert that fails makes no copy newer. -/
theorem upsertPoint_of_not_fits {vectors : NamedVectors E} (hs : s.errorStatus = none)
    (hle : ∀ q, s.points.get? id = some q → q.version ≤ opNum) (hv : ¬ s.config.Fits vectors) :
    ∃ err s', s.upsertPoint opNum id vectors = (.error err, s') ∧ ∀ id' c, s'.copy id' = some c →
      ∃ c', s.copy id' = some c' ∧ c'.version = c.version := by
  have hsame : ∀ id' c, s.copy id' = some c → ∃ c', s.copy id' = some c' ∧ c'.version = c.version :=
    fun _ c hc => ⟨c, hc, rfl⟩
  by_cases haccepts : s.config.Accepts vectors
  · have hstorable : ¬ s.config.Storable vectors := fun h => hv ⟨haccepts, h⟩
    cases hp : s.points.get? id with
    | some p =>
      obtain ⟨err, s', hresult, hputs⟩ := upsertPoint_puts hp (hle p hp) hs haccepts hstorable
      refine ⟨err, s', hresult, fun id' c hc => ?_⟩
      rw [hputs.copy] at hc
      split at hc
      · next heq =>
        cases hc
        subst heq
        exact ⟨_, copy_of_some hp, rfl⟩
      · exact hsame id' c hc
    | none =>
      obtain ⟨err, herr⟩ := replaceOrInsert_of_not_storable opNum id haccepts hstorable
      rw [hp] at herr
      obtain ⟨s', hresult, hdata⟩ := handlePointVersionAndFailure_of_error hs (not_newer hle) herr
      refine ⟨err, s', ?_, fun id' c hc => hsame id' c ((hdata.copy id').symm.trans hc)⟩
      rw [upsertPoint, SegmentConfig.checkNamedVectors_eq_ok.mpr haccepts]
      exact hresult
  · obtain ⟨err, herr⟩ := SegmentConfig.checkNamedVectors_eq_error haccepts
    exact ⟨err, s, upsertPoint_of_error opNum id herr, hsame⟩

end Stores

end Segment

namespace PointOperation

variable {s : Segment E} {segment' : LockedSegment E} {id : PointId} {p : StoredPoint E}
  {opNum : SeqNumber} {applied : Bool}
variable {result : OpResult (Segment E)}

theorem original_ok (h : result.map LockedSegment.original = (.ok applied, segment')) :
    ∃ s', segment' = .original s' ∧ result = (.ok applied, s') := by
  obtain ⟨hresult, rfl⟩ := Prod.mk.inj h
  exact ⟨result.2, rfl, Prod.ext hresult rfl⟩

theorem deleteVectors_stores {names : List VectorName}
    (h : inSequence (names.map (LockedSegment.deleteVector opNum id)) (.original s) =
      (.ok applied, segment'))
    (hp : s.points.get? id = some p) (hle : p.version ≤ opNum) :
    (∀ name ∈ names, s.config.hasVectorName name = true) ∧ ∃ s', segment' = .original s' ∧
      Segment.Stores s s' id
        { p with vectors := names.foldl HashMap.erase p.vectors
                 version := if names.isEmpty then p.version else opNum } := by
  induction names generalizing s p applied with
  | nil =>
    cases h
    exact ⟨by simp, s, rfl, .refl hp⟩
  | cons name names ih =>
    obtain ⟨b, b', t, hfirst, hrest⟩ := OpResult.andThen_ok h
    obtain ⟨s₁, rfl, hdelete⟩ := original_ok hfirst
    obtain ⟨hname, hstores⟩ := deleteVector_stores hp hle hdelete
    obtain ⟨hnames, s', rfl, hstores'⟩ := ih hrest hstores.get? le_rfl
    rw [hstores.shape.config] at hnames
    refine ⟨List.forall_mem_cons.mpr ⟨hname, hnames⟩, s', rfl, ?_⟩
    simpa using hstores.trans hstores'

theorem deletePayload_stores {keys : List JsonPath}
    (h : inSequence (keys.map (LockedSegment.deletePayload opNum id)) (.original s) =
      (.ok applied, segment'))
    (hp : s.points.get? id = some p) (hle : p.version ≤ opNum) :
    ∃ s', segment' = .original s' ∧ Segment.Stores s s' id
        { p with payload := p.payload.map fun old => keys.foldl Payload.remove old
                 version := if keys.isEmpty then p.version else opNum } := by
  induction keys generalizing s p applied with
  | nil =>
    cases h
    refine ⟨s, rfl, ?_⟩
    simpa using Segment.Stores.refl hp
  | cons key keys ih =>
    obtain ⟨b, b', t, hfirst, hrest⟩ := OpResult.andThen_ok h
    obtain ⟨s₁, rfl, hdelete⟩ := original_ok hfirst
    have hstores := modifyPoint_stores hp hle hdelete
    obtain ⟨s', rfl, hstores'⟩ := ih hrest hstores.get? le_rfl
    refine ⟨s', rfl, ?_⟩
    simpa [Function.comp_def] using hstores.trans hstores'

variable {operation : PointOperation E}

/-- What the form in place stores when it succeeds. -/
theorem inPlace_stores (h : operation.inPlace opNum id (.original s) = (.ok applied, segment'))
    (hp : s.points.get? id = some p) (hle : p.version ≤ opNum) :
    operation.Valid s.config ∧ ∃ s', segment' = .original s' ∧
      Segment.Stores s s' id (operation.stored s.config opNum p) := by
  cases operation with
  | upsert vectors payload =>
    rw [inPlace, LockedSegment.upsertWithPayload_original] at h
    obtain ⟨hresult, rfl⟩ := Prod.mk.inj h
    obtain ⟨b, b', s₁, h₁, h₂⟩ := OpResult.andThen_ok (Prod.ext hresult rfl)
    obtain ⟨hvalid, hstores⟩ := upsertPoint_stores hp hle h₁
    have hstores' := modifyPoint_stores hstores.get? le_rfl h₂
    exact ⟨hvalid, _, rfl, hstores.trans hstores'⟩
  | updateVectors order vectors =>
    obtain ⟨s', rfl, hupdate⟩ := original_ok h
    obtain ⟨hvalid, hstores⟩ := updateVectors_stores hp hle hupdate
    exact ⟨hvalid, s', rfl, hstores⟩
  | deleteVectors names =>
    obtain ⟨hvalid, s', rfl, hstores⟩ := deleteVectors_stores h hp hle
    refine ⟨hvalid, s', rfl, ?_⟩
    cases names <;> exact hstores
  | setPayload payload key | overwritePayload payload | clearPayload =>
    obtain ⟨s', rfl, hupdate⟩ := original_ok h
    exact ⟨trivial, s', rfl, modifyPoint_stores hp hle hupdate⟩
  | deletePayload keys =>
    obtain ⟨s', rfl, hstores⟩ := deletePayload_stores h hp hle
    refine ⟨trivial, s', rfl, ?_⟩
    cases keys <;> exact hstores

/-! ## When the form in place succeeds -/

theorem original_of_ok {s' : Segment E} (h : result = (.ok applied, s')) :
    result.map LockedSegment.original = (.ok applied, .original s') := by
  rw [h]
  rfl

/-- Steps that succeed one by one succeed together. The steps may rely on the point being
there. -/
theorem inSequence_of_healthy {α : Type} (step : α → LockedSegment E → OpResult (LockedSegment E))
    (steps : List α) (hstep : ∀ a ∈ steps, ∀ s₁ q, Segment.SameShape s₁ s → s₁.errorStatus = none →
      s₁.points.get? id = some q → q.version ≤ opNum →
      ∃ b s₂ q', step a (.original s₁) = (.ok b, .original s₂) ∧ Segment.Stores s₁ s₂ id q' ∧
        q'.version ≤ opNum)
    (hs : s.errorStatus = none) (hp : s.points.get? id = some p) (hle : p.version ≤ opNum) :
    ∃ b s', inSequence (steps.map step) (.original s) = (.ok b, .original s') := by
  suffices hrest : ∀ rest ⊆ steps, ∀ s₁ q, Segment.SameShape s₁ s → s₁.errorStatus = none →
      s₁.points.get? id = some q → q.version ≤ opNum →
      ∃ b s', inSequence (rest.map step) (.original s₁) = (.ok b, .original s') from
    hrest steps (List.Subset.refl _) s p (.refl s) hs hp hle
  intro rest
  induction rest with
  | nil => exact fun _ s₁ _ _ _ _ _ => ⟨true, s₁, rfl⟩
  | cons a rest ih =>
    intro hsubset s₁ q hshape hstatus hq hle
    obtain ⟨hmem, hsubset⟩ := List.cons_subset.mp hsubset
    obtain ⟨b, s₂, q', hfirst, hstores, hle'⟩ := hstep a hmem s₁ q hshape hstatus hq hle
    obtain ⟨b', s', hsecond⟩ := ih hsubset s₂ q' (hstores.shape.trans hshape)
      (hstores.status hstatus) hstores.get? hle'
    exact ⟨b && b', s', OpResult.andThen_of_ok hfirst hsecond⟩

theorem inPlace_of_healthy (hvalid : operation.Valid s.config)
    (hs : s.errorStatus = none) (hp : s.points.get? id = some p) (hle : p.version ≤ opNum) :
    ∃ b segment', operation.inPlace opNum id (.original s) = (.ok b, segment') := by
  have hmodify : ∀ f, ∃ b s', s.modifyPoint opNum id f = (.ok b, s') := fun f =>
    let ⟨b, hb⟩ := Segment.modifyPoint_of_healthy opNum f hs hp
    ⟨b, _, hb⟩
  cases operation with
  | upsert vectors payload =>
    refine LockedSegment.upsertWithPayload_of_healthy opNum id payload hs hvalid fun c hc => ?_
    rw [Segment.copy_of_some hp] at hc
    cases hc
    exact hle
  | updateVectors order vectors =>
    obtain ⟨b, hb⟩ := Segment.updateVectors_of_healthy opNum order hs hvalid hp
    exact ⟨b, _, original_of_ok hb⟩
  | deleteVectors names =>
    obtain ⟨b, s', hb⟩ := inSequence_of_healthy (LockedSegment.deleteVector opNum id)
      names (fun name hname s₁ q hshape hstatus hq hle => by
        obtain ⟨b, s₂, hb, hstores⟩ := Segment.deleteVector_of_healthy
          hq hle (hshape.config ▸ hvalid name hname) hstatus
        exact ⟨b, s₂, _, original_of_ok hb, hstores, le_rfl⟩) hs hp hle
    exact ⟨b, .original s', hb⟩
  | setPayload payload key | overwritePayload payload | clearPayload =>
    obtain ⟨b, s', hb⟩ := hmodify _
    exact ⟨b, .original s', original_of_ok hb⟩
  | deletePayload keys =>
    obtain ⟨b, s', hb⟩ := inSequence_of_healthy (LockedSegment.deletePayload opNum id)
      keys (fun key _ s₁ q _ hstatus hq hle => by
        obtain ⟨b, hb⟩ := Segment.modifyPoint_of_healthy opNum _ hstatus hq
        exact ⟨b, _, _, original_of_ok hb, Segment.modifyPoint_stores hq hle hb, le_rfl⟩)
      hs hp hle
    exact ⟨b, .original s', hb⟩

/-! ## The two forms together -/

/-- The content of a point after it was moved to a segment with this configuration. -/
def moved (config : SegmentConfig E) (operation : PointOperation E) (r : Record E) : Record E :=
  { vectors := config.storedVectors (operation.cow r).vectors, payload := (operation.cow r).payload }

/-- Both forms of the operation succeed, write the version of the point and lead to the same
content. -/
structure Agrees (config : SegmentConfig E) (operation : PointOperation E) (r : Record E) :
    Prop where
  valid : operation.Valid config
  touches : operation.touches = true
  fits : config.Fits (operation.cow r).vectors
  content : ∀ p : StoredPoint E, p.record = r →
    (operation.content config p).record = operation.moved config r

variable {config : SegmentConfig E} {configs : Set (SegmentConfig E)}
  {operation : PointId → PointOperation E} {old : Record E}

theorem update_applies (hconfigs : ∀ config' ∈ configs, config' = config)
    (hagrees : (operation id).Agrees config old) :
    (update opNum operation).Applies configs opNum id old ((operation id).moved config old) := by
  refine ⟨fun s copy applied segment' hconfig hcopy hrecord hold hok => ?_, fun config' hconfig => ?_⟩
  · obtain ⟨p, hp, rfl⟩ := Option.map_eq_some_iff.mp hcopy
    obtain ⟨-, s', rfl, hstores⟩ := inPlace_stores hok hp hold.le
    refine ⟨s', rfl, hstores.shape, hstores.status, fun id' => ?_⟩
    have hinternal : ((operation id).stored s.config opNum p).internalId = p.internalId := by
      cases operation id <;> rfl
    rw [hstores.copy, hinternal, hconfigs _ hconfig]
    have hversion : ((operation id).stored config opNum p).version = opNum := if_pos hagrees.touches
    rw [hversion]
    have hcontent : ((operation id).stored config opNum p).record =
        (operation id).moved config old := hagrees.content p hrecord
    rw [hcontent]
  · rw [hconfigs config' hconfig]
    exact ⟨rfl, rfl⟩

end PointOperation

end Qdrant
