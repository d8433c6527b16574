-- SUMMARY: Filtering points through the primary clauses of an estimation, compared with a full scan.
import Mathlib.Algebra.Group.Nat.Defs
import Mathlib.Data.List.MinMax
import Mathlib.Data.List.ReduceOption
import Mathlib.Tactic.Tauto
import Qdrant.Base.Chunks
import Qdrant.Segment.JsonPath

/-!
# Filtering

A query with a filter first estimates how many points match (`query_estimator.rs`). The
estimation keeps primary clauses: conditions whose indexes can list candidates. The points
are then listed from the indexes, and checked against the filter unless all its conditions
are among the clauses (`StructPayloadIndex::iter_filtered_points`).

The clauses always list enough candidates, except below nested conditions, where an empty
field of one element says nothing about the field of the whole point. Leaving out the check
is wrong when a condition is also needed elsewhere in the filter.
-/

namespace Qdrant

open List

namespace JsonPath

def extend (path other : JsonPath) : JsonPath :=
  ⟨path.firstKey, path.rest ++ .key other.firstKey :: other.rest⟩

def extendOrNew (base : Option JsonPath) (other : JsonPath) : JsonPath :=
  match base with
  | some base => base.extend other
  | none => other

def arrayKey (path : JsonPath) : JsonPath :=
  if path.rest.getLast? = some .wildcardIndex then path
  else ⟨path.firstKey, path.rest ++ [.wildcardIndex]⟩

end JsonPath

def JsonMap.getValue (fields : JsonMap) (path : JsonPath) : List Value :=
  Value.getField path.rest (fields.get? path.firstKey)

namespace Value

theorem get_append (path rest : List JsonPathItem) (value : Value) :
    value.get (path ++ rest) = (value.get path).flatMap (get rest) := by
  induction path generalizing value with
  | nil => simp [get]
  | cons item path ih =>
    cases item with
    | key key =>
      rw [cons_append, get_key, get_key]
      cases JsonMap.get? value.fieldsOrEmpty key with
      | none => rfl
      | some field => exact ih field
    | index i =>
      cases value with
      | array items =>
        simp only [cons_append, get]
        cases items[i]? with
        | none => rfl
        | some item => exact ih item
      | _ => rfl
    | wildcardIndex =>
      cases value with
      | array items =>
        simp only [get, flatMap_assoc]
        exact congrArg items.flatMap (funext ih)
      | _ => rfl

theorem getField_append (path rest : List JsonPathItem) (field : Option Value) :
    getField (path ++ rest) field = (getField path field).flatMap (get rest) := by
  cases field with
  | none => rfl
  | some value => exact get_append path rest value

end Value

namespace Filtering

/-- `κ` is what a condition asks of the values at its key. -/
structure FieldCondition (κ : Type) where
  key : JsonPath
  ask : κ
deriving DecidableEq

mutual

inductive Condition (κ : Type) where
  | field (condition : FieldCondition κ)
  | isEmpty (key : JsonPath)
  | isNull (key : JsonPath)
  | hasId (ids : List Nat)
  | hasVector (name : String)
  -- a check of external ids from outside, with the number of points it expects
  | customIdChecker (check : Nat → Bool) (exp : Nat)
  | nested (key : JsonPath) (filter : Filter κ)
  | filter (filter : Filter κ)

/-- `minCount` belongs to `minShould`. -/
inductive Filter (κ : Type) where
  | mk (must should minShould : Option (List (Condition κ))) (minCount : Nat)
      (mustNot : Option (List (Condition κ)))

end

inductive PrimaryCondition (κ : Type) where
  | condition (condition : FieldCondition κ)
  -- resolved to internal ids when they are listed
  | ids (pointIds : List Nat)
  | hasVector (name : String)

structure CardinalityEstimation (κ : Type) where
  primaryClauses : List (PrimaryCondition κ)
  exp : Nat

structure VectorStorage where
  availableVectorCount : Nat
  isDeletedVector : Nat → Bool

/-- What a query reads of a segment. Each index lists the points that satisfy its condition. -/
structure IndexedPoints (κ : Type) where
  /-- The points that are not deleted, in order. -/
  points : List Nat
  sorted : points.Pairwise (· < ·)
  bounded : ∀ pointId ∈ points, pointId < 2 ^ 32 - 1
  payload : Nat → Payload
  externalId : Nat → Option Nat
  internalId : Nat → Option Nat
  internalId_mem : ∀ id pointId, internalId id = some pointId → pointId ∈ points
  vectorStorages : String → Option VectorStorage
  /-- A condition, with its key in the point, at some values. -/
  test : FieldCondition κ → List Value → Bool
  askEmpty : κ
  askNull : κ
  /-- The number of points that the indexes of a key expect, and whether the condition is a
  primary clause. -/
  estimateIndex : FieldCondition κ → Option (Nat × Bool)
  filterIndex : FieldCondition κ → Option (List Nat)
  filterIndex_mem : ∀ condition ids, filterIndex condition = some ids → ∀ pointId,
    pointId ∈ ids ↔ pointId ∈ points ∧ test condition ((payload pointId).getValue condition.key) = true
  /-- The arithmetic of expected counts. -/
  mustExp : List Nat → Nat
  shouldExp : List Nat → Nat

/-! ## Checking a filter -/

/-- The object that a filter is checked on: the payload of the point, or an element of an array
that a nested condition went into, with its path. -/
structure Scope where
  path : Option JsonPath
  fields : JsonMap

/-- For the payload itself an empty list of conditions is no list. -/
def Scope.relevant (scope : Scope) (results : Option (List Bool)) : Option (List Bool) :=
  if scope.path = none then results.filter (· ≠ []) else results

variable {κ : Type} (s : IndexedPoints κ) (pointId : Nat)

namespace IndexedPoints

/-- The payload of the point. -/
def top : Scope := ⟨none, (s.payload pointId).fields⟩

def checkField (scope : Scope) (condition : FieldCondition κ) : Bool :=
  s.test { condition with key := .extendOrNew scope.path condition.key }
    (scope.fields.getValue condition.key)

def resolve (ids : List Nat) : List Nat := ids.filterMap s.internalId

end IndexedPoints

mutual

/-- Ids and vectors are not known inside nested conditions. -/
def Condition.check (scope : Scope) : Condition κ → Bool
  | .field condition => s.checkField scope condition
  | .isEmpty key => s.checkField scope ⟨key, s.askEmpty⟩
  | .isNull key => s.checkField scope ⟨key, s.askNull⟩
  | .hasId ids => scope.path = none && (s.resolve ids).contains pointId
  | .hasVector name => scope.path = none &&
    (s.vectorStorages name).any fun storage => !storage.isDeletedVector pointId
  | .customIdChecker check _ => scope.path = none && (s.externalId pointId).any check
  | .nested key filter => (scope.fields.getValue key.arrayKey).any fun
    | .object fields => filter.check ⟨some (.extendOrNew scope.path key.arrayKey), fields⟩
    | _ => false
  | .filter filter => filter.check scope

def Filter.check (scope : Scope) : Filter κ → Bool
  | .mk must should minShould minCount mustNot =>
    (scope.relevant (checkOpt scope should)).all (·.any id) &&
    (scope.relevant (checkOpt scope minShould)).all (fun results =>
      ((results.filter id).take minCount).length = minCount) &&
    (scope.relevant (checkOpt scope must)).all (·.all id) &&
    (scope.relevant (checkOpt scope mustNot)).all (·.all not)

def checkOpt (scope : Scope) : Option (List (Condition κ)) → Option (List Bool)
  | none => none
  | some conditions => some (checkList scope conditions)

def checkList (scope : Scope) : List (Condition κ) → List Bool
  | [] => []
  | condition :: conditions => condition.check scope :: checkList scope conditions

end

/-! ## Estimating a filter -/

namespace CardinalityEstimation

def exact (count : Nat) : CardinalityEstimation κ := ⟨[], count⟩

end CardinalityEstimation

namespace IndexedPoints

def unknown : CardinalityEstimation κ := ⟨[], s.points.length / 2⟩

def estimateFieldCondition (path : Option JsonPath) (condition : FieldCondition κ) :
    CardinalityEstimation κ :=
  let fullPathCondition := { condition with key := .extendOrNew path condition.key }
  match s.estimateIndex fullPathCondition with
  | some (exp, primary) => ⟨if primary then [.condition fullPathCondition] else [], exp⟩
  | none => s.unknown

/-- The clauses of the first estimation of those with clauses that expects the fewest points. -/
def combineMustEstimations (estimations : List (CardinalityEstimation κ)) : CardinalityEstimation κ where
  primaryClauses :=
    match (estimations.filter (!·.primaryClauses.isEmpty)).argmin (·.exp) with
    | some estimation => estimation.primaryClauses
    | none => []
  exp := s.mustExp (estimations.map (·.exp))

/-- All clauses, if no estimation is without. -/
def combineShouldEstimations (estimations : List (CardinalityEstimation κ)) : CardinalityEstimation κ where
  primaryClauses :=
    if estimations.any (·.primaryClauses.isEmpty) then [] else estimations.flatMap (·.primaryClauses)
  exp := s.shouldExp (estimations.map (·.exp))

end IndexedPoints

/-- The choices of a number of items, in their order. -/
def combinations {α : Type} : Nat → List α → List (List α)
  | 0, _ => [[]]
  | _ + 1, [] => []
  | k + 1, item :: items => (combinations k items).map (item :: ·) ++ combinations (k + 1) items

namespace IndexedPoints

def combineMinShouldEstimations (estimations : List (CardinalityEstimation κ)) (minCount : Nat) :
    CardinalityEstimation κ :=
  if minCount > estimations.length then .exact 0
  else s.combineShouldEstimations ((combinations minCount estimations).map s.combineMustEstimations)

def invertEstimation (estimation : CardinalityEstimation κ) : CardinalityEstimation κ :=
  ⟨[], s.points.length - estimation.exp⟩

end IndexedPoints

mutual

def Condition.estimate (path : Option JsonPath) : Condition κ → CardinalityEstimation κ
  | .field condition => s.estimateFieldCondition path condition
  | .isEmpty key => s.estimateFieldCondition path ⟨key, s.askEmpty⟩
  | .isNull key => s.estimateFieldCondition path ⟨key, s.askNull⟩
  | .hasId ids => ⟨[.ids ids], (s.resolve ids).length⟩
  | .hasVector name =>
    match s.vectorStorages name with
    | some storage => ⟨[.hasVector name], storage.availableVectorCount⟩
    | none => .exact 0
  | .customIdChecker _ exp => ⟨[], exp⟩
  | .nested key filter => filter.estimate (some (.extendOrNew path key.arrayKey))
  | .filter filter => filter.estimate path

def Filter.estimate (path : Option JsonPath) : Filter κ → CardinalityEstimation κ
  | .mk must should minShould minCount mustNot =>
    s.combineMustEstimations <| List.reduceOption
      [((estimateOpt path must).filter (!·.isEmpty)).map s.combineMustEstimations,
        ((estimateOpt path should).filter (!·.isEmpty)).map s.combineShouldEstimations,
        (estimateOpt path minShould).map (s.combineMinShouldEstimations · minCount),
        ((estimateOpt path mustNot).filter (!·.isEmpty)).map fun estimations =>
          s.combineMustEstimations (estimations.map s.invertEstimation)]

def estimateOpt (path : Option JsonPath) :
    Option (List (Condition κ)) → Option (List (CardinalityEstimation κ))
  | none => none
  | some conditions => some (estimateList path conditions)

def estimateList (path : Option JsonPath) : List (Condition κ) → List (CardinalityEstimation κ)
  | [] => []
  | condition :: conditions => condition.estimate path :: estimateList path conditions

end

/-! ## Querying points -/

def CardinalityEstimation.isPrimary [DecidableEq κ] (estimation : CardinalityEstimation κ)
    (condition : Condition κ) : Bool :=
  estimation.primaryClauses.any fun
    | .condition primary => match condition with
      | .field condition => primary = condition
      | _ => false
    | .ids pointIds => match condition with
      | .hasId ids => pointIds ⊆ ids ∧ ids ⊆ pointIds
      | _ => false
    | .hasVector name => match condition with
      | .hasVector name' => name = name'
      | _ => false

def Filter.iterConditions : Filter κ → List (Condition κ)
  | .mk must should minShould _ mustNot =>
    must.getD [] ++ mustNot.getD [] ++ should.getD [] ++ minShould.getD []

namespace IndexedPoints

/-- The points before the first deferred one. -/
def visible (deferredInternalId : Option Nat) : List Nat :=
  match deferredInternalId with
  | none => s.points
  | some deferred => s.points.takeWhile (· < deferred)

def queryField : PrimaryCondition κ → Option (List Nat)
  | .condition condition => s.filterIndex condition
  | .ids pointIds => some (s.resolve pointIds)
  | .hasVector _ => none

section

variable (filter : Filter κ)

def accepts : Bool := filter.check s pointId (s.top pointId)

/-- The points of `iter_filtered_points`. The list of visited points keeps the first of equal ones. -/
def queryPoints [DecidableEq κ] (deferredInternalId : Option Nat) : List Nat :=
  let queryCardinality := filter.estimate s none
  if queryCardinality.primaryClauses.isEmpty then
    (s.visible deferredInternalId).filter (s.accepts · filter)
  else
    match queryCardinality.primaryClauses.mapM s.queryField with
    | some primaryIterators =>
      let joined := primaryIterators.flatten.filter (· < deferredInternalId.getD (2 ^ 32 - 1))
      if filter.iterConditions.all queryCardinality.isPrimary then joined.eraseDups
      else joined.eraseDups.filter (s.accepts · filter)
    | none => (s.visible deferredInternalId).eraseDups.filter (s.accepts · filter)

/-- The visible points that the filter accepts, each once. -/
def Answers (deferredInternalId : Option Nat) (result : List Nat) : Prop :=
  result.Nodup ∧
    ∀ pointId, pointId ∈ result ↔ pointId ∈ s.visible deferredInternalId ∧ s.accepts pointId filter

/-- There are clauses, and every one of them can list its points. -/
def UsesClauses : Prop :=
  (filter.estimate s none).primaryClauses ≠ [] ∧
    ∀ clause ∈ (filter.estimate s none).primaryClauses, (s.queryField clause).isSome

/-- One of the clauses lists the point. -/
def Selects : Prop :=
  ∃ clause ∈ (filter.estimate s none).primaryClauses, ∃ ids,
    s.queryField clause = some ids ∧ pointId ∈ ids

end

variable {s pointId}

theorem mem_visible {deferredInternalId : Option Nat} : pointId ∈ s.visible deferredInternalId ↔
      pointId ∈ s.points ∧ pointId < deferredInternalId.getD (2 ^ 32 - 1) := by
  cases deferredInternalId with
  | none => exact ⟨fun h => ⟨h, s.bounded pointId h⟩, And.left⟩
  | some deferred =>
    rw [visible, takeWhile_eq_filter (s.sorted.imp fun hlt => by grind), mem_filter, decide_eq_true_eq]
    rfl

theorem nodup_visible (deferredInternalId : Option Nat) : (s.visible deferredInternalId).Nodup := by
  have hnodup : s.points.Nodup := s.sorted.imp Nat.ne_of_lt
  cases deferredInternalId with
  | none => exact hnodup
  | some deferred => exact hnodup.sublist (takeWhile_sublist _)

theorem mem_points_of_queryField {clause : PrimaryCondition κ} {ids : List Nat}
    (h : s.queryField clause = some ids) (hmem : pointId ∈ ids) : pointId ∈ s.points := by
  cases clause with
  | condition condition => exact ((s.filterIndex_mem condition ids h pointId).mp hmem).1
  | ids pointIds =>
    obtain rfl := Option.some.inj h
    obtain ⟨id, -, hid⟩ := mem_filterMap.mp hmem
    exact s.internalId_mem id pointId hid
  | hasVector name => cases h

variable {clauses : List (PrimaryCondition κ)} {iterators : List (List Nat)}

theorem mem_flatten_mapM (h : clauses.mapM s.queryField = some iterators) :
    pointId ∈ iterators.flatten ↔
      ∃ clause ∈ clauses, ∃ ids, s.queryField clause = some ids ∧ pointId ∈ ids := by
  induction clauses generalizing iterators with
  | nil =>
    obtain rfl : iterators = [] := (Option.some.inj h).symm
    simp
  | cons clause clauses ih =>
    simp only [mapM_cons, Option.bind_eq_bind, Option.bind_eq_some_iff] at h
    obtain ⟨ids, hids, rest, hrest, heq⟩ := h
    obtain rfl := Option.some.inj heq
    simp [ih hrest, hids]

theorem isSome_mapM :
    (clauses.mapM s.queryField).isSome ↔ ∀ clause ∈ clauses, (s.queryField clause).isSome := by
  induction clauses with
  | nil => simp
  | cons clause clauses ih =>
    rw [forall_mem_cons, ← ih, mapM_cons]
    cases s.queryField clause <;> cases clauses.mapM s.queryField <;> simp

theorem nodup_eraseDups : (ids : List Nat) → ids.eraseDups.Nodup
  | [] => List.nodup_nil
  | id :: ids => by
    rw [List.eraseDups_cons, List.nodup_cons, List.mem_eraseDups]
    exact ⟨by simp, nodup_eraseDups _⟩
termination_by ids => ids.length
decreasing_by exact Nat.lt_succ_of_le (List.length_filter_le ..)

/-- The points that are listed from the clauses. -/
theorem mem_joined {filter : Filter κ}
    (h : (filter.estimate s none).primaryClauses.mapM s.queryField = some iterators)
    (deferredInternalId : Option Nat) (pointId : Nat) :
    pointId ∈ (iterators.flatten.filter (· < deferredInternalId.getD (2 ^ 32 - 1))).eraseDups ↔
      pointId ∈ s.visible deferredInternalId ∧ s.Selects pointId filter := by
  rw [mem_eraseDups, mem_filter, mem_flatten_mapM h, mem_visible, decide_eq_true_iff]
  constructor
  · rintro ⟨⟨clause, hclause, ids, hids, hmem⟩, hlt⟩
    exact ⟨⟨mem_points_of_queryField hids hmem, hlt⟩, clause, hclause, ids, hids, hmem⟩
  · rintro ⟨⟨-, hlt⟩, hselects⟩
    exact ⟨hselects, hlt⟩

/-- The answer is right if and only if the clauses list enough points, and no wrong ones where
the check is left out. -/
theorem answers_iff [DecidableEq κ] (filter : Filter κ) (deferredInternalId : Option Nat) :
    s.Answers filter deferredInternalId (s.queryPoints filter deferredInternalId) ↔
      (s.UsesClauses filter → ∀ pointId ∈ s.visible deferredInternalId,
        (s.accepts pointId filter → s.Selects pointId filter) ∧
        (filter.iterConditions.all (filter.estimate s none).isPrimary → s.Selects pointId filter →
          s.accepts pointId filter)) := by
  unfold queryPoints
  dsimp only
  split
  next hempty =>
    refine iff_of_true ⟨(nodup_visible _).filter _, fun pointId => mem_filter⟩ ?_
    exact fun huses => absurd (isEmpty_iff.mp hempty) huses.1
  next hclauses =>
    have huses : s.UsesClauses filter ↔
        ((filter.estimate s none).primaryClauses.mapM s.queryField).isSome := by
      rw [isSome_mapM]
      exact and_iff_right fun hnil => hclauses (isEmpty_iff.mpr hnil)
    split
    next iterators hiterators =>
      have hjoined := mem_joined hiterators deferredInternalId
      split
      next hprimary =>
        rw [Answers, and_iff_right (nodup_eraseDups _)]
        grind
      next hprimary =>
        rw [Answers, and_iff_right ((nodup_eraseDups _).filter _)]
        grind
    next hnone =>
      refine iff_of_true ⟨(nodup_eraseDups _).filter _, fun pointId => ?_⟩ ?_
      · rw [mem_filter, mem_eraseDups]
      · rw [huses, hnone]
        nofun

/-! ## Coverage -/

variable (s) in
/-- More values do not make the condition fail. -/
def Steady (ask : κ) : Prop :=
  ∀ key values more, values ⊆ more → s.test ⟨key, ask⟩ values → s.test ⟨key, ask⟩ more

variable (s pointId) in
/-- If there are clauses, one of them has the point among those it lists. -/
def Covers (estimation : CardinalityEstimation κ) : Prop :=
  estimation.primaryClauses ≠ [] →
    ∃ clause ∈ estimation.primaryClauses, ∀ ids, s.queryField clause = some ids → pointId ∈ ids

variable {estimations : List (CardinalityEstimation κ)}

theorem covers_must (h : ∀ estimation ∈ estimations, s.Covers pointId estimation) :
    s.Covers pointId (s.combineMustEstimations estimations) := by
  unfold combineMustEstimations Covers
  split
  next estimation hmin =>
    exact h estimation (mem_filter.mp (argmin_mem hmin)).1
  next => exact fun hne => absurd rfl hne

theorem covers_should (h : ∃ estimation ∈ estimations, s.Covers pointId estimation) :
    s.Covers pointId (s.combineShouldEstimations estimations) := by
  obtain ⟨estimation, hmem, hcovers⟩ := h
  unfold combineShouldEstimations Covers
  split
  next => exact fun hne => absurd rfl hne
  next hall =>
    intro _
    have hne : estimation.primaryClauses ≠ [] := by
      intro hnil
      exact hall (any_eq_true.mpr ⟨estimation, hmem, isEmpty_iff.mpr hnil⟩)
    obtain ⟨clause, hclause, hids⟩ := hcovers hne
    exact ⟨clause, mem_flatMap_of_mem hmem hclause, hids⟩

theorem mem_combinations {α : Type} {chosen items : List α} (h : chosen.Sublist items) :
    chosen ∈ combinations chosen.length items := by
  induction h with
  | slnil => exact mem_singleton_self _
  | @cons chosen items item _ ih =>
    cases chosen with
    | nil => exact mem_singleton_self _
    | cons first rest => exact mem_append_right _ ih
  | cons_cons item _ ih => exact mem_append_left _ (mem_map_of_mem ih)

variable (s pointId) in
/-- The object is the payload of the point, or in it at its path. -/
def InPoint (scope : Scope) : Prop :=
  pointId ∈ s.points ∧
    match scope.path with
    | none => scope.fields = (s.payload pointId).fields
    | some path => .object scope.fields ∈ (s.payload pointId).getValue path

theorem InPoint.getValue_subset {scope : Scope} (h : s.InPoint pointId scope) (key : JsonPath) :
    scope.fields.getValue key ⊆ (s.payload pointId).getValue (.extendOrNew scope.path key) := by
  obtain ⟨path, fields⟩ := scope
  cases path with
  | none =>
    obtain rfl : fields = (s.payload pointId).fields := h.2
    exact List.Subset.refl _
  | some path =>
    intro value hvalue
    have happend : (s.payload pointId).getValue (path.extend key) = _ :=
      Value.getField_append path.rest (.key key.firstKey :: key.rest) _
    change value ∈ (s.payload pointId).getValue (path.extend key)
    rw [happend]
    exact mem_flatMap_of_mem h.2 (Value.get_key ▸ hvalue)

theorem covers_field {scope : Scope} {condition : FieldCondition κ} (hin : s.InPoint pointId scope)
    (hsteady : ∀ ask ∈ if scope.path.isSome then [condition.ask] else [], s.Steady ask)
    (hcheck : s.checkField scope condition) :
    s.Covers pointId (s.estimateFieldCondition scope.path condition) := by
  have hwhole : s.test { condition with key := .extendOrNew scope.path condition.key }
      ((s.payload pointId).getValue (.extendOrNew scope.path condition.key)) := by
    obtain ⟨path, fields⟩ := scope
    cases path with
    | none =>
      obtain rfl : fields = (s.payload pointId).fields := hin.2
      exact hcheck
    | some path =>
      exact hsteady _ (mem_singleton_self _) _ _ _ (hin.getValue_subset condition.key) hcheck
  unfold estimateFieldCondition Covers
  dsimp only
  split
  next exp primary hestimate =>
    cases primary with
    | false => exact fun hne => absurd rfl hne
    | true =>
      intro _
      refine ⟨_, mem_singleton_self _, fun ids hids => ?_⟩
      exact (s.filterIndex_mem _ ids hids pointId).mpr ⟨hin.1, hwhole⟩
  next => exact fun hne => absurd rfl hne

end IndexedPoints

variable {s pointId} {scope : Scope}

theorem checkList_eq (conditions : List (Condition κ)) :
    checkList s pointId scope conditions = conditions.map (Condition.check s pointId scope) := by
  induction conditions with
  | nil => rfl
  | cons condition conditions ih => rw [checkList, ih, map_cons]

theorem estimateList_eq {path : Option JsonPath} (conditions : List (Condition κ)) :
    estimateList s path conditions = conditions.map (Condition.estimate s path) := by
  induction conditions with
  | nil => rfl
  | cons condition conditions ih => rw [estimateList, ih, map_cons]

variable {conditions : List (Condition κ)}

/-- A part of the filter with conditions is checked. -/
theorem checkOpt_some (hne : conditions ≠ []) {holds : List Bool → Bool}
    (h : (scope.relevant (checkOpt s pointId scope (some conditions))).all holds = true) :
    holds (conditions.map (Condition.check s pointId scope)) = true := by
  have hmap : conditions.map (Condition.check s pointId scope) ≠ [] := by simpa using hne
  rw [checkOpt, checkList_eq, Scope.relevant] at h
  split at h
  · rwa [Option.filter_some_pos (by simpa using hmap)] at h
  · exact h

/-- The estimation of a part comes from its conditions. -/
theorem estimateOpt_some {path : Option JsonPath} {conditions : Option (List (Condition κ))}
    {combine : List (CardinalityEstimation κ) → CardinalityEstimation κ}
    {estimation : CardinalityEstimation κ}
    (h : ((estimateOpt s path conditions).filter (!·.isEmpty)).map combine = some estimation) :
    ∃ list, conditions = some list ∧ list ≠ [] ∧ combine (list.map (Condition.estimate s path)) = estimation := by
  cases conditions with
  | none => cases h
  | some list =>
    obtain ⟨estimations, hfilter, rfl⟩ := Option.map_eq_some_iff.mp h
    obtain ⟨heq, hne⟩ := Option.filter_eq_some_iff.mp hfilter
    obtain rfl := Option.some.inj heq
    rw [estimateList_eq] at hne ⊢
    exact ⟨list, rfl, by simpa using hne, rfl⟩

theorem covers_count {minCount : Nat}
    (h : ∀ condition ∈ conditions, condition.check s pointId scope = true →
      s.Covers pointId (condition.estimate s scope.path))
    (hcount : decide ((((conditions.map (Condition.check s pointId scope)).filter id).take
      minCount).length = minCount) = true) :
    s.Covers pointId
      (s.combineMinShouldEstimations (conditions.map (Condition.estimate s scope.path)) minCount) := by
  have hlength := of_decide_eq_true hcount
  rw [filter_map, ← map_take, length_map] at hlength
  have hsublist := (take_sublist minCount
    (conditions.filter (id ∘ Condition.check s pointId scope))).trans filter_sublist
  have hchosen := IndexedPoints.mem_combinations (hsublist.map (Condition.estimate s scope.path))
  rw [length_map, hlength] at hchosen
  have hle := hsublist.length_le
  rw [hlength] at hle
  rw [IndexedPoints.combineMinShouldEstimations, if_neg (by simpa using hle)]
  refine IndexedPoints.covers_should ⟨_, mem_map_of_mem hchosen, IndexedPoints.covers_must ?_⟩
  exact forall_mem_map.mpr fun condition hmem => h condition (hsublist.subset hmem)
    (mem_filter.mp (mem_of_mem_take hmem)).2

section

variable (s)

mutual

/-- What conditions inside nested ones ask. Those that must not hold make no clauses. -/
def Condition.nestedAsks (inside : Bool) : Condition κ → List κ
  | .field condition => if inside then [condition.ask] else []
  | .isEmpty _ => if inside then [s.askEmpty] else []
  | .isNull _ => if inside then [s.askNull] else []
  | .nested _ filter => filter.nestedAsks true
  | .filter filter => filter.nestedAsks inside
  | .hasId _ | .hasVector _ | .customIdChecker .. => []

def Filter.nestedAsks (inside : Bool) : Filter κ → List κ
  | .mk must should minShould _ _ =>
    nestedAsksOpt inside must ++ nestedAsksOpt inside should ++ nestedAsksOpt inside minShould

def nestedAsksOpt (inside : Bool) : Option (List (Condition κ)) → List κ
  | none => []
  | some conditions => nestedAsksList inside conditions

def nestedAsksList (inside : Bool) : List (Condition κ) → List κ
  | [] => []
  | condition :: conditions => condition.nestedAsks inside ++ nestedAsksList inside conditions

end

end

mutual

theorem Condition.covers {scope : Scope} (hin : s.InPoint pointId scope) : (condition : Condition κ) →
    (∀ ask ∈ condition.nestedAsks s scope.path.isSome, s.Steady ask) →
    condition.check s pointId scope = true → s.Covers pointId (condition.estimate s scope.path)
  | .field _, hsteady, hcheck => IndexedPoints.covers_field hin hsteady hcheck
  | .isEmpty _, hsteady, hcheck => IndexedPoints.covers_field hin hsteady hcheck
  | .isNull _, hsteady, hcheck => IndexedPoints.covers_field hin hsteady hcheck
  | .hasId ids, _, hcheck => by
    rw [Condition.check, Bool.and_eq_true, List.contains_iff_mem] at hcheck
    refine fun _ => ⟨_, List.mem_singleton_self _, fun resolved hresolved => ?_⟩
    exact Option.some.inj hresolved ▸ hcheck.2
  | .hasVector name, _, _ => by
    unfold Condition.estimate
    split
    · exact fun _ => ⟨_, List.mem_singleton_self _, nofun⟩
    · exact fun hne => absurd rfl hne
  | .customIdChecker check exp, _, _ => fun hne => absurd rfl hne
  | .nested key filter, hsteady, hcheck => by
    obtain ⟨value, hvalue, hfilter⟩ := any_eq_true.mp hcheck
    cases value with
    | object fields =>
      have hinside : s.InPoint pointId ⟨some (.extendOrNew scope.path key.arrayKey), fields⟩ :=
        ⟨hin.1, hin.getValue_subset _ hvalue⟩
      exact filter.covers hinside hsteady hfilter
    | _ => cases hfilter
  | .filter filter, hsteady, hcheck => filter.covers hin hsteady hcheck

theorem Filter.covers {scope : Scope} (hin : s.InPoint pointId scope) : (filter : Filter κ) →
    (∀ ask ∈ filter.nestedAsks s scope.path.isSome, s.Steady ask) →
    filter.check s pointId scope = true → s.Covers pointId (filter.estimate s scope.path)
  | .mk must should minShould minCount mustNot, hsteady, hcheck => by
    rw [Filter.nestedAsks, List.forall_mem_append, List.forall_mem_append] at hsteady
    have hmust := coversOpt hin must hsteady.1.1
    have hshould := coversOpt hin should hsteady.1.2
    have hminShould := coversOpt hin minShould hsteady.2
    simp only [Filter.check, Bool.and_eq_true] at hcheck
    refine IndexedPoints.covers_must fun estimation hmem => ?_
    rw [reduceOption_mem_iff] at hmem
    simp only [mem_cons, not_mem_nil, or_false] at hmem
    rcases hmem with hpart | hpart | hpart | hpart
    · obtain ⟨list, rfl, hne, rfl⟩ := estimateOpt_some hpart.symm
      have hall := checkOpt_some hne hcheck.1.2
      refine IndexedPoints.covers_must (forall_mem_map.mpr fun condition hmem => ?_)
      exact hmust list rfl condition hmem (by simpa using all_eq_true.mp hall _ (mem_map_of_mem hmem))
    · obtain ⟨list, rfl, hne, rfl⟩ := estimateOpt_some hpart.symm
      have hany := checkOpt_some hne hcheck.1.1.1
      obtain ⟨condition, hmem, hholds⟩ : ∃ condition ∈ list, condition.check s pointId scope = true := by
        simpa using hany
      exact IndexedPoints.covers_should
        ⟨_, mem_map_of_mem hmem, hshould list rfl condition hmem hholds⟩
    · cases minShould with
      | none => cases hpart
      | some list =>
        obtain rfl := Option.some.inj hpart
        rw [estimateList_eq]
        by_cases hne : list = []
        · subst hne
          cases minCount <;> exact fun hne => absurd rfl hne
        · exact covers_count (hminShould list rfl) (checkOpt_some hne hcheck.1.1.2)
    · obtain ⟨list, rfl, hne, rfl⟩ := estimateOpt_some hpart.symm
      refine IndexedPoints.covers_must fun estimation hmem hne => ?_
      obtain ⟨_, -, rfl⟩ := mem_map.mp hmem
      exact absurd rfl hne

theorem coversOpt {scope : Scope} (hin : s.InPoint pointId scope) : (conditions : Option (List (Condition κ))) →
    (∀ ask ∈ nestedAsksOpt s scope.path.isSome conditions, s.Steady ask) →
    ∀ list, conditions = some list → ∀ condition ∈ list, condition.check s pointId scope = true →
      s.Covers pointId (condition.estimate s scope.path)
  | none, _ => nofun
  | some conditions, hsteady => fun _ heq => Option.some.inj heq ▸ coversList hin conditions hsteady

theorem coversList {scope : Scope} (hin : s.InPoint pointId scope) : (conditions : List (Condition κ)) →
    (∀ ask ∈ nestedAsksList s scope.path.isSome conditions, s.Steady ask) →
    ∀ condition ∈ conditions, condition.check s pointId scope = true →
      s.Covers pointId (condition.estimate s scope.path)
  | [], _ => by simp
  | condition :: conditions, hsteady => by
    rw [nestedAsksList, List.forall_mem_append] at hsteady
    exact List.forall_mem_cons.mpr
      ⟨condition.covers hin hsteady.1, coversList hin conditions hsteady.2⟩

end

namespace IndexedPoints

/-! ## Where the check is left out -/

theorem mem_combineMust {clause : PrimaryCondition κ}
    (h : clause ∈ (s.combineMustEstimations estimations).primaryClauses) :
    ∃ estimation ∈ estimations,
      (s.combineMustEstimations estimations).primaryClauses = estimation.primaryClauses := by
  unfold combineMustEstimations at h ⊢
  dsimp only at h ⊢
  split at h
  next estimation hmin => exact ⟨estimation, (mem_filter.mp (argmin_mem hmin)).1, rfl⟩
  next => cases h

theorem mem_combineShould {clause : PrimaryCondition κ}
    (h : clause ∈ (s.combineShouldEstimations estimations).primaryClauses) :
    ∃ estimation ∈ estimations, clause ∈ estimation.primaryClauses := by
  unfold combineShouldEstimations at h
  dsimp only at h
  split at h
  · cases h
  · exact mem_flatMap.mp h

theorem subset_of_mem_combinations {α : Type} {k : Nat} {chosen items : List α}
    (h : chosen ∈ combinations k items) : chosen ⊆ items := by
  fun_induction combinations k items generalizing chosen with
  | case1 => simp_all
  | case2 => cases h
  | case3 k item items ih ih' =>
    rcases mem_append.mp h with hin | hout
    · obtain ⟨rest, hrest, rfl⟩ := mem_map.mp hin
      exact cons_subset_cons item (ih hrest)
    · exact List.Subset.trans (ih' hout) (subset_cons_self _ _)

theorem mem_combineMinShould {clause : PrimaryCondition κ} {minCount : Nat}
    (h : clause ∈ (s.combineMinShouldEstimations estimations minCount).primaryClauses) :
    ∃ estimation ∈ estimations, clause ∈ estimation.primaryClauses := by
  unfold combineMinShouldEstimations at h
  split at h
  · cases h
  · obtain ⟨_, hmem, hclause⟩ := mem_combineShould h
    obtain ⟨chosen, hchosen, rfl⟩ := mem_map.mp hmem
    obtain ⟨estimation, hestimation, heq⟩ := mem_combineMust hclause
    exact ⟨estimation, subset_of_mem_combinations hchosen hestimation, heq ▸ hclause⟩

variable (s) in
/-- An index offers the clause. -/
def Offered : PrimaryCondition κ → Prop
  | .condition condition => ∃ exp, s.estimateIndex condition = some (exp, true)
  | _ => True

theorem offered_field (path : Option JsonPath) (condition : FieldCondition κ) :
    ∀ clause ∈ (s.estimateFieldCondition path condition).primaryClauses, s.Offered clause := by
  intro clause hclause
  unfold estimateFieldCondition at hclause
  dsimp only at hclause
  split at hclause
  next exp primary hestimate =>
    cases primary with
    | false => cases hclause
    | true =>
      rw [mem_singleton.mp hclause]
      exact ⟨exp, hestimate⟩
  next => cases hclause

end IndexedPoints

/-- Where a clause of a filter comes from. If it is one of a condition that must hold, there are no
others. -/
theorem Filter.mem_estimate {path : Option JsonPath} {must should minShould : Option (List (Condition κ))}
    {minCount : Nat} {mustNot : Option (List (Condition κ))} {clause : PrimaryCondition κ}
    (h : clause ∈ (Filter.estimate s path (.mk must should minShould minCount mustNot)).primaryClauses) :
    (∃ condition ∈ must.getD [], (Filter.estimate s path (.mk must should minShould minCount mustNot)).primaryClauses =
      (condition.estimate s path).primaryClauses) ∨
    (∃ condition ∈ should.getD [], clause ∈ (condition.estimate s path).primaryClauses) ∨
    ∃ condition ∈ minShould.getD [], clause ∈ (condition.estimate s path).primaryClauses := by
  rw [Filter.estimate] at h ⊢
  obtain ⟨estimation, hmem, heq⟩ := IndexedPoints.mem_combineMust h
  rw [heq] at h ⊢
  rw [reduceOption_mem_iff] at hmem
  simp only [mem_cons, not_mem_nil, or_false] at hmem
  rcases hmem with hpart | hpart | hpart | hpart
  · obtain ⟨list, rfl, -, rfl⟩ := estimateOpt_some hpart.symm
    obtain ⟨_, hmem, heq⟩ := IndexedPoints.mem_combineMust h
    obtain ⟨condition, hcondition, rfl⟩ := mem_map.mp hmem
    exact .inl ⟨condition, hcondition, heq⟩
  · obtain ⟨list, rfl, -, rfl⟩ := estimateOpt_some hpart.symm
    obtain ⟨_, hmem, hclause⟩ := IndexedPoints.mem_combineShould h
    obtain ⟨condition, hcondition, rfl⟩ := mem_map.mp hmem
    exact .inr (.inl ⟨condition, hcondition, hclause⟩)
  · cases minShould with
    | none => cases hpart
    | some list =>
      obtain rfl := Option.some.inj hpart
      rw [estimateList_eq] at h
      obtain ⟨_, hmem, hclause⟩ := IndexedPoints.mem_combineMinShould h
      obtain ⟨condition, hcondition, rfl⟩ := mem_map.mp hmem
      exact .inr (.inr ⟨condition, hcondition, hclause⟩)
  · obtain ⟨list, rfl, -, rfl⟩ := estimateOpt_some hpart.symm
    obtain ⟨_, hmem, heq⟩ := IndexedPoints.mem_combineMust h
    obtain ⟨_, -, rfl⟩ := mem_map.mp hmem
    rw [heq] at h
    cases h

mutual

theorem Condition.offered (path : Option JsonPath) : (condition : Condition κ) →
    ∀ clause ∈ (condition.estimate s path).primaryClauses, s.Offered clause
  | .field _, clause, h | .isEmpty _, clause, h | .isNull _, clause, h =>
    IndexedPoints.offered_field path _ clause h
  | .hasId ids, clause, h => by
    rw [mem_singleton.mp h]
    trivial
  | .hasVector name, clause, h => by
    unfold Condition.estimate at h
    split at h
    · rw [mem_singleton.mp h]
      trivial
    · cases h
  | .customIdChecker check exp, clause, h => by cases h
  | .nested key filter, clause, h => filter.offered _ clause h
  | .filter filter, clause, h => filter.offered path clause h

theorem Filter.offered (path : Option JsonPath) : (filter : Filter κ) →
    ∀ clause ∈ (filter.estimate s path).primaryClauses, s.Offered clause
  | .mk must should minShould minCount mustNot, clause, h => by
    rcases Filter.mem_estimate h with
      ⟨condition, hmem, heq⟩ | ⟨condition, hmem, hclause⟩ | ⟨condition, hmem, hclause⟩
    · exact offeredOpt path must condition hmem clause (heq ▸ h)
    · exact offeredOpt path should condition hmem clause hclause
    · exact offeredOpt path minShould condition hmem clause hclause

theorem offeredOpt (path : Option JsonPath) : (conditions : Option (List (Condition κ))) →
    ∀ condition ∈ conditions.getD [],
      ∀ clause ∈ (condition.estimate s path).primaryClauses, s.Offered clause
  | none => nofun
  | some conditions => offeredList path conditions

theorem offeredList (path : Option JsonPath) : (conditions : List (Condition κ)) →
    ∀ condition ∈ conditions, ∀ clause ∈ (condition.estimate s path).primaryClauses, s.Offered clause
  | [] => by simp
  | condition :: conditions => List.forall_mem_cons.mpr ⟨condition.offered path, offeredList path conditions⟩

end

namespace IndexedPoints

variable (s) in
/-- No clause is the condition, or none that can list its points. -/
def NeverClause : Condition κ → Prop
  | .field condition => ∀ exp, s.estimateIndex condition ≠ some (exp, true)
  | .hasId _ => False
  | _ => True

section

variable [DecidableEq κ] {condition : Condition κ} {filter : Filter κ} {clause : PrimaryCondition κ}

theorem isPrimary_iff {estimation : CardinalityEstimation κ} : estimation.isPrimary condition = true ↔
    ∃ clause ∈ estimation.primaryClauses, CardinalityEstimation.isPrimary ⟨[clause], 0⟩ condition = true := by
  simp only [CardinalityEstimation.isPrimary, any_eq_true, mem_singleton, exists_eq_left]

theorem not_isPrimary (h : s.NeverClause condition) (huses : s.UsesClauses filter) :
    (filter.estimate s none).isPrimary condition = false := by
  rw [← Bool.not_eq_true, isPrimary_iff]
  rintro ⟨clause, hclause, hsame⟩
  have hoffered := filter.offered none clause hclause
  have hlists := huses.2 clause hclause
  cases clause <;> cases condition <;>
    simp_all [CardinalityEstimation.isPrimary, NeverClause, Offered, queryField]

/-- A point that a clause lists meets the condition that the clause stands for. -/
theorem check_of_listed {ids : List Nat} (hids : s.queryField clause = some ids) (hmem : pointId ∈ ids)
    (hsame : CardinalityEstimation.isPrimary ⟨[clause], 0⟩ condition) :
    condition.check s pointId (s.top pointId) = true := by
  cases clause with
  | condition primary =>
    cases condition with
    | field condition =>
      obtain rfl : primary = condition := by simpa [CardinalityEstimation.isPrimary] using hsame
      exact ((s.filterIndex_mem primary ids hids pointId).mp hmem).2
    | _ => simp [CardinalityEstimation.isPrimary] at hsame
  | ids pointIds =>
    cases condition with
    | hasId others =>
      have hsub : pointIds ⊆ others ∧ others ⊆ pointIds := by
        simpa [CardinalityEstimation.isPrimary] using hsame
      obtain rfl := Option.some.inj hids
      simp only [Condition.check, top, decide_true, Bool.true_and, List.contains_iff_mem]
      obtain ⟨id, hid, hresolved⟩ := mem_filterMap.mp hmem
      exact mem_filterMap.mpr ⟨id, hsub.1 hid, hresolved⟩
    | _ => simp [CardinalityEstimation.isPrimary] at hsame
  | hasVector name => cases hids

/-- The estimation of a condition that is a clause has no other clause. -/
theorem estimate_of_isPrimary {estimation : CardinalityEstimation κ} (h : estimation.isPrimary condition = true)
    (hclause : clause ∈ (condition.estimate s none).primaryClauses) :
    (condition.estimate s none).primaryClauses = [clause] ∧
      CardinalityEstimation.isPrimary ⟨[clause], 0⟩ condition = true := by
  obtain ⟨primary, -, hsame⟩ := isPrimary_iff.mp h
  cases condition with
  | field condition =>
    have heq : (s.estimateFieldCondition none condition).primaryClauses = [] ∨
        (s.estimateFieldCondition none condition).primaryClauses = [.condition condition] := by
      unfold estimateFieldCondition
      dsimp only
      split
      next exp primary _ => cases primary <;> simp [JsonPath.extendOrNew]
      next => exact .inl rfl
    rw [Condition.estimate] at hclause ⊢
    rcases heq with heq | heq <;> rw [heq] at hclause ⊢
    · cases hclause
    · obtain rfl := mem_singleton.mp hclause
      exact ⟨rfl, by simp [CardinalityEstimation.isPrimary]⟩
  | hasId ids =>
    obtain rfl := mem_singleton.mp hclause
    exact ⟨rfl, by simp [CardinalityEstimation.isPrimary]⟩
  | hasVector name =>
    unfold Condition.estimate at hclause ⊢
    split at hclause
    · obtain rfl := mem_singleton.mp hclause
      exact ⟨rfl, by simp [CardinalityEstimation.isPrimary]⟩
    · cases hclause
  | _ => cases primary <;> simp [CardinalityEstimation.isPrimary] at hsame

end

end IndexedPoints

/-- The filter has only conditions that must hold, or only conditions that should hold. -/
def Filter.OneKind : Filter κ → Prop
  | .mk must should minShould _ mustNot =>
    minShould.getD [] = [] ∧ mustNot.getD [] = [] ∧ (must.getD [] = [] ∨ should.getD [] = [])

namespace IndexedPoints

theorem accepts_of_oneKind [DecidableEq κ] {filter : Filter κ} (hkind : filter.OneKind)
    (hprimary : filter.iterConditions.all (filter.estimate s none).isPrimary) (hselects : s.Selects pointId filter) :
    s.accepts pointId filter = true := by
  obtain ⟨clause, hclause, ids, hids, hmem⟩ := hselects
  obtain ⟨must, should, minShould, minCount, mustNot⟩ := filter
  obtain ⟨hminShould, hmustNot, hkind⟩ := hkind
  simp only [Filter.iterConditions, all_append, Bool.and_eq_true, all_eq_true] at hprimary
  have hnone : ∀ conditions : Option (List (Condition κ)), conditions.getD [] = [] →
      (s.top pointId).relevant (checkOpt s pointId (s.top pointId) conditions) = none := by
    intro conditions hnil
    cases conditions <;> simp_all [Scope.relevant, top, checkOpt, checkList]
  have hsome : ∀ list, ∀ condition ∈ list, (s.top pointId).relevant (checkOpt s pointId (s.top pointId) (some list)) =
      some (list.map (Condition.check s pointId (s.top pointId))) := by
    intro list condition hmem
    have := ne_nil_of_mem hmem
    simp_all [Scope.relevant, top, checkOpt, checkList_eq]
  simp only [accepts, Filter.check, hnone _ hminShould, hnone _ hmustNot, Option.all_none, Bool.and_true]
  rcases Filter.mem_estimate hclause with ⟨chosen, hchosen, heq⟩ | ⟨chosen, hchosen, hlisted⟩ | ⟨_, hchosen, -⟩
  · -- All conditions are the one clause.
    obtain hmust | hshould := hkind
    · rw [hmust] at hchosen
      cases hchosen
    have hall : ∀ condition ∈ must.getD [], condition.check s pointId (s.top pointId) = true := by
      intro condition hcondition
      obtain ⟨other, hother, hsame⟩ := isPrimary_iff.mp (hprimary.1.1.1 condition hcondition)
      rw [heq] at hclause hother
      have hsingle := (estimate_of_isPrimary (hprimary.1.1.1 chosen hchosen) hclause).1
      rw [hsingle, mem_singleton] at hother
      exact check_of_listed hids hmem (hother ▸ hsame)
    rw [hnone _ hshould, Option.all_none, Bool.true_and]
    cases must with
    | none => cases hchosen
    | some list =>
      rw [hsome list chosen hchosen]
      simpa using hall
  · obtain hmust | hshould := hkind
    · have hholds := check_of_listed hids hmem (estimate_of_isPrimary (hprimary.1.2 chosen hchosen) hlisted).2
      rw [hnone _ hmust, Option.all_none, Bool.and_true]
      cases should with
      | none => cases hchosen
      | some list =>
        rw [hsome list chosen hchosen]
        simpa using ⟨chosen, hchosen, hholds⟩
    · rw [hshould] at hchosen
      cases hchosen
  · rw [hminShould] at hchosen
    cases hchosen

/-- Ask for an empty field, or for a value. -/
def asks : Option Value → List Value → Bool
  | none, values => values.isEmpty
  | some value, values => values.contains value

/-- A point with every field indexed. -/
def onePoint (payload : Payload) : IndexedPoints (Option Value) where
  points := [0]
  sorted := List.pairwise_singleton _ _
  bounded := by decide
  payload _ := payload
  externalId := some
  internalId id := if id = 0 then some 0 else none
  internalId_mem := by simp
  vectorStorages _ := none
  test condition values := asks condition.ask values
  askEmpty := none
  askNull := some .null
  estimateIndex _ := some (1, true)
  filterIndex condition := some (if asks condition.ask (payload.getValue condition.key) then [0] else [])
  filterIndex_mem := by
    rintro condition ids ⟨⟩ pointId
    cases asks condition.ask (payload.getValue condition.key) <;> simp
  mustExp _ := 1
  shouldExp _ := 1

/-- The condition that field `a` is 1. -/
def fieldA : Condition (Option Value) := .field ⟨⟨"a", []⟩, some (.number "1")⟩

/-- The payload `{"a": 1}`. -/
def payloadA : Payload := ⟨[("a", .number "1")], List.nodup_singleton _⟩

/-- A nested condition, and one that is never a clause. -/
def nestedFilter : Filter (Option Value) :=
  .mk (some [.nested ⟨"n", []⟩ (.mk (some [fieldA]) none none 0 none)]) none none 0 (some [.isEmpty ⟨"a", []⟩])

end IndexedPoints

/-! ## Merging filters -/

def mergeComponent {α : Type} : Option (List α) → Option (List α) → Option (List α)
  | none, other => other
  | some this, none => some this
  | some this, some other => some (this ++ other)

namespace Filter

def mergeMinCount {α : Type} : Option (List α) → Nat → Option (List α) → Nat → Nat
  | some _, minCount, some _, minCount' => max minCount minCount'
  | none, _, some _, minCount' => minCount'
  | _, minCount, none, _ => minCount

def mergeOwned : Filter κ → Filter κ → Filter κ
  | .mk must should minShould minCount mustNot, .mk must' should' minShould' minCount' mustNot' =>
    .mk (mergeComponent must must') (mergeComponent should should') (mergeComponent minShould minShould')
      (mergeMinCount minShould minCount minShould' minCount') (mergeComponent mustNot mustNot')

section

variable (s pointId) (scope : Scope)

/-- The number of conditions of a list that the point meets. On the payload an empty list is no list. -/
def met (conditions : Option (List (Condition κ))) : Option Nat :=
  (scope.relevant (checkOpt s pointId scope conditions)).map (·.count true)

def meetsMust : Filter κ → Bool
  | .mk must _ _ _ mustNot => (scope.relevant (checkOpt s pointId scope must)).all (·.all id) &&
    (scope.relevant (checkOpt s pointId scope mustNot)).all (·.all not)

/-- The numbers of conditions that the point meets are enough in the joined lists if and only if they
are enough in each of the lists. -/
def Joins : Filter κ → Filter κ → Prop
  | .mk _ should minShould minCount _, .mk _ should' minShould' minCount' _ =>
    let n := met s pointId scope should
    let n' := met s pointId scope should'
    let k := met s pointId scope minShould
    let k' := met s pointId scope minShould'
    (n.merge (· + ·) n').all (0 < ·) ∧
        (k.merge (· + ·) k').all (mergeMinCount minShould minCount minShould' minCount' ≤ ·) ↔
      (n.all (0 < ·) ∧ k.all (minCount ≤ ·)) ∧ n'.all (0 < ·) ∧ k'.all (minCount' ≤ ·)

end

theorem check_eq_true_iff (scope : Scope) (must should minShould : Option (List (Condition κ))) (minCount : Nat)
    (mustNot : Option (List (Condition κ))) :
    check s pointId scope (.mk must should minShould minCount mustNot) = true ↔
      ((met s pointId scope should).all (0 < ·) ∧ (met s pointId scope minShould).all (minCount ≤ ·)) ∧
        meetsMust s pointId scope (.mk must should minShould minCount mustNot) := by
  have hshould : ∀ results : List Bool, results.any id = decide (0 < results.count true) := fun results => by
    rw [Bool.eq_iff_iff, decide_eq_true_iff, count_pos_iff]
    simp
  have hmin : ∀ results : List Bool, decide (((results.filter id).take minCount).length = minCount) =
      decide (minCount ≤ results.count true) := fun results => by
    have hcount : results.count true = (results.filter id).length := by
      rw [count, countP_eq_length_filter]
      congr 2
      funext result
      cases result <;> rfl
    rw [Bool.eq_iff_iff, decide_eq_true_iff, decide_eq_true_iff, length_take, min_eq_left_iff, hcount]
  simp only [Filter.check, met, meetsMust, Option.all_map, hshould, hmin, Bool.and_eq_true,
    and_assoc]

/-- Conditions that all have to hold may be joined. -/
theorem all_mergeComponent (scope : Scope) (test : Bool → Bool) (this other : Option (List (Condition κ))) :
    (scope.relevant (checkOpt s pointId scope (mergeComponent this other))).all (·.all test) =
      ((scope.relevant (checkOpt s pointId scope this)).all (·.all test) &&
        (scope.relevant (checkOpt s pointId scope other)).all (·.all test)) := by
  have hrelevant (results : Option (List Bool)) :
      (scope.relevant results).all (·.all test) = results.all (·.all test) := by
    unfold Scope.relevant
    split
    next => rcases results with _ | _ | _ <;> rfl
    next => rfl
  simp only [hrelevant]
  cases this <;> cases other <;> simp [mergeComponent, checkOpt, checkList_eq]

theorem met_mergeComponent (scope : Scope) (this other : Option (List (Condition κ))) :
    met s pointId scope (mergeComponent this other) =
      (met s pointId scope this).merge (· + ·) (met s pointId scope other) := by
  have hmet : ∀ conditions : List (Condition κ), met s pointId scope (some conditions) =
      if scope.path = none ∧ conditions = [] then none
      else some ((conditions.map (Condition.check s pointId scope)).count true) := fun conditions => by
    simp only [met, Scope.relevant, checkOpt, checkList_eq]
    by_cases hpath : scope.path = none <;> by_cases hnil : conditions = [] <;> simp [hpath, hnil]
  have hnone : met s pointId scope (none : Option (List (Condition κ))) = none := by
    cases hpath : scope.path <;> simp [met, Scope.relevant, checkOpt, hpath]
  cases this <;> cases other <;> simp only [mergeComponent, hmet, hnone]
  case some.some this other =>
    by_cases hpath : scope.path = none <;> by_cases hthis : this = [] <;> by_cases hother : other = [] <;>
      simp [hpath, hthis, hother]
  all_goals simp

open IndexedPoints (onePoint payloadA fieldA)

end Filter

end Filtering

end Qdrant
