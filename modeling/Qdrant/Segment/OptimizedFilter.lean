-- SUMMARY: Optimizing a filter before it is evaluated, compared with its plain evaluation.
import Qdrant.Segment.Filtering

/-!
# Optimized filters

A filter has four lists of conditions, and a condition may be a filter again. Filters are evaluated
as they are (`query_checker.rs`), or optimized first (`query_optimization`): empty lists are dropped,
and the others are sorted by the number of points that their conditions expect.

The order does not matter for a verdict, but the four lists are not alike: an empty `should` holds
for no point, so it must not be dropped.
-/

namespace Qdrant.QueryOptimization

open Filtering (combinations)

/-- The lists of a filter, of whatever its conditions become. `minCount` belongs to `minShould`. -/
structure Lists (α : Type) where
  should : Option (List α)
  minShould : Option (List α)
  minCount : Nat
  must : Option (List α)
  mustNot : Option (List α)

def Lists.map {α β : Type} (f : α → β) : Lists α → Lists β
  | ⟨should, minShould, minCount, must, mustNot⟩ =>
    ⟨should.map (·.map f), minShould.map (·.map f), minCount, must.map (·.map f), mustNot.map (·.map f)⟩

def Lists.conditions {α : Type} (lists : Lists α) : List α :=
  [lists.should, lists.minShould, lists.must, lists.mustNot].flatMap (·.getD [])

inductive Condition (L : Type) where
  -- any condition that is not a filter
  | leaf (condition : L)
  | filter (filter : Lists (Condition L))

abbrev Filter (L : Type) := Lists (Condition L)

section Fold

variable {L α : Type} (leaf : L → α) (node : Lists α → α)

mutual

/-- The recursion over a tree. -/
def Condition.fold : Condition L → α
  | .leaf condition => leaf condition
  | .filter filter => node (foldLists filter)

def foldLists : Filter L → Lists α
  | ⟨should, minShould, minCount, must, mustNot⟩ =>
    ⟨foldOpt should, foldOpt minShould, minCount, foldOpt must, foldOpt mustNot⟩

def foldOpt : Option (List (Condition L)) → Option (List α)
  | none => none
  | some conditions => some (foldList conditions)

def foldList : List (Condition L) → List α
  | [] => []
  | condition :: conditions => condition.fold :: foldList conditions

end

theorem foldList_eq (conditions : List (Condition L)) :
    foldList leaf node conditions = conditions.map (Condition.fold leaf node) := by
  induction conditions with
  | nil => rfl
  | cons condition conditions ih => rw [foldList, ih, List.map_cons]

theorem foldOpt_eq (conditions : Option (List (Condition L))) :
    foldOpt leaf node conditions = conditions.map (·.map (Condition.fold leaf node)) := by
  cases conditions with
  | none => rfl
  | some conditions => exact congrArg some (foldList_eq leaf node conditions)

theorem fold_filter (filter : Filter L) :
    Condition.fold leaf node (.filter filter) = node (filter.map (Condition.fold leaf node)) := by
  cases filter
  simp only [Condition.fold, foldLists, foldOpt_eq, Lists.map]

end Fold

variable {L : Type}

/-- Every filter of a tree satisfies `P`. -/
inductive Condition.Every (P : Filter L → Prop) : Condition L → Prop where
  | leaf (condition : L) : Every P (.leaf condition)
  | filter {filter : Filter L} (h : P filter)
      (hconditions : ∀ condition ∈ filter.conditions, Every P condition) : Every P (.filter filter)

/-! ## Evaluation -/

/-- The checks of the four lists. A list that is absent holds. -/
def verdict (results : Lists Bool) : Bool :=
  results.should.all (·.any id) &&
  results.minShould.all (fun list => ((list.filter id).take results.minCount).length = results.minCount) &&
  results.must.all (·.all id) &&
  results.mustNot.all (·.all not)

def checkCondition (checker : L → Bool) : Condition L → Bool :=
  Condition.fold checker verdict

def checkFilter (checker : L → Bool) (filter : Filter L) : Bool :=
  verdict (filter.map (checkCondition checker))

/-- The other conditions are checkers of points. -/
abbrev OptimizedCondition := Condition (Nat → Bool)

abbrev OptimizedFilter := Filter (Nat → Bool)

/-- It has the same checks as `check_filter`. -/
def checkOptimizedFilter (filter : OptimizedFilter) (pointId : Nat) : Bool :=
  checkFilter (fun checker => checker pointId) filter

/-! ## Optimizing -/

/-- The number of points, how many of them the conditions that are not filters expect, and the
arithmetic of expected counts. -/
structure Estimator (L : Type) where
  total : Nat
  conditionCardinality : L → Nat
  mustExp : List Nat → Nat
  shouldExp : List Nat → Nat

/-- Sort the conditions by what they expect, and combine the counts. -/
def optimizeList (le : Nat → Nat → Bool) (combine : List Nat → Nat)
    (converted : List (OptimizedCondition × Nat)) : List OptimizedCondition × Nat :=
  let sorted := converted.mergeSort fun a b => le a.2 b.2
  (sorted.map Prod.fst, combine (sorted.map Prod.snd))

section Optimize

variable (e : Estimator L)

def combineMinShouldEstimations (minCount : Nat) (estimations : List Nat) : Nat :=
  if minCount > estimations.length then 0
  else e.shouldExp ((combinations minCount estimations).map e.mustExp)

-- more probable conditions first
def optimizeShould : List (OptimizedCondition × Nat) → List OptimizedCondition × Nat :=
  optimizeList (fun a b => b ≤ a) e.shouldExp

def optimizeMinShould (minCount : Nat) (converted : List (OptimizedCondition × Nat)) :
    List OptimizedCondition × Nat :=
  optimizeList (if minCount < converted.length / 2 then fun a b => b ≤ a else fun a b => a ≤ b)
    (combineMinShouldEstimations e minCount) converted

def optimizeMust : List (OptimizedCondition × Nat) → List OptimizedCondition × Nat :=
  optimizeList (fun a b => a ≤ b) e.mustExp

def optimizeMustNot : List (OptimizedCondition × Nat) → List OptimizedCondition × Nat :=
  optimizeList (fun a b => a ≤ b) fun estimations => e.mustExp (estimations.map (e.total - ·))

/-- A list of converted conditions, if it is not empty. -/
def nonEmpty {α : Type} (conditions : Option (List α)) : Option (List α) :=
  conditions.filter (!·.isEmpty)

/-- `optimize_filter` for lists whose conditions have been converted. -/
def optimizeLists (lists : Lists (OptimizedCondition × Nat)) : OptimizedFilter × Nat :=
  let should := (nonEmpty lists.should).map (optimizeShould e)
  let minShould := (nonEmpty lists.minShould).map (optimizeMinShould e lists.minCount)
  let must := (nonEmpty lists.must).map (optimizeMust e)
  let mustNot := (nonEmpty lists.mustNot).map (optimizeMustNot e)
  (⟨should.map Prod.fst, minShould.map Prod.fst, lists.minCount, must.map Prod.fst,
    mustNot.map Prod.fst⟩,
    e.mustExp ([should, minShould, must, mustNot].reduceOption.map Prod.snd))

variable (converter : L → Nat → Bool)

/-- One of `convert_conditions`. -/
def convertCondition : Condition L → OptimizedCondition × Nat :=
  Condition.fold (fun condition => (.leaf (converter condition), e.conditionCardinality condition))
    fun lists => (optimizeLists e lists).map .filter id

def optimizeFilter (filter : Filter L) : OptimizedFilter × Nat :=
  optimizeLists e (filter.map (convertCondition e converter))

end Optimize

/-! ## The verdicts agree -/

theorem checkCondition_filter (checker : L → Bool) (filter : Filter L) :
    checkCondition checker (.filter filter) = checkFilter checker filter :=
  fold_filter ..

theorem convertCondition_filter (e : Estimator L) (converter : L → Nat → Bool) (filter : Filter L) :
    (convertCondition e converter (.filter filter)).1 = .filter (optimizeFilter e converter filter).1 :=
  congrArg Prod.fst (fold_filter ..)

theorem optimizeList_perm (le : Nat → Nat → Bool) (combine : List Nat → Nat)
    (converted : List (OptimizedCondition × Nat)) :
    (optimizeList le combine converted).1.Perm (converted.map Prod.fst) :=
  (List.mergeSort_perm ..).map _

/-- The order of the conditions does not matter for a verdict on them. -/
theorem all_optimized {optimize : List (OptimizedCondition × Nat) → List OptimizedCondition × Nat}
    (hoptimize : ∀ converted, (optimize converted).1.Perm (converted.map Prod.fst))
    {p : List Bool → Bool} (hperm : ∀ {xs ys : List Bool}, xs.Perm ys → p xs = p ys)
    {convert : Condition L → OptimizedCondition × Nat} {check : Condition L → Bool}
    {check' : OptimizedCondition → Bool} {conditions : Option (List (Condition L))}
    (h : ∀ c ∈ conditions.getD [], check' (convert c).1 = check c) :
    ((((nonEmpty (conditions.map (·.map convert))).map optimize).map Prod.fst).map
        (·.map check')).all p = ((nonEmpty conditions).map (·.map check)).all p := by
  rcases conditions with _ | _ | _
  · rfl
  · rfl
  · apply (hperm ((hoptimize _).map check')).trans
    rw [List.map_map, List.map_map]
    exact congrArg p (List.map_congr_left h)

def Lists.dropEmpty {α : Type} : Lists α → Lists α
  | ⟨should, minShould, minCount, must, mustNot⟩ =>
    ⟨nonEmpty should, nonEmpty minShould, minCount, nonEmpty must, nonEmpty mustNot⟩

variable {e : Estimator L} {converter : L → Nat → Bool} {filter : Filter L} {pointId : Nat}

/-- If the conditions of a filter are evaluated alike, all that is left is that its empty lists are
dropped. -/
theorem checkOptimizedFilter_eq_dropEmpty
    (h : ∀ condition ∈ filter.conditions,
      checkCondition (fun checker => checker pointId) (convertCondition e converter condition).1 =
        checkCondition (converter · pointId) condition) :
    checkOptimizedFilter (optimizeFilter e converter filter).1 pointId =
      checkFilter (converter · pointId) filter.dropEmpty := by
  simp only [Lists.conditions, List.flatMap_cons, List.forall_mem_append] at h
  obtain ⟨hshould, hminShould, hmust, hmustNot, -⟩ := h
  have hcount {xs ys : List Bool} (hperm : xs.Perm ys) :
      decide (((xs.filter id).take filter.minCount).length = filter.minCount) =
        decide (((ys.filter id).take filter.minCount).length = filter.minCount) := by
    rw [List.length_take, List.length_take, (hperm.filter id).length_eq]
  dsimp only [checkOptimizedFilter, checkFilter, verdict, optimizeFilter, optimizeLists, Lists.map,
    Lists.dropEmpty]
  refine congrArg₂ _ (congrArg₂ _ (congrArg₂ _ ?_ ?_) ?_) ?_
  · exact all_optimized (fun _ => optimizeList_perm ..) (fun hperm => hperm.any_eq) hshould
  · exact all_optimized (fun _ => optimizeList_perm ..) hcount hminShould
  · exact all_optimized (fun _ => optimizeList_perm ..) (fun hperm => hperm.all_eq) hmust
  · exact all_optimized (fun _ => optimizeList_perm ..) (fun hperm => hperm.all_eq) hmustNot

/-- The list of `should` is not empty, and the one of `min_should` is not if it asks for some
conditions; or the point fails another list. -/
def Harmless (checker : L → Bool) (filter : Filter L) : Prop :=
  filter.should ≠ some [] ∧ (filter.minCount = 0 ∨ filter.minShould ≠ some []) ∨
    checkFilter checker filter.dropEmpty = false

theorem all_nonEmpty (p : List Bool → Bool) (check : Condition L → Bool)
    (conditions : Option (List (Condition L))) :
    (conditions.map (·.map check)).all p = true ↔ (conditions = some [] → p [] = true) ∧
      ((nonEmpty conditions).map (·.map check)).all p = true := by
  rcases conditions with _ | _ | _ <;> simp [nonEmpty, Option.filter_some]

theorem checkFilter_dropEmpty (checker : L → Bool) (filter : Filter L) :
    checkFilter checker filter.dropEmpty = checkFilter checker filter ↔ Harmless checker filter := by
  rw [Bool.eq_iff_iff, Harmless, ← Bool.not_eq_true]
  dsimp only [checkFilter, verdict, Lists.map, Lists.dropEmpty]
  simp only [Bool.and_eq_true]
  rw [all_nonEmpty _ _ filter.should, all_nonEmpty _ _ filter.minShould, all_nonEmpty _ _ filter.must,
    all_nonEmpty _ _ filter.mustNot]
  grind

theorem check_convertCondition {condition : Condition L}
    (h : condition.Every (Harmless (converter · pointId))) :
    checkCondition (fun checker => checker pointId) (convertCondition e converter condition).1 =
      checkCondition (converter · pointId) condition := by
  induction h with
  | leaf condition => rfl
  | filter h _ ih =>
    rw [convertCondition_filter, checkCondition_filter, checkCondition_filter]
    exact (checkOptimizedFilter_eq_dropEmpty ih).trans ((checkFilter_dropEmpty ..).mpr h)

/-- Optimized and plain evaluation agree on a filter exactly if its own empty lists do no harm, if
those of the filters in it do none. -/
theorem checkOptimizedFilter_eq_iff
    (h : ∀ condition ∈ filter.conditions,
      condition.Every (Harmless (converter · pointId))) :
    checkOptimizedFilter (optimizeFilter e converter filter).1 pointId =
        checkFilter (converter · pointId) filter ↔
      Harmless (converter · pointId) filter := by
  rw [checkOptimizedFilter_eq_dropEmpty fun condition hc => check_convertCondition (h condition hc)]
  exact checkFilter_dropEmpty ..

/-- Numbers are conditions: a point has to be below, and so many points are expected. -/
def below : Estimator Nat := ⟨10, id, List.length, List.length⟩

/-- Two lists. The conditions of the second one are swapped. -/
def twoLists : Filter Nat :=
  ⟨some [.leaf 1], none, 0, some [.leaf 5, .leaf 4], none⟩

theorem checkOptimizedFilter_twoLists :
    checkOptimizedFilter (optimizeFilter below (fun n pointId => pointId < n) twoLists).1 0 =
      checkFilter (fun n => 0 < n) twoLists :=
  (checkOptimizedFilter_eq_iff (by simp [twoLists, Lists.conditions, Condition.Every.leaf])).mpr
    (.inl ⟨nofun, .inl rfl⟩)

/-- An empty `should` holds for no point. It is dropped, and the filter holds for every point. -/
theorem checkOptimizedFilter_empty :
    checkOptimizedFilter
        (optimizeFilter below (fun n pointId => pointId < n) ⟨some [], none, 0, none, none⟩).1 0 =
      true ∧
    checkFilter (fun n => 0 < n) ⟨some [], none, 0, none, none⟩ = false :=
  ⟨rfl, rfl⟩

end Qdrant.QueryOptimization
