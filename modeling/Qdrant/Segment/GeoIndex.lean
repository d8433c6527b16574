-- SUMMARY: The bounds that a geo index derives from its counts per hash for a query of several regions.
import Mathlib.Combinatorics.Enumerative.DoubleCounting

/-!
# Geo index

The index counts, for every prefix of the geohashes of its values, the points and the values
below it. A query is a list of regions, each of them a prefix. How many points it matches is
bounded by the counts of the regions and of their common prefix (`geo_index/mod.rs`).
-/

namespace Qdrant

structure CardinalityEstimation where
  min : Nat
  exp : Nat
  max : Nat

def CardinalityEstimation.exact (count : Nat) : CardinalityEstimation := ⟨count, count, count⟩

namespace GeoIndex

open Finset

/-- The characters of a geohash. -/
abbrev GeoHash := List (Fin 32)

/-- An index with exact counts. -/
structure GeoMapIndex where
  points : Finset Nat
  values : Nat → List GeoHash
  maxValuesPerPoint : Nat
  values_le : ∀ id ∈ points, (values id).length ≤ maxValuesPerPoint
  pointsOfHash : GeoHash → Nat
  valuesOfHash : GeoHash → Nat
  pointsOfHash_eq : ∀ hash, pointsOfHash hash = #{id ∈ points | ∃ value ∈ values id, hash <+: value}
  valuesOfHash_eq : ∀ hash, valuesOfHash hash = ∑ id ∈ points, (values id).countP (hash <+: ·)

/-- Cut off at the first difference. -/
def shorten : GeoHash → GeoHash → GeoHash
  | a :: first, b :: hash => if a = b then a :: shorten first hash else []
  | _, _ => []

def commonHashPrefix : List GeoHash → Option GeoHash
  | [] => none
  | first :: rest => some (rest.foldl shorten first)

/-- There is no result if the subtraction of the points from the values underflows. What is
expected in between is `estimate`. -/
def matchCardinality (estimate : Nat → Nat → Nat → Nat) (index : GeoMapIndex) (values : List GeoHash) :
    Option CardinalityEstimation :=
  if index.maxValuesPerPoint = 0 then some (.exact 0)
  else match commonHashPrefix values with
    | none => some (.exact 0)
    | some commonHash =>
      let totalPoints := index.pointsOfHash commonHash
      let totalValues := index.valuesOfHash commonHash
      let counts := values.map index.pointsOfHash
      let sum := counts.sum
      if totalValues < totalPoints then none
      else
        let estimationMin := max (max (sum / index.maxValuesPerPoint)
          (sum - (totalValues - totalPoints))) (counts.foldr max 0)
        let estimationMax := min sum totalPoints
        some ⟨estimationMin, min estimationMax
          (max estimationMin (estimate totalPoints totalValues sum)), estimationMax⟩

theorem shorten_isPrefix (first hash : GeoHash) :
    shorten first hash <+: first ∧ shorten first hash <+: hash := by
  fun_induction shorten first hash with
  | case1 a first hash ih => simpa using ih
  | case2 => simp
  | case3 => simp

theorem foldl_shorten_isPrefix (first : GeoHash) (rest : List GeoHash) :
    ∀ region ∈ first :: rest, rest.foldl shorten first <+: region := by
  induction rest generalizing first with
  | nil => simp
  | cons hash rest ih =>
    obtain ⟨hfirst, hhash⟩ := shorten_isPrefix first hash
    have hle := ih (shorten first hash) _ List.mem_cons_self
    simp only [List.mem_cons]
    rintro region (rfl | rfl | hmem)
    · exact hle.trans hfirst
    · exact hle.trans hhash
    · exact ih _ region (List.mem_cons_of_mem _ hmem)

section Counting

variable (index : GeoMapIndex) {regions : List GeoHash} {commonHash : GeoHash}

/-- The points with a value in one of the regions. -/
def GeoMapIndex.matching (regions : List GeoHash) : Finset Nat :=
  {id ∈ index.points | ∃ region ∈ regions, ∃ value ∈ index.values id, region <+: value}

/-- The regions in which a point has values. -/
def GeoMapIndex.regionsOf (regions : List GeoHash) (id : Nat) : Finset GeoHash :=
  {region ∈ regions.toFinset | ∃ value ∈ index.values id, region <+: value}

/-- Different regions of one length hold different values. -/
theorem card_regionsOf_le (hlength : ∀ a ∈ regions, ∀ b ∈ regions, a.length = b.length)
    (hcommon : ∀ region ∈ regions, commonHash <+: region) (id : Nat) :
    #(index.regionsOf regions id) ≤ (index.values id).countP (commonHash <+: ·) := by
  cases regions with
  | nil => exact Nat.zero_le _
  | cons first rest =>
    rw [List.countP_eq_length_filter, ← List.length_map (List.take first.length)]
    refine (card_le_card fun region hregion => ?_).trans (List.toFinset_card_le _)
    obtain ⟨hregion, value, hvalue, hbelow⟩ := mem_filter.mp hregion
    rw [List.mem_toFinset] at hregion
    simp only [List.mem_toFinset, List.mem_map, List.mem_filter, decide_eq_true_iff]
    refine ⟨value, ⟨hvalue, (hcommon region hregion).trans hbelow⟩, ?_⟩
    rw [hlength first List.mem_cons_self region hregion]
    exact (List.prefix_iff_eq_take.mp hbelow).symm

/-- Each point is counted once for each of its regions. -/
theorem sum_pointsOfHash (hnodup : regions.Nodup) :
    (regions.map index.pointsOfHash).sum = ∑ id ∈ index.matching regions, #(index.regionsOf regions id) := by
  rw [← List.sum_toFinset _ hnodup, GeoMapIndex.matching, sum_filter_of_ne]
  · simp only [index.pointsOfHash_eq]
    exact sum_card_bipartiteAbove_eq_sum_card_bipartiteBelow _
  · intro id _ hne
    obtain ⟨region, hregion⟩ := card_ne_zero.mp hne
    obtain ⟨hmem, hbelow⟩ := mem_filter.mp hregion
    exact ⟨region, List.mem_toFinset.mp hmem, hbelow⟩

theorem card_regionsOf_pos {id : Nat} (hid : id ∈ index.matching regions) :
    1 ≤ #(index.regionsOf regions id) := by
  obtain ⟨region, hregion, hbelow⟩ := (mem_filter.mp hid).2
  exact card_pos.mpr ⟨region, mem_filter.mpr ⟨List.mem_toFinset.mpr hregion, hbelow⟩⟩

theorem card_matching_le (hcommon : ∀ region ∈ regions, commonHash <+: region) :
    #(index.matching regions) ≤ index.pointsOfHash commonHash := by
  rw [index.pointsOfHash_eq]
  refine card_le_card (monotone_filter_right _ ?_)
  rintro id - ⟨region, hregion, value, hvalue, hbelow⟩
  exact ⟨value, hvalue, (hcommon region hregion).trans hbelow⟩

/-- What is counted twice is a further value of a point below the common prefix. -/
theorem sum_add_points_le (hnodup : regions.Nodup)
    (hlength : ∀ a ∈ regions, ∀ b ∈ regions, a.length = b.length)
    (hcommon : ∀ region ∈ regions, commonHash <+: region) :
    (regions.map index.pointsOfHash).sum + index.pointsOfHash commonHash ≤
      #(index.matching regions) + index.valuesOfHash commonHash := by
  rw [sum_pointsOfHash index hnodup, index.pointsOfHash_eq, index.valuesOfHash_eq, GeoMapIndex.matching,
    sum_filter, card_filter, card_filter, ← sum_add_distrib, ← sum_add_distrib]
  refine sum_le_sum fun id _ => ?_
  have hle := card_regionsOf_le index hlength hcommon id
  by_cases hbelow : ∃ value ∈ index.values id, commonHash <+: value
  · have hpos : 0 < (index.values id).countP (commonHash <+: ·) := by simpa using hbelow
    split_ifs <;> omega
  · rw [if_neg hbelow]
    split_ifs <;> omega

end Counting

/-- For different regions of one length, the bounds enclose the number of points that match. -/
theorem matchCardinality_brackets (estimate : Nat → Nat → Nat → Nat) (index : GeoMapIndex)
    {regions : List GeoHash} (hne : regions ≠ []) (hnodup : regions.Nodup)
    (hlength : ∀ a ∈ regions, ∀ b ∈ regions, a.length = b.length) :
    ∃ estimation, matchCardinality estimate index regions = some estimation ∧
      estimation.min ≤ #(index.matching regions) ∧ #(index.matching regions) ≤ estimation.max := by
  have hsum := card_nsmul_le_sum (index.matching regions) _ _ fun _ => card_regionsOf_pos index
  have hmul := sum_le_card_nsmul (index.matching regions) _ index.maxValuesPerPoint fun id hid =>
    (card_regionsOf_le index hlength (fun _ _ => List.nil_prefix) id).trans
      (List.countP_le_length.trans (index.values_le id (mem_filter.mp hid).1))
  rw [← sum_pointsOfHash index hnodup, nsmul_eq_mul, Nat.cast_id] at hsum hmul
  unfold matchCardinality
  split
  · refine ⟨_, rfl, Nat.zero_le _, ?_⟩
    simp_all
  obtain ⟨first, rest, rfl⟩ := List.exists_cons_of_ne_nil hne
  have hcommon := foldl_shorten_isPrefix first rest
  have hpoints := card_matching_le index hcommon
  have hvalues := sum_add_points_le index hnodup hlength hcommon
  dsimp only [commonHashPrefix]
  rw [if_neg (by omega)]
  refine ⟨_, rfl, max_le (max_le ?_ (by omega)) ?_, le_min (by omega) hpoints⟩
  · exact Nat.div_le_of_le_mul (Nat.mul_comm _ _ ▸ hmul)
  · refine List.max_le_of_forall_le _ _ (List.forall_mem_map.mpr fun region hregion => ?_)
    rw [index.pointsOfHash_eq]
    exact card_le_card (monotone_filter_right _ fun id _ hbelow => ⟨region, hregion, hbelow⟩)

/-- Two regions with one point that has a value in each. -/
theorem matchCardinality_two_regions :
    let index : GeoMapIndex := ⟨{0}, fun _ => [[0], [1]], 2, by simp, _, _, fun _ => rfl, fun _ => rfl⟩
    ∃ estimation, matchCardinality (fun _ _ _ => 0) index [[0], [1]] = some estimation ∧
      estimation.min ≤ #(index.matching [[0], [1]]) ∧ #(index.matching [[0], [1]]) ≤ estimation.max :=
  matchCardinality_brackets _ _ (by simp) (by decide) (by decide)

end GeoIndex

end Qdrant
