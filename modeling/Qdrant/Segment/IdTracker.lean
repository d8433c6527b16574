-- SUMMARY: The points of several id trackers, each once with its newest copy.
import Mathlib.Data.Sum.Order
import Qdrant.Base.Merge

/-!
# Unique points of several id trackers

Source: `lib/segment/src/id_tracker/mod.rs`.

`kmerge_by` of `itertools` is a parameter. Which of several copies of an id comes first is left open.
-/

namespace Qdrant.Segment

open List

/-- Numbers come before UUIDs in the derived order. -/
abbrev ExtendedPointId : Type := Nat ⊕ₗ Nat

/-- The mappings are kept by id, in maps or in sorted lists of which the removed ones are skipped. -/
structure IdTracker where
  numMappings : List (Nat × Nat)
  uuidMappings : List (Nat × Nat)
  internalVersion : Nat → Option Nat
  num_sorted : numMappings.Pairwise (·.1 ≤ ·.1)
  uuid_sorted : uuidMappings.Pairwise (·.1 ≤ ·.1)

structure MergedPointId where
  externalId : ExtendedPointId
  trackerIndex : Nat
  internalId : Nat
  version : Nat

abbrev ById (a b : MergedPointId) : Prop := a.externalId ≤ b.externalId

/-- `iter_from` without a start. -/
def IdTracker.iterFrom (tracker : IdTracker) : List (ExtendedPointId × Nat) :=
  tracker.numMappings.map (fun entry => (Sum.inlₗ entry.1, entry.2)) ++
    tracker.uuidMappings.map (fun entry => (Sum.inrₗ entry.1, entry.2))

/-- The points of a tracker that have a version. -/
def versioned (index : Nat) (tracker : IdTracker) : List MergedPointId :=
  tracker.iterFrom.filterMap fun (externalId, internalId) =>
    (tracker.internalVersion internalId).map (⟨externalId, index, internalId, ·⟩)

/-- The items that the loop calls `f` with. -/
def uniqueLoop (bestItem : MergedPointId) : List MergedPointId → List MergedPointId
  | [] => [bestItem]
  | item :: iter =>
    if bestItem.externalId = item.externalId then
      uniqueLoop (if bestItem.version < item.version then item else bestItem) iter
    else bestItem :: uniqueLoop item iter

def forEachUniquePoint (kmerge : KMergeBy MergedPointId ById) (idTrackers : List IdTracker) : List MergedPointId :=
  match kmerge.merge (idTrackers.mapIdx versioned) with
  | [] => []
  | bestItem :: iter => uniqueLoop bestItem iter

/-- One call for each id that has a copy, in ascending order, with a copy of the highest version. -/
structure OncePerId (calls : List MergedPointId) (Copy : MergedPointId → Prop) : Prop where
  ascending : calls.Pairwise (·.externalId < ·.externalId)
  newest : ∀ call ∈ calls, Copy call ∧
    ∀ other, Copy other → other.externalId = call.externalId → other.version ≤ call.version
  complete : ∀ other, Copy other → ∃ call ∈ calls, call.externalId = other.externalId

theorem oncePerId_uniqueLoop {bestItem : MergedPointId} {iter : List MergedPointId}
    (h : (bestItem :: iter).Pairwise ById) :
    OncePerId (uniqueLoop bestItem iter) (· ∈ bestItem :: iter) := by
  induction iter generalizing bestItem with
  | nil => exact ⟨pairwise_singleton _ _, by simp [uniqueLoop], by simp [uniqueLoop]⟩
  | cons item iter ih =>
    obtain ⟨hbest, hitems⟩ := pairwise_cons.mp h
    obtain ⟨hitem, hiter⟩ := pairwise_cons.mp hitems
    rw [uniqueLoop]
    split
    case isTrue heq =>
      -- The item that is kept has the id of both and the higher version.
      generalize hkept : (if bestItem.version < item.version then item else bestItem) = kept
      have hsame : ∀ other ∈ [bestItem, item], other.externalId = kept.externalId ∧
          other.version ≤ kept.version := by grind
      obtain ⟨hasc, hnewest, hcomplete⟩ := @ih kept (pairwise_cons.mpr ⟨by grind, hiter⟩)
      exact ⟨hasc, by grind, by grind⟩
    case isFalse hne =>
      have hlt := lt_of_le_of_ne (hbest item mem_cons_self) hne
      have hlater : ∀ other ∈ item :: iter, bestItem.externalId < other.externalId :=
        forall_mem_cons.mpr ⟨hlt, fun other hother => hlt.trans_le (hitem other hother)⟩
      obtain ⟨hasc, hnewest, hcomplete⟩ := ih hitems
      have hcalls := fun call hcall => hlater call (hnewest call hcall).1
      exact ⟨pairwise_cons.mpr ⟨hcalls, hasc⟩, by grind, by grind⟩

theorem versioned_sorted (index : Nat) (tracker : IdTracker) :
    (versioned index tracker).Pairwise ById := by
  have hiter : tracker.iterFrom.Pairwise (·.1 ≤ ·.1) := by
    refine pairwise_append.mpr ⟨pairwise_map.mpr ?_, pairwise_map.mpr ?_, by simp⟩
    · exact tracker.num_sorted.imp Sum.Lex.inl_le_inl_iff.mpr
    · exact tracker.uuid_sorted.imp Sum.Lex.inr_le_inr_iff.mpr
  refine pairwise_filterMap.mpr (hiter.imp fun hle => ?_)
  rintro a ha b hb
  obtain ⟨_, -, rfl⟩ := Option.map_eq_some_iff.mp ha
  obtain ⟨_, -, rfl⟩ := Option.map_eq_some_iff.mp hb
  exact hle

/-- A tracker maps the id and has a version for it. -/
def IsCopy (idTrackers : List IdTracker) (item : MergedPointId) : Prop :=
  ∃ tracker, idTrackers[item.trackerIndex]? = some tracker ∧
    (item.externalId, item.internalId) ∈ tracker.iterFrom ∧
    tracker.internalVersion item.internalId = some item.version

theorem mem_merge_iff {kmerge : KMergeBy MergedPointId ById} {idTrackers : List IdTracker}
    {item : MergedPointId} :
    item ∈ kmerge.merge (idTrackers.mapIdx versioned) ↔ IsCopy idTrackers item := by
  rw [(kmerge.perm _).mem_iff, mem_flatten]
  constructor
  · rintro ⟨_, hiter, hitem⟩
    obtain ⟨index, hindex, rfl⟩ := mem_mapIdx.mp hiter
    obtain ⟨entry, hmem, hsome⟩ := mem_filterMap.mp hitem
    obtain ⟨version, hversion, rfl⟩ := Option.map_eq_some_iff.mp hsome
    exact ⟨_, getElem?_eq_getElem hindex, hmem, hversion⟩
  · rintro ⟨tracker, htracker, hmem, hversion⟩
    obtain ⟨hindex, rfl⟩ := List.getElem?_eq_some_iff.mp htracker
    refine ⟨_, mem_mapIdx.mpr ⟨_, hindex, rfl⟩, mem_filterMap.mpr ⟨_, hmem, ?_⟩⟩
    exact Option.map_eq_some_iff.mpr ⟨_, hversion, rfl⟩

/-- The callback is called once for each id with a version in some tracker, in ascending order,
with a copy of the highest version. -/
theorem forEachUniquePoint_oncePerId (kmerge : KMergeBy MergedPointId ById)
    (idTrackers : List IdTracker) :
    OncePerId (forEachUniquePoint kmerge idTrackers) (IsCopy idTrackers) := by
  have hsorted := kmerge.sorted (idTrackers.mapIdx versioned) fun iter hiter => by
    obtain ⟨index, _, rfl⟩ := mem_mapIdx.mp hiter
    exact versioned_sorted index _
  have hcopy : IsCopy idTrackers = (· ∈ kmerge.merge (idTrackers.mapIdx versioned)) :=
    funext fun item => propext mem_merge_iff.symm
  rw [hcopy, forEachUniquePoint]
  cases hmerge : kmerge.merge (idTrackers.mapIdx versioned) with
  | nil => exact ⟨Pairwise.nil, nofun, nofun⟩
  | cons bestItem iter => exact oncePerId_uniqueLoop (hmerge ▸ hsorted)

/-- A tracker with three points, of which one has no version. -/
def olderTracker : IdTracker :=
  ⟨[(1, 0), (2, 1)], [(1, 2)], fun internalId => if internalId = 1 then none else some 3, by simp, by simp⟩

/-- A tracker with newer copies of two of them. -/
def newerTracker : IdTracker := ⟨[(1, 7), (2, 8)], [], fun _ => some 5, by simp, by simp⟩

theorem forEachUniquePoint_oncePerId_shared :
    OncePerId (forEachUniquePoint default [olderTracker, newerTracker])
        (IsCopy [olderTracker, newerTracker]) ∧
      forEachUniquePoint default [olderTracker, newerTracker] =
        [⟨Sum.inlₗ 1, 1, 7, 5⟩, ⟨Sum.inlₗ 2, 1, 8, 5⟩, ⟨Sum.inrₗ 1, 0, 2, 3⟩] :=
  ⟨forEachUniquePoint_oncePerId default _, by rfl⟩

end Qdrant.Segment
