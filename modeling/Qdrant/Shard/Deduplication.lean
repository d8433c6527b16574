-- SUMMARY: Deduplication keeps what reads need of every point, and finds nothing the second time.
import Mathlib.Data.Prod.Lex
import Mathlib.Data.Set.Finite.Lemmas
import Mathlib.Data.Set.Finite.List
import Qdrant.Base.Merge
import Qdrant.Segment.Segment

/-!
# Deduplication of points

An interrupted optimization can leave copies of a point in several segments.
`find_duplicated_points` merges the points of all segments by id, goes through the copies of each
point from the best to the worst and chooses those to remove. Which ones these are depends on the
set of copies only (`Duplicate`), and the guarantees follow from that.
-/

namespace Qdrant

open List

/-- The segments with the points they show, the versions of these and whether they are deferred. A
missing version is below all others. -/
structure LockedSegments where
  segmentIds : Finset SegmentId
  points : SegmentId → HashMap PointId (WithBot SeqNumber × Bool)

structure DedupPoint where
  segmentId : SegmentId
  pointId : PointId
  version : WithBot SeqNumber
  isDeferred : Bool

/-- From highest to lowest version, and by segment. -/
def DedupPoint.key (p : DedupPoint) : (WithBot SeqNumber)ᵒᵈ ×ₗ SegmentId :=
  toLex (OrderDual.toDual p.version, p.segmentId)

namespace LockedSegments

/-- The points of a segment by id, still without their versions. -/
def iterPoints (segments : LockedSegments) (segmentId : SegmentId) : List DedupPoint :=
  (IterOrder.ascending.walk (segments.points segmentId).keys).map fun pointId =>
    { segmentId, pointId, version := ⊥, isDeferred := false }

/-- Fill in the version of a point and whether it is deferred. -/
def enrich (segments : LockedSegments) (p : DedupPoint) : DedupPoint :=
  match (segments.points p.segmentId).get? p.pointId with
  | some (version, isDeferred) => { p with version, isDeferred }
  | none => p

/-- The points of all segments, in groups by id. -/
def pointGroups (kmerge : KMergeBy DedupPoint (·.pointId ≤ ·.pointId)) (segments : LockedSegments) :
    List (List DedupPoint) :=
  (kmerge.merge ((IterOrder.ascending.walk segments.segmentIds).map segments.iterPoints)).chunkBy
    DedupPoint.pointId

/-- The copies of one group, in the order in which they are visited. -/
def visited (segments : LockedSegments) (group : List DedupPoint) : List DedupPoint :=
  (group.map segments.enrich).mergeSort fun a b => a.key ≤ b.key

/-- The loop over the copies of a point. -/
def toRemove (latestVersion : WithBot SeqNumber) (latestHasNonDeferred : Bool) :
    (keptDeferred keptNonDeferred : Bool) → List DedupPoint → List DedupPoint
  | _, _, [] => []
  | keptDeferred, keptNonDeferred, p :: points =>
    if p.isDeferred then
      let rest := toRemove latestVersion latestHasNonDeferred true keptNonDeferred points
      if keptDeferred then p :: rest else rest
    else if p.version = latestVersion && !keptNonDeferred then
      toRemove latestVersion latestHasNonDeferred keptDeferred true points
    else
      let rest := toRemove latestVersion latestHasNonDeferred keptDeferred keptNonDeferred points
      if latestHasNonDeferred then p :: rest else rest

/-- The copies to remove. At least two are needed to deduplicate. -/
def duplicates : List DedupPoint → List DedupPoint
  | first :: second :: rest =>
    let points := first :: second :: rest
    toRemove first.version (points.any fun p => p.version = first.version && !p.isDeferred)
      false false points
  | _ => []

def findDuplicatedPoints (kmerge : KMergeBy DedupPoint (·.pointId ≤ ·.pointId))
    (segments : LockedSegments) : List (SegmentId × PointId) :=
  (segments.pointGroups kmerge).flatMap fun group =>
    (duplicates (segments.visited group)).map fun p => (p.segmentId, p.pointId)

/-- The segments without the copies that were chosen. -/
def deduplicated (kmerge : KMergeBy DedupPoint (·.pointId ≤ ·.pointId)) (segments : LockedSegments) :
    LockedSegments where
  segmentIds := segments.segmentIds
  points segmentId := (segments.points segmentId).retain fun pointId _ =>
    (segmentId, pointId) ∉ segments.findDuplicatedPoints kmerge

/-- The copies of a point that the segments show. -/
def copies (segments : LockedSegments) (pointId : PointId) : List DedupPoint :=
  (IterOrder.ascending.walk segments.segmentIds).filterMap fun segmentId =>
    ((segments.points segmentId).get? pointId).map fun (version, isDeferred) =>
      { segmentId, pointId, version, isDeferred }

/-! ## Which copies are chosen -/

variable {p q : DedupPoint} {points : List DedupPoint}

/-- A copy to remove: a better one of the same kind is there. If it is not deferred, the better one
must have the highest version. -/
def Duplicate (points : List DedupPoint) (p : DedupPoint) : Prop :=
  p ∈ points ∧ ∃ q ∈ points, q.isDeferred = p.isDeferred ∧ q.key < p.key ∧
    (p.isDeferred = false → ∀ r ∈ points, r.version ≤ q.version)

theorem key_lt :
    q.key < p.key ↔ p.version < q.version ∨ q.version = p.version ∧ q.segmentId < p.segmentId := by
  simp [DedupPoint.key, Prod.Lex.toLex_lt_toLex]

theorem version_le (h : q.key ≤ p.key) : p.version ≤ q.version := by
  rcases h.lt_or_eq with hlt | heq
  · rcases key_lt.mp hlt with hlt | heq
    · exact hlt.le
    · exact heq.1.ge
  · exact (congrArg (fun key => (ofLex key).1) heq).le

theorem mem_toRemove {latest : WithBot SeqNumber} {hasNonDeferred keptDeferred keptNonDeferred : Bool}
    (h : points.Pairwise fun a b => a.key < b.key) :
    p ∈ toRemove latest hasNonDeferred keptDeferred keptNonDeferred points ↔ p ∈ points ∧
      if p.isDeferred then keptDeferred = true ∨ ∃ q ∈ points, q.isDeferred = true ∧ q.key < p.key
      else hasNonDeferred = true ∧ (p.version = latest → keptNonDeferred = true ∨
        ∃ q ∈ points, q.isDeferred = false ∧ q.version = latest ∧ q.key < p.key) := by
  induction h generalizing keptDeferred keptNonDeferred with
  | nil => simp [toRemove]
  | @cons a points hlt _ ih =>
    unfold toRemove
    grind

theorem mem_duplicates (h : points.Pairwise fun a b => a.key < b.key) :
    p ∈ duplicates points ↔ Duplicate points p := by
  match points with
  | [] => simp [duplicates, Duplicate]
  | [first] =>
    simp [duplicates, Duplicate]
    grind
  | first :: second :: rest =>
    have hlatest : ∀ q ∈ first :: second :: rest, q.version ≤ first.version := by
      intro q hq
      rcases mem_cons.mp hq with rfl | hq
      · exact le_refl _
      · exact version_le (rel_of_pairwise_cons h hq).le
    rw [duplicates, mem_toRemove h, Duplicate]
    refine and_congr_right fun hp => ?_
    cases hdeferred : p.isDeferred with
    | true => simp
    | false => grind [key_lt]

/-! ## The copies of a point -/

variable {segments : LockedSegments} {id : PointId} {s : SegmentId}

theorem mem_copies : p ∈ segments.copies id ↔ p.pointId = id ∧ p.segmentId ∈ segments.segmentIds ∧
    (segments.points p.segmentId).get? p.pointId = some (p.version, p.isDeferred) := by
  simp only [copies, mem_filterMap, IterOrder.mem_walk, Option.map_eq_some_iff]
  constructor
  · rintro ⟨s, hs, ⟨version, isDeferred⟩, hget, rfl⟩
    exact ⟨rfl, hs, hget⟩
  · rintro ⟨rfl, hs, hget⟩
    exact ⟨p.segmentId, hs, _, hget, rfl⟩

theorem segmentId_eq (h : p.key = q.key) : p.segmentId = q.segmentId :=
  congrArg (fun key => (ofLex key).2) h

theorem eq_of_segmentId (hp : p ∈ segments.copies id) (hq : q ∈ segments.copies id)
    (h : p.segmentId = q.segmentId) : p = q := by
  obtain ⟨hid, -, hget⟩ := mem_copies.mp hp
  obtain ⟨hid', -, hget'⟩ := mem_copies.mp hq
  grind [DedupPoint]

variable {kmerge : KMergeBy DedupPoint (·.pointId ≤ ·.pointId)} {group : List DedupPoint}

/-- The merged points are sorted by id, and each stands there once for every segment that has it. -/
theorem merged_spec (kmerge : KMergeBy DedupPoint (·.pointId ≤ ·.pointId)) (segments : LockedSegments) :
    ∃ merged : List DedupPoint, segments.pointGroups kmerge = merged.chunkBy DedupPoint.pointId ∧
      merged.Pairwise (·.pointId ≤ ·.pointId) ∧ merged.Nodup ∧
      ∀ p, p ∈ merged ↔ p.segmentId ∈ segments.segmentIds ∧ p ∈ segments.iterPoints p.segmentId := by
  have hsegment : ∀ s, ∀ p ∈ segments.iterPoints s, p.segmentId = s := by
    intro s p hp
    obtain ⟨_, -, rfl⟩ := mem_map.mp hp
    rfl
  refine ⟨_, rfl, kmerge.sorted _ fun iter hmem => ?_, ?_, fun p => ?_⟩
  · obtain ⟨s, -, rfl⟩ := mem_map.mp hmem
    exact pairwise_map.mpr (IterOrder.pairwise_walk_ascending _)
  · rw [(kmerge.perm _).nodup_iff, nodup_flatten]
    refine ⟨fun iter hmem => ?_, pairwise_map.mpr ((IterOrder.nodup _ _).imp fun hne p hp hq => hne ?_)⟩
    · obtain ⟨s, -, rfl⟩ := mem_map.mp hmem
      exact (IterOrder.nodup _ _).map fun _ _ heq => congrArg DedupPoint.pointId heq
    · exact (hsegment _ p hp).symm.trans (hsegment _ p hq)
  · simp only [(kmerge.perm _).mem_iff, mem_flatten, mem_map, IterOrder.mem_walk]
    constructor
    · rintro ⟨_, ⟨s, hs, rfl⟩, hp⟩
      obtain rfl := hsegment s p hp
      exact ⟨hs, hp⟩
    · rintro ⟨hs, hp⟩
      exact ⟨_, ⟨_, hs, rfl⟩, hp⟩

theorem segmentId_enrich (segments : LockedSegments) (p : DedupPoint) :
    (segments.enrich p).segmentId = p.segmentId := by
  unfold enrich
  split
  · rfl
  · rfl

theorem enrich_of_get (h : (segments.points q.segmentId).get? q.pointId = some (q.version, q.isDeferred)) :
    segments.enrich { q with version := ⊥, isDeferred := false } = q := by
  simp only [enrich, h]

/-- The group of a point holds its copies. -/
theorem mem_visited (hgroup : group ∈ segments.pointGroups kmerge) (hp : p ∈ group) :
    q ∈ segments.visited group ↔ q ∈ segments.copies p.pointId := by
  obtain ⟨merged, hgroups, hsorted, -, hmem⟩ := merged_spec kmerge segments
  rw [hgroups] at hgroup
  rw [visited, mem_mergeSort, mem_map, mem_copies]
  constructor
  · rintro ⟨r, hr, rfl⟩
    obtain ⟨hr, hid⟩ := (mem_of_mem_chunkBy hsorted hgroup hp).mp hr
    obtain ⟨hs, hr⟩ := (hmem r).mp hr
    obtain ⟨id, hkey, hr⟩ := mem_map.mp hr
    obtain rfl : id = r.pointId := congrArg DedupPoint.pointId hr
    obtain ⟨⟨version, isDeferred⟩, hget⟩ := HashMap.mem_keys_iff.mp ((IterOrder.mem_walk _ _ _).mp hkey)
    simp only [enrich, hget]
    exact ⟨hid, hs, trivial⟩
  · rintro ⟨hid, hs, hget⟩
    refine ⟨{ q with version := ⊥, isDeferred := false },
      (mem_of_mem_chunkBy hsorted hgroup hp).mpr ⟨(hmem _).mpr ⟨hs, ?_⟩, hid⟩, enrich_of_get hget⟩
    have hkey := (IterOrder.ascending.mem_walk _ _).mpr (HashMap.mem_keys_iff.mpr ⟨_, hget⟩)
    exact mem_map.mpr ⟨q.pointId, hkey, rfl⟩

/-- Each segment has one copy in a group, so the order of the copies is strict. -/
theorem pairwise_visited (hgroup : group ∈ segments.pointGroups kmerge) :
    (segments.visited group).Pairwise fun a b => a.key < b.key := by
  obtain ⟨merged, hgroups, -, hnodup, hmem⟩ := merged_spec kmerge segments
  rw [hgroups] at hgroup
  have hflatten : (merged.chunkBy DedupPoint.pointId).flatten = merged := flatten_splitBy _ merged
  have hsublist : group.Sublist merged := hflatten ▸ sublist_flatten_of_mem hgroup
  have hne : (segments.visited group).Pairwise fun a b => a.key ≠ b.key := by
    apply List.Pairwise.perm _ (mergeSort_perm _ _).symm Ne.symm
    rw [pairwise_map]
    refine (hnodup.sublist hsublist).imp_of_mem fun {a b} ha hb hab hkey => hab ?_
    have hsegment := segmentId_eq hkey
    rw [segmentId_enrich, segmentId_enrich] at hsegment
    have hid := key_eq_of_mem_chunkBy hgroup ha hb
    obtain ⟨_, -, ha⟩ := mem_map.mp ((hmem a).mp (hsublist.subset ha)).2
    obtain ⟨_, -, hb⟩ := mem_map.mp ((hmem b).mp (hsublist.subset hb)).2
    grind [DedupPoint]
  exact ((pairwise_mergeSort' _ _).and hne).imp fun h => lt_of_le_of_ne h.1 h.2

theorem mem_findDuplicatedPoints : (s, id) ∈ segments.findDuplicatedPoints kmerge ↔
    ∃ p, Duplicate (segments.copies id) p ∧ p.segmentId = s := by
  have hgroup : ∀ group ∈ segments.pointGroups kmerge, ∀ p ∈ group, ∀ q,
      q ∈ duplicates (segments.visited group) ↔ Duplicate (segments.copies p.pointId) q := by
    intro group hgroup p hp q
    simp only [mem_duplicates (pairwise_visited hgroup), Duplicate, mem_visited hgroup hp]
  simp only [findDuplicatedPoints, mem_flatMap, mem_map, Prod.mk.injEq]
  constructor
  · rintro ⟨group, hmem, q, hq, rfl, rfl⟩
    obtain ⟨p, hp⟩ := exists_mem_of_ne_nil group (ne_nil_of_mem_splitBy hmem)
    have hdup := (hgroup group hmem p hp q).mp hq
    rw [(mem_copies.mp hdup.1).1]
    exact ⟨q, hdup, rfl⟩
  · rintro ⟨q, hdup, rfl⟩
    obtain ⟨rfl, hs, hget⟩ := mem_copies.mp hdup.1
    obtain ⟨merged, hgroups, -, -, hmem⟩ := merged_spec kmerge segments
    have hflatten : (merged.chunkBy DedupPoint.pointId).flatten = merged := flatten_splitBy _ merged
    have hkey := (IterOrder.ascending.mem_walk _ _).mpr (HashMap.mem_keys_iff.mpr ⟨_, hget⟩)
    have hitem : { q with version := ⊥, isDeferred := false } ∈ merged :=
      (hmem _).mpr ⟨hs, mem_map.mpr ⟨q.pointId, hkey, rfl⟩⟩
    rw [← hflatten, ← hgroups] at hitem
    obtain ⟨group, hin, hitem⟩ := mem_flatten.mp hitem
    exact ⟨group, hin, q, (hgroup group hin _ hitem q).mpr hdup, rfl, rfl⟩

theorem mem_copies_deduplicated : p ∈ (segments.deduplicated kmerge).copies id ↔
    p ∈ segments.copies id ∧ ¬ Duplicate (segments.copies id) p := by
  have hchosen : p ∈ segments.copies id → ((p.segmentId, p.pointId) ∈ segments.findDuplicatedPoints kmerge ↔
      Duplicate (segments.copies id) p) := by
    intro hp
    obtain ⟨rfl, -, -⟩ := mem_copies.mp hp
    rw [mem_findDuplicatedPoints]
    constructor
    · rintro ⟨q, hdup, hq⟩
      obtain rfl := eq_of_segmentId hdup.1 hp hq
      exact hdup
    · exact fun hdup => ⟨p, hdup, rfl⟩
  have hget : p ∈ (segments.deduplicated kmerge).copies id ↔ p ∈ segments.copies id ∧
      (p.segmentId, p.pointId) ∉ segments.findDuplicatedPoints kmerge := by
    simp [mem_copies, deduplicated, Option.filter_eq_some_iff, and_assoc]
  rw [hget]
  exact and_congr_right fun hp => not_congr (hchosen hp)

/-! ## What deduplication keeps -/

/-- What is left of the copies of a point: a copy of the highest version, a copy that is not deferred
of the newest version of such, and no more copies of a kind than these need. -/
structure KeepsViews (before after : List DedupPoint) : Prop where
  subset : after ⊆ before
  highest : before ≠ [] → ∃ q ∈ after, ∀ r ∈ before, r.version ≤ q.version
  nonDeferred : (∃ p ∈ before, p.isDeferred = false) →
    ∃ q ∈ after, q.isDeferred = false ∧ ∀ r ∈ before, r.isDeferred = false → r.version ≤ q.version
  deferred_unique : ∀ p ∈ after, ∀ q ∈ after, p.isDeferred = true → q.isDeferred = true → p = q
  nonDeferred_unique : (∃ r ∈ before, r.isDeferred = false ∧ ∀ q ∈ before, q.version ≤ r.version) →
    ∀ p ∈ after, ∀ q ∈ after, p.isDeferred = false → q.isDeferred = false → p = q

/-- The best of some copies. -/
theorem exists_best {P : DedupPoint → Prop} (h : ∃ p ∈ points, P p) :
    ∃ q ∈ points, P q ∧ ∀ r ∈ points, P r → q.key ≤ r.key := by
  have hfinite : {r | r ∈ points ∧ P r}.Finite := (finite_toSet points).subset fun r hr => hr.1
  obtain ⟨q, ⟨hq, hP⟩, hbest⟩ := Set.exists_min_image _ DedupPoint.key hfinite h
  exact ⟨q, hq, hP, fun r hr hr' => hbest r ⟨hr, hr'⟩⟩

section

variable {before after : List DedupPoint}
  (hafter : ∀ p, p ∈ after ↔ p ∈ before ∧ ¬ Duplicate before p)

include hafter

/-- The best copy of a kind is kept. -/
theorem exists_kept {P : DedupPoint → Prop} (h : ∃ p ∈ before, P p)
    (hP : ∀ p q, P p → q.isDeferred = p.isDeferred → P q) :
    ∃ q ∈ after, P q ∧ ∀ r ∈ before, P r → r.version ≤ q.version := by
  obtain ⟨q, hq, hPq, hbest⟩ := exists_best h
  refine ⟨q, (hafter q).mpr ⟨hq, ?_⟩, hPq, fun r hr hPr => version_le (hbest r hr hPr)⟩
  rintro ⟨-, r, hr, hkind, hlt, -⟩
  exact hlt.not_ge (hbest r hr (hP q r hPq hkind))

theorem exists_highest (h : before ≠ []) : ∃ q ∈ after, ∀ r ∈ before, r.version ≤ q.version := by
  obtain ⟨p, hp⟩ := exists_mem_of_ne_nil _ h
  obtain ⟨q, hq, -, hall⟩ := exists_kept hafter (P := fun _ => True) ⟨p, hp, trivial⟩
    fun _ _ _ _ => trivial
  exact ⟨q, hq, fun r hr => hall r hr trivial⟩

theorem not_lt_of_kept (hp : p ∈ after) (hq : q ∈ after) (hkind : p.isDeferred = q.isDeferred)
    (hhighest : q.isDeferred = false →
      ∃ r ∈ before, r.isDeferred = false ∧ ∀ q ∈ before, q.version ≤ r.version) : ¬ p.key < q.key := by
  obtain ⟨hp, -⟩ := (hafter p).mp hp
  obtain ⟨hq, hnot⟩ := (hafter q).mp hq
  intro hlt
  obtain ⟨r, hr, hrkind, hbest⟩ := exists_best (P := fun r => r.isDeferred = q.isDeferred) ⟨p, hp, hkind⟩
  refine hnot ⟨hq, r, hr, hrkind, (hbest p hp hkind).trans_lt hlt, fun hdeferred t ht => ?_⟩
  obtain ⟨t', ht', hkind', hall⟩ := hhighest hdeferred
  exact (hall t ht).trans (version_le (hbest t' ht' (hkind'.trans hdeferred.symm)))

theorem not_duplicate (p : DedupPoint) : ¬ Duplicate after p := by
  rintro ⟨hp, q, hq, hkind, hlt, hhighest⟩
  obtain ⟨hbefore, hnot⟩ := (hafter p).mp hp
  refine hnot ⟨hbefore, q, ((hafter q).mp hq).1, hkind, hlt, fun hdeferred r hr => ?_⟩
  obtain ⟨t, ht, hall⟩ := exists_highest hafter (ne_nil_of_mem hr)
  exact (hall r hr).trans (hhighest hdeferred t ht)

end

/-- Removing the copies that are chosen keeps what reads need of every point, and then nothing is left
to remove. -/
theorem deduplicated_keepsViews (kmerge : KMergeBy DedupPoint (·.pointId ≤ ·.pointId))
    (segments : LockedSegments) :
    (∀ id, KeepsViews (segments.copies id) ((segments.deduplicated kmerge).copies id)) ∧
      (segments.deduplicated kmerge).findDuplicatedPoints kmerge = [] := by
  have hafter : ∀ id p, p ∈ (segments.deduplicated kmerge).copies id ↔ _ := fun id p => mem_copies_deduplicated
  have hunique : ∀ {id p q}, p ∈ (segments.deduplicated kmerge).copies id → q ∈ (segments.deduplicated kmerge).copies id →
      ¬ p.key < q.key → ¬ q.key < p.key → p = q := by
    intro id p q hp hq hpq hqp
    have hkey := le_antisymm (not_lt.mp hqp) (not_lt.mp hpq)
    exact eq_of_segmentId hp hq (segmentId_eq hkey)
  refine ⟨fun id => ⟨fun p hp => ((hafter id p).mp hp).1, exists_highest (hafter id), fun h => ?_,
    fun p hp q hq hpd hqd => ?_, fun h p hp q hq hpd hqd => ?_⟩, ?_⟩
  · exact exists_kept (hafter id) h fun p q hp hkind => hkind.trans hp
  · exact hunique hp hq (not_lt_of_kept (hafter id) hp hq (hpd.trans hqd.symm) fun h => by simp_all)
      (not_lt_of_kept (hafter id) hq hp (hqd.trans hpd.symm) fun h => by simp_all)
  · exact hunique hp hq (not_lt_of_kept (hafter id) hp hq (hpd.trans hqd.symm) fun _ => h)
      (not_lt_of_kept (hafter id) hq hp (hqd.trans hpd.symm) fun _ => h)
  · apply eq_nil_iff_forall_not_mem.mpr
    rintro ⟨s, id⟩ hmem
    obtain ⟨p, hdup, -⟩ := mem_findDuplicatedPoints.mp hmem
    exact not_duplicate (hafter id) p hdup

end LockedSegments

end Qdrant
