-- SUMMARY: What the rollback of a failed optimization brings back.
import Qdrant.Shard.Layout
import Qdrant.Shard.Update

/-!
# Rollback of an optimization

While segments are optimized, proxies stand in their place and keep the deletes and
index changes (`lib/shard/src/optimize.rs`). When the optimization fails or is
cancelled, `unwrap_proxy` puts the wrapped segments back. It does not propagate the
changes of the proxies, so what a proxy hid is shown again.
-/

namespace Qdrant

open LockedSegment

variable {E : Type}

namespace SegmentHolder

/-- Proxies take the place of the input segments. Updates go to the extra segment, if one is
needed. That `replicate_field_indexes` creates the field indexes of the input segments in it is
left out: the extra segment is given as it is after that. -/
def installProxies (inputIds : List SegmentId) (extraCowSegment : Option (LockedSegment E))
    (h : SegmentHolder E) : SegmentHolder E :=
  let h := inputIds.foldl (fun h id =>
    match h.segments.get? id with
    | some segment => h.put id segment.newProxy
    | none => h) h
  match extraCowSegment with
  | some segment => { h.put h.idSource segment with idSource := h.idSource + 1 }
  | none => h

def unwrapProxy (proxyIds : List SegmentId) (h : SegmentHolder E) : SegmentHolder E :=
  proxyIds.foldl (fun h id =>
    match h.segments.get? id with
    | some (.proxy wrapped _) => h.put id wrapped
    -- already unwrapped, or swapped for the optimized segment
    | _ => h) h

/-- Some newest copy of the point has this version and this content. -/
def ShowsNewest (h : SegmentHolder E) (id : PointId) (version : SeqNumber) (record : Record E) :
    Prop :=
  h.Latest id version ∧ ∃ s c, h.copy s id = some c ∧ c.version = version ∧ c.record = record

/-- Users see the same points, with the same newest versions and contents, and the same field
indexes. -/
structure SameForUsers (h h' : SegmentHolder E) : Prop where
  exists_iff : ∀ id, (∃ s c, h.copy s id = some c) ↔ ∃ s c, h'.copy s id = some c
  newest_iff : ∀ id version record,
    h.ShowsNewest id version record ↔ h'.ShowsNewest id version record
  indexedFields : ∀ s, (h.segments.get? s).map indexedFields =
    (h'.segments.get? s).map indexedFields

/-- One of the proxies hides this copy of a point that was deleted. -/
def Hides (h : SegmentHolder E) (proxyIds : List SegmentId) (s : SegmentId) (id : PointId)
    (c : Copy E) : Prop :=
  s ∈ proxyIds ∧ ∃ wrapped changes, h.segments.get? s = some (.proxy wrapped changes) ∧
    (changes.deletedPoints.get? id).isSome ∧ wrapped.copy id = some c

/-- A copy of the point is newer than this one, or the same. -/
def Supersedes (h : SegmentHolder E) (id : PointId) (c : Copy E) : Prop :=
  ∃ s c', h.copy s id = some c' ∧
    (c.version < c'.version ∨ c.version = c'.version ∧ c.record = c'.record)

/-- No index change that a proxy keeps has an effect. -/
def KeepsIndexes (h : SegmentHolder E) (proxyIds : List SegmentId) : Prop :=
  ∀ s ∈ proxyIds, ∀ wrapped changes, h.segments.get? s = some (.proxy wrapped changes) →
    ∀ key change, changes.changedIndexes.get? key = some change →
      change.apply (wrapped.indexedFields.get? key) = wrapped.indexedFields.get? key

section Unwrap

variable {h : SegmentHolder E} {proxyIds : List SegmentId} {s : SegmentId} {id : PointId}

theorem get?_unwrapProxy_of_not_mem (hs : s ∉ proxyIds) :
    (h.unwrapProxy proxyIds).segments.get? s = h.segments.get? s := by
  induction proxyIds generalizing h with
  | nil => rfl
  | cons t proxyIds ih =>
    rw [List.mem_cons, not_or] at hs
    rw [unwrapProxy, List.foldl_cons]
    refine (ih hs.2).trans ?_
    split
    · exact (HashMap.get?_insert _ _ _ _).trans (if_neg hs.1)
    · rfl

/-- Each of the segments is unwrapped once. -/
theorem get?_unwrapProxy (hids : proxyIds.Nodup) (hs : s ∈ proxyIds) :
    (h.unwrapProxy proxyIds).segments.get? s = (h.segments.get? s).map fun segment =>
        match segment with
        | .proxy wrapped _ => wrapped
        | .original segment => .original segment := by
  induction proxyIds generalizing h with
  | nil => cases hs
  | cons t proxyIds ih =>
    obtain ⟨ht, hrest⟩ := List.nodup_cons.mp hids
    rw [unwrapProxy, List.foldl_cons]
    rcases List.mem_cons.mp hs with rfl | hmem
    · refine (get?_unwrapProxy_of_not_mem ht).trans ?_
      cases hget : h.segments.get? s with
      | none => exact hget
      | some segment =>
        cases segment with
        | original segment => exact hget
        | proxy wrapped changes => exact (HashMap.get?_insert _ _ _ _).trans (if_pos rfl)
    · refine (ih hrest hmem).trans (congrArg _ ?_)
      have hne : s ≠ t := fun heq => ht (heq ▸ hmem)
      split
      · exact (HashMap.get?_insert _ _ _ _).trans (if_neg hne)
      · rfl

/-- Unwrapping shows the copies that the proxies hide, and changes nothing else. -/
theorem copy_unwrapProxy (hids : proxyIds.Nodup) {c : Copy E} :
    (h.unwrapProxy proxyIds).copy s id = some c ↔
      h.copy s id = some c ∨ h.Hides proxyIds s id c := by
  by_cases hs : s ∈ proxyIds
  · rw [copy, copy, get?_unwrapProxy hids hs]
    cases hget : h.segments.get? s with
    | none => simp [Hides, hget]
    | some segment =>
      cases segment with
      | original segment => simp [Hides, hget]
      | proxy wrapped changes =>
        simp only [Option.map_some, Option.bind_some, Hides, hs, hget, LockedSegment.copy,
          Option.some.injEq, LockedSegment.proxy.injEq, true_and]
        constructor
        · intro hcopy
          by_cases hdeleted : (changes.deletedPoints.get? id).isSome = true
          · exact .inr ⟨wrapped, changes, ⟨rfl, rfl⟩, hdeleted, hcopy⟩
          · exact .inl ((if_neg hdeleted).trans hcopy)
        · rintro (hcopy | ⟨_, _, ⟨rfl, rfl⟩, -, hcopy⟩)
          · split at hcopy
            · cases hcopy
            · exact hcopy
          · exact hcopy
  · rw [copy, copy, get?_unwrapProxy_of_not_mem hs]
    simp [Hides, hs]

/-! ## Points -/

theorem ShowsNewest.of_supersedes (hids : proxyIds.Nodup)
    (hhidden : ∀ s id c, h.Hides proxyIds s id c → h.Supersedes id c) {version : SeqNumber}
    {record : Record E} :
    h.ShowsNewest id version record ↔ (h.unwrapProxy proxyIds).ShowsNewest id version record := by
  constructor
  · rintro ⟨hlatest, s, c, hcopy, hc⟩
    refine ⟨fun t c' hcopy' => ?_, s, c, (copy_unwrapProxy hids).mpr (.inl hcopy), hc⟩
    rcases (copy_unwrapProxy hids).mp hcopy' with hshown | hhides
    · exact hlatest t c' hshown
    · obtain ⟨u, c'', hshown, hnewer⟩ := hhidden t id c' hhides
      have hle := hlatest u c'' hshown
      rcases hnewer with hlt | ⟨heq, -⟩
      · exact hlt.le.trans hle
      · exact heq ▸ hle
  · rintro ⟨hlatest, s, c, hcopy, rfl, rfl⟩
    have hold : h.Latest id c.version := fun t c' hshown =>
      hlatest t c' ((copy_unwrapProxy hids).mpr (.inl hshown))
    refine ⟨hold, ?_⟩
    rcases (copy_unwrapProxy hids).mp hcopy with hshown | hhides
    · exact ⟨s, c, hshown, rfl, rfl⟩
    · obtain ⟨u, c', hshown, hnewer⟩ := hhidden s id c hhides
      rcases hnewer with hlt | ⟨hversion, hrecord⟩
      · exact absurd (hold u c' hshown) (Nat.not_le_of_lt hlt)
      · exact ⟨u, c', hshown, hversion.symm, hrecord.symm⟩

/-- A hidden copy that nothing supersedes comes back as the newest one. -/
theorem SameForUsers.supersedes (hids : proxyIds.Nodup)
    (hsame : SameForUsers h (h.unwrapProxy proxyIds)) {c : Copy E} (hhides : h.Hides proxyIds s id c) :
    h.Supersedes id c := by
  have hcopy := (copy_unwrapProxy hids).mpr (.inr hhides)
  obtain ⟨t, c', hshown⟩ := (hsame.exists_iff id).mpr ⟨s, c, hcopy⟩
  obtain ⟨t, latest, hshown, hlatest⟩ := exists_latest hshown
  have hlatest' := ((hsame.newest_iff id _ _).mp ⟨hlatest, t, latest, hshown, rfl, rfl⟩).1
  rcases Nat.lt_or_eq_of_le (hlatest' s c hcopy) with hlt | heq
  · exact ⟨t, latest, hshown, .inl hlt⟩
  · obtain ⟨-, u, c', hshown', hversion, hrecord⟩ :=
      (hsame.newest_iff id c.version c.record).mpr ⟨heq ▸ hlatest', s, c, hcopy, rfl, rfl⟩
    exact ⟨u, c', hshown', .inr ⟨hversion.symm, hrecord.symm⟩⟩

/-! ## Field indexes -/

theorem indexedFields_proxy_eq_iff {wrapped : LockedSegment E} {changes : ProxyChanges} :
    (proxy wrapped changes).indexedFields = wrapped.indexedFields ↔
      ∀ key change, changes.changedIndexes.get? key = some change →
        change.apply (wrapped.indexedFields.get? key) = wrapped.indexedFields.get? key := by
  constructor
  · intro heq key change hchange
    have hkey := congrArg (HashMap.get? · key) heq
    simpa only [indexedFields, HashMap.get?_overlay, hchange] using hkey
  · intro hkeeps
    apply HashMap.ext
    intro key
    rw [indexedFields, HashMap.get?_overlay]
    cases hchange : changes.changedIndexes.get? key with
    | none => rfl
    | some change => exact hkeeps key change hchange

theorem indexedFields_unwrapProxy_iff (hids : proxyIds.Nodup) :
    (∀ s, (h.segments.get? s).map indexedFields =
      ((h.unwrapProxy proxyIds).segments.get? s).map indexedFields) ↔
      h.KeepsIndexes proxyIds := by
  constructor
  · intro hsame s hs wrapped changes hget
    have hfields := hsame s
    rw [get?_unwrapProxy hids hs, hget] at hfields
    exact indexedFields_proxy_eq_iff.mp (Option.some.inj hfields)
  · intro hkeeps s
    by_cases hs : s ∈ proxyIds
    · rw [get?_unwrapProxy hids hs]
      cases hget : h.segments.get? s with
      | none => rfl
      | some segment =>
        cases segment with
        | original segment => rfl
        | proxy wrapped changes =>
          exact congrArg some (indexedFields_proxy_eq_iff.mpr (hkeeps s hs wrapped changes hget))
    · rw [get?_unwrapProxy_of_not_mem hs]

/-- Users see no rollback if and only if every point that was deleted in one of the proxies is
superseded by a copy elsewhere, and no index change had an effect. -/
theorem unwrapProxy_invisible_iff (hids : proxyIds.Nodup) :
    SameForUsers h (h.unwrapProxy proxyIds) ↔
      (∀ s id c, h.Hides proxyIds s id c → h.Supersedes id c) ∧ h.KeepsIndexes proxyIds := by
  constructor
  · intro hsame
    exact ⟨fun s id c => hsame.supersedes hids, (indexedFields_unwrapProxy_iff hids).mp hsame.indexedFields⟩
  · rintro ⟨hhidden, hkeeps⟩
    refine ⟨fun id => ?_, fun id version record => ShowsNewest.of_supersedes hids hhidden,
      (indexedFields_unwrapProxy_iff hids).mpr hkeeps⟩
    constructor
    · rintro ⟨s, c, hcopy⟩
      exact ⟨s, c, (copy_unwrapProxy hids).mpr (.inl hcopy)⟩
    · rintro ⟨s, c, hcopy⟩
      rcases (copy_unwrapProxy hids).mp hcopy with hshown | hhides
      · exact ⟨s, c, hshown⟩
      · obtain ⟨t, c', hshown, -⟩ := hhidden s id c hhides
        exact ⟨t, c', hshown⟩

end Unwrap

/-! ## A delete during the optimization -/

def noVectors : SegmentConfig Nat :=
  { vectorData := ∅, sparseVectorData := ∅ }

/-- A segment with point 1 in version 3. -/
def onePoint : Segment Nat :=
  (Segment.empty noVectors true).upserted 3 1 ∅

def noneEqual : RecordEquality Nat where
  vector _ _ := false
  payload _ _ := false

def ascendingSchedule : SeqNumber → Schedule := fun _ =>
  { points := .ascending, segments := .ascending, names := .ascending, batch := fun _ => .first }

/-- Point 1 is in a segment that is optimized. Updates go to an extra segment. -/
def optimizedShard : SegmentHolder Nat :=
  installProxies [0] (some (.original (Segment.empty noVectors true)))
    (ofSegments [(0, .original onePoint)])

/-- Point 1 is updated, which moves it to the extra segment. -/
def movedShard : SegmentHolder Nat :=
  applyAll noneEqual ascendingSchedule
    [(4, .payloadOperation (.overwritePayload tagged (some [1]) none))] optimizedShard

/-- Point 1 is deleted. -/
def deletedShard : SegmentHolder Nat :=
  applyAll noneEqual ascendingSchedule [(4, .pointOperation (.deletePoints [1]))] optimizedShard

theorem unwrapProxy_invisible_movedShard :
    SameForUsers movedShard (movedShard.unwrapProxy [0]) := by
  refine (unwrapProxy_invisible_iff (List.nodup_singleton 0)).mpr ⟨?_, ?_⟩
  · rintro s id c ⟨hs, wrapped, changes, hget, hdeleted, hcopy⟩
    cases List.mem_singleton.mp hs
    cases hget
    by_cases hid : id = 1
    · subst hid
      cases hcopy
      exact ⟨1, _, rfl, .inl (by decide)⟩
    · rw [LockedSegment.copy, onePoint, Segment.touches_upserted.copy _ hid] at hcopy
      cases hcopy
  · intro s hs wrapped changes hget key change hchange
    cases List.mem_singleton.mp hs
    cases hget
    cases hchange

/-- Through its proxy the point is gone; after the rollback it is there again. -/
theorem deleted_point_reappears : (∀ s c, deletedShard.copy s 1 ≠ some c) ∧
      (∃ c, (deletedShard.unwrapProxy [0]).copy 0 1 = some c) ∧
      ¬ SameForUsers deletedShard (deletedShard.unwrapProxy [0]) := by
  have hgone (s : SegmentId) (c : Copy Nat) : deletedShard.copy s 1 ≠ some c := by
    have hkeys : deletedShard.segments.keys = {0, 1} := by decide +kernel
    intro hcopy
    obtain ⟨segment, hget, -⟩ := Option.bind_eq_some_iff.mp hcopy
    have hs : s ∈ deletedShard.segments.keys := HashMap.mem_keys_iff.mpr ⟨segment, hget⟩
    rw [hkeys, Finset.mem_insert, Finset.mem_singleton] at hs
    rcases hs with rfl | rfl <;> cases hcopy
  have hback : ∃ c, (deletedShard.unwrapProxy [0]).copy 0 1 = some c := ⟨_, rfl⟩
  refine ⟨hgone, hback, fun hsame => ?_⟩
  obtain ⟨c, hcopy⟩ := hback
  obtain ⟨s, c', hshown⟩ := (hsame.exists_iff 1).mpr ⟨0, c, hcopy⟩
  exact hgone s c' hshown

end SegmentHolder

end Qdrant
