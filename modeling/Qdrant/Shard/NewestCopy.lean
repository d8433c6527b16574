-- SUMMARY: An update acts on the newest copies of points, never loses them, and can be repeated.
import Qdrant.Shard.Layout

/-!
# The newest copy

If copies of the same version have the same content, an update with a new number
replaces the newest content of its points by the result of the operation, whatever
segments the copies are in and in whatever order they are visited. A repeated update
changes no content. It may still remove outdated copies: when a point is moved to a
segment in which it is deferred, its source is kept, although another copy of it can
have been moved to a segment in which it is not.
-/

namespace Qdrant

variable {E : Type}

namespace SegmentHolder

open Wp

variable {h h' h'' : SegmentHolder E} {c c' : Choices} {ids : List PointId} {id : PointId}
  {s : SegmentId} {opNum v : SeqNumber} {update : PointUpdate E} {new old : Record E}
variable {copy : Copy E}

theorem Coherent.newest (hcoherent : h.Coherent) (hcopy : h.copy s id = some copy)
    (hlatest : h.Latest id copy.version) : h.Newest id copy.version copy.record :=
  ⟨⟨s, copy, hcopy, rfl, rfl⟩, hlatest, fun t c hc hversion => hcoherent id t s c copy hc hcopy hversion⟩

/-! ## The first run -/

/-- All copies of a point are older than the operation. -/
def OlderThan (h : SegmentHolder E) (opNum : SeqNumber) : Prop :=
  ∀ id s copy, h.copy s id = some copy → copy.version < opNum

theorem Updated.newest (hupdated : Updated opNum id new h h') (holder : h.OlderThan opNum) :
    h'.Newest id opNum new :=
  newest_of_cases hupdated.done (fun t _ hc => copy_cases (hupdated.copies t) hc) (holder id)

theorem Updated.coherent (hupdated : Updated opNum id new h h') (holder : h.OlderThan opNum)
    (hcoherent : h.Coherent) {s t : SegmentId} {copy' : Copy E}
    (hcopy : h'.copy s id = some copy) (hcopy' : h'.copy t id = some copy')
    (hversion : copy.version = copy'.version) : copy.record = copy'.record := by
  rcases copy_cases (hupdated.copies s) hcopy with hbefore | ⟨hnew, hrecord⟩
  · rcases copy_cases (hupdated.copies t) hcopy' with hbefore' | ⟨hnew', -⟩
    · exact hcoherent id s t copy copy' hbefore hbefore' hversion
    · exact absurd (hversion.trans hnew') (Nat.ne_of_lt (holder id s copy hbefore))
  · rcases copy_cases (hupdated.copies t) hcopy' with hbefore' | ⟨-, hrecord'⟩
    · exact absurd (hversion.symm.trans hnew) (Nat.ne_of_lt (holder id t copy' hbefore'))
    · exact hrecord.trans hrecord'.symm

/-- Some function gives the new content of every point. -/
theorem exists_new (h : SegmentHolder E) (result : PointId → Record E → Record E) :
    ∃ new : PointId → Record E, ∀ id v old, h.Newest id v old → new id = result id old := by
  have hchoose : ∀ id, ∃ new, ∀ v old, h.Newest id v old → new = result id old := by
    intro id
    by_cases hexists : ∃ v old, h.Newest id v old
    · obtain ⟨v, old, hnewest⟩ := hexists
      exact ⟨result id old, fun v' old' hnewest' => by rw [(hnewest.eq hnewest').2]⟩
    · exact ⟨{ vectors := ∅, payload := .empty }, fun v old hnewest =>
        absurd ⟨v, old, hnewest⟩ hexists⟩
  choose new hnew using hchoose
  exact ⟨new, hnew⟩

/-! ## Running it again -/

/-- Neither the copy nor a newest copy of the point is deferred, and the copy is older. -/
def Outdated (h : SegmentHolder E) (s : SegmentId) (id : PointId) : Prop :=
  ∃ copy, h.copy s id = some copy ∧ copy.deferred = false ∧
    ∃ t latest, h.copy t id = some latest ∧ h.Latest id latest.version ∧
      latest.deferred = false ∧ copy.version < latest.version

/-- `h'` is `h` without some of the outdated copies. -/
def Cleaned (h h' : SegmentHolder E) : Prop :=
  ∀ s id, h'.copy s id = h.copy s id ∨ h'.copy s id = none ∧ h.Outdated s id

section

variable (hcleaned : Cleaned h h')

include hcleaned

theorem Cleaned.copy_of_latest
    (hcopy : h.copy s id = some copy) (hlatest : h.Latest id copy.version) :
    h'.copy s id = some copy := by
  rcases hcleaned s id with hsame | ⟨-, old, hold, -, t, latest, hlatestCopy, -, -, hlt⟩
  · exact hsame.trans hcopy
  · rw [hcopy] at hold
    cases hold
    exact absurd (hlatest t latest hlatestCopy) (not_le.mpr hlt)

theorem Cleaned.copy_before (hcopy : h'.copy s id = some copy) : h.copy s id = some copy := by
  rcases hcleaned s id with hsame | ⟨hnone, -⟩
  · exact hsame.symm.trans hcopy
  · rw [hcopy] at hnone
    cases hnone

theorem Cleaned.newest {r : Record E} (hnewest : h.Newest id v r) : h'.Newest id v r := by
  obtain ⟨⟨s, copy, hcopy, hversion, hrecord⟩, hlatest, hunique⟩ := hnewest
  refine ⟨⟨s, copy, hcleaned.copy_of_latest hcopy (hversion.symm ▸ hlatest), hversion, hrecord⟩,
    fun t c hc => hlatest t c (hcleaned.copy_before hc), fun t c hc => hunique t c (hcleaned.copy_before hc)⟩

theorem Cleaned.visible (hvisible : h.Visible id) : h'.Visible id := by
  obtain ⟨s, copy, hcopy, hdeferred⟩ := hvisible
  rcases hcleaned s id with hsame | ⟨-, -, -, -, t, latest, hlatestCopy, hlatest, hvisible, -⟩
  · exact ⟨s, copy, hsame.trans hcopy, hdeferred⟩
  · exact ⟨t, latest, hcleaned.copy_of_latest hlatestCopy hlatest, hvisible⟩

end

/-! ## The update as a whole -/

/-- An update acts on the newest content of its points: after it succeeded, the newest content of
every point that existed is the result of the operation on its previous newest content. -/
theorem conditionalMove_newest (result : PointId → Record E → Record E) {applied : Finset PointId}
    (hcoherent : h.Coherent) (holder : h.OlderThan opNum) (hids : ids.Nodup)
    (happlies : ∀ id ∈ ids, ∀ v old, h.Newest id v old →
      update.Applies h.targetConfigs opNum id old (result id old))
    (hrun : applyPointsWithConditionalMove c opNum ids update h = .ok applied h') :
    (∀ id ∈ ids, ∀ v old, h.Newest id v old → h'.Newest id opNum (result id old)) ∧
    (∀ id, h.Visible id → h'.Visible id) ∧
    (∀ id v old, h.Newest id v old → ∀ s copy, h.copy s id = some copy → copy.version < v →
      h'.copy s id = some copy ∨ h'.copy s id = none ∨
        ∃ deferred, h'.copy s id = some { version := opNum, record := result id old, deferred }) ∧
    (∀ id ∉ ids, ∀ s, h'.copy s id = h.copy s id) ∧
    h'.Coherent ∧
    ∀ c' applied' h'', applyPointsWithConditionalMove c' opNum ids update h' = .ok applied' h'' →
      (∀ id v r, h'.Newest id v r → h''.Newest id v r) ∧
      (∀ id, h'.Visible id → h''.Visible id) ∧ Cleaned h' h'' := by
  obtain ⟨new, hnew⟩ := exists_new h result
  have hupdates : ∀ id ∈ ids, Updates update opNum id (new id) h := by
    intro id hid s copy hcopy hlatest
    have hnewest := hcoherent.newest hcopy hlatest
    exact .inl ⟨holder id s copy hcopy, hnew id _ _ hnewest ▸ happlies id hid _ _ hnewest⟩
  obtain ⟨-, -, happlied, hupdated, hothers⟩ := wp_ok (R := fun _ _ => True)
    (wp_applyPointsWithConditionalMove hids hupdates (.inl fun _ _ => trivial)) hrun
  have hmem : ∀ id ∈ ids, ∀ v old, h.Newest id v old → id ∈ applied := by
    rintro id hid v old ⟨⟨s, copy, hcopy, -⟩, -⟩
    exact (happlied id).mpr ⟨hid, s, copy, hcopy⟩
  have hnewest' : ∀ id ∈ ids, ∀ v old, h.Newest id v old → h'.Newest id opNum (result id old) :=
    fun id hid v old hnewest =>
      hnew id v old hnewest ▸ (hupdated id (hmem id hid v old hnewest)).newest holder
  refine ⟨hnewest', fun id hvisible => ?_, fun id v old hnewest s copy hcopy _ => ?_,
    fun id hid => hothers id fun hin => hid ((happlied id).mp hin).1, ?_,
    fun c' applied' h'' hrun' => ?_⟩
  · by_cases hin : id ∈ applied
    · exact (hupdated id hin).visible hvisible
    · obtain ⟨s, copy, hcopy, hdeferred⟩ := hvisible
      exact ⟨s, copy, (hothers id hin s).trans hcopy, hdeferred⟩
  · by_cases hin : id ∈ applied
    · rw [← hcopy, ← hnew id v old hnewest]
      exact (hupdated id hin).copies s
    · exact .inl ((hothers id hin s).trans hcopy)
  · intro id s t copy copy' hcopy hcopy' hversion
    by_cases hin : id ∈ applied
    · exact (hupdated id hin).coherent holder hcoherent hcopy hcopy' hversion
    · rw [hothers id hin] at hcopy hcopy'
      exact hcoherent id s t copy copy' hcopy hcopy' hversion
  · -- the latest copies carry the number of the operation by now
    have hdone : ∀ id ∈ ids, ∀ s copy, h'.copy s id = some copy → h'.Latest id copy.version →
        opNum ≤ copy.version := by
      intro id hid s copy hcopy hlatest
      by_cases hin : id ∈ applied
      · obtain ⟨t, deferred, ht⟩ := (hupdated id hin).done
        exact hlatest t _ ht
      · rw [hothers id hin] at hcopy
        exact absurd ((happlied id).mpr ⟨hid, s, copy, hcopy⟩) hin
    have hcleaned : Cleaned h' h'' := by
      intro s id
      rw [wp_ok (R := fun _ _ => True)
        (wp_applyPointsWithConditionalMove_of_le hdone (.inl fun _ _ => trivial)) hrun']
      split
      · next hmem => exact .inr ⟨rfl, (mem_pointsToDelete.mp hmem).2⟩
      · exact .inl rfl
    exact ⟨fun id v r => hcleaned.newest, fun id => hcleaned.visible, hcleaned⟩

/-! ### Two copies of a point -/

/-- Points of segment 0 are moved to segment 2, those of other segments to segment 3. -/
def splitMoves : Choices :=
  { Choices.first with
    randomWrite := fun source _ ids =>
      if source = 0 ∧ 2 ∈ ids then 2 else if 3 ∈ ids then 3 else ids.headD 0
    randomWrite_mem := by
      intro source id ids hne
      split
      · next hand => exact hand.2
      · split
        · next hmem => exact hmem
        · exact Choices.first.randomWrite_mem source id ids hne }

/-- Two copies of a point, and two segments to move it to. In the first of them it is deferred. -/
def twoCopies : SegmentHolder Nat :=
  ofSegments [(0, .original (taggedSegment false)), (1, .original (taggedSegment false)),
    (2, .original { Segment.empty oneVector true with deferredInternalId := some 0 }),
    (3, .original (Segment.empty oneVector true))]

theorem get?_twoCopies (t : SegmentId) : twoCopies.segments.get? t =
      if t = 3 then some (.original (Segment.empty oneVector true))
      else if t = 2 then
        some (.original { Segment.empty oneVector true with deferredInternalId := some 0 })
      else if t = 1 then some (.original (taggedSegment false))
      else if t = 0 then some (.original (taggedSegment false)) else none := by
  simp [twoCopies, ofSegments]

theorem copy_twoCopies {copy : Copy Nat} (hcopy : twoCopies.copy s id = some copy) :
    id = 1 ∧ copy = taggedCopy := by
  have hpoint : (taggedSegment false).copy id = if id = 1 then some taggedCopy else none := by
    simp only [Segment.copy, taggedSegment, HashMap.get?_insert]
    split <;> rfl
  have htagged : (taggedSegment false).copy id = some copy → id = 1 ∧ copy = taggedCopy := by
    rw [hpoint]
    intro hcopy
    split at hcopy
    · next hid => exact ⟨hid, (Option.some.inj hcopy).symm⟩
    · cases hcopy
  rw [SegmentHolder.copy, get?_twoCopies] at hcopy
  split at hcopy
  · cases hcopy
  · split at hcopy
    · cases hcopy
    · split at hcopy
      · exact htagged hcopy
      · split at hcopy
        · exact htagged hcopy
        · cases hcopy

theorem newest_twoCopies : twoCopies.Newest 1 1 taggedPoint.record := by
  refine ⟨⟨0, taggedCopy, rfl, rfl, rfl⟩, fun t c hc => ?_, fun t c hc _ => ?_⟩
  · rw [(copy_twoCopies hc).2]
    exact le_rfl
  · rw [(copy_twoCopies hc).2]
    rfl

theorem targetConfigs_twoCopies : ∀ config ∈ twoCopies.targetConfigs, config = oneVector := by
  rintro config ⟨t, segment, hs, happendable, rfl⟩
  rw [get?_twoCopies] at hs
  split at hs
  · cases hs
    rfl
  · split at hs
    · cases hs
      rfl
    · split at hs
      · cases hs
        rfl
      · split at hs <;> cases hs
        rfl

theorem agrees_overwritePayload :
    (PointOperation.overwritePayload .empty).Agrees oneVector taggedPoint.record := by
  refine ⟨trivial, rfl, fits_vectorOf 3, fun p hp => ?_⟩
  have hvectors : p.vectors = taggedPoint.vectors := congrArg Record.vectors hp
  change ({ vectors := p.vectors, payload := .empty } : Record Nat) = _
  rw [hvectors]
  rfl

theorem conditionalMove_newest_twoCopies :
    ∃ applied h', applyPointsWithConditionalMove splitMoves 2 [1]
        (PointOperation.update 2 fun _ => .overwritePayload .empty) twoCopies = .ok applied h' ∧
      h'.Newest 1 2 ((PointOperation.overwritePayload .empty).moved oneVector taggedPoint.record) := by
  have hcoherent : twoCopies.Coherent := by
    intro id s t copy copy' hcopy hcopy' _
    rw [(copy_twoCopies hcopy).2, (copy_twoCopies hcopy').2]
  have holder : twoCopies.OlderThan 2 := by
    intro id s copy hcopy
    rw [(copy_twoCopies hcopy).2]
    decide
  obtain ⟨applied, h', hrun⟩ : ∃ applied h', applyPointsWithConditionalMove splitMoves 2 [1]
      (PointOperation.update 2 fun _ => .overwritePayload .empty) twoCopies = .ok applied h' :=
    ⟨_, _, rfl⟩
  refine ⟨applied, h', hrun, (conditionalMove_newest
    (fun _ => (PointOperation.overwritePayload .empty).moved oneVector) hcoherent holder
    (List.nodup_singleton 1) ?_ hrun).1 1 (List.mem_singleton_self 1) 1 taggedPoint.record
    newest_twoCopies⟩
  rintro id - v old ⟨⟨s, copy, hcopy, -, rfl⟩, -⟩
  apply PointOperation.update_applies targetConfigs_twoCopies
  rw [(copy_twoCopies hcopy).2]
  exact agrees_overwritePayload

/-- The first run moves both copies, but keeps the source of the deferred one. The second run
removes it. -/
theorem rerun_removes_copy : ∃ applied h' applied' h'',
      applyPointsWithConditionalMove splitMoves 2 [1]
        (PointOperation.update 2 fun _ => .overwritePayload .empty) twoCopies = .ok applied h' ∧
      applyPointsWithConditionalMove splitMoves 2 [1]
        (PointOperation.update 2 fun _ => .overwritePayload .empty) h' = .ok applied' h'' ∧
      h'.copy 0 1 = some taggedCopy ∧ h''.copy 0 1 = none :=
  ⟨_, _, _, _, rfl, rfl, rfl, rfl⟩

end SegmentHolder

end Qdrant
