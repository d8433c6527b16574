-- SUMMARY: Updates of points with copies in several segments: the newest copy is updated and never lost.
import Qdrant.Shard.SegmentHolder

/-!
# Conditional moves

`apply_points_with_conditional_move` first deletes outdated copies and then visits the
latest copies of its points, in an arbitrary order of segments and points. A copy in an
appendable segment is updated in place. Any other copy is moved: its data is changed
and upserted into some appendable segment, and the source is deleted unless the point
is deferred in its new place.

`PointStep` says what visiting one copy can do, and `Progress` is what holds of a point
between two visits.
-/

namespace Qdrant

open List

variable {E : Type}

namespace SegmentHolder

open LockedSegment Wp

/-- The configurations of the segments that points are moved to. -/
def targetConfigs (h : SegmentHolder E) : Set (SegmentConfig E) :=
  { config | ∃ s segment, h.segments.get? s = some segment ∧ segment.isAppendable = true ∧
      segment.config = config }

/-- Both forms of an update turn the content `old` of a point into `new`. -/
structure PointUpdate.Applies (update : PointUpdate E) (configs : Set (SegmentConfig E))
    (opNum : SeqNumber) (id : PointId) (old new : Record E) : Prop where
  inPlace : ∀ s copy applied segment', s.config ∈ configs → s.copy id = some copy →
    copy.record = old → copy.version < opNum →
    update.inPlace id (.original s) = (.ok applied, segment') →
    ∃ s', segment' = .original s' ∧ Segment.SameShape s' s ∧
      (s.errorStatus = none → s'.errorStatus = none) ∧
      ∀ id', s'.copy id' =
        if id' = id then some { version := opNum, record := new, deferred := copy.deferred }
        else s.copy id'
  cow : ∀ config ∈ configs, config.storedVectors (update.cow id old).vectors = new.vectors ∧
    (update.cow id old).payload = new.payload

/-- Both forms of an update succeed in segments that have not failed. -/
structure PointUpdate.Succeeds (update : PointUpdate E) (configs : Set (SegmentConfig E))
    (opNum : SeqNumber) (id : PointId) (old : Record E) : Prop where
  inPlace : ∀ s copy, s.config ∈ configs → s.errorStatus = none → s.copy id = some copy →
    copy.record = old → copy.version < opNum →
    ∃ applied segment', update.inPlace id (.original s) = (.ok applied, segment')
  cow : ∀ config ∈ configs, config.Fits (update.cow id old).vectors

/-- What visiting the copy of a point in the segment `source` can do. -/
inductive PointStep (opNum : SeqNumber) (id : PointId) (source : SegmentId) (new : Record E)
    (h h' : SegmentHolder E) : Prop
  | skip (copy : Copy E) (hcopy : h.copy source id = some copy) (hnewer : opNum ≤ copy.version)
      (hcopies : ∀ s id', h'.copy s id' = h.copy s id')
  | inPlace (copy : Copy E) (hcopy : h.copy source id = some copy) (hold : copy.version < opNum)
      (hcopies : ∀ s id', h'.copy s id' =
        if s = source ∧ id' = id then
          some { version := opNum, record := new, deferred := copy.deferred }
        else h.copy s id')
  | moved (copy : Copy E) (target : SegmentId) (deferred : Bool)
      (hcopy : h.copy source id = some copy) (hold : copy.version < opNum)
      (hne : target ≠ source) (hdeferred : ∀ c, h.copy target id = some c → c.deferred = deferred)
      (hcopies : ∀ s id', h'.copy s id' =
        if s = target ∧ id' = id then some { version := opNum, record := new, deferred }
        else if (s = source ∧ id' = id) ∧ deferred = false then none
        else h.copy s id')

variable {h h' : SegmentHolder E} {c : Choices} {ids : List PointId} {id : PointId}
  {s : SegmentId} {opNum : SeqNumber} {update : PointUpdate E} {old new : Record E}
  {R : OperationError → SegmentHolder E → Prop}

theorem SameShape.targetConfigs_subset (hshape : SameShape h' h) :
    h.targetConfigs ⊆ h'.targetConfigs := by
  rintro config ⟨s, segment, hs, happendable, rfl⟩
  obtain ⟨segment', hs', hsegment⟩ := hshape.exists_of_get hs
  exact ⟨s, segment', hs', hsegment.isAppendable.trans happendable, hsegment.config⟩

theorem SameShape.targetConfigs (hshape : SameShape h' h) : h'.targetConfigs = h.targetConfigs :=
  Set.Subset.antisymm hshape.symm.targetConfigs_subset hshape.targetConfigs_subset

theorem mem_appendableSegmentsIds : s ∈ h.appendableSegmentsIds ↔
      ∃ segment, h.segments.get? s = some segment ∧ segment.isAppendable = true := by
  unfold appendableSegmentsIds
  rw [IterOrder.mem_walk, Finset.mem_filter, HashMap.mem_keys_iff]
  constructor
  · rintro ⟨⟨segment, hs⟩, happendable⟩
    rw [hs] at happendable
    exact ⟨segment, hs, happendable⟩
  · rintro ⟨segment, hs, happendable⟩
    refine ⟨⟨segment, hs⟩, ?_⟩
    rw [hs]
    exact happendable

theorem SameShape.exists_target (hshape : SameShape h' h) :
    ∀ t ∈ h.appendableSegmentsIds, ∃ target, h'.segments.get? t = some target ∧
      target.isAppendable = true := by
  intro t ht
  obtain ⟨segment, hsegment, happendable⟩ := mem_appendableSegmentsIds.mp ht
  obtain ⟨target, htarget, hshape⟩ := hshape.exists_of_get hsegment
  exact ⟨target, htarget, hshape.isAppendable.trans happendable⟩

/-- Upserting a point into an appendable segment. -/
theorem wp_upsertWithPayload {t : SegmentId} {target : Segment E} {vectors : NamedVectors E}
    {payload : Option Payload} (ht : h.segments.get? t = some (.original target))
    (hlatest : h.Latest id opNum)
    (hR : (∀ e h, R e h) ∨ h.Healthy ∧ target.config.Fits vectors) :
    wp (writeSegment t (LockedSegment.upsertWithPayload opNum id vectors payload)) (fun _ h' =>
      SameShape h' h ∧ (h.Healthy → h'.Healthy) ∧
        ∃ deferred, (∀ c, h.copy t id = some c → c.deferred = deferred) ∧ ∀ s id', h'.copy s id' =
            if s = t ∧ id' = id then
              some { version := opNum, deferred,
                     record := { vectors := target.config.storedVectors vectors,
                                 payload := payload.getD .empty } }
            else h.copy s id') R h := by
  have hcopy : ∀ id, h.copy t id = target.copy id := fun id => copy_of_get ht
  have hle : ∀ c, target.copy id = some c → c.version ≤ opNum := fun c hc =>
    hlatest t c ((hcopy id).trans hc)
  rw [wp_writeSegment ht]
  rcases hupsert : (original target).upsertWithPayload opNum id vectors payload with
    ⟨_ | b, segment'⟩
  · rcases hR with hR | ⟨hh, hv⟩
    · exact hR _ _
    · obtain ⟨b, seg, hok⟩ :=
        upsertWithPayload_of_healthy opNum id payload (hh t _ ht) hv hle
      rw [hupsert] at hok
      cases hok
  · obtain ⟨s', rfl, hshape, hstatus, deferred, hdeferred, hcopies⟩ :=
      upsertWithPayload_ok hupsert hle
    refine ⟨sameShape_put ht hshape, fun hh => hh.put (hstatus (hh t _ ht)), deferred,
      fun c hc => hdeferred c ((hcopy id).symm.trans hc), copy_put_of ht hcopies⟩

variable {copy : Copy E} {targets : List SegmentId} {segment : LockedSegment E}

/-- Moving a point to the chosen appendable segment. -/
theorem wp_movePoint (new : Record E)
    (hs : h.segments.get? s = some segment) (hsource : segment.isAppendable = false)
    (hcopy : segment.copy id = some copy) (hold : copy.version < opNum)
    (hlatest : h.Latest id opNum)
    (htargets : ∀ t ∈ targets, ∃ target, h.segments.get? t = some target ∧
      target.isAppendable = true)
    (hcow : ∀ config ∈ h.targetConfigs,
      config.storedVectors (update.cow id copy.record).vectors = new.vectors ∧
        (update.cow id copy.record).payload = new.payload)
    (hR : (∀ e h, R e h) ∨ h.Healthy ∧ targets ≠ [] ∧
      ∀ config ∈ h.targetConfigs, config.Fits (update.cow id copy.record).vectors) :
    wp (movePoint c opNum update targets id s segment) (fun _ h' =>
      SameShape h' h ∧ (h.Healthy → h'.Healthy) ∧ PointStep opNum id s new h h') R h := by
  unfold movePoint
  split
  · next hempty =>
    rcases hR with hR | ⟨-, hne, -⟩
    · exact hR _ _
    · exact absurd hempty hne
  · next hne =>
    obtain ⟨target, ht, htarget⟩ := htargets _ (c.randomWrite_mem s id targets hne)
    generalize c.randomWrite s id targets = t at ht
    obtain ⟨st, rfl, -⟩ := eq_original_of_isAppendable htarget
    have hconfig : st.config ∈ h.targetConfigs := ⟨t, _, ht, htarget, rfl⟩
    have hts : t ≠ s := by
      rintro rfl
      rw [hs] at ht
      cases ht
      rw [hsource] at htarget
      cases htarget
    obtain ⟨hvectors, hpayload⟩ := hcow st.config hconfig
    rw [retrieve_of_copy hcopy]
    simp only [wp_bind, wp_modify]
    -- the flush dependency does not show in any copy
    let h₀ := { h with flushDependency := h.flushDependency.addDependency s t opNum }
    apply wp_conseq (wp_upsertWithPayload (h := h₀) ht hlatest
      (hR.imp_right fun hR => ⟨hR.1, hR.2.2 _ hconfig⟩))
    rintro - h₁ ⟨hshape, hhealthy, deferred, hdeferred, hcopies⟩
    rw [hvectors, Option.getD_some, hpayload] at hcopies
    obtain ⟨target₁, ht₁, htarget₁⟩ := copy_eq_some.mp ((hcopies t id).trans (if_pos ⟨rfl, rfl⟩))
    have hsource₁ : h₁.copy s id = some copy := by
      rw [hcopies, if_neg fun hand => hts hand.1.symm]
      exact (copy_of_get hs).trans hcopy
    rw [wp_bind, wp_get, ht₁, Option.any_some, pointIsDeferred_of_copy htarget₁]
    cases hflag : deferred with
    | true =>
      refine ⟨hshape, hhealthy, .moved copy t true ((copy_of_get hs).trans hcopy) hold hts
        (hflag ▸ hdeferred) fun s' id' => ?_⟩
      rw [hcopies, hflag, if_neg (by simp : ¬ ((s' = s ∧ id' = id) ∧ true = false))]
      rfl
    | false =>
      rw [if_neg Bool.false_ne_true, wp_discard]
      obtain ⟨segment₁, hs₁, -⟩ := hshape.exists_of_get hs
      have hle₁ : ∀ c, h₁.copy s id = some c → c.version ≤ opNum := by
        intro c hc
        rw [hsource₁] at hc
        cases hc
        exact hold.le
      apply wp_conseq (wp_deletePoint hs₁ hle₁ (hR.imp_right fun hR => hhealthy hR.1))
      rintro - h₂ ⟨hshape₂, hhealthy₂, -, hcopies₂⟩
      refine ⟨hshape₂.trans hshape, hhealthy₂ ∘ hhealthy, .moved copy t false
        ((copy_of_get hs).trans hcopy) hold hts (hflag ▸ hdeferred) fun s' id' => ?_⟩
      rw [hcopies₂, hcopies, hflag]
      by_cases hmoved : s' = t ∧ id' = id
      · rw [if_neg fun hand => hts (hmoved.1.symm.trans hand.1), if_pos hmoved, if_pos hmoved]
      · rw [if_neg hmoved, if_neg hmoved]
        simp only [and_true]
        rfl

variable {applied : Finset PointId}

/-- A copy that is not older than the operation stays as it is. -/
theorem wp_updatePoint_of_le (hcopy : h.copy s id = some copy) (hnewer : opNum ≤ copy.version) :
    wp (updatePoint c opNum update targets applied id s) (fun r h' =>
      r.2 = insert id applied ∧ h' = h) R h := by
  obtain ⟨segment, hs, hsegment⟩ := copy_eq_some.mp hcopy
  unfold updatePoint
  rw [wp_bind, wp_get, hs]
  simp only [pointVersion_of_copy hsegment, Option.any_some, decide_eq_true hnewer]
  exact ⟨rfl, rfl⟩

/-- An older copy is updated in place or moved. -/
theorem wp_updatePoint_of_lt
    {Q : Bool × Finset PointId → SegmentHolder E → Prop} (hs : h.segments.get? s = some segment)
    (hcopy : segment.copy id = some copy) (hold : copy.version < opNum) :
    wp (updatePoint c opNum update targets applied id s) Q R h = if segment.isAppendable = true then
        wp (writeSegment s (update.inPlace id)) (fun b => Q (b, insert id applied)) R h
      else
        wp (movePoint c opNum update targets id s segment) (fun _ => Q (true, insert id applied)) R h := by
  have hinPlace : (segment.isOriginal && segment.isAppendable) = segment.isAppendable := by
    cases happ : segment.isAppendable with
    | false => exact Bool.and_false _
    | true =>
      obtain ⟨s₁, rfl, -⟩ := eq_original_of_isAppendable happ
      rfl
  unfold updatePoint
  rw [wp_bind, wp_get, hs]
  simp only [pointVersion_of_copy hcopy, Option.any_some,
    decide_eq_false (not_le.mpr hold), hinPlace]
  cases segment.isAppendable <;> simp

/-- Visiting one copy of a point. -/
theorem wp_updatePoint (new : Record E)
    (hcopy : h.copy s id = some copy) (hlatest : h.Latest id opNum)
    (htargets : ∀ t ∈ targets, ∃ target, h.segments.get? t = some target ∧
      target.isAppendable = true)
    (happlies : copy.version < opNum → update.Applies h.targetConfigs opNum id copy.record new)
    (hR : (∀ e h, R e h) ∨ h.Healthy ∧ targets ≠ [] ∧
      (copy.version < opNum → update.Succeeds h.targetConfigs opNum id copy.record)) :
    wp (updatePoint c opNum update targets applied id s) (fun r h' =>
      r.2 = insert id applied ∧ SameShape h' h ∧ (h.Healthy → h'.Healthy) ∧
        PointStep opNum id s new h h') R h := by
  obtain ⟨segment, hs, hsegment⟩ := copy_eq_some.mp hcopy
  rcases Nat.lt_or_ge copy.version opNum with hold | hnewer
  case inr =>
    apply wp_conseq (wp_updatePoint_of_le hcopy hnewer)
    rintro r h' ⟨happlied, rfl⟩
    exact ⟨happlied, .refl h', fun hh => hh, .skip copy hcopy hnewer fun _ _ => rfl⟩
  case inl =>
    have happlies := happlies hold
    rw [wp_updatePoint_of_lt hs hsegment hold]
    split
    · next happendable =>
      obtain ⟨s₁, rfl, hs₁⟩ := eq_original_of_isAppendable happendable
      have hconfig : s₁.config ∈ h.targetConfigs := ⟨s, _, hs, hs₁, rfl⟩
      rw [wp_writeSegment hs]
      rcases hupdate : update.inPlace id (.original s₁) with ⟨_ | b, segment'⟩
      · rcases hR with hR | ⟨hh, -, hsucceeds⟩
        · exact hR _ _
        · obtain ⟨b, segment', hok⟩ := (hsucceeds hold).inPlace s₁ copy hconfig (hh s _ hs)
            hsegment rfl hold
          rw [hupdate] at hok
          cases hok
      · obtain ⟨s', rfl, hshape, hstatus, hcopies⟩ :=
          happlies.inPlace s₁ copy b segment' hconfig hsegment rfl hold hupdate
        refine ⟨rfl, sameShape_put hs hshape, fun hh => hh.put (hstatus (hh s _ hs)),
          .inPlace copy hcopy hold (copy_put_of hs hcopies)⟩
    · next hmove =>
      apply wp_conseq (wp_movePoint new hs (Bool.eq_false_iff.mpr hmove) hsegment hold hlatest htargets
        happlies.cow (hR.imp_right fun hR => ⟨hR.1, hR.2.1, (hR.2.2 hold).cow⟩))
      rintro - h' ⟨hshape, hhealthy, hstep⟩
      exact ⟨rfl, hshape, hhealthy, hstep⟩

/-! ## All copies of a point -/

/-- What holds of a point while its copies are visited. `rest` are the copies that are still to
be visited. -/
structure Progress (opNum : SeqNumber) (id : PointId) (new : Record E) (h₀ h : SegmentHolder E)
    (rest : List (SegmentId × PointId)) : Prop where
  copies : ∀ s, h.copy s id = h₀.copy s id ∨ h.copy s id = none ∨
    ∃ deferred, h.copy s id = some { version := opNum, record := new, deferred }
  pending : ∀ s, (s, id) ∈ rest → ∃ copy, h.copy s id = some copy
  visible : h₀.Visible id → h.Visible id
  done : (∃ s, (s, id) ∈ rest) ∨
    ∃ s deferred, h.copy s id = some { version := opNum, record := new, deferred }

/-- The copies of other points stay as they are. -/
theorem PointStep.copy_of_ne {id' : PointId} (hstep : PointStep opNum id s new h h')
    (hne : id' ≠ id) (t : SegmentId) : h'.copy t id' = h.copy t id' := by
  cases hstep with
  | skip _ _ _ hcopies => exact hcopies t id'
  | inPlace _ _ _ hcopies => rw [hcopies, if_neg fun hand => hne hand.2]
  | moved _ _ _ _ _ _ _ hcopies =>
    rw [hcopies, if_neg fun hand => hne hand.2, if_neg fun hand => hne hand.1.2]

variable {h₀ : SegmentHolder E}
variable {rest : List (SegmentId × PointId)}

theorem Progress.congr {rest' : List (SegmentId × PointId)}
    (hprogress : Progress opNum id new h₀ h rest) (hcopies : ∀ t, h'.copy t id = h.copy t id)
    (hrest : ∀ t, (t, id) ∈ rest' ↔ (t, id) ∈ rest) : Progress opNum id new h₀ h' rest' := by
  obtain ⟨hcopy, hpending, hvisible, hdone⟩ := hprogress
  refine ⟨?_, ?_, ?_, ?_⟩
  · simpa only [hcopies] using hcopy
  · simpa only [hcopies, hrest] using hpending
  · simpa only [Visible, hcopies] using hvisible
  · simpa only [hcopies, hrest] using hdone

/-- Writing an updated copy to `target`, and deleting the visited one unless the new one is
deferred. -/
theorem Progress.write (target : SegmentId) (deferred : Bool)
    (hprogress : Progress opNum id new h₀ h ((s, id) :: rest)) (hnodup : (s, id) ∉ rest)
    (hdeferred : ∀ c, h.copy target id = some c → c.deferred = deferred)
    (hcopies : ∀ t, h'.copy t id =
      if t = target then some { version := opNum, record := new, deferred }
      else if t = s ∧ deferred = false then none else h.copy t id) :
    Progress opNum id new h₀ h' rest := by
  have htarget := (hcopies target).trans (if_pos rfl)
  refine ⟨fun t => ?_, fun t ht => ?_, fun hvisible => ?_, .inr ⟨target, deferred, htarget⟩⟩
  · rw [hcopies]
    split
    · exact .inr (.inr ⟨deferred, rfl⟩)
    · split
      · exact .inr (.inl rfl)
      · exact hprogress.copies t
  · rw [hcopies]
    split
    · exact ⟨_, rfl⟩
    · rw [if_neg]
      · exact hprogress.pending t (mem_cons_of_mem _ ht)
      · rintro ⟨rfl, -⟩
        exact hnodup ht
  · obtain ⟨t, c, hc, hvisible⟩ := hprogress.visible hvisible
    by_cases htt : t = target
    · exact ⟨target, _, htarget, (hdeferred c (htt ▸ hc)).symm.trans hvisible⟩
    · by_cases hgone : t = s ∧ deferred = false
      · exact ⟨target, _, htarget, hgone.2⟩
      · exact ⟨t, c, by rw [hcopies, if_neg htt, if_neg hgone, hc], hvisible⟩

/-- Visiting a copy keeps a copy that is not deferred, and leaves one that is updated. -/
theorem Progress.step
    (hprogress : Progress opNum id new h₀ h ((s, id) :: rest)) (hnodup : (s, id) ∉ rest)
    (hnewer : ∀ copy, h.copy s id = some copy → opNum ≤ copy.version →
      copy.version = opNum ∧ copy.record = new)
    (hstep : PointStep opNum id s new h h') : Progress opNum id new h₀ h' rest := by
  cases hstep with
  | skip copy hcopy hle hcopies =>
    refine ⟨?_, ?_, ?_, .inr ⟨s, copy.deferred, ?_⟩⟩
    · simpa only [hcopies] using hprogress.copies
    · simpa only [hcopies] using fun t ht => hprogress.pending t (mem_cons_of_mem _ ht)
    · simpa only [Visible, hcopies] using hprogress.visible
    · obtain ⟨hversion, hrecord⟩ := hnewer copy hcopy hle
      rw [hcopies, hcopy, ← hversion, ← hrecord]
  | inPlace copy hcopy hold hcopies =>
    refine hprogress.write s copy.deferred hnodup (fun c hc => ?_) fun t => ?_
    · rw [hcopy] at hc
      cases hc
      rfl
    · rw [hcopies]
      by_cases ht : t = s <;> simp [ht]
  | moved copy target deferred hcopy hold hne hdeferred hcopies =>
    refine hprogress.write target deferred hnodup hdeferred fun t => ?_
    rw [hcopies]
    simp only [and_true]

/-- What an update leaves of the copies of a point. -/
structure Updated (opNum : SeqNumber) (id : PointId) (new : Record E) (h h' : SegmentHolder E) :
    Prop where
  copies : ∀ s, h'.copy s id = h.copy s id ∨ h'.copy s id = none ∨
    ∃ deferred, h'.copy s id = some { version := opNum, record := new, deferred }
  visible : h.Visible id → h'.Visible id
  done : ∃ s deferred, h'.copy s id = some { version := opNum, record := new, deferred }

/-- The latest copies of a point are updated to `new`, or are so already. -/
def Updates (update : PointUpdate E) (opNum : SeqNumber) (id : PointId) (new : Record E)
    (h : SegmentHolder E) : Prop :=
  ∀ s copy, h.copy s id = some copy → h.Latest id copy.version →
    copy.version < opNum ∧ update.Applies h.targetConfigs opNum id copy.record new ∨
      copy.version = opNum ∧ copy.record = new

theorem copy_cases (hcopies : h'.copy s id = h.copy s id ∨ h'.copy s id = none ∨
      ∃ deferred, h'.copy s id = some { version := opNum, record := new, deferred })
    (hcopy : h'.copy s id = some copy) :
    h.copy s id = some copy ∨ copy.version = opNum ∧ copy.record = new := by
  rcases hcopies with hsame | hnone | ⟨deferred, hupdated⟩
  · exact .inl (hsame.symm.trans hcopy)
  · rw [hcopy] at hnone
    cases hnone
  · rw [hcopy] at hupdated
    cases hupdated
    exact .inr ⟨rfl, rfl⟩

theorem exists_latest (hcopy : h.copy s id = some copy) :
    ∃ t latest, h.copy t id = some latest ∧ h.Latest id latest.version := by
  obtain ⟨o, ho, hversion⟩ :=
    exists_latestVersion (mem_occurrences_of_copy (mem_singleton_self id) hcopy)
  obtain ⟨-, latest, hcopy, hcopyVersion, -⟩ := mem_occurrences.mp ho
  exact ⟨o.segmentId, latest, hcopy, hcopyVersion ▸ (eq_latestVersion ho).mp hversion⟩

/-- Deleting the outdated copies of points is the first part of an update. -/
theorem progress_deleted (opNum : SeqNumber) (new : Record E) (hid : id ∈ ids)
    (hcopy : h.copy s id = some copy) (hcopies : ∀ s id, h'.copy s id =
      if (s, id) ∈ h.pointsToDelete c ids then none else h.copy s id) :
    Progress opNum id new h h' (h.pointsToUpdate c ids) := by
  have hkept : ∀ t latest, h.copy t id = some latest → h.Latest id latest.version →
      h'.copy t id = some latest := by
    intro t latest hlatestCopy hlatest
    rw [hcopies, if_neg, hlatestCopy]
    intro hdeleted
    obtain ⟨-, old, hold, -, t', latest', hcopy', -, -, hlt⟩ := mem_pointsToDelete.mp hdeleted
    rw [hlatestCopy] at hold
    cases hold
    exact absurd (hlatest t' latest' hcopy') (not_le.mpr hlt)
  refine ⟨fun t => ?_, fun t ht => ?_, ?_, ?_⟩
  · rw [hcopies]
    split
    · exact .inr (.inl rfl)
    · exact .inl rfl
  · obtain ⟨-, latest, hlatestCopy, hlatest⟩ := mem_pointsToUpdate.mp ht
    exact ⟨latest, hkept t latest hlatestCopy hlatest⟩
  · rintro ⟨t, visible, hvisibleCopy, hdeferred⟩
    by_cases hdeleted : (t, id) ∈ h.pointsToDelete c ids
    · obtain ⟨-, -, -, -, t', latest, hlatestCopy, hlatest, hlatestDeferred, -⟩ :=
        mem_pointsToDelete.mp hdeleted
      exact ⟨t', latest, hkept t' latest hlatestCopy hlatest, hlatestDeferred⟩
    · exact ⟨t, visible, (hcopies t id).trans ((if_neg hdeleted).trans hvisibleCopy), hdeferred⟩
  · obtain ⟨t, latest, hlatestCopy, hlatest⟩ := exists_latest hcopy
    exact .inl ⟨t, mem_pointsToUpdate.mpr ⟨hid, latest, hlatestCopy, hlatest⟩⟩

/-! ## All points of an update -/

/-- What holds between two visits. `targets` are all copies to visit and `rest` those that are
left. -/
structure Visiting (opNum : SeqNumber) (new : PointId → Record E)
    (targets : List (SegmentId × PointId)) (h₀ : SegmentHolder E)
    (rest : List (SegmentId × PointId)) (applied : Finset PointId) (h : SegmentHolder E) : Prop where
  subset : rest ⊆ targets
  nodup : rest.Nodup
  shape : SameShape h h₀
  healthy : h₀.Healthy → h.Healthy
  applied : ∀ id, (id ∈ applied ∨ ∃ s, (s, id) ∈ rest) ↔ ∃ s, (s, id) ∈ targets
  progress : ∀ id s, (s, id) ∈ targets → Progress opNum id (new id) h₀ h rest
  others : ∀ id, (∀ s, (s, id) ∉ targets) → ∀ s, h.copy s id = h₀.copy s id

variable {new : PointId → Record E}

theorem Visiting.step {targets : List (SegmentId × PointId)}
    (hvisiting : Visiting opNum new targets h₀ ((s, id) :: rest) applied h)
    (hnewer : ∀ copy, h.copy s id = some copy → opNum ≤ copy.version →
      copy.version = opNum ∧ copy.record = new id)
    (hshape : SameShape h' h) (hhealthy : h.Healthy → h'.Healthy)
    (hstep : PointStep opNum id s (new id) h h') :
    Visiting opNum new targets h₀ rest (insert id applied) h' := by
  obtain ⟨hmem, hsubset⟩ := cons_subset.mp hvisiting.subset
  obtain ⟨hfresh, hnodup⟩ := nodup_cons.mp hvisiting.nodup
  refine ⟨hsubset, hnodup, hshape.trans hvisiting.shape, hhealthy ∘ hvisiting.healthy,
    fun id' => ?_, fun id' s' hs' => ?_, fun id' hother t => ?_⟩
  · rw [← hvisiting.applied id', Finset.mem_insert]
    constructor
    · rintro ((rfl | happlied) | ⟨t, ht⟩)
      · exact .inr ⟨s, mem_cons_self⟩
      · exact .inl happlied
      · exact .inr ⟨t, mem_cons_of_mem _ ht⟩
    · rintro (happlied | ⟨t, ht⟩)
      · exact .inl (.inr happlied)
      · rcases mem_cons.mp ht with heq | ht
        · exact .inl (.inl (Prod.mk.inj heq).2)
        · exact .inr ⟨t, ht⟩
  · by_cases hid : id' = id
    · subst hid
      exact (hvisiting.progress id' s' hs').step hfresh hnewer hstep
    · refine (hvisiting.progress id' s' hs').congr (hstep.copy_of_ne hid) fun t => ?_
      rw [mem_cons, or_iff_right fun heq => hid (Prod.mk.inj heq).2]
  · have hid : id' ≠ id := by
      rintro rfl
      exact hother s hmem
    rw [hstep.copy_of_ne hid, hvisiting.others id' hother]

/-- The whole update: the points that were found are updated, all others stay as they are. -/
theorem wp_applyPointsWithConditionalMove (hids : ids.Nodup)
    (hupdates : ∀ id ∈ ids, Updates update opNum id (new id) h)
    (hR : (∀ e h, R e h) ∨ h.Healthy ∧ h.appendableSegmentsIds ≠ [] ∧
      ∀ id ∈ ids, ∀ s copy, h.copy s id = some copy → h.Latest id copy.version →
        copy.version < opNum → update.Succeeds h.targetConfigs opNum id copy.record) :
    wp (applyPointsWithConditionalMove c opNum ids update) (fun applied h' =>
      SameShape h' h ∧ (h.Healthy → h'.Healthy) ∧
      (∀ id, id ∈ applied ↔ id ∈ ids ∧ ∃ s copy, h.copy s id = some copy) ∧
      (∀ id ∈ applied, Updated opNum id (new id) h h') ∧
      ∀ id ∉ applied, ∀ s, h'.copy s id = h.copy s id) R h := by
  unfold applyPointsWithConditionalMove applyPoints
  simp only [wp_bind, wp_get]
  have htarget : ∀ id, (∃ s, (s, id) ∈ h.pointsToUpdate c ids) ↔
      id ∈ ids ∧ ∃ s copy, h.copy s id = some copy := by
    intro id
    constructor
    · rintro ⟨s, hs⟩
      obtain ⟨hid, copy, hcopy, -⟩ := mem_pointsToUpdate.mp hs
      exact ⟨hid, s, copy, hcopy⟩
    · rintro ⟨hid, s, copy, hcopy⟩
      obtain ⟨t, latest, hlatestCopy, hlatest⟩ := exists_latest hcopy
      exact ⟨t, mem_pointsToUpdate.mpr ⟨hid, latest, hlatestCopy, hlatest⟩⟩
  apply wp_conseq (wp_deletePointsFromSegments _ (hR.imp_right fun hR => hR.1))
  rintro - h₁ ⟨hshape₁, hhealthy₁, -, hcopies₁⟩
  -- nothing is visited yet
  have hstart : Visiting opNum new (h.pointsToUpdate c ids) h (h.pointsToUpdate c ids) ∅ h₁ := by
    refine ⟨List.Subset.refl _, nodup_selectPoints hids, hshape₁, hhealthy₁, fun id => by simp,
      fun id s hs => ?_, fun id hnone s => ?_⟩
    · obtain ⟨hid, s, copy, hcopy⟩ := (htarget id).mp ⟨s, hs⟩
      exact progress_deleted opNum (new id) hid hcopy hcopies₁
    · rw [hcopies₁, if_neg]
      intro hdeleted
      obtain ⟨hid, copy, hcopy, -⟩ := mem_pointsToDelete.mp hdeleted
      obtain ⟨t, ht⟩ := (htarget id).mpr ⟨hid, s, copy, hcopy⟩
      exact hnone t ht
  refine wp_conseq (wp_foldlM (fun rest acc => Visiting opNum new (h.pointsToUpdate c ids) h rest acc.2)
    ?_ _ hstart) ?_
  · rintro ⟨s, id⟩ rest ⟨count, applied⟩ h₂ hvisiting
    have hs := hvisiting.subset mem_cons_self
    obtain ⟨hid, latest, hlatestCopy, hlatest⟩ := mem_pointsToUpdate.mp hs
    have hprogress := hvisiting.progress id s hs
    obtain ⟨copy, hcopy⟩ := hprogress.pending s mem_cons_self
    have hversion := hupdates id hid s latest hlatestCopy hlatest
    -- the copy is as it was, or it was updated by an earlier move into its segment
    have hcases : copy = latest ∨ copy.version = opNum ∧ copy.record = new id :=
      (copy_cases (hprogress.copies s) hcopy).imp_left fun hsame =>
        Option.some.inj (hsame.symm.trans hlatestCopy)
    have hunchanged : copy.version < opNum → copy = latest := fun hold =>
      hcases.resolve_right fun hupdated => Nat.ne_of_lt hold hupdated.1
    have hlatest₂ : h₂.Latest id opNum := by
      intro t c hc
      rcases copy_cases (hprogress.copies t) hc with hsame | ⟨hupdated, -⟩
      · have hle := hlatest t c hsame
        rcases hversion with ⟨hlt, -⟩ | ⟨heq, -⟩
        · exact hle.trans hlt.le
        · exact hle.trans heq.le
      · exact hupdated.le
    rw [wp_bind]
    refine wp_conseq (wp_updatePoint (new id) hcopy hlatest₂ hvisiting.shape.exists_target ?_ (hR.imp_right
      fun hR => ⟨hvisiting.healthy hR.1, hR.2.1, fun hold => ?_⟩)) ?_
    · intro hold
      rw [hvisiting.shape.targetConfigs, hunchanged hold]
      rcases hversion with ⟨-, happlies⟩ | ⟨heq, -⟩
      · exact happlies
      · rw [hunchanged hold, heq] at hold
        exact absurd hold (Nat.lt_irrefl _)
    · rw [hvisiting.shape.targetConfigs, hunchanged hold]
      exact hR.2.2 id hid s latest hlatestCopy hlatest (hunchanged hold ▸ hold)
    · rintro ⟨b, applied'⟩ h₃ ⟨happlied, hshape, hhealthy, hstep⟩
      cases happlied
      refine hvisiting.step (fun copy' hcopy' hle => ?_) hshape hhealthy hstep
      rw [hcopy] at hcopy'
      cases hcopy'
      rcases hcases with heq | hupdated
      · subst heq
        rcases hversion with ⟨hlt, -⟩ | hdone
        · exact absurd hle (not_le.mpr hlt)
        · exact hdone
      · exact hupdated
  · rintro ⟨count, applied⟩ h₂ hvisiting
    have happlied : ∀ id, id ∈ applied ↔ ∃ s, (s, id) ∈ h.pointsToUpdate c ids := fun id => by
      simpa using hvisiting.applied id
    refine ⟨hvisiting.shape, hvisiting.healthy, fun id => (happlied id).trans (htarget id),
      fun id hid => ?_, fun id hid => hvisiting.others id fun s hs => hid ((happlied id).mpr ⟨s, hs⟩)⟩
    obtain ⟨s, hs⟩ := (happlied id).mp hid
    obtain ⟨hcopies, -, hvisible, hdone⟩ := hvisiting.progress id s hs
    exact ⟨hcopies, hvisible, hdone.resolve_left fun ⟨_, hmem⟩ => not_mem_nil hmem⟩

/-- If the latest copies are not older than the operation, only outdated copies are deleted. -/
theorem wp_applyPointsWithConditionalMove_of_le
    (hdone : ∀ id ∈ ids, ∀ s copy, h.copy s id = some copy → h.Latest id copy.version →
      opNum ≤ copy.version)
    (hR : (∀ e h, R e h) ∨ h.Healthy) :
    wp (applyPointsWithConditionalMove c opNum ids update) (fun _ h' =>
      ∀ s id, h'.copy s id =
        if (s, id) ∈ h.pointsToDelete c ids then none else h.copy s id) R h := by
  unfold applyPointsWithConditionalMove applyPoints
  simp only [wp_bind, wp_get]
  apply wp_conseq (wp_deletePointsFromSegments _ hR)
  rintro - h₁ ⟨-, -, -, hcopies₁⟩
  refine wp_conseq (wp_foldlM (fun rest (_ : Nat × Finset PointId) h₂ =>
    rest ⊆ h.pointsToUpdate c ids ∧ h₂ = h₁) ?_ _ ⟨List.Subset.refl _, rfl⟩) ?_
  · rintro ⟨s, id⟩ rest ⟨count, applied⟩ h₂ ⟨hsubset, rfl⟩
    obtain ⟨hs, hsubset⟩ := cons_subset.mp hsubset
    obtain ⟨hid, latest, hlatestCopy, hlatest⟩ := mem_pointsToUpdate.mp hs
    obtain ⟨copy, hcopy⟩ := (progress_deleted opNum latest.record hid hlatestCopy
      hcopies₁).pending s hs
    have hsame : copy = latest := by
      rw [hcopies₁] at hcopy
      split at hcopy
      · cases hcopy
      · rw [hlatestCopy] at hcopy
        exact (Option.some.inj hcopy).symm
    apply wp_seq (wp_updatePoint_of_le hcopy (hsame ▸ hdone id hid s latest hlatestCopy hlatest))
    rintro ⟨b, applied'⟩ h₃ ⟨-, rfl⟩
    exact ⟨hsubset, rfl⟩
  · rintro ⟨count, applied⟩ h₂ ⟨-, rfl⟩
    exact hcopies₁

end SegmentHolder

end Qdrant
