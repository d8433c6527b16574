-- SUMMARY: The pointers of one point across the tracker file, its pending updates and the copies that flushers hold.
import Qdrant.Gridstore.Tracker

/-!
# The pointers of a point

For one point there are the pointer in the tracker file, the updates that are pending for
it, and the copies of these updates that outstanding flushers have taken, the oldest first.
Each of them shows a value of the point at some time: the file that of the last flusher that
was run, a copy that of the moment at which it was taken, the pending updates the current
one. `Slot.chain` lists the pointers to these values in order of time.

`Slot.Consistent` says how they hang together. A pointer that leaves the chain does not come
back (`convex`), since blocks are not given away as long as something refers to them; all
pointers of the chain and all pointers that wait to be freed are owned by the point. The
operations of the tracker keep this, the flush under a condition: the flusher must not
free what another one has freed since, and must not store the pointer that is stored
already.
-/

namespace Qdrant.Gridstore

open List Tracker

/-- The copy of a point's updates that a flusher holds, and the pointers of the point that
other flushers have freed since it was taken. -/
structure Capture where
  updates : Option PointerUpdates
  freed : List ValuePointer

structure Slot where
  raw : Option ValuePointer
  pending : Option PointerUpdates
  captures : List Capture

/-- The pointers that wait to be freed. -/
def waiting : Option PointerUpdates → List ValuePointer
  | none => []
  | some u => u.toFree

/-- A sublist of a list with one more element ends before that element or with it. -/
theorem concat_sublist {α : Type} (xs : List α) {l : List α} {a x : α} (h : (xs ++ [a]).Sublist (l ++ [x])) :
    (xs ++ [a]).Sublist l ∨ (xs.Sublist l ∧ a = x) := by
  obtain ⟨l₁, l₂, heq, hl₁, hl₂⟩ := sublist_append_iff.mp h
  rcases sublist_singleton.mp hl₂ with rfl | rfl
  · rw [append_nil] at heq
    exact .inl (heq ▸ hl₁)
  · obtain ⟨hxs, hlast⟩ := append_inj' heq rfl
    exact .inr ⟨hxs ▸ hl₁, (List.cons.inj hlast).1⟩

namespace Slot

/-- The pointer that readers see. -/
def live (s : Slot) : Option ValuePointer := seen s.raw s.pending

/-- The file and the copies. The file is a copy without updates. -/
def all (s : Slot) : List Capture := ⟨none, []⟩ :: s.captures

/-- What the point looks like at each time that something remembers. -/
def chain (s : Slot) : List (Option ValuePointer) :=
  s.all.map (fun c => seen s.raw c.updates) ++ [s.live]

/-- The point refers to these blocks. -/
def Owned (s : Slot) (p : ValuePointer) : Prop :=
  s.raw = some p ∨ s.live = some p ∨ p ∈ waiting s.pending

structure Consistent (s : Slot) : Prop where
  pending_ne : ∀ u, s.pending = some u → u.isEmpty = false
  captured_ne : ∀ c ∈ s.captures, ∀ u, c.updates = some u → u.isEmpty = false
  live_not_waiting : ∀ p, s.live = some p → p ∉ waiting s.pending
  raw_ne_current : ∀ u p, s.pending = some u → u.current = some p → s.raw ≠ some p
  /-- A pointer that has been left does not come back. -/
  convex : ∀ p q, [some p, q, some p].Sublist s.chain → q = some p
  owned : ∀ c ∈ s.captures, ∀ p, seen s.raw c.updates = some p → s.Owned p
  /-- What a flusher is going to free has been freed or still waits for it. -/
  waits : ∀ c ∈ s.captures, ∀ f ∈ waiting c.updates, f ∈ c.freed ∨ f ∈ waiting s.pending
  not_shown : ∀ c ∈ s.captures, ∀ f ∈ waiting c.updates, f ∉ c.freed →
    seen s.raw c.updates ≠ some f ∧ s.live ≠ some f
  not_shown_later : ∀ c d, [c, d].Sublist s.all → ∀ f ∈ waiting c.updates, f ∉ c.freed →
    seen s.raw d.updates ≠ some f
  /-- A pointer of an older copy that waits to be freed is known to every newer copy. -/
  known_later : ∀ c d, [c, d].Sublist s.all → ∀ p, seen s.raw c.updates = some p →
    p ∈ waiting s.pending → seen s.raw d.updates = some p ∨ p ∈ waiting d.updates
  raw_earlier : ∀ c d, [c, d].Sublist s.all → d.updates = none → seen s.raw c.updates = s.raw
  raw_of_none : s.pending = none → ∀ c ∈ s.captures, seen s.raw c.updates = s.raw
  unchanged : ∀ c ∈ s.captures, ∀ u p, c.updates = some u → u.current = some p → s.live = some p →
    waiting s.pending = u.toFree.filter fun f => !c.freed.contains f

variable {s : Slot}

theorem mem_all {c : Capture} (h : c ∈ s.captures) : [⟨none, []⟩, c].Sublist s.all :=
  (singleton_sublist.mpr h).cons_cons _

variable {p : ValuePointer}

theorem Consistent.convex_live (h : s.Consistent) {c d : Capture} (hsub : [c, d].Sublist s.all)
    (hc : seen s.raw c.updates = some p) (hlive : s.live = some p) :
    seen s.raw d.updates = some p := by
  apply h.convex
  have : List.Sublist _ s.chain := (hsub.map _).append (List.Sublist.refl _)
  rwa [map_cons, map_cons, map_nil, hc, hlive] at this

/-- Every pointer of the chain is owned. -/
theorem Consistent.owned_of_mem_chain (h : s.Consistent) (hp : some p ∈ s.chain) : s.Owned p := by
  rcases mem_append.mp hp with hall | hlive
  · obtain ⟨c, hc, hseen⟩ := mem_map.mp hall
    rcases mem_cons.mp hc with rfl | hc
    · exact .inl hseen
    · exact h.owned c hc p hseen
  · rw [mem_singleton] at hlive
    exact .inr (.inl hlive.symm)

/-- A point of which only the file knows. -/
theorem consistent_raw (raw : Option ValuePointer) : (⟨raw, none, []⟩ : Slot).Consistent := by
  have hall : ∀ {c d : Capture}, ¬ [c, d].Sublist (⟨raw, none, []⟩ : Slot).all := by
    intro c d hsub
    have := hsub.length_le
    simp [all] at this
  refine ⟨nofun, nofun, nofun, nofun, ?_, nofun, nofun, nofun, fun c d h => absurd h hall,
    fun c d h => absurd h hall, fun c d h => absurd h hall, nofun, nofun⟩
  intro p q hsub
  have := hsub.length_le
  simp [chain, all] at this

/-! ## Changes in memory -/

/-- A change of the point in memory: the updates that are pending become these. -/
def update (s : Slot) (u : PointerUpdates) : Slot := { s with pending := some u }

/-- What `set` and `unset` have in common: a new current pointer, and the old one may be put
to those that are to be freed. -/
structure Supersedes (s : Slot) (u : PointerUpdates) (pushed : List ValuePointer) : Prop where
  toFree : u.toFree = waiting s.pending ++ pushed
  pushed_live : ∀ p ∈ pushed, s.live = some p
  pushes : ∀ v p, s.pending = some v → v.current = some p → p ∈ pushed
  fresh : ∀ p, u.current = some p → ¬ s.Owned p
  ne : u.isEmpty = false

variable {pushed : List ValuePointer} {u : PointerUpdates}

theorem Supersedes.owned_iff (h : s.Supersedes u pushed) :
    (s.update u).Owned p ↔ s.Owned p ∨ u.current = some p := by
  have hlive : (s.update u).live = u.current := rfl
  have hwaiting : waiting (s.update u).pending = waiting s.pending ++ pushed := h.toFree
  rw [Owned, hwaiting, mem_append]
  constructor
  · rintro (hraw | hcurrent | hwaits | hpushed)
    · exact .inl (.inl hraw)
    · exact .inr hcurrent
    · exact .inl (.inr (.inr hwaits))
    · exact .inl (.inr (.inl (h.pushed_live p hpushed)))
  · rintro ((hraw | hold | hwaits) | hcurrent)
    · exact .inl hraw
    · cases hpending : s.pending with
      | none =>
        rw [live, hpending] at hold
        exact .inl hold
      | some v =>
        rw [live, hpending] at hold
        exact .inr (.inr (.inr (h.pushes v p hpending hold)))
    · exact .inr (.inr (.inl hwaits))
    · exact .inr (.inl hcurrent)

theorem Consistent.update (h : s.Consistent)
    (hu : s.Supersedes u pushed) : (s.update u).Consistent := by
  have hwaiting : waiting (s.update u).pending = waiting s.pending ++ pushed := hu.toFree
  have hfresh : ∀ {p}, some p ∈ s.all.map (fun c => seen s.raw c.updates) → u.current ≠ some p :=
    fun hp hcurrent => hu.fresh _ hcurrent (h.owned_of_mem_chain (mem_append_left _ hp))
  refine ⟨?_, h.captured_ne, ?_, ?_, ?_, ?_, ?_, ?_, h.not_shown_later, ?_, h.raw_earlier, ?_, ?_⟩
  · rintro v ⟨⟩
    exact hu.ne
  · intro p hp hmem
    rw [hwaiting] at hmem
    rcases mem_append.mp hmem with hold | hpushed
    · exact hu.fresh p hp (.inr (.inr hold))
    · exact hu.fresh p hp (.inr (.inl (hu.pushed_live p hpushed)))
  · rintro v p ⟨⟩ hp hraw
    exact hu.fresh p hp (.inl hraw)
  · intro p q hsub
    -- The last of the three is the new pointer, or all three stand in the old chain.
    rcases concat_sublist [some p, q] hsub with hold | ⟨hinit, hlast⟩
    · exact h.convex p q (hold.trans (sublist_append_left _ _))
    · exact absurd hlast.symm (hfresh (hinit.subset mem_cons_self))
  · intro c hc p hp
    exact hu.owned_iff.mpr (.inl (h.owned c hc p hp))
  · intro c hc f hf
    rw [hwaiting, mem_append]
    exact (h.waits c hc f hf).imp id .inl
  · intro c hc f hf hnot
    refine ⟨(h.not_shown c hc f hf hnot).1, fun hcurrent => ?_⟩
    exact hu.fresh f hcurrent (.inr (.inr ((h.waits c hc f hf).resolve_left hnot)))
  · intro c d hsub p hp hmem
    rw [hwaiting] at hmem
    rcases mem_append.mp hmem with hold | hpushed
    · exact h.known_later c d hsub p hp hold
    · exact .inl (h.convex_live hsub hp (hu.pushed_live p hpushed))
  · rintro ⟨⟩
  · intro c hc v p hv hp hcurrent
    apply absurd hcurrent
    apply hfresh
    apply mem_map.mpr
    refine ⟨c, mem_cons_of_mem _ hc, ?_⟩
    rw [hv]
    exact hp

/-- `set` with a pointer that the point does not own. -/
theorem supersedes_set (hp : ¬ s.Owned p) :
    s.Supersedes ((s.pending.getD .empty).set p) (s.pending.bind (·.current)).toList := by
  have hset : (s.pending.getD .empty).set p =
      ⟨some p, waiting s.pending ++ (s.pending.bind (·.current)).toList⟩ := by
    cases hpending : s.pending with
    | none => rfl
    | some u =>
      have hne : u.current ≠ some p := fun heq => hp (.inr (.inl (by rwa [live, hpending])))
      rw [Option.getD_some, PointerUpdates.set, if_neg hne]
      cases hu : u.current <;> simp [waiting, hu]
  rw [hset]
  refine ⟨rfl, ?_, ?_, ?_, rfl⟩
  · intro q hq
    obtain ⟨u, hu, hq⟩ := Option.bind_eq_some_iff.mp (Option.mem_toList.mp hq)
    rwa [live, hu]
  · intro v q hv hq
    rwa [hv, Option.mem_toList]
  · rintro q ⟨⟩
    exact hp

/-- `unset` of the pointer that readers see. -/
theorem supersedes_unset (hp : s.live = some p) :
    s.Supersedes ((s.pending.getD .empty).unset p) [p] := by
  have hunset : (s.pending.getD .empty).unset p = ⟨none, waiting s.pending ++ [p]⟩ := by
    cases hpending : s.pending with
    | none => rfl
    | some u =>
      have hcurrent : u.current = some p := by
        rw [live, hpending] at hp
        exact hp
      rw [Option.getD_some, PointerUpdates.unset, hcurrent]
      simp [waiting]
  rw [hunset]
  refine ⟨rfl, ?_, ?_, ?_, ?_⟩
  · intro q hq
    rw [mem_singleton.mp hq]
    exact hp
  · intro v q hv hq
    rw [live, hv] at hp
    rw [mem_singleton]
    exact Option.some.inj (hq.symm.trans hp)
  · rintro q ⟨⟩
  · simp [PointerUpdates.isEmpty]

/-! ## Flushers -/

/-- A flusher is created: it takes a copy of the pending updates. -/
def capture (s : Slot) : Slot := { s with captures := s.captures ++ [⟨s.pending, []⟩] }

theorem Consistent.capture (h : s.Consistent) : s.capture.Consistent := by
  have hall : s.capture.all = s.all ++ [⟨s.pending, []⟩] := rfl
  have hchain : s.capture.chain = s.chain ++ [s.live] := by
    rw [chain, hall, map_append]
    rfl
  have hmem : ∀ {P : Capture → Prop}, (∀ c ∈ s.captures, P c) → P ⟨s.pending, []⟩ →
      ∀ c ∈ s.capture.captures, P c := fun hold hnew =>
    forall_mem_append.mpr ⟨hold, forall_mem_singleton.mpr hnew⟩
  -- A pair of copies is an old pair or ends with the new copy.
  have hpair : ∀ {P : Capture → Capture → Prop}, (∀ c d, [c, d].Sublist s.all → P c d) →
      P ⟨none, []⟩ ⟨s.pending, []⟩ → (∀ c ∈ s.captures, P c ⟨s.pending, []⟩) →
      ∀ c d, [c, d].Sublist s.capture.all → P c d := by
    intro P hold hfile hnew c d hsub
    rw [hall] at hsub
    rcases concat_sublist [c] hsub with hsub | ⟨hc, rfl⟩
    · exact hold c d hsub
    · rcases mem_cons.mp (singleton_sublist.mp hc) with rfl | hc
      · exact hfile
      · exact hnew c hc
  refine ⟨h.pending_ne, hmem h.captured_ne h.pending_ne, h.live_not_waiting, h.raw_ne_current, ?_,
    hmem h.owned fun p hp => .inr (.inl hp), hmem h.waits fun f hf => .inr hf,
    hmem h.not_shown fun f hf _ => ?_, hpair h.not_shown_later (fun f hf => nomatch hf) ?_,
    hpair h.known_later (fun p _ hwaits => .inr hwaits) fun c _ p _ hwaits => .inr hwaits,
    hpair h.raw_earlier (fun _ => rfl) fun c hc hnone => h.raw_of_none hnone c hc,
    fun hnone => hmem (h.raw_of_none hnone) ?_, hmem h.unchanged ?_⟩
  · intro p q hsub
    rw [hchain] at hsub
    rcases concat_sublist [some p, q] hsub with hold | ⟨hinit, hlast⟩
    · exact h.convex p q hold
    · rcases concat_sublist [some p] hinit with hearlier | ⟨_, hq⟩
      · exact h.convex p q (hearlier.append (hlast ▸ List.Sublist.refl _))
      · exact hq.trans hlast.symm
  · exact ⟨fun hp => h.live_not_waiting f hp hf, fun hp => h.live_not_waiting f hp hf⟩
  · exact fun c hc f hf hnot => (h.not_shown c hc f hf hnot).2
  · rw [show s.pending = none from hnone]
    rfl
  · intro u p hu hp hlive
    change waiting s.pending = _
    rw [show s.pending = some u from hu]
    simp [waiting]

/-- Some flushers are dropped. -/
theorem Consistent.drop (h : s.Consistent) {captures : List Capture}
    (hsub : captures.Sublist s.captures) : ({ s with captures } : Slot).Consistent := by
  have hall : ({ s with captures } : Slot).all.Sublist s.all := hsub.cons_cons _
  have hchain : ({ s with captures } : Slot).chain.Sublist s.chain :=
    (hall.map _).append (List.Sublist.refl _)
  exact ⟨h.pending_ne, fun c hc => h.captured_ne c (hsub.subset hc), h.live_not_waiting,
    h.raw_ne_current, fun p q hpq => h.convex p q (hpq.trans hchain),
    fun c hc => h.owned c (hsub.subset hc), fun c hc => h.waits c (hsub.subset hc),
    fun c hc => h.not_shown c (hsub.subset hc),
    fun c d hcd => h.not_shown_later c d (hcd.trans hall),
    fun c d hcd => h.known_later c d (hcd.trans hall),
    fun c d hcd => h.raw_earlier c d (hcd.trans hall),
    fun hnone c hc => h.raw_of_none hnone c (hsub.subset hc),
    fun c hc => h.unchanged c (hsub.subset hc)⟩

/-- The pointers that a flusher with this copy frees. -/
def freedBy (raw : Option ValuePointer) : Option PointerUpdates → List ValuePointer
  | none => []
  | some u => u.freed raw

/-- The oldest flusher is run. -/
def flush (s : Slot) (c : Capture) (captures : List Capture) : Slot where
  raw := seen s.raw c.updates
  pending := afterFlush c.updates s.pending
  captures := captures.map fun d => { d with freed := d.freed ++ freedBy s.raw c.updates }

/-- The condition on the flusher: it frees nothing that has been freed since it was created,
and the pointer that it stores is not in the file yet. -/
def Flushable (s : Slot) (c : Capture) : Prop :=
  (∀ f ∈ waiting c.updates, f ∉ c.freed) ∧
    ∀ u p, c.updates = some u → u.current = some p → s.raw ≠ some p

/-- What the flush leaves of the pending updates. -/
structure Flushed (s : Slot) (u : PointerUpdates) (pending : Option PointerUpdates) : Prop where
  waiting_eq : waiting pending = (waiting s.pending).filter fun f => !u.toFree.contains f
  live_eq : seen u.current pending = s.live
  pending_ne : ∀ v, pending = some v → v.isEmpty = false
  current_ne : ∀ v p, pending = some v → v.current = some p → u.current ≠ some p

section Flush

variable {c : Capture} {cs : List Capture} {u : PointerUpdates} {freed : List ValuePointer}

theorem Consistent.flushed (h : s.Consistent) (hc : ⟨some u, freed⟩ ∈ s.captures)
    (hflush : s.Flushable ⟨some u, freed⟩) : s.Flushed u (drained u s.pending) := by
  obtain ⟨hfree, hraw⟩ := hflush
  have hwaits : ∀ f ∈ u.toFree, f ∈ waiting s.pending := fun f hf =>
    (h.waits _ hc f hf).resolve_left (hfree f hf)
  cases hpending : s.pending with
  | none =>
    -- The point has nothing pending, so the flusher has nothing to do.
    rw [hpending] at hwaits
    have hcurrent : u.current = s.raw := h.raw_of_none hpending _ hc
    have hne := h.captured_ne _ hc u rfl
    rw [← Bool.not_eq_true, PointerUpdates.isEmpty_iff] at hne
    refine absurd ⟨?_, eq_nil_iff_forall_not_mem.mpr fun f hf => not_mem_nil (hwaits f hf)⟩ hne
    apply Option.eq_none_iff_forall_ne_some.mpr
    intro p hp
    exact hraw u p rfl hp (hcurrent ▸ hp)
  | some v =>
    have hlive : s.live = v.current := by rw [live, hpending]; rfl
    have hold : waiting s.pending = v.toFree := by rw [hpending]; rfl
    by_cases hvu : v = u
    · have hdrained : drained u (some v) = none := by
        rw [drained, PointerUpdates.drainPersisted, if_pos hvu]
        rfl
      rw [hdrained]
      refine ⟨?_, ?_, by simp, by simp⟩
      · rw [hold, hvu]
        symm
        apply filter_eq_nil_iff.mpr
        intro f hf
        simpa using hf
      · rw [hlive, hvu]
        rfl
    · have hcurrent : ∀ p, v.current = some p → u.current ≠ some p := by
        intro p hp hup
        apply hvu
        have hsame := h.unchanged _ hc u p rfl hup (hlive.trans hp)
        rw [hold] at hsame
        cases v
        cases u
        simp_all
      have hdrain : v.drainPersisted u =
          ⟨v.current, v.toFree.filter fun f => !u.toFree.contains f⟩ := by
        rw [PointerUpdates.drainPersisted, if_neg hvu]
        congr 1
        cases hv : v.current with
        | none => rfl
        | some p =>
          simpa using fun heq => hcurrent p hv heq.symm
      rw [drained, hdrain]
      split
      case isTrue hempty =>
        rw [PointerUpdates.isEmpty_iff] at hempty
        obtain ⟨hnone, hnil⟩ := hempty
        dsimp only at hnone hnil
        refine ⟨by rw [hold, hnil]; rfl, ?_, by simp, by simp⟩
        rw [hlive, hnone]
        apply Option.eq_none_iff_forall_ne_some.mpr
        intro p hp
        rcases h.owned _ hc p hp with hr | hl | hw
        · exact hraw u p rfl hp hr
        · rw [hlive, hnone] at hl
          cases hl
        · have hin : p ∈ u.toFree := by
            rw [hold] at hw
            have := filter_eq_nil_iff.mp hnil p hw
            simpa using this
          exact (h.not_shown _ hc p hin (hfree p hin)).1 hp
      case isFalse hne =>
        refine ⟨by rw [hold]; rfl, hlive.symm, ?_, ?_⟩
        · rintro w ⟨⟩
          simpa using hne
        · rintro w p ⟨⟩ hp
          exact hcurrent p hp

/-- Readers see no difference. -/
theorem Consistent.live_flush (h : s.Consistent) (hc : c ∈ s.captures) (hflush : s.Flushable c) :
    (s.flush c cs).live = s.live := by
  obtain ⟨_ | u, freed⟩ := c
  · rfl
  · exact (h.flushed hc hflush).live_eq

/-- What the other copies show does not change. -/
theorem Consistent.seen_flush (h : s.Consistent) (hcaptures : s.captures = c :: cs) :
    ∀ d ∈ cs, seen (seen s.raw c.updates) d.updates = seen s.raw d.updates := by
  intro d hd
  cases hd' : d.updates with
  | none =>
    have hsub : [c, d].Sublist s.all := by
      rw [all, hcaptures]
      exact ((singleton_sublist.mpr hd).cons_cons c).cons _
    exact h.raw_earlier c d hsub hd'
  | some v => rfl

/-- What the flusher has freed is no longer owned, and what is owned after it was owned
before it. -/
structure Frees (s t : Slot) (u : PointerUpdates) : Prop where
  owned : ∀ p, t.Owned p → s.Owned p
  freed_owned : ∀ p ∈ u.freed s.raw, s.Owned p
  freed_not_owned : ∀ p ∈ u.freed s.raw, ¬ t.Owned p
  /-- All that gets lost is the pointer in the file, if the point has been deleted. -/
  lost : ∀ p, s.Owned p → ¬ t.Owned p → p ∈ u.freed s.raw ∨ (u.current = none ∧ s.raw = some p)

variable {p : ValuePointer}

theorem mem_freed {raw : Option ValuePointer} :
    p ∈ u.freed raw ↔ (u.current.isSome ∧ raw = some p) ∨ p ∈ u.toFree := by
  rw [PointerUpdates.freed]
  split
  case isTrue hsome => simp [hsome]
  case isFalse hnone => simp [hnone]

section

variable (h : s.Consistent) (hcaptures : s.captures = ⟨some u, freed⟩ :: cs)
  (hflush : s.Flushable ⟨some u, freed⟩)

include h hcaptures hflush

/-- The pointer in the file is not the one that the flusher stores, so nothing that is younger
shows it. The flusher frees it if it waits. -/
theorem Consistent.raw_not_later (hp : s.raw = some p) : s.live ≠ some p ∧
    (∀ d ∈ cs, seen s.raw d.updates ≠ some p) ∧ (p ∈ waiting s.pending → p ∈ u.toFree) := by
  have hc : ⟨some u, freed⟩ ∈ s.captures := hcaptures ▸ mem_cons_self
  have hne : u.current ≠ some p := fun hseen => hflush.2 u p rfl hseen hp
  refine ⟨fun hlive => hne (h.convex_live (mem_all hc) hp hlive), fun d hd hseen => hne ?_,
    fun hwaits => (h.known_later _ _ (mem_all hc) p hp hwaits).resolve_left hne⟩
  have hsub : [⟨none, []⟩, ⟨some u, freed⟩, d].Sublist s.all := by
    rw [all, hcaptures]
    exact ((singleton_sublist.mpr hd).cons_cons _).cons_cons _
  have hchain : List.Sublist _ s.chain := (hsub.map _).trans (sublist_append_left _ _)
  rw [map_cons, map_cons, map_cons, hseen, show seen s.raw none = some p from hp] at hchain
  exact h.convex _ _ hchain

theorem Consistent.frees : s.Frees (s.flush ⟨some u, freed⟩ cs) u := by
  have hc : ⟨some u, freed⟩ ∈ s.captures := hcaptures ▸ mem_cons_self
  have hflushed := h.flushed hc hflush
  have howned : ∀ p, (s.flush ⟨some u, freed⟩ cs).Owned p ↔ u.current = some p ∨ s.live = some p ∨
      (p ∈ waiting s.pending ∧ p ∉ u.toFree) := by
    intro p
    change u.current = some p ∨ seen u.current (drained u s.pending) = some p ∨
      p ∈ waiting (drained u s.pending) ↔ _
    rw [hflushed.live_eq, hflushed.waiting_eq]
    simp
  refine ⟨?_, ?_, ?_, ?_⟩
  · intro p hp
    rcases (howned p).mp hp with hcurrent | hlive | ⟨hwaits, _⟩
    · exact h.owned _ hc p hcurrent
    · exact .inr (.inl hlive)
    · exact .inr (.inr hwaits)
  · intro p hp
    rcases mem_freed.mp hp with ⟨_, hraw⟩ | htoFree
    · exact .inl hraw
    · exact .inr (.inr ((h.waits _ hc p htoFree).resolve_left (hflush.1 p htoFree)))
  · intro p hp hown
    rcases mem_freed.mp hp with ⟨_, hraw⟩ | htoFree
    · obtain ⟨hnotlive, -, hfree⟩ := h.raw_not_later hcaptures hflush hraw
      rcases (howned p).mp hown with hcurrent | hlive | ⟨hwaits, hnot⟩
      · exact hflush.2 u p rfl hcurrent hraw
      · exact hnotlive hlive
      · exact hnot (hfree hwaits)
    · have hshown := h.not_shown _ hc p htoFree (hflush.1 p htoFree)
      rcases (howned p).mp hown with hcurrent | hlive | ⟨_, hnot⟩
      · exact hshown.1 hcurrent
      · exact hshown.2 hlive
      · exact hnot htoFree
  · intro p hp hnot
    rw [howned, not_or, not_or] at hnot
    rcases hp with hraw | hlive | hwaits
    · cases hcurrent : u.current with
      | none => exact .inr ⟨rfl, hraw⟩
      | some q => exact .inl (mem_freed.mpr (.inl ⟨by rw [hcurrent]; rfl, hraw⟩))
    · exact absurd hlive hnot.2.1
    · refine .inl (mem_freed.mpr (.inr ?_))
      by_contra hnotfree
      exact hnot.2.2 ⟨hwaits, hnotfree⟩

end

/-- A flusher that holds nothing of the point changes nothing for it. -/
theorem flush_of_none : s.flush ⟨none, freed⟩ cs = { s with captures := cs } := by
  simp [flush, seen, afterFlush, freedBy]

section

variable (h : s.Consistent) (hcaptures : s.captures = c :: cs) (hflush : s.Flushable c)

include h hcaptures hflush

theorem Consistent.owned_flush (hp : (s.flush c cs).Owned p) : s.Owned p := by
  obtain ⟨_ | u, freed⟩ := c
  · exact hp
  · exact (h.frees hcaptures hflush).owned p hp

theorem Consistent.freedBy_owned (hp : p ∈ freedBy s.raw c.updates) :
    s.Owned p ∧ ¬ (s.flush c cs).Owned p := by
  obtain ⟨_ | u, freed⟩ := c
  · cases hp
  · have hfrees := h.frees hcaptures hflush
    exact ⟨hfrees.freed_owned p hp, hfrees.freed_not_owned p hp⟩

theorem Consistent.flush : (s.flush c cs).Consistent := by
  obtain ⟨_ | u, freed⟩ := c
  · rw [flush_of_none]
    apply h.drop
    rw [hcaptures]
    exact sublist_cons_self _ cs
  have hc : ⟨some u, freed⟩ ∈ s.captures := hcaptures ▸ mem_cons_self
  have hcs : ∀ {d}, d ∈ cs → d ∈ s.captures := fun hd => hcaptures ▸ mem_cons_of_mem _ hd
  have hflushed := h.flushed hc hflush
  have hfrees := h.frees hcaptures hflush
  have hall : s.all = ⟨none, []⟩ :: ⟨some u, freed⟩ :: cs := by rw [all, hcaptures]
  have hlive : (s.flush _ cs).live = _ := h.live_flush hc hflush
  have hafter : ∀ {d}, d ∈ cs → [⟨some u, freed⟩, d].Sublist s.all := by
    intro d hd
    rw [hall]
    exact ((singleton_sublist.mpr hd).cons_cons _).cons _
  have hshown : ∀ {d p}, d ∈ cs → seen s.raw d.updates = some p → s.raw ≠ some p ∧ p ∉ u.toFree := by
    intro d p hd hp
    refine ⟨fun hraw => (h.raw_not_later hcaptures hflush hraw).2.1 d hd hp, fun hin => ?_⟩
    exact h.not_shown_later _ d (hafter hd) p hin (hflush.1 p hin) hp
  have hsame : ∀ d ∈ cs, seen u.current d.updates = seen s.raw d.updates := h.seen_flush hcaptures
  have hwaits : ∀ {f}, f ∈ waiting (drained u s.pending) → f ∈ waiting s.pending := by
    intro f hf
    rw [hflushed.waiting_eq] at hf
    exact (mem_filter.mp hf).1
  -- A pair of copies that are left, or the file and a copy. The file stands for the flusher.
  have hpair : ∀ {d e}, [d, e].Sublist (s.flush ⟨some u, freed⟩ cs).all →
      ∃ d' e', [d', e'].Sublist s.all ∧ e' ∈ cs ∧ e.updates = e'.updates ∧
        seen u.current d.updates = seen s.raw d'.updates ∧
        ∀ f ∈ waiting d.updates, f ∉ d.freed → f ∈ waiting d'.updates ∧ f ∉ d'.freed := by
    intro d e hsub
    rcases sublist_cons_iff.mp hsub with hrest | ⟨r, heq, hr⟩
    · obtain ⟨l, hl, heq⟩ := sublist_map_iff.mp hrest
      match l, heq, hl with
      | [d', e'], heq, hl =>
        obtain ⟨rfl, rfl, _⟩ := heq
        exact ⟨d', e', hall ▸ (hl.cons _).cons _, hl.subset (by simp), rfl, hsame d' (hl.subset (by simp)),
          fun f hf hnot => ⟨hf, fun hin => hnot (mem_append_left _ hin)⟩⟩
    · obtain ⟨rfl, rfl⟩ := heq
      obtain ⟨e', he', rfl⟩ := mem_map.mp (singleton_sublist.mp hr)
      exact ⟨_, e', hafter he', he', rfl, rfl, fun f hf => nomatch hf⟩
  refine ⟨hflushed.pending_ne, forall_mem_map.mpr fun e he => h.captured_ne e (hcs he),
    fun p hp hf => h.live_not_waiting p (hlive ▸ hp) (hwaits hf), hflushed.current_ne, ?_,
    forall_mem_map.mpr ?_, forall_mem_map.mpr ?_, forall_mem_map.mpr ?_, ?_, ?_, ?_,
    fun hnone => forall_mem_map.mpr ?_, forall_mem_map.mpr ?_⟩
  · intro p q hpq
    apply h.convex p q (hpq.trans _)
    rw [chain, chain, hlive, hall, all]
    apply List.Sublist.append _ (List.Sublist.refl _)
    rw [map_cons, Slot.flush, map_map]
    apply List.Sublist.cons
    apply List.Sublist.cons_cons
    exact (map_congr_left hsame : cs.map (fun d => seen u.current d.updates) = _) ▸
      List.Sublist.refl _
  · intro e he p hp
    replace hp := (hsame e he).symm.trans hp
    by_contra hnot
    rcases hfrees.lost p (h.owned e (hcs he) p hp) hnot with hfreed | ⟨_, hrawp⟩
    · exact (mem_freed.mp hfreed).elim (fun hraw => (hshown he hp).1 hraw.2) (hshown he hp).2
    · exact (hshown he hp).1 hrawp
  · intro e he f hf
    change f ∈ e.freed ++ u.freed s.raw ∨ f ∈ waiting (drained u s.pending)
    rw [mem_append, hflushed.waiting_eq, mem_filter]
    rcases h.waits e (hcs he) f hf with hold | hwaits
    · exact .inl (.inl hold)
    · by_cases hin : f ∈ u.toFree
      · exact .inl (.inr (mem_freed.mpr (.inr hin)))
      · exact .inr ⟨hwaits, by simpa using hin⟩
  · intro e he f hf hnot
    obtain ⟨hseen, hnotlive⟩ := h.not_shown e (hcs he) f hf fun hin => hnot (mem_append_left _ hin)
    exact ⟨(hsame e he).trans_ne hseen, hlive.trans_ne hnotlive⟩
  · intro d e hde f hf hnot
    obtain ⟨d', e', hsub, he', hupdates, -, hd⟩ := hpair hde
    obtain ⟨hf', hnot'⟩ := hd f hf hnot
    rw [hupdates]
    exact (hsame e' he').trans_ne (h.not_shown_later d' e' hsub f hf' hnot')
  · intro d e hde p hp hf
    obtain ⟨d', e', hsub, he', hupdates, hd, -⟩ := hpair hde
    have hknown := h.known_later d' e' hsub p (hd.symm.trans hp) (hwaits hf)
    rwa [← hsame e' he', ← hupdates] at hknown
  · intro d e hde hnone
    obtain ⟨d', e', hsub, he', hupdates, hd, -⟩ := hpair hde
    rw [hupdates] at hnone
    exact hd.trans ((h.raw_earlier d' e' hsub hnone).trans (h.raw_earlier _ e' (hafter he') hnone).symm)
  · intro e he
    refine (hsame e he).trans ?_
    change drained u s.pending = none at hnone
    have hall : ∀ f ∈ waiting s.pending, f ∈ u.toFree := by
      have hnil := hflushed.waiting_eq
      rw [hnone] at hnil
      intro f hf
      have := filter_eq_nil_iff.mp hnil.symm f hf
      simpa using this
    have hcurrent : s.live = u.current := by
      rw [← hflushed.live_eq, hnone]
      rfl
    change seen s.raw e.updates = u.current
    cases hu' : u.current with
    | some p => exact h.convex_live (hafter he) hu' (hcurrent.trans hu')
    | none =>
      apply Option.eq_none_iff_forall_ne_some.mpr
      intro p hp
      rcases h.owned e (hcs he) p hp with hrawp | hlivep | hwaitsp
      · exact (hshown he hp).1 hrawp
      · rw [hcurrent, hu'] at hlivep
        cases hlivep
      · exact (hshown he hp).2 (hall p hwaitsp)
  · intro e he v p hv hp hlivep
    have hold := h.unchanged e (hcs he) v p hv hp (hlive ▸ hlivep)
    change waiting (drained u s.pending) = v.toFree.filter fun f => !(e.freed ++ u.freed s.raw).contains f
    rw [hflushed.waiting_eq, hold, filter_filter]
    apply filter_congr
    intro f hf
    -- The pointer that the flusher overwrites is among those it was going to free anyway.
    have hrawfree : f ∈ waiting s.pending → f ∈ u.freed s.raw → f ∈ u.toFree := by
      intro hwaitsf hff
      rcases mem_freed.mp hff with ⟨_, hrawf⟩ | htoFree
      · exact (h.raw_not_later hcaptures hflush hrawf).2.2 hwaitsf
      · exact htoFree
    have hiff : f ∉ e.freed → (f ∈ u.freed s.raw ↔ f ∈ u.toFree) := by
      intro hnot
      refine ⟨hrawfree ?_, fun hin => mem_freed.mpr (.inr hin)⟩
      rw [hold, mem_filter]
      exact ⟨hf, by simpa using hnot⟩
    by_cases hfe : f ∈ e.freed
    · simp [hfe]
    · simp [hfe, hiff hfe]

end

end Flush

end Slot

end Qdrant.Gridstore
