-- SUMMARY: What running a flusher does to the files of a Gridstore, at its end and at every point where a crash can find it.
import Qdrant.Gridstore.Operations

/-!
# Running a flusher

A flusher first makes the bitmask and the pages durable, then stores its pointers in the
tracker, then makes the tracker durable, and only then frees the blocks of the pointers that
are no longer needed. `Flushing` has one constructor for each stage at which a crash can find
it.
-/

namespace Qdrant.Gridstore

open CachedFile List Crash

variable {s : Gridstore} {R : GridstoreError → Gridstore → Prop} {C : Gridstore → Prop}

section

variable (s : Gridstore) (captured : HashMap Nat PointerUpdates)

/-- The pointers that a flusher frees. -/
def OldPointer (p : ValuePointer) : Prop :=
  ∃ i u, captured.get? i = some u ∧ p ∈ u.freed (s.tracker.entries.content i)

/-- The blocks that a flusher frees. -/
def OldBlock (block : Nat) : Prop :=
  ∃ p, s.OldPointer captured p ∧ p.Covers s.config block

end

/-- A state in which a crash can find a flusher. -/
inductive Flushing (s : Gridstore) (captured : HashMap Nat PointerUpdates) : Gridstore → Prop
  /-- The tracker has not been written yet. -/
  | syncing {t : Gridstore} (config : t.config = s.config)
      (numPages : t.pages.numPages = s.pages.numPages) (tracker : t.tracker = s.tracker)
      (bytes : ∀ place v, t.pages.bytes.MayHold place v → s.pages.bytes.MayHold place v)
      (bits : ∀ i v, t.bitmask.bits.MayHold i v → s.bitmask.bits.MayHold i v) :
      Flushing s captured t
  /-- Some of the pointers are in the file. Pages and bitmask are durable. -/
  | storing {t : Gridstore} (config : t.config = s.config)
      (numPages : t.pages.numPages = s.pages.numPages)
      (entries : s.tracker.PersistedSome t.tracker fun i o => ∃ u, captured.get? i = some u ∧ o = u.current)
      (bytes : ∀ place v, t.pages.bytes.MayHold place v → v = s.pages.bytes.content place)
      (bits : ∀ i v, t.bitmask.bits.MayHold i v → v = s.bitmask.bits.content i) :
      Flushing s captured t
  /-- All pointers are in the file, and some blocks have been freed. -/
  | freeing {t : Gridstore} (config : t.config = s.config)
      (numPages : t.pages.numPages = s.pages.numPages)
      (entries : ∀ i o, t.tracker.entries.MayHold i o →
        o = Tracker.seen (s.tracker.entries.content i) (captured.get? i))
      (bytes : ∀ place v, t.pages.bytes.MayHold place v → v = s.pages.bytes.content place)
      (bits : ∀ i v, t.bitmask.bits.MayHold i v →
        v = s.bitmask.bits.content i ∨ (s.OldBlock captured i ∧ v = false)) :
      Flushing s captured t

/-- The flusher has been run. -/
structure FlushedBy (s : Gridstore) (captured : HashMap Nat PointerUpdates) (t : Gridstore) : Prop where
  config : t.config = s.config
  generation : t.generation = s.generation
  valid : t.Valid
  pages : t.pages = { s.pages with bytes := s.pages.bytes.sync }
  numBits : t.bitmask.numBits = s.bitmask.numBits
  raw : ∀ i, t.tracker.entries.content i = Tracker.seen (s.tracker.entries.content i) (captured.get? i)
  pending : ∀ i, t.tracker.pendingUpdates.get? i =
    Tracker.afterFlush (captured.get? i) (s.tracker.pendingUpdates.get? i)
  nextPointerOffset : t.tracker.nextPointerOffset = s.tracker.nextPointerOffset
  header : t.tracker.header = s.tracker.nextPointerOffset
  bits : ∀ i, ¬ s.OldBlock captured i → t.bitmask.bits.content i = s.bitmask.bits.content i
  bits_freed : ∀ i, s.OldBlock captured i → t.bitmask.bits.content i = false
  settled_entries : ∀ i, t.tracker.entries.Settled i
  settled_bits : ∀ i, t.bitmask.bits.Settled i

/-! ## Freeing blocks -/

variable {pointers : List ValuePointer} {group : List ValuePointer}

/-- The pointers of a group are on one page. -/
theorem pageId_eq_of_mem_splitBy {first : ValuePointer}
    (h : first :: group ∈ pointers.splitBy fun a b => a.pageId == b.pageId) :
    ∀ p ∈ first :: group, p.pageId = first.pageId := by
  have hchain := isChain_of_mem_splitBy h
  simp only [beq_iff_eq] at hchain
  have hpairwise := isChain_iff_pairwise.mp hchain
  intro p hp
  rcases mem_cons.mp hp with rfl | hp
  · rfl
  · exact ((pairwise_cons.mp hpairwise).1 p hp).symm

/-- The bitmask while the blocks of these pointers are freed; the groups in `left` are still
to be done. -/
structure Freeing (config : StorageConfig) (b : Bitmask) (pointers : List ValuePointer)
    (left : List (List ValuePointer)) (b' : Bitmask) : Prop
    extends Bitmask.MarkedSome b b' (fun i => ∃ p ∈ pointers, p.Covers config i) false where
  valid : b'.Valid config
  left_subset : ∀ group ∈ left, ∀ p ∈ group, p ∈ pointers
  freed : ∀ p ∈ pointers, (∀ group ∈ left, p ∉ group) → ∀ i, p.Covers config i → b'.bits.content i = false

section

variable {config : StorageConfig} {b b' b'' : Bitmask} {left : List (List ValuePointer)}
  (h : Freeing config b pointers (group :: left) b')

include h

theorem Freeing.markedSome
    (hmarked : b'.MarkedSome b'' (fun i => ∃ p ∈ group, p.Covers config i) false) :
    b.MarkedSome b'' (fun i => ∃ p ∈ pointers, p.Covers config i) false :=
  h.toMarkedSome.trans (hmarked.mono fun _ ⟨p, hp, hcovers⟩ =>
    ⟨p, h.left_subset group mem_cons_self p hp, hcovers⟩)

theorem Freeing.next (hmarked : Bitmask.Marked config b' b'' (fun i => ∃ p ∈ group, p.Covers config i) false) :
    Freeing config b pointers left b'' := by
  have hstays : ∀ i, b'.bits.content i = false → b''.bits.content i = false := by
    intro i hi
    by_cases hin : ∃ p ∈ group, p.Covers config i
    · exact hmarked.content_marked i hin
    · rw [hmarked.content i hin, hi]
  refine ⟨h.markedSome hmarked.toMarkedSome, hmarked.valid,
    fun g hg => h.left_subset g (mem_cons_of_mem _ hg), ?_⟩
  intro p hp hnot i hcovers
  by_cases hin : p ∈ group
  · exact hmarked.content_marked i ⟨p, hin, hcovers⟩
  · apply hstays
    apply h.freed p hp _ i hcovers
    intro g hg
    rcases mem_cons.mp hg with rfl | hg
    · exact hin
    · exact hnot g hg

end

theorem wp_flushFreeBlocks (hvalid : s.Valid) (pointers : List ValuePointer)
    (hplaced : ∀ p ∈ pointers, p.Placed s.config s.bitmask.numBits)
    (hC : ∀ bitmask : Bitmask, s.bitmask.MarkedSome bitmask
      (fun i => ∃ p ∈ pointers, p.Covers s.config i) false → C { s with bitmask }) :
    wp (flushFreeBlocks pointers) (fun _ t => ∃ bitmask : Bitmask, Freeing s.config s.bitmask pointers [] bitmask ∧
      t = { s with bitmask := { bitmask with bits := bitmask.bits.sync, gaps := bitmask.gaps.sync } })
      R C s := by
  apply wp_get_bind
  apply wp_seq (wp_foldlM (R := R) (C := C) (fun left _ t =>
    (∀ group ∈ left, group ∈ pointers.splitBy fun a b => a.pageId == b.pageId) ∧
    ∃ bitmask, Freeing s.config s.bitmask pointers left bitmask ∧ t = { s with bitmask })
    ?_ (pointers.splitBy fun a b => a.pageId == b.pageId) ?_)
  · rintro _ t ⟨_, bitmask, hfreeing, rfl⟩
    apply wp_onBitmask.mpr
    apply Bitmask.wp_flush.mpr
    refine ⟨hC _ hfreeing.toMarkedSome, hC _ ?_, bitmask, hfreeing, rfl⟩
    refine { hfreeing.toMarkedSome with mayHold := fun i v hv => ?_ }
    exact hfreeing.mayHold i v (mayHold_sync_bits hv)
  · rintro group left _ t ⟨hgroups, bitmask, hfreeing, rfl⟩
    have hgroup := hgroups group mem_cons_self
    cases group with
    | nil => exact absurd hgroup (nil_notMem_splitBy _ _)
    | cons first group =>
      have hpage := pageId_eq_of_mem_splitBy hgroup
      have hranges : Bitmask.InRanges s.config first.pageId
          ((first :: group).map (localRange s.config.blockSizeBytes)) =
          fun i => ∃ p ∈ first :: group, p.Covers s.config i :=
        funext fun i => propext (inRanges_iff hpage)
      apply wp_onBitmask.mpr
      apply wp_total (Bitmask.wp_markBlocksBatch (R := fun _ _ => False)
        (C := fun bitmask => C { s with bitmask }) hvalid.accepted hvalid.words.1 hfreeing.valid ?_ ?_)
      · intro _ bitmask' hmarked
        rw [hranges] at hmarked
        exact ⟨fun g hg => hgroups g (mem_cons_of_mem _ hg), bitmask', hfreeing.next hmarked, rfl⟩
      · exact fun _ h => h
      · intro range hrange
        obtain ⟨p, hp, rfl⟩ := mem_map.mp hrange
        obtain ⟨-, hend, hlt, -⟩ := hplaced p (hfreeing.left_subset _ mem_cons_self p hp)
        rw [ValuePointer.start, ValuePointer.numBlocks] at hend hlt
        refine ⟨Nat.le_add_right _ _, ?_, (divCeil_le_self hvalid.accepted.region_pos).trans_lt ?_⟩ <;>
          rw [← hpage p hp] <;> dsimp only [localRange]
        · rw [hfreeing.numBits]
          omega
        · omega
      · intro bitmask' hmarked
        rw [hranges] at hmarked
        exact hC _ (hfreeing.markedSome hmarked)
  · refine ⟨fun _ h => h, s.bitmask, ⟨.refl _ _, hvalid.bitmask, ?_, ?_⟩, rfl⟩
    · intro group hgroup p hp
      have hin := mem_flatten_of_mem hgroup hp
      rwa [flatten_splitBy] at hin
    · intro p hp hnot
      have hin := hp
      rw [← flatten_splitBy (fun a b : ValuePointer => a.pageId == b.pageId) pointers] at hin
      obtain ⟨group, hgroup, hmem⟩ := mem_flatten.mp hin
      exact absurd hmem (hnot group hgroup)

/-! ## The flusher -/

/-- The state of the store between the tracker's sync and the freeing of blocks. -/
structure Stored (s : Gridstore) (captured : HashMap Nat PointerUpdates) (pointers : List ValuePointer)
    (t : Gridstore) : Prop where
  config : t.config = s.config
  generation : t.generation = s.generation
  pages : t.pages = { s.pages with bytes := s.pages.bytes.sync }
  bitmask : t.bitmask = { s.bitmask with bits := s.bitmask.bits.sync, gaps := s.bitmask.gaps.sync }
  tracker : ∃ tracker, Tracker.Writing captured s.tracker [] pointers tracker ∧
    tracker.header = s.tracker.nextPointerOffset ∧ t.tracker = { tracker with entries := tracker.entries.sync }

variable {captured : HashMap Nat PointerUpdates}

theorem Stored.valid
    {t : Gridstore} (hvalid : s.Valid) (h : s.Stored captured pointers t) : t.Valid := by
  obtain ⟨tracker, hwriting, _, htracker⟩ := h.tracker
  refine ⟨⟨?_, ?_, ?_, ?_⟩, ?_⟩
  · rw [h.config]
    exact hvalid.accepted
  · rw [h.config]
    exact hvalid.words
  · rw [h.config, h.bitmask]
    exact hvalid.bitmask.sync
  · rw [h.config, h.bitmask, h.pages]
    exact hvalid.numBits_eq
  · rw [htracker]
    refine ⟨fun i o hi ho => ?_, fun i u hu => ?_⟩
    · rw [← mayHold_sync.mp ho]
      exact hwriting.none_beyond i _ hi (tracker.entries.content_mayHold i)
    · rw [hwriting.pending i] at hu
      exact Tracker.afterFlush_ne hvalid.tracker hu

/-- The part of the flusher before blocks are freed. -/
theorem wp_store {order : IterOrder Nat} (hvalid : s.Valid) (hC : ∀ t, s.Flushing captured t → C t)
    {k : List ValuePointer → Prog Gridstore GridstoreError Unit} {Q : Unit → Gridstore → Prop}
    (hk : ∀ pointers t, s.Stored captured pointers t → wp (k pointers) Q R C t) :
    wp (do
        onBitmask Bitmask.flush
        onPages Pages.flush
        let oldPointers ← onTracker (Tracker.writePending order captured)
        onTracker Tracker.flush
        k oldPointers) Q R C s := by
  apply wp_bind.mpr
  apply wp_onBitmask.mpr
  apply Bitmask.wp_flush.mpr
  refine ⟨hC _ (.syncing rfl rfl rfl (fun _ _ h => h) fun _ _ h => h),
    hC _ (.syncing rfl rfl rfl (fun _ _ h => h) fun _ _ h => mayHold_sync_bits h), ?_⟩
  apply wp_bind.mpr
  apply wp_onPages.mpr
  apply (wp_write rfl).mpr
  refine ⟨hC _ (.syncing rfl rfl rfl (fun _ _ h => h) fun _ _ h => mayHold_sync_bits h), ?_⟩
  apply wp_bind.mpr
  apply wp_onTracker.mpr
  apply wp_total (Tracker.wp_writePending (R := fun _ _ => False) captured hvalid.tracker ?_)
  · rintro pointers tracker ⟨hwriting, hheader⟩
    apply wp_bind.mpr
    apply wp_onTracker.mpr
    apply (wp_write rfl).mpr
    refine ⟨hC _ (.storing rfl rfl hwriting.entries (fun _ _ h => ?_) fun _ _ h => ?_), ?_⟩
    · exact (mayHold_sync.mp h).symm
    · exact (mayHold_sync.mp h).symm
    · exact hk pointers _ ⟨rfl, rfl, rfl, rfl, tracker, hwriting, hheader, rfl⟩
  · exact fun _ h => h
  · intro tracker hsome
    refine hC _ (.storing rfl rfl hsome (fun _ _ h => ?_) fun _ _ h => ?_)
    · exact (mayHold_sync.mp h).symm
    · exact (mayHold_sync.mp h).symm

variable {flusher : Flusher}

/-- The parts of the store that the flusher refers to are gone. -/
theorem wp_runFlusher_cancelled (order : IterOrder Nat)
    (hgeneration : flusher.generation ≠ s.generation) :
    wp (runFlusher order flusher) (fun _ _ => False) (fun e _ => e = .flushCancelled) C s := by
  apply wp_get_bind
  rw [if_pos hgeneration]
  exact (wp_throw _).mpr rfl

theorem runFlusher_cancelled {order : IterOrder Nat}
    (hgeneration : flusher.generation ≠ s.generation) :
    (runFlusher order flusher s).result = .error .flushCancelled := by
  obtain ⟨_, hwp⟩ := wp_runFlusher_cancelled (C := fun _ => True) order hgeneration
  cases hr : (runFlusher order flusher s).result with
  | ok a =>
    rw [hr] at hwp
    exact hwp.elim
  | error e =>
    rw [hr] at hwp
    rw [hwp]

theorem wp_runFlusher (order : IterOrder Nat) (hvalid : s.Valid)
    (hgeneration : flusher.generation = s.generation)
    (hplaced : ∀ p, s.OldPointer flusher.pendingUpdates p → p.Placed s.config s.bitmask.numBits)
    (hC : ∀ t, s.Flushing flusher.pendingUpdates t → C t) :
    wp (runFlusher order flusher) (fun _ t => s.FlushedBy flusher.pendingUpdates t) R C s := by
  apply wp_get_bind
  simp only [hgeneration, ne_eq, not_true_eq_false]
  apply wp_store hvalid hC
  intro pointers t hstored
  have htvalid := hstored.valid hvalid
  obtain ⟨tracker, hwriting, hheader, htracker⟩ := hstored.tracker
  have hold : ∀ p, p ∈ pointers ↔ s.OldPointer flusher.pendingUpdates p := by
    intro p
    simpa [OldPointer] using hwriting.oldPointers p
  have hblock : ∀ i, s.OldBlock flusher.pendingUpdates i ↔ ∃ p ∈ pointers, p.Covers s.config i := by
    intro i
    simp only [OldBlock, hold]
  have hraw : ∀ i, t.tracker.entries.content i =
      Tracker.seen (s.tracker.entries.content i) (flusher.pendingUpdates.get? i) := by
    intro i
    rw [htracker, content_sync, hwriting.content i, if_neg List.not_mem_nil]
  have hpending : ∀ i, t.tracker.pendingUpdates.get? i =
      Tracker.afterFlush (flusher.pendingUpdates.get? i) (s.tracker.pendingUpdates.get? i) := by
    intro i
    rw [htracker, hwriting.pending i, if_neg List.not_mem_nil]
  have hsettled : ∀ i, t.tracker.entries.Settled i := by
    rw [htracker]
    exact fun i => settled_sync i
  have hbits : ∀ i v, t.bitmask.bits.MayHold i v → v = s.bitmask.bits.content i := by
    intro i v hv
    rw [hstored.bitmask] at hv
    exact (mayHold_sync.mp hv).symm
  split
  case isTrue hempty =>
    -- Nothing is freed.
    rw [List.isEmpty_iff] at hempty
    subst hempty
    apply (wp_pure _).mpr
    exact {
      config := hstored.config, generation := hstored.generation, valid := htvalid
      pages := hstored.pages, numBits := by rw [hstored.bitmask], raw := hraw, pending := hpending
      nextPointerOffset := by rw [htracker, hwriting.nextPointerOffset]
      header := by rw [htracker, hheader]
      bits := fun i _ => by rw [hstored.bitmask, content_sync]
      bits_freed := fun i hi => by
        obtain ⟨p, hp, _⟩ := (hblock i).mp hi
        cases hp
      settled_entries := hsettled
      settled_bits := fun i v hv => by rw [hbits i v hv, hstored.bitmask, content_sync] }
  case isFalse =>
    apply wp_total (wp_flushFreeBlocks (R := fun _ _ => False) (C := C) htvalid pointers ?_ ?_)
    · rintro _ _ ⟨bitmask, hfreeing, rfl⟩
      exact {
        config := hstored.config, generation := hstored.generation
        valid := { htvalid with
          bitmask := hfreeing.valid.sync
          numBits_eq := by rw [hfreeing.numBits, htvalid.numBits_eq] }
        pages := hstored.pages
        numBits := by
          rw [hfreeing.numBits, hstored.bitmask]
        raw := hraw, pending := hpending
        nextPointerOffset := by rw [htracker, hwriting.nextPointerOffset]
        header := by rw [htracker, hheader]
        bits := fun i hi => by
          rw [hblock, ← hstored.config] at hi
          rw [content_sync, hfreeing.content i hi, hstored.bitmask, content_sync]
        bits_freed := fun i hi => by
          rw [hblock, ← hstored.config] at hi
          obtain ⟨p, hp, hcovers⟩ := hi
          exact hfreeing.freed p hp (by simp) i hcovers
        settled_entries := hsettled
        settled_bits := fun i => settled_sync i }
    · exact fun _ h => h
    · intro p hp
      rw [hstored.config, hstored.bitmask]
      exact hplaced p ((hold p).mp hp)
    · intro bitmask hmarked
      refine hC _ (.freeing hstored.config (by rw [hstored.pages]) (fun i o ho => ?_)
        (fun place v hv => ?_) fun i v hv => ?_)
      · rw [hsettled i o ho, hraw]
      · rw [hstored.pages] at hv
        exact (mayHold_sync.mp hv).symm
      · rcases hmarked.mayHold i v hv with holds | ⟨hin, hv⟩
        · exact .inl (hbits i v holds)
        · rw [hstored.config] at hin
          exact .inr ⟨(hblock i).mpr hin, hv⟩

end Qdrant.Gridstore
