-- SUMMARY: What a Gridstore looks like when it is opened after a crash at any point of an operation.
import Qdrant.Gridstore.AsMap

/-!
# Recovery after a crash

A crash can happen between two operations or before any write of one (`CrashPoint`). What it
leaves on disk is, at each place of each file, what was there at the last sync or what a later
write put there (`Survives`). The lengths of the files are those at the moment of the crash.

Every pointer that is then found in the tracker file leads to the bytes that were written for
it, on blocks that are marked as used (`Recoverable`), provided that the crash did not come
between the creation of a page and the growth of the bitmask. The store can be used on if
moreover the gaps and the count of pointers on disk agree with the rest (`Coherent`).
-/

namespace Qdrant.Gridstore

open CachedFile Crash Tracker

variable {V : Type}

/-- The contents of the files after a crash. -/
structure Disk where
  bytes : Nat × Nat → UInt8
  bits : Nat → Bool
  gaps : Nat → RegionGaps
  entries : Nat → Option ValuePointer
  header : Nat

/-- A crash may leave these contents. Nothing is known about the count of pointers. -/
structure Survives (s : Gridstore) (disk : Disk) : Prop where
  bytes : s.pages.bytes.Survives disk.bytes
  bits : s.bitmask.bits.Survives disk.bits
  gaps : s.bitmask.gaps.Survives disk.gaps
  entries : s.tracker.entries.Survives disk.entries

/-- The files of the store after a crash, cut at their lengths. -/
def crashed (s : Gridstore) (disk : Disk) : Gridstore :=
  { s with
    tracker := { s.tracker with
      header := disk.header
      entries := .ofContent fun i =>
        if s.tracker.storageLen < endOffset i then none else disk.entries i }
    pages := { s.pages with bytes := .ofContent disk.bytes }
    bitmask := { s.bitmask with
      bits := .ofContent fun i => if i < s.bitmask.numBits then disk.bits i else false
      gaps := .ofContent disk.gaps } }

/-- Everything that was written is on disk. -/
def disk (s : Gridstore) : Disk where
  bytes := s.pages.bytes.content
  bits := s.bitmask.bits.content
  gaps := s.bitmask.gaps.content
  entries := s.tracker.entries.content
  header := s.tracker.header

theorem survives_disk (s : Gridstore) : s.Survives s.disk where
  bytes := s.pages.bytes.survives_content
  bits := s.bitmask.bits.survives_content
  gaps := s.bitmask.gaps.survives_content
  entries := s.tracker.entries.survives_content

/-- The bitmask covers the pages. -/
def PagesCovered (s : Gridstore) : Prop := s.bitmask.numBits = s.pages.numPages * s.config.pageBlocks

/-- The store on disk can be used on: the bitmask covers the pages, the gaps on disk summarise
the bits on disk, and the count of pointers covers the pointers. -/
structure Coherent (s : Gridstore) (disk : Disk) : Prop where
  pages : s.PagesCovered
  regions : s.bitmask.numBits = s.bitmask.numRegions * s.config.regionSizeBlocks
  gaps : ∀ region < s.bitmask.numRegions,
    disk.gaps region = gapsOf (((s.crashed disk).bitmask).regionBits s.config region)
  header : ∀ i p, disk.entries i = some p → i < disk.header

namespace Session

/-- The states in which a crash can find an event. -/
def interrupted (codec : Codec V) (s : Session V) : Event V → List Gridstore
  | .put i value => (putValue codec i value s.store).interrupted
  | .delete i => (deleteValue codec i s.store).interrupted
  | .executeFlusher order =>
    match s.outstanding with
    | [] => []
    | o :: _ => (runFlusher order o.flusher s.store).interrupted
  | _ => []

/-- A crash can find the store like this. -/
def CrashPoint (codec : Codec V) (s : Session V) (t : Gridstore) : Prop :=
  t = s.store ∨ ∃ event, s.OneFlusher event ∧ s.Admissible codec event ∧ t ∈ s.interrupted codec event

/-- The store that is opened after a crash. -/
structure Restored (codec : Codec V) (s : Session V) (u : Gridstore) : Prop where
  value : ∀ i p, u.tracker.get i = some p → ∃ value, s.written i p = some value ∧
    u.pages.readFromPages u.config p = .ok (codec.encode u.config value)
  used : ∀ i p, u.tracker.get i = some p → ∀ block, p.Covers u.config block →
    u.bitmask.bits.content block = true

/-- Whatever a crash leaves can be opened, and what it shows is right. -/
def Recoverable (codec : Codec V) (s : Session V) : Prop :=
  ∀ t disk, s.CrashPoint codec t → t.PagesCovered → t.Survives disk →
    ∃ u, (t.crashed disk).reopen = .ok u ∧ s.Restored codec u

/-! ## Crash points -/

variable {codec : Codec V} {s s' : Session V}

/-- What the file refers to has reached the disk. -/
structure Durable (s : Session V) : Prop where
  entries : ∀ i, s.store.tracker.entries.Settled i
  bytes : ∀ i p, s.store.tracker.entries.content i = some p → ∀ k < p.length,
    s.store.pages.bytes.Settled (p.place s.store.config k)
  bits : ∀ i p, s.store.tracker.entries.content i = some p → ∀ block, p.Covers s.store.config block →
    s.store.bitmask.bits.Settled block

/-- Whatever a crash leaves of this store, the pointers on disk are pointers of the session
that lead to their values. -/
structure CrashSafe (s : Session V) (t : Gridstore) : Prop where
  config : t.config = s.store.config
  numPages : s.store.pages.numPages ≤ t.pages.numPages
  owned : ∀ i p, t.tracker.entries.MayHold i (some p) → (s.slot i).Owned p
  bytes : ∀ i p, t.tracker.entries.MayHold i (some p) → ∀ k < p.length, ∀ v,
    t.pages.bytes.MayHold (p.place s.store.config k) v →
      v = s.store.pages.bytes.content (p.place s.store.config k)
  bits : ∀ i p, t.tracker.entries.MayHold i (some p) → ∀ block, p.Covers s.store.config block →
    ∀ v, t.bitmask.bits.MayHold block v → v = true

variable {p : ValuePointer}

theorem Durable.raw_of_mayHold (h : s.Durable) {i : Nat}
    (hp : s.store.tracker.entries.MayHold i (some p)) : (s.slot i).raw = some p :=
  (h.entries i _ hp).symm

variable {t : Gridstore}

section

variable (h : s.Durable) (hinv : s.Inv codec)

include h hinv

/-- Nothing that the file refers to is touched, and the tracker is not written. -/
theorem Durable.crashSafe
    (hconfig : t.config = s.store.config) (hnumPages : s.store.pages.numPages ≤ t.pages.numPages)
    (htracker : t.tracker = s.store.tracker)
    (hbytes : ∀ i p, (s.slot i).Owned p → ∀ k < p.length, ∀ v,
      t.pages.bytes.MayHold (p.place s.store.config k) v →
        s.store.pages.bytes.MayHold (p.place s.store.config k) v)
    (hbits : ∀ i p, (s.slot i).Owned p → ∀ block, p.Covers s.store.config block →
      ∀ v, t.bitmask.bits.MayHold block v → s.store.bitmask.bits.MayHold block v) :
    s.CrashSafe t := by
  have hraw : ∀ {i p}, t.tracker.entries.MayHold i (some p) → (s.slot i).raw = some p := by
    intro i p hp
    rw [htracker] at hp
    exact h.raw_of_mayHold hp
  refine ⟨hconfig, hnumPages, fun i p hp => .inl (hraw hp), ?_, ?_⟩
  · intro i p hp k hk v hv
    exact h.bytes i p (hraw hp) k hk v (hbytes i p (.inl (hraw hp)) k hk v hv)
  · intro i p hp block hblock v hv
    rw [h.bits i p (hraw hp) block hblock v (hbits i p (.inl (hraw hp)) block hblock v hv)]
    exact hinv.keeps.used i p (.inl (hraw hp)) block hblock

theorem Durable.crashSafe_store : s.CrashSafe s.store :=
  h.crashSafe hinv rfl le_rfl rfl (fun _ _ _ _ _ _ hv => hv) fun _ _ _ _ _ _ hv => hv

theorem Durable.crashSafe_growing (ht : s.store.Growing t) : s.CrashSafe t :=
  h.crashSafe hinv ht.config ht.numPages ht.tracker (fun _ _ _ _ _ _ hv => ht.bytes ▸ hv)
    fun _ _ _ _ _ v hv => ht.mayHold _ v hv

theorem Durable.crashSafe_putting (ht : s.store.Putting p t) : s.CrashSafe t := by
  have hnot : ∀ {j q}, (s.slot j).Owned q → ∀ block, q.Covers s.store.config block →
      ¬ p.Covers s.store.config block := fun hq _ => hinv.keeps.not_covers ht.free hq
  apply h.crashSafe hinv ht.config ht.numPages ht.tracker
  · intro j q hq k hk v hv
    exact (ht.bytes_mayHold _ v hv).resolve_right
      (ValuePointer.not_onBytes hinv.valid.accepted (hnot hq) hk)
  · intro j q hq block hblock v hv
    exact (ht.bits_mayHold block v hv).resolve_right fun hp => hnot hq block hblock hp.1

end

variable {rest : List (Outstanding V)} {o : Outstanding V}

theorem Durable.crashSafe_flushing (h : s.Durable) (hinv : s.Inv codec)
    (hout : s.outstanding = o :: rest) (hgeneration : o.flusher.generation = s.store.generation)
    (hflush : ∀ i, (s.slot i).Flushable ⟨o.flusher.pendingUpdates.get? i, o.freed i⟩)
    (ht : s.store.Flushing o.flusher.pendingUpdates t) : s.CrashSafe t := by
  have hmem : o ∈ s.current := by
    rw [current_eq hout hgeneration]
    exact List.mem_cons_self
  cases ht with
  | syncing hconfig hnumPages htracker hbytes hbits =>
    exact h.crashSafe hinv hconfig hnumPages.symm.le htracker
      (fun _ _ _ _ _ v hv => hbytes _ v hv) fun _ _ _ _ _ v hv => hbits _ v hv
  | storing hconfig hnumPages hentries hbytes hbits =>
    have howned : ∀ i p, t.tracker.entries.MayHold i (some p) → (s.slot i).Owned p := by
      intro i p hp
      rcases hentries i _ hp with hold | ⟨u, hu, hcurrent⟩
      · exact .inl (h.raw_of_mayHold hold)
      · apply hinv.owned_of_captured hmem
        rw [hu]
        exact hcurrent.symm
    refine ⟨hconfig, hnumPages.symm.le, howned, fun i p hp k hk v hv => hbytes _ v hv, ?_⟩
    intro i p hp block hblock v hv
    rw [hbits block v hv]
    exact hinv.keeps.used i p (howned i p hp) block hblock
  | freeing hconfig hnumPages hentries hbytes hbits =>
    have hseen : ∀ i p, t.tracker.entries.MayHold i (some p) →
        seen (s.slot i).raw (o.flusher.pendingUpdates.get? i) = some p :=
      fun i p hp => (hentries i _ hp).symm
    have howned : ∀ i p, t.tracker.entries.MayHold i (some p) → (s.slot i).Owned p :=
      fun i p hp => hinv.owned_of_captured hmem (hseen i p hp)
    refine ⟨hconfig, hnumPages.symm.le, howned, fun i p hp k hk v hv => hbytes _ v hv, ?_⟩
    intro i p hp block hblock v hv
    -- What the file shows now is not among the blocks that are freed.
    rcases hbits block v hv with hsame | ⟨hold, _⟩
    · rw [hsame]
      exact hinv.keeps.used i p (howned i p hp) block hblock
    · exact absurd hold (hinv.not_oldBlock hout hgeneration hflush (.inl (hseen i p hp)) hblock)

/-- Every crash point is safe. -/
theorem Durable.crashSafe_of_crashPoint (h : s.Durable) (hinv : s.Inv codec) (hsingle : s.Single)
    (ht : s.CrashPoint codec t) : s.CrashSafe t := by
  rcases ht with rfl | ⟨event, hone, hadmissible, ht⟩
  · exact h.crashSafe_store hinv
  · cases event with
    | put i value =>
      exact wp_interrupted (wp_putValue (R := fun _ _ => False) (i := i) hinv.valid hadmissible.1
        (fun _ => h.crashSafe_growing hinv) fun _ _ => h.crashSafe_putting hinv) ht
    | delete i =>
      exact wp_interrupted (hinv.wp_deleteValue (R := fun _ _ => False) (C := s.CrashSafe) (i := i)) ht
    | executeFlusher order =>
      cases hout : s.outstanding with
      | nil => exact absurd hout hone
      | cons o rest =>
        rw [interrupted, hout] at ht
        by_cases hgeneration : o.flusher.generation = s.store.generation
        · have hflush := hsingle.canFlush (.executeFlusher order) o rest hout hgeneration
          exact wp_interrupted (wp_runFlusher (R := fun _ _ => False) order hinv.valid
            hgeneration (hinv.placed_of_old hout hgeneration hflush)
            fun _ => h.crashSafe_flushing hinv hout hgeneration hflush) ht
        · exact wp_interrupted (wp_runFlusher_cancelled order hgeneration) ht
    | clear | createFlusher | dropFlusher k | reopen => cases ht

/-! ## What is found after a crash -/

section Opened

variable {t : Gridstore} {disk : Disk}

theorem content_crashed {i : Nat} {p : ValuePointer}
    (hp : (t.crashed disk).tracker.entries.content i = some p) : disk.entries i = some p := by
  dsimp only [crashed] at hp
  rw [content_ofContent] at hp
  split at hp
  case isTrue => cases hp
  case isFalse => exact hp

section

variable (h : s.CrashSafe t) (hinv : s.Inv codec) (hpages : t.PagesCovered)

include h hinv hpages

/-- The pointers in the file after a crash keep what the session has written for them. -/
theorem CrashSafe.keeps (hdisk : t.Survives disk) : (t.crashed disk).Keeps codec
      (fun i p => (t.crashed disk).tracker.entries.content i = some p) s.written := by
  have hmay : ∀ {i p}, (t.crashed disk).tracker.entries.content i = some p →
      t.tracker.entries.MayHold i (some p) := fun {i p} hp => content_crashed hp ▸ hdisk.entries i
  have hconfig : (t.crashed disk).config = s.store.config := h.config
  have hle : s.store.bitmask.numBits ≤ t.bitmask.numBits := by
    rw [hinv.valid.numBits_eq, hpages, h.config]
    exact Nat.mul_le_mul_right _ h.numPages
  refine ⟨?_, ?_, ?_, ?_⟩
  · intro i p hp
    have hplaced := hinv.keeps.placed i p (h.owned i p (hmay hp))
    rw [hconfig]
    exact { hplaced with end_le := hplaced.end_le.trans hle }
  · intro i p hp block hblock
    rw [hconfig] at hblock
    have hplaced := hinv.keeps.placed i p (h.owned i p (hmay hp))
    have hlt : block < t.bitmask.numBits := hblock.2.trans_le (hplaced.end_le.trans hle)
    dsimp only [crashed]
    rw [content_ofContent, if_pos hlt]
    exact h.bits i p (hmay hp) block hblock _ (hdisk.bits block)
  · intro i p j q hp hq
    rw [hconfig]
    exact hinv.keeps.disjoint i p j q (h.owned i p (hmay hp)) (h.owned j q (hmay hq))
  · intro i p hp
    obtain ⟨value, hvalue, hholds⟩ := hinv.keeps.holds i p (h.owned i p (hmay hp))
    rw [hconfig]
    refine ⟨value, hvalue, hholds.length, fun k hk => ?_⟩
    have hbyte := h.bytes i p (hmay hp) k hk _ (hdisk.bytes _)
    rw [hholds.bytes k hk, ← hbyte]
    rfl

theorem CrashSafe.reopen_eq : (t.crashed disk).reopen = .ok { t.crashed disk with
      tracker := (t.crashed disk).tracker.reopen, generation := t.generation + 1 } := by
  refine reopen_of_covered (s := t.crashed disk) ?_ hpages
  have hconfig : (t.crashed disk).config = s.store.config := h.config
  rw [hconfig]
  exact hinv.valid.accepted

theorem CrashSafe.restored
    (hdisk : t.Survives disk) : ∃ u, (t.crashed disk).reopen = .ok u ∧ s.Restored codec u := by
  have hkeeps := h.keeps hinv hpages hdisk
  have hraw : ∀ {i p}, (t.crashed disk).tracker.reopen.get i = some p →
      (t.crashed disk).tracker.entries.content i = some p := by
    intro i p hp
    change (getRaw _ i).join = _ at hp
    rw [getRaw] at hp
    split at hp
    case isTrue => cases hp
    case isFalse => exact hp
  refine ⟨_, h.reopen_eq hinv hpages, fun i p hp => ?_, fun i p hp => hkeeps.used i p (hraw hp)⟩
  obtain ⟨value, hvalue, hholds⟩ := hkeeps.holds i p (hraw hp)
  refine ⟨value, hvalue, hholds.readFromPages ?_ ?_⟩
  · dsimp only [crashed]
    rw [h.config]
    exact hinv.valid.accepted
  · have hplaced := hkeeps.placed i p (hraw hp)
    have hnumBits : (t.crashed disk).bitmask.numBits = t.pages.numPages * t.config.pageBlocks := hpages
    rw [hnumBits] at hplaced
    exact hplaced

end

theorem recoverable (hinv : s.Inv codec) (hsingle : s.Single) (hdurable : s.Durable) :
    s.Recoverable codec := fun _ _ ht hpages hdisk =>
  (hdurable.crashSafe_of_crashPoint hinv hsingle ht).restored hinv hpages hdisk

/-- The session goes on with the store that was opened after a crash. The values are those of
the pointers that have survived, and no flusher is left. -/
def afterCrash (s : Session V) (u : Gridstore) : Session V where
  store := u
  outstanding := []
  contents i := (u.tracker.entries.content i).bind (s.written i)
  saved i := (u.tracker.entries.content i).bind (s.written i)
  written := s.written

theorem CrashSafe.valid (h : s.CrashSafe t) (hinv : s.Inv codec) (hcoherent : t.Coherent disk) :
    ({ t.crashed disk with tracker := (t.crashed disk).tracker.reopen
                           generation := t.generation + 1 } : Gridstore).Valid where
  accepted := by
    dsimp only [crashed]
    rw [h.config]
    exact hinv.valid.accepted
  words := by
    dsimp only [crashed]
    rw [h.config]
    exact hinv.valid.words
  tracker := by
    refine ⟨fun i o hi ho => ?_, fun i u hu => ?_⟩
    · rw [← mayHold_ofContent.mp ho]
      exact if_pos hi
    · cases hu
  bitmask := by
    refine ⟨hcoherent.regions, fun i v hi hv => ?_, hcoherent.gaps⟩
    rw [← mayHold_ofContent.mp hv]
    exact if_neg (not_lt.mpr hi)
  numBits_eq := hcoherent.pages

theorem CrashSafe.inv (h : s.CrashSafe t) (hinv : s.Inv codec) (hdisk : t.Survives disk)
    (hcoherent : t.Coherent disk) {u : Gridstore} (hu : (t.crashed disk).reopen = .ok u) :
    (s.afterCrash u).Inv codec := by
  rw [h.reopen_eq hinv hcoherent.pages, Except.ok.injEq] at hu
  have hvalid := h.valid hinv hcoherent
  have hkeeps := h.keeps hinv hcoherent.pages hdisk
  rw [hu] at hvalid
  have hslot : ∀ i, (s.afterCrash u).slot i = ⟨(t.crashed disk).tracker.entries.content i, none, []⟩ := by
    intro i
    subst hu
    rfl
  have howned : ∀ {i p}, ((s.afterCrash u).slot i).Owned p →
      (t.crashed disk).tracker.entries.content i = some p := by
    intro i p hp
    rw [hslot] at hp
    rcases hp with hp | hp | hp
    · exact hp
    · exact hp
    · cases hp
  have hheader : ∀ {i p}, (t.crashed disk).tracker.entries.content i = some p → i < disk.header :=
    fun hp => hcoherent.header _ _ (content_crashed hp)
  refine ⟨hvalid, ?_, ?_, ?_, ?_, fun o ho => absurd (List.mem_filter.mp ho).1 List.not_mem_nil, ?_, ?_,
    fun o ho => absurd ho List.not_mem_nil⟩
  · intro i
    rw [hslot]
    exact Slot.consistent_raw _
  · have hmono := hkeeps.mono fun i p (hp : ((s.afterCrash u).slot i).Owned p) => howned hp
    subst hu
    exact { hmono with }
  · intro i
    subst hu
    rfl
  · intro i
    subst hu
    rfl
  · intro i p hp
    have hmay : t.tracker.entries.MayHold i (some p) := content_crashed (howned hp) ▸ hdisk.entries i
    have hlt := hheader (howned hp)
    subst hu
    exact ⟨hlt, (hinv.offset_lt i p (h.owned i p hmay)).2⟩
  · intro i p hp
    have hlt := hheader (howned (.inl hp))
    subst hu
    exact hlt

theorem durable_afterCrash {u : Gridstore} (hu : (t.crashed disk).reopen = .ok u) :
    (s.afterCrash u).Durable := by
  have hcases : u = { t.crashed disk with
      tracker := (t.crashed disk).tracker.reopen, generation := t.generation + 1 } := by
    rw [reopen] at hu
    split at hu
    case isTrue => cases hu
    case isFalse => exact (Except.ok.inj hu).symm
  subst hcases
  exact ⟨fun i => settled_ofContent _ i, fun i p _ k _ => settled_ofContent _ _,
    fun i p _ block _ => settled_ofContent _ block⟩

end Opened

/-! ## Runs with crashes -/

theorem Durable.afterPut (h : s.Durable) (hinv : s.Inv codec) {i : Nat} {value : V}
    (hput : s.store.Put (codec.encode s.store.config value) p t) :
    (s.afterPut t i p value).Durable := by
  have hconfig : (s.afterPut t i p value).store.config = s.store.config := hput.config
  have hnot : ∀ {j q}, s.store.tracker.entries.content j = some q → ∀ block,
      q.Covers s.store.config block → ¬ p.Covers s.store.config block :=
    fun hq _ => hinv.keeps.not_covers hput.free (.inl hq)
  refine ⟨h.entries, ?_, ?_⟩
  · rw [hconfig]
    intro j q hq k hk v hv
    have hbytes := ValuePointer.not_onBytes hinv.valid.accepted (hnot hq) hk
    have hold := h.bytes j q hq k hk v ((hput.bytes_mayHold _ v hv).resolve_right hbytes)
    exact hold.trans (hput.bytes _ hbytes).symm
  · rw [hconfig]
    intro j q hq block hblock v hv
    have hbits := hnot hq block hblock
    have hold := h.bits j q hq block hblock v
      ((hput.bits_mayHold block v hv).resolve_right fun hp => hbits hp.1)
    have hsame : t.bitmask.bits.content block = s.store.bitmask.bits.content block := by
      rw [hput.bits, if_neg hbits]
    exact hold.trans hsame.symm

theorem Durable.afterFlusher
    (ht : s.store.FlushedBy o.flusher.pendingUpdates t) : (s.afterFlusher o rest t).Durable := by
  refine ⟨ht.settled_entries, fun i p _ k _ => ?_, fun i p _ block _ => ht.settled_bits block⟩
  have hpages : (s.afterFlusher o rest t).store.pages =
      { s.store.pages with bytes := s.store.pages.bytes.sync } := ht.pages
  rw [hpages]
  exact settled_sync _

/-- A tracker file without pointers. -/
theorem durable_of_new (htracker : s.store.tracker = .new) : s.Durable := by
  refine ⟨?_, ?_, ?_⟩ <;> rw [htracker]
  · exact fun i => settled_ofContent _ i
  · nofun
  · nofun

theorem Durable.step (h : s.Durable) (hinv : s.Inv codec) {event : Event V}
    (hstep : s.Steps codec event s') : s'.Durable := by
  cases hstep with
  | put _ hput => exact h.afterPut hinv hput
  | delete i =>
    have hentries : (s.afterDelete i).store.tracker.entries = s.store.tracker.entries :=
      Tracker.entries_unset _ _
    refine ⟨?_, ?_, ?_⟩
    · rw [hentries]
      exact h.entries
    · rw [hentries]
      exact h.bytes
    · rw [hentries]
      exact h.bits
  | clear _ _ htracker _ => exact durable_of_new htracker
  | createFlusher | cancelled _ | dropFlusher k | reopen => exact { h with }
  | executeFlusher _ _ ht _ => exact Durable.afterFlusher ht

/-- An event, or a crash during an event (or between two) that leaves this disk. -/
inductive CrashEvent (V : Type) where
  | op (event : Event V)
  | crash (during : Option (Event V)) (point : Nat) (disk : Disk)

section

variable (codec : Codec V) (s : Session V)

/-- The state in which the crash finds the store. -/
def crashState : Option (Event V) → Nat → Option Gridstore
  | none, _ => some s.store
  | some event, point => (s.interrupted codec event)[point]?

def crashStep : CrashEvent V → Option (Session V)
  | .op event => s.step codec event
  | .crash during point disk =>
    (s.crashState codec during point).bind fun t =>
      match (t.crashed disk).reopen with
      | .ok u => some (s.afterCrash u)
      | .error _ => none

/-- Events as in sessions with one flusher at a time. A crash leaves what may survive, and the
store on disk can be used on. -/
def CrashGuard : CrashEvent V → Prop
  | .op event => s.OneFlusher event ∧ s.Admissible codec event
  | .crash during point disk =>
    (∀ event, during = some event → s.OneFlusher event ∧ s.Admissible codec event) ∧
      ∃ t, s.crashState codec during point = some t ∧ t.Survives disk ∧ t.Coherent disk

end

theorem crashPoint_of_crashState {during : Option (Event V)} {point : Nat}
    (hduring : ∀ event, during = some event → s.OneFlusher event ∧ s.Admissible codec event)
    (ht : s.crashState codec during point = some t) : s.CrashPoint codec t := by
  cases during with
  | none => exact .inl (Option.some.inj ht).symm
  | some event =>
    obtain ⟨hone, hadmissible⟩ := hduring event rfl
    exact .inr ⟨event, hone, hadmissible, List.mem_of_getElem? ht⟩

/-- Everything that holds between the events of a session with crashes. -/
structure Sound (codec : Codec V) (s : Session V) : Prop where
  inv : s.Inv codec
  single : s.Single
  durable : s.Durable

theorem Sound.crashStep (h : s.Sound codec) {event : CrashEvent V} (hguard : s.CrashGuard codec event) :
    ∃ s', s.crashStep codec event = some s' ∧ s'.Sound codec := by
  cases event with
  | op event =>
    obtain ⟨hone, hadmissible⟩ := hguard
    obtain ⟨s', heq, hstep, hinv, hsingle⟩ := h.single.exists_step h.inv hone hadmissible
    exact ⟨s', heq, hinv, hsingle, h.durable.step h.inv hstep⟩
  | crash during point disk =>
    obtain ⟨hduring, t, ht, hdisk, hcoherent⟩ := hguard
    have hsafe := h.durable.crashSafe_of_crashPoint h.inv h.single (crashPoint_of_crashState hduring ht)
    obtain ⟨u, hu, _⟩ := hsafe.restored h.inv hcoherent.pages hdisk
    refine ⟨s.afterCrash u, ?_, hsafe.inv h.inv hdisk hcoherent hu, single_of_nil rfl,
      durable_afterCrash hu⟩
    rw [Session.crashStep, ht, Option.bind_some, hu]

theorem sound_ofStore {options : StorageOptions} {config : StorageConfig} {store : Gridstore}
    (hconfig : StorageConfig.tryFrom options = .ok config) (hwords : config.WholeWords)
    (hnew : new options 0 = .ok store) : (ofStore store : Session V).Sound codec := by
  obtain ⟨store', hnew', hvalid, _, _, htracker, _⟩ := new_eq 0 hconfig hwords
  rw [hnew, Except.ok.injEq] at hnew'
  subst hnew'
  exact ⟨inv_of_new hvalid htracker (fun o ho => absurd ho List.not_mem_nil) rfl rfl, single_of_nil rfl,
    durable_of_new htracker⟩

/-- In every session with crashes after which the store can be used on, the store is a map, and
whatever a further crash leaves can be opened and is right, if the bitmask covers the pages. -/
theorem recoverable_of_crashes {options : StorageOptions} {config : StorageConfig} {store : Gridstore}
    (hconfig : StorageConfig.tryFrom options = .ok config) (hwords : config.WholeWords)
    (hnew : new options 0 = .ok store) {events : List (CrashEvent V)}
    (hguard : Run.Guarded (Session.crashStep codec) (CrashGuard codec) (ofStore store) events) :
    ∃ s, Run.run (Session.crashStep codec) (ofStore store) events = some s ∧
      s.Faithful codec ∧ s.Recoverable codec := by
  obtain ⟨s, hrun, hs⟩ := Run.run_total (fun _ _ h => h.crashStep) hguard (sound_ofStore hconfig hwords hnew)
  exact ⟨s, hrun, hs.inv.faithful, recoverable hs.inv hs.single hs.durable⟩

/-- If everything is on disk, the store can be used on after a crash. -/
theorem Inv.coherent_disk (h : s.Inv codec) : s.store.Coherent s.store.disk where
  pages := h.valid.numBits_eq
  regions := h.valid.bitmask.numBits_eq
  gaps region hregion := by
    refine (h.valid.bitmask.summarised region hregion).trans (congrArg gapsOf (List.map_congr_left fun i hi => ?_))
    have hlt : i < s.store.bitmask.numBits := by
      rw [List.mem_range'_1] at hi
      have : (region + 1) * s.store.config.regionSizeBlocks ≤ _ := Nat.mul_le_mul_right _ hregion
      rw [h.valid.bitmask.numBits_eq]
      omega
    exact (if_pos hlt).symm
  header i p hp := h.raw_lt i p hp

/-- A value is put and flushed, and its pointer survives the crash. -/
theorem recoverable_after_flush : ∃ disk : Disk, disk.entries 0 = some ⟨0, 0, 1⟩ ∧
    ∃ s, Run.run (Session.crashStep byteCodec) (ofStore smallStore)
      ([.op (.put 0 [7]), .op .createFlusher, .op (.executeFlusher .ascending)] ++ [.crash none 0 disk]) =
        some s ∧ s.Faithful byteCodec ∧ s.Recoverable byteCodec := by
  have hconfig : StorageConfig.tryFrom (smallOptions 64) = .ok ⟨64, 1, 64, .none⟩ := rfl
  have hguard : Run.Guarded (Session.crashStep byteCodec) (CrashGuard byteCodec) (ofStore smallStore)
      [.op (.put 0 [7]), .op .createFlusher, .op (.executeFlusher .ascending)] := by
    apply Run.Guarded.cons ⟨trivial, ⟨by decide, by decide, by decide⟩, by decide⟩ rfl
    apply Run.Guarded.cons ⟨rfl, trivial⟩ rfl
    exact .single ⟨List.cons_ne_nil _ _, trivial⟩
  obtain ⟨s, hrun, hs⟩ := Run.run_total (fun _ _ h => h.crashStep) hguard
    (sound_ofStore hconfig (by decide) rfl)
  have hentry : ∀ s ∈ Run.run (Session.crashStep byteCodec) (ofStore smallStore)
      [.op (.put 0 [7]), .op .createFlusher, .op (.executeFlusher .ascending)],
      s.store.tracker.entries.content 0 = some ⟨0, 0, 1⟩ := by decide +kernel
  exact ⟨s.store.disk, hentry s hrun, recoverable_of_crashes hconfig (by decide) rfl
    (hguard.concat hrun ⟨fun u hu => absurd hu (Option.not_mem_none u), _, rfl, survives_disk _, hs.inv.coherent_disk⟩)⟩

/-- A value that does not fit on the first page. The crash comes when the new page has been
created and the bitmask has not grown yet: the store cannot be opened any more. -/
theorem reopen_fails_between_page_and_bitmask : ∃ store t, new (smallOptions 64) 0 = .ok store ∧
    t ∈ (putValue byteCodec 0 (List.replicate 65 7) store).interrupted ∧ t.Survives t.disk ∧
    (t.crashed t.disk).reopen = .error (.inconsistentPages 1 2) :=
  ⟨_, _, rfl, List.mem_of_getElem? (i := 1) rfl, survives_disk _, rfl⟩

end Session

end Qdrant.Gridstore
