-- SUMMARY: Connecting a point compares only links that were not compared before, with the same result.
import Mathlib.Algebra.Group.Nat.Defs
import Mathlib.Data.List.Sort

/-!
# The links of a point

When a point is connected to one whose links are full, a heuristic selects among the links and the
new point (`hnsw_index/links_container.rs`). `connect_with_heuristic` knows how many of the links
the heuristic has selected before, and does not compare these again.

Scores are from any linear order. Those to the target point are distinct, so there is only one way
to sort. A candidate is given by its id, its score is the one to the target point.
-/

namespace Qdrant

open List

variable {S : Type} [LinearOrder S]

structure LinksContainer where
  links : List Nat
  processedByHeuristic : Nat

namespace LinksContainer

/-- A link with its place among those that have been processed. -/
structure Item where
  idx : Nat
  order : Option Nat

/-- The loop of the heuristic: a candidate is kept unless one that was kept before rejects it. -/
def keep {α : Type} (rejects : α → α → Bool) (levelM : Nat) (kept : List α) : List α → List α
  | [] => kept
  | candidate :: candidates =>
    if kept.any (rejects candidate) then keep rejects levelM kept candidates
    else if levelM ≤ kept.length + 1 then kept ++ [candidate]
    else keep rejects levelM (kept ++ [candidate]) candidates

/-- The links that the heuristic selects. All of them have been processed, which is counted in a
`u32`. -/
def select {α : Type} (idx : α → Nat) (rejects : α → α → Bool) (levelM : Nat)
    (candidates : List α) : LinksContainer :=
  let links := (keep rejects levelM [] candidates).map idx
  ⟨links, links.length % 2 ^ 32⟩

section

variable (score : Nat → Nat → S) (levelM target : Nat)

def precedes (a b : Nat) : Bool :=
  score target b ≤ score target a

def rejects (candidate existing : Nat) : Bool :=
  score target candidate < score candidate existing

def fillFromSortedWithHeuristic (candidates : List Nat) : LinksContainer :=
  if levelM = 0 then ⟨[], 0⟩
  else select id (rejects score target) levelM candidates

def connectWithHeuristicSimple (c : LinksContainer) (new : Nat) : LinksContainer :=
  if c.links.length < levelM then { c with links := c.links ++ [new] }
  else fillFromSortedWithHeuristic score levelM target
    ((c.links ++ [new]).mergeSort (precedes score target))

/-- The order is a `NonZeroU32`, so the first link has none. -/
def items (c : LinksContainer) (new : Nat) : List Item :=
  c.links.zipIdx.map (fun (link, order) =>
    ⟨link, if order < c.processedByHeuristic ∧ order ≠ 0 then some order else none⟩) ++
  [⟨new, none⟩]

/-- Items that both have been processed keep their order. -/
def itemPrecedes (a b : Item) : Bool :=
  match a.order, b.order with
  | some aOrder, some bOrder => aOrder ≤ bOrder
  | _, _ => precedes score target a.idx b.idx

/-- An item that has been processed does not reject another one. -/
def itemRejects (candidate existing : Item) : Bool :=
  !(candidate.order.isSome && existing.order.isSome) &&
    rejects score target candidate.idx existing.idx

/-- The source puts the items it keeps in place of those it has read. -/
def connectWithHeuristic (c : LinksContainer) (new : Nat) : LinksContainer :=
  if levelM = 0 then c
  else if c.links.length < levelM then { c with links := c.links ++ [new] }
  else select Item.idx (itemRejects score target) levelM
    ((c.items new).mergeSort (itemPrecedes score target))

/-! ## Invariant -/

def Closer (a b : Nat) : Prop :=
  score target b < score target a

/-- The links that have been processed are sorted and do not reject each other. All scores are
distinct, also those of the points to come. -/
structure Inv (rest : List Nat) (c : LinksContainer) : Prop where
  processed_le : c.processedByHeuristic ≤ c.links.length
  processed : (c.links.take c.processedByHeuristic).Pairwise fun existing candidate =>
    Closer score target existing candidate ∧ rejects score target candidate existing = false
  distinct : ((c.links ++ rest).map (score target)).Nodup

end

/-! ## The loop -/

section

variable {α : Type} (rejects : α → α → Bool) (levelM : Nat) {kept candidates : List α}

theorem keep_spec (candidates : List α)
    (h : kept.Pairwise fun existing candidate => rejects candidate existing = false) :
    ∃ more, more.Sublist candidates ∧ keep rejects levelM kept candidates = kept ++ more ∧
      (kept ++ more).Pairwise fun existing candidate => rejects candidate existing = false := by
  induction candidates generalizing kept with
  | nil => exact ⟨[], .slnil, (append_nil _).symm, by rwa [append_nil]⟩
  | cons candidate candidates ih =>
    rw [keep]
    split
    next =>
      obtain ⟨more, hsub, hkeep⟩ := ih h
      exact ⟨more, hsub.cons _, hkeep⟩
    next hnone =>
      have hkept : (kept ++ [candidate]).Pairwise fun existing candidate =>
          rejects candidate existing = false := by
        simpa [pairwise_append, h] using hnone
      split
      · exact ⟨[candidate], (nil_sublist _).cons_cons _, rfl, hkept⟩
      · obtain ⟨more, hsub, hkeep⟩ := ih hkept
        rw [append_assoc] at hkeep
        exact ⟨candidate :: more, hsub.cons_cons _, hkeep⟩

variable {rejects levelM} {r : Nat → Nat → Bool} {f : α → Nat}

theorem map_keep (h : (kept ++ candidates).Pairwise fun existing candidate =>
      rejects candidate existing = r (f candidate) (f existing)) :
    (keep rejects levelM kept candidates).map f =
      keep r levelM (kept.map f) (candidates.map f) := by
  induction candidates generalizing kept with
  | nil => rfl
  | cons candidate candidates ih =>
    have hany : (kept.map f).any (r (f candidate)) = kept.any (rejects candidate) := by
      have hsame := fun existing hmem =>
        (pairwise_append.mp h).2.2 existing hmem candidate mem_cons_self
      rw [Bool.eq_iff_iff, any_map, any_eq_true, any_eq_true]
      exact exists_congr fun existing => and_congr_right fun hmem => by
        rw [hsame existing hmem, Function.comp_apply]
    rw [keep, map_cons, keep, hany, length_map]
    split
    · exact ih (h.sublist ((sublist_cons_self ..).append_left _))
    · split
      · exact map_append
      · rw [ih (by simpa using h), map_append]
        rfl

/-- The heuristic selects by ids, if candidates are rejected like their ids. -/
theorem select_eq (h : candidates.Pairwise fun existing candidate =>
      rejects candidate existing = r (f candidate) (f existing)) :
    select f rejects levelM candidates = select id r levelM (candidates.map f) := by
  rw [select, select, map_keep h, map_id]
  rfl

end

/-! ## Runs of the heuristic -/

variable {score : Nat → Nat → S} {levelM target new : Nat} {c : LinksContainer}
  {ids rest : List Nat}

theorem inv_select (levelM : Nat) (hsorted : ids.Pairwise (Closer score target))
    (hdistinct : ((ids ++ rest).map (score target)).Nodup) :
    (select id (rejects score target) levelM ids).Inv score target rest := by
  obtain ⟨links, hsub, hkeep, hpass⟩ := keep_spec (rejects score target) levelM ids .nil
  rw [nil_append] at hkeep hpass
  rw [select, hkeep, map_id]
  refine ⟨Nat.mod_le _ _, ?_, hdistinct.sublist ((hsub.append_right _).map _)⟩
  exact ((hsorted.sublist hsub).and hpass).sublist (take_sublist _ _)

theorem pairwise_mergeSort_precedes (h : (ids.map (score target)).Nodup) :
    (ids.mergeSort (precedes score target)).Pairwise (Closer score target) := by
  have hle : (ids.mergeSort (precedes score target)).Pairwise (precedes score target · ·) := by
    apply pairwise_mergeSort
    · simpa [precedes] using fun a b c hab hbc => le_trans hbc hab
    · simpa [precedes] using fun a b => le_total _ _
  have hperm := (mergeSort_perm ids (precedes score target)).map (score target)
  have hne := pairwise_map.mp (hperm.nodup_iff.mpr h)
  exact (hle.and hne).imp fun h => lt_of_le_of_ne (by simpa [precedes] using h.1) h.2.symm

section

variable {a b : Item} {i j : Nat} (ha : a ∈ c.items new)

include ha

theorem getElem?_order (hi : a.order = some i) :
    (c.links.take c.processedByHeuristic)[i]? = some a.idx := by
  rcases mem_append.mp ha with hmem | hmem
  · obtain ⟨⟨link, order⟩, hlink, rfl⟩ := mem_map.mp hmem
    rw [mem_zipIdx_iff_getElem?] at hlink
    dsimp only at hi hlink
    split at hi
    next hlt =>
      cases hi
      rw [getElem?_take_of_lt hlt.1, hlink]
    next => cases hi
  · rw [mem_singleton.mp hmem] at hi
    cases hi

variable (h : c.Inv score target rest) (hb : b ∈ c.items new)

include h hb

/-- The orders of processed items are those of their scores, and the later one does not have to be
compared. -/
theorem Inv.order_spec (hi : a.order = some i) (hj : b.order = some j) :
    (i ≤ j ↔ score target b.idx ≤ score target a.idx) ∧
      (Closer score target a.idx b.idx → rejects score target b.idx a.idx = false) := by
  obtain ⟨hi', hai⟩ := List.getElem?_eq_some_iff.mp (getElem?_order ha hi)
  obtain ⟨hj', hbj⟩ := List.getElem?_eq_some_iff.mp (getElem?_order hb hj)
  have hpairs := pairwise_iff_getElem.mp h.processed
  rw [← hai, ← hbj]
  rcases lt_trichotomy i j with hlt | rfl | hlt
  · obtain ⟨hcloser, hpass⟩ := hpairs i j hi' hj' hlt
    exact ⟨iff_of_true hlt.le hcloser.le, fun _ => hpass⟩
  · exact ⟨iff_of_true le_rfl le_rfl, fun hlt => absurd hlt (lt_irrefl _)⟩
  · obtain ⟨hcloser, -⟩ := hpairs j i hj' hi' hlt
    exact ⟨iff_of_false hlt.not_ge hcloser.not_ge, fun hlt => absurd hlt hcloser.asymm⟩

theorem Inv.itemPrecedes_eq :
    itemPrecedes score target a b = precedes score target a.idx b.idx := by
  rw [itemPrecedes]
  split
  next i j hi hj => exact decide_eq_decide.mpr (h.order_spec ha hb hi hj).1
  next => rfl

theorem Inv.itemRejects_eq (hcloser : Closer score target a.idx b.idx) :
    itemRejects score target b a = rejects score target b.idx a.idx := by
  rw [itemRejects]
  cases hj : b.order with
  | none => rfl
  | some j =>
    cases hi : a.order with
    | none => rfl
    | some i => exact ((h.order_spec ha hb hi hj).2 hcloser).symm

end

section

variable (hM : levelM ≠ 0) (h : c.Inv score target (new :: rest))

include hM h

theorem Inv.connect_eq : connectWithHeuristic score levelM target c new =
    connectWithHeuristicSimple score levelM target c new := by
  rw [connectWithHeuristic, if_neg hM]
  split
  next hroom => rw [connectWithHeuristicSimple, if_pos hroom]
  next hfull =>
    have hsort : ((c.items new).mergeSort (itemPrecedes score target)).map Item.idx =
        (c.links ++ [new]).mergeSort (precedes score target) := by
      have hmap : (c.items new).map Item.idx = c.links ++ [new] := by
        simp [items, Function.comp_def]
      rw [← hmap]
      exact map_mergeSort fun a ha b hb => h.itemPrecedes_eq ha hb
    have hsorted := pairwise_mergeSort_precedes
      (h.distinct.sublist (Sublist.map _ (by simp : (c.links ++ [new]).Sublist _)))
    rw [← hsort, pairwise_map] at hsorted
    rw [connectWithHeuristicSimple, if_neg hfull, fillFromSortedWithHeuristic, if_neg hM, ← hsort]
    apply select_eq
    apply hsorted.imp_of_mem
    intro existing candidate he hc hcloser
    exact h.itemRejects_eq (mem_mergeSort.mp he) (mem_mergeSort.mp hc) hcloser

theorem Inv.connect :
    (connectWithHeuristicSimple score levelM target c new).Inv score target rest := by
  have hdistinct : (((c.links ++ [new]) ++ rest).map (score target)).Nodup := by
    simpa using h.distinct
  rcases Nat.lt_or_ge c.links.length levelM with hroom | hfull
  · rw [connectWithHeuristicSimple, if_pos hroom]
    refine ⟨h.processed_le.trans (by simp), ?_, hdistinct⟩
    rw [take_append_of_le_length h.processed_le]
    exact h.processed
  · rw [connectWithHeuristicSimple, if_neg hfull.not_gt, fillFromSortedWithHeuristic, if_neg hM]
    have hperm := mergeSort_perm (c.links ++ [new]) (precedes score target)
    refine inv_select levelM (pairwise_mergeSort_precedes ?_) ?_
    · exact hdistinct.sublist ((sublist_append_left _ _).map _)
    · exact ((hperm.append_right rest).map _).nodup_iff.mpr hdistinct

end

/-- After the links were filled with sorted candidates, connecting points gives the same as when the
heuristic is run on all links each time. -/
theorem connectWithHeuristic_eq_simple (score : Nat → Nat → S) (levelM target : Nat)
    (candidates inserted : List Nat) (hsorted : candidates.Pairwise (Closer score target))
    (hdistinct : ((candidates ++ inserted).map (score target)).Nodup) :
    inserted.foldl (connectWithHeuristic score levelM target)
        (fillFromSortedWithHeuristic score levelM target candidates) =
      inserted.foldl (connectWithHeuristicSimple score levelM target)
        (fillFromSortedWithHeuristic score levelM target candidates) := by
  rcases eq_or_ne levelM 0 with rfl | hM
  · induction inserted with
    | nil => rfl
    | cons new inserted ih => exact ih (hdistinct.sublist (by simp))
  · have hinv := inv_select levelM hsorted hdistinct
    rw [fillFromSortedWithHeuristic, if_neg hM]
    generalize select id (rejects score target) levelM candidates = c at hinv
    clear hdistinct
    induction inserted generalizing c with
    | nil => rfl
    | cons new inserted ih =>
      rw [foldl_cons, foldl_cons, hinv.connect_eq hM]
      exact ih _ (hinv.connect hM)

/-- The score of points on a line. -/
def lineScore (a b : Nat) : Int := -(a - b : Int).natAbs

theorem connectWithHeuristic_eq_simple_line :
    [1, 8].foldl (connectWithHeuristic lineScore 2 5)
        (fillFromSortedWithHeuristic lineScore 2 5 [4, 7]) =
      [1, 8].foldl (connectWithHeuristicSimple lineScore 2 5)
        (fillFromSortedWithHeuristic lineScore 2 5 [4, 7]) :=
  connectWithHeuristic_eq_simple lineScore 2 5 [4, 7] [1, 8] (by unfold Closer; decide) (by decide)

end LinksContainer

end Qdrant
