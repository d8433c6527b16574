-- SUMMARY: The estimation of the connectivity of a subgraph ends exactly if its entry points have links.
import Mathlib.Data.List.Perm.Subperm
import Mathlib.Data.List.Nodup

/-!
# Connectivity of a subgraph

`GraphLayersBuilder::subgraph_connectivity` counts the points that a search reaches from an entry
point when each link is removed at random. The search is repeated until it has seen more links than
a budget. The links that it has seen are counted over all repetitions, but nothing makes it see one.
-/

namespace Qdrant.Connectivity

open List

/-- The links of each point on each of its layers. They lead to points of the layer. -/
structure GraphLayersBuilder where
  linksLayers : Nat → List (List Nat)
  entryPoints : List Nat
  extraEntryPoints : List Nat
  layered : ∀ point layer, ∀ link ∈ (linksLayers point).getD layer [], layer < (linksLayers link).length

def GraphLayersBuilder.links (g : GraphLayersBuilder) (point layer : Nat) : List Nat :=
  (g.linksLayers point).getD layer []

/-- `max_by_key`: the last of the points with the most layers. -/
def GraphLayersBuilder.highest (g : GraphLayersBuilder) (first : Nat) (points : List Nat) : Nat :=
  points.foldl (fun best point =>
    if (g.linksLayers best).length ≤ (g.linksLayers point).length then point else best) first

/-- The points one of which is drawn as the entry point: the entry points of the graph that are
among the points, or else the extra ones, or else a point of the highest level. -/
def GraphLayersBuilder.eligible (g : GraphLayersBuilder) (points : List Nat) : List Nat :=
  match g.entryPoints.filter (· ∈ points), g.extraEntryPoints.filter (· ∈ points), points with
  | [], [], first :: rest => [g.highest first rest]
  | [], extra, _ => extra
  | entryPoints, _, _ => entryPoints

structure Search where
  visited : List Nat
  /-- The last one is the first. -/
  queue : List Nat
  previousVisitedPoints : List Nat
  reachedPoints : Nat
  spentBudget : Nat

def subgraphConnectivitySearchBudget : Nat := 64

section

variable (g : GraphLayersBuilder) (points : List Nat)
  -- whether the link that is the n-th to be seen is removed
  (removed : Nat → Bool)

def followLink (search : Search) (link : Nat) : Search :=
  let seen := { search with spentBudget := search.spentBudget + 1 }
  if removed search.spentBudget then seen
  else if link ∉ search.visited ∧ link ∈ points then
    { seen with
      visited := link :: search.visited
      reachedPoints := search.reachedPoints + 1
      queue := link :: search.queue
      previousVisitedPoints := link :: search.previousVisitedPoints }
  else seen

/-- Search a layer, for at most `pops` points. -/
def searchLayer (layer pops : Nat) (search : Search) : Option Search :=
  match search.queue, pops with
  | [], _ => some search
  | _ :: _, 0 => none
  | point :: queue, pops + 1 =>
    searchLayer layer pops <|
      (g.links point layer).foldl (followLink points removed) { search with queue }

def searchLayers (pops : Nat) (layers : List Nat) (search : Search) : Option Search :=
  layers.foldlM (fun search layer =>
    searchLayer g points removed layer pops { search with queue := search.previousVisitedPoints }) search

variable (entryPoint pops : Nat)

/-- The retry loop, for at most so many retries. -/
def retry (spentBudget : Nat) : Nat → Option Nat
  | 0 => none
  | retries + 1 => do
    let search ← searchLayers g points removed pops (List.range (g.linksLayers entryPoint).length).reverse
      ⟨[entryPoint], [], [entryPoint], 1, spentBudget⟩
    if search.spentBudget > subgraphConnectivitySearchBudget then return search.reachedPoints
    else retry search.spentBudget retries

/-- The number of points that are reached from the entry point that was drawn, and of all points. -/
def subgraphConnectivity (retries : Nat) : Option (Nat × Nat) :=
  if points = [] then some (1, 1)
  else (retry g points removed entryPoint pops 0 retries).map (·, points.length)

end

/-! ## Searches end -/

variable {g : GraphLayersBuilder} {points : List Nat} (removed : Nat → Bool) {entryPoint : Nat}
  {search : Search}

/-- Each point is visited once, and the entry point is among those to start from on a layer. -/
structure Search.Valid (points : List Nat) (entryPoint : Nat) (search : Search) : Prop where
  nodup : search.visited.Nodup
  subset : search.visited ⊆ entryPoint :: points
  entry : entryPoint ∈ search.previousVisitedPoints
  previous : search.previousVisitedPoints.length ≤ search.visited.length

/-- A part of a search that sees a number of links: each visited point is put into the queue. -/
structure Follows (points : List Nat) (entryPoint links : Nat) (search search' : Search) : Prop where
  valid : search'.Valid points entryPoint
  queue : search.queue ⊆ search'.queue
  length : search'.queue.length + search.visited.length = search.queue.length + search'.visited.length
  spent : search'.spentBudget = search.spentBudget + links

theorem follows_followLink (h : search.Valid points entryPoint) (link : Nat) :
    Follows points entryPoint 1 search (followLink points removed search link) := by
  unfold followLink
  split
  next => exact ⟨{ h with }, List.Subset.refl _, rfl, rfl⟩
  next =>
    split
    next hnew =>
      refine ⟨⟨h.nodup.cons hnew.1, ?_, mem_cons_of_mem _ h.entry, Nat.succ_le_succ h.previous⟩,
        subset_cons_self _ _, ?_, rfl⟩
      · exact cons_subset.mpr ⟨mem_cons_of_mem _ hnew.2, h.subset⟩
      · simp only [length_cons]
        omega
    next => exact ⟨{ h with }, List.Subset.refl _, rfl, rfl⟩

theorem follows_foldl (h : search.Valid points entryPoint) (links : List Nat) :
    Follows points entryPoint links.length search (links.foldl (followLink points removed) search) := by
  induction links generalizing search with
  | nil => exact ⟨h, List.Subset.refl _, rfl, rfl⟩
  | cons link links ih =>
    obtain ⟨hvalid, hqueue, hlength, hspent⟩ := follows_followLink removed h link
    obtain ⟨hvalid', hqueue', hlength', hspent'⟩ := ih hvalid
    refine ⟨hvalid', List.Subset.trans hqueue hqueue', ?_, ?_⟩
    · rw [foldl_cons]
      omega
    · rw [foldl_cons, hspent', hspent, length_cons]
      omega

/-- A layer is searched with one pop for each point, and all links of the points in the queue are
seen. -/
theorem searchLayer_eq (g : GraphLayersBuilder) (h : search.Valid points entryPoint) (layer : Nat) {pops : Nat}
    (hpops : search.queue.length + (points.length + 1) ≤ pops + search.visited.length) :
    ∃ search', searchLayer g points removed layer pops search = some search' ∧
      search'.Valid points entryPoint ∧ search.spentBudget ≤ search'.spentBudget ∧
      ∀ point ∈ search.queue,
        search.spentBudget + (g.links point layer).length ≤ search'.spentBudget := by
  have hvisited := (h.nodup.subperm h.subset).length_le
  rw [length_cons] at hvisited
  fun_induction searchLayer g points removed layer pops search with
  | case1 _ search hqueue => exact ⟨search, rfl, h, Nat.le_refl _, by simp [hqueue]⟩
  | case2 search point queue hqueue =>
    rw [hqueue, length_cons] at hpops
    omega
  | case3 search point queue pops hqueue ih =>
    have hpopped : Search.Valid points entryPoint { search with queue } := { h with }
    obtain ⟨hvalid, hsub, hlength, hspent⟩ := follows_foldl removed hpopped (g.links point layer)
    rw [hqueue, length_cons] at hpops
    dsimp only at hlength hsub hspent
    obtain ⟨search', heq, hvalid', hle, hseen⟩ := ih hvalid (by omega) (hvalid.nodup.subperm hvalid.subset).length_le
    refine ⟨search', heq, hvalid', by omega, fun other hother => ?_⟩
    rw [hqueue] at hother
    rcases mem_cons.mp hother with rfl | hmem
    · omega
    · have hlinks := hseen other (hsub hmem)
      omega

theorem searchLayers_eq (g : GraphLayersBuilder) (h : search.Valid points entryPoint) (layers : List Nat) :
    ∃ search', searchLayers g points removed (points.length + 1) layers search = some search' ∧
      search.spentBudget ≤ search'.spentBudget ∧ ∀ layer ∈ layers,
        search.spentBudget + (g.links entryPoint layer).length ≤ search'.spentBudget := by
  induction layers generalizing search with
  | nil => exact ⟨search, rfl, Nat.le_refl _, nofun⟩
  | cons layer layers ih =>
    have hstart : Search.Valid points entryPoint { search with queue := search.previousVisitedPoints } :=
      { h with }
    obtain ⟨search₁, heq, hvalid, hle, hseen⟩ := searchLayer_eq removed g hstart layer
      (Nat.le_trans (Nat.add_le_add_right h.previous _) (Nat.le_of_eq (Nat.add_comm _ _)))
    obtain ⟨search', heq', hle', hseen'⟩ := ih hvalid
    refine ⟨search', ?_, Nat.le_trans hle hle', fun other hother => ?_⟩
    · rw [searchLayers, foldlM_cons, heq]
      exact heq'
    · rcases mem_cons.mp hother with rfl | hmem
      · exact Nat.le_trans (hseen entryPoint h.entry) hle'
      · have hlinks := hseen' other hmem
        dsimp only at hle
        omega

theorem isSome_retry {layer : Nat} (hlinks : g.links entryPoint layer ≠ []) {retries spentBudget : Nat}
    (hretries : subgraphConnectivitySearchBudget < retries + spentBudget) (hpos : 0 < retries) :
    (retry g points removed entryPoint (points.length + 1) spentBudget retries).isSome := by
  induction retries generalizing spentBudget with
  | zero => cases hpos
  | succ retries ih =>
    have hlayer : layer < (g.linksLayers entryPoint).length := by
      by_contra hnot
      exact hlinks (by simp [GraphLayersBuilder.links, Nat.not_lt.mp hnot])
    have hvalid : Search.Valid points entryPoint ⟨[entryPoint], [], [entryPoint], 1, spentBudget⟩ :=
      ⟨nodup_singleton _, by simp, mem_singleton_self _, Nat.le_refl _⟩
    obtain ⟨search, heq, -, hseen⟩ := searchLayers_eq removed g hvalid
      (List.range (g.linksLayers entryPoint).length).reverse
    have hspent := hseen layer (by simpa using hlayer)
    have hlength := length_pos_iff.mpr hlinks
    rw [retry, heq]
    change Option.isSome (if _ then _ else _) = true
    split
    next => rfl
    next hbudget =>
      dsimp only at hspent
      exact ih (by omega) (by omega)

theorem searchLayer_unlinked {layer pops : Nat} (hlinks : g.links entryPoint layer = [])
    (hqueue : search.queue = [entryPoint]) {search' : Search}
    (h : searchLayer g points removed layer pops search = some search') :
    search' = { search with queue := [] } := by
  unfold searchLayer at h
  rw [hqueue] at h
  cases pops with
  | zero => cases h
  | succ pops =>
    dsimp only at h
    rw [hlinks, foldl_nil] at h
    cases pops <;> exact (Option.some.inj h).symm

/-- A search from a point without links sees none. -/
theorem searchLayers_unlinked {pops : Nat} (hlinks : ∀ layer, g.links entryPoint layer = [])
    (layers : List Nat) (hprevious : search.previousVisitedPoints = [entryPoint]) {search' : Search}
    (h : searchLayers g points removed pops layers search = some search') :
    search'.spentBudget = search.spentBudget := by
  induction layers generalizing search with
  | nil =>
    cases h
    rfl
  | cons layer layers ih =>
    rw [searchLayers, foldlM_cons] at h
    obtain ⟨search₁, hlayer, hrest⟩ := Option.bind_eq_some_iff.mp h
    obtain rfl := searchLayer_unlinked removed (hlinks layer) hprevious hlayer
    exact @ih { search with queue := [] } hprevious hrest

theorem retry_unlinked (hlinks : ∀ layer, g.links entryPoint layer = []) (pops retries : Nat) :
    retry g points removed entryPoint pops 0 retries = none := by
  induction retries with
  | zero => rfl
  | succ retries ih =>
    rw [retry]
    cases hsearch : searchLayers g points removed pops (List.range (g.linksLayers entryPoint).length).reverse
      ⟨[entryPoint], [], [entryPoint], 1, 0⟩ with
    | none => rfl
    | some search =>
      have hspent := searchLayers_unlinked removed hlinks _ rfl hsearch
      change (if search.spentBudget > _ then _ else _) = none
      rw [hspent, if_neg (Nat.not_lt_zero _)]
      exact ih

/-- The search is repeated at most 64 times, and takes each point once from the queue of a layer, if
and only if every point that may be drawn as the entry point has a link. A search from a point without
one goes on for ever. -/
theorem subgraphConnectivity_ends_iff (g : GraphLayersBuilder) (points : List Nat) (hpoints : points ≠ []) :
    ((∀ entryPoint ∈ g.eligible points, ∀ removed, (subgraphConnectivity g points removed entryPoint
        (points.length + 1) (subgraphConnectivitySearchBudget + 1)).isSome) ↔
      ∀ entryPoint ∈ g.eligible points, ∃ layer, g.links entryPoint layer ≠ []) ∧
    ∀ entryPoint, (∀ layer, g.links entryPoint layer = []) → ∀ removed pops retries,
      subgraphConnectivity g points removed entryPoint pops retries = none := by
  have hnever : ∀ entryPoint, (∀ layer, g.links entryPoint layer = []) → ∀ removed pops retries,
      subgraphConnectivity g points removed entryPoint pops retries = none := by
    intro entryPoint hlinks removed pops retries
    rw [subgraphConnectivity, if_neg hpoints, retry_unlinked removed hlinks]
    rfl
  refine ⟨⟨fun hends entryPoint hmem => ?_, fun hlinked entryPoint hmem removed => ?_⟩, hnever⟩
  · by_contra hnot
    push Not at hnot
    have hsome := hends entryPoint hmem fun _ => true
    rw [hnever entryPoint hnot] at hsome
    cases hsome
  · obtain ⟨layer, hlinks⟩ := hlinked entryPoint hmem
    rw [subgraphConnectivity, if_neg hpoints, Option.isSome_map]
    exact isSome_retry removed hlinks (Nat.lt_succ_self _) (Nat.succ_pos _)

/-- Two points that are linked with each other. -/
def linked : GraphLayersBuilder where
  linksLayers point := [[1 - point]]
  entryPoints := [0]
  extraEntryPoints := []
  layered point layer link hlink := by
    cases layer <;> simp_all

theorem subgraphConnectivity_ends_iff_linked :
    (subgraphConnectivity linked [0, 1] (fun _ => true) 0 3 65).isSome :=
  (subgraphConnectivity_ends_iff linked [0, 1] (cons_ne_nil _ _)).1.mpr
    (fun _ hmem => ⟨0, by rw [mem_singleton.mp hmem]; decide⟩) 0 (mem_singleton_self 0) fun _ => true

/-- Points without links. -/
def unlinked : GraphLayersBuilder where
  linksLayers _ := [[]]
  entryPoints := []
  extraEntryPoints := []
  layered _ layer := by cases layer <;> simp

/-- The search from a point without links is repeated for ever. -/
theorem subgraphConnectivity_unlinked : unlinked.eligible [0] = [0] ∧ ∀ removed pops retries,
    subgraphConnectivity unlinked [0] removed 0 pops retries = none := by
  refine ⟨rfl, fun removed pops retries => ?_⟩
  rw [subgraphConnectivity, if_neg (cons_ne_nil _ _), retry_unlinked]
  · rfl
  · intro layer
    cases layer <;> rfl

end Qdrant.Connectivity
