-- SUMMARY: The greedy search for an entry point through the levels of an HNSW graph.
import Mathlib.Data.Finset.Card

/-!
# Search of an entry point

`search_entry` (`lib/segment/src/index/hnsw_index/graph_layers.rs`) goes down the levels of a
graph and moves on each of them to better points, as long as a link leads to one. A scored
point is its id here: the scorer gives its score, in any linear order. The flag that stops a
search can be set at any time, and is read before each level.
-/

namespace Qdrant.Hnsw

open List

/-- A graph and the scorer of a query. -/
structure GraphLayers (S : Type) where
  numPoints : Nat
  links : Nat → Nat → List Nat
  lt : ∀ point level, ∀ link ∈ links point level, link < numPoints
  getM : Nat → Nat
  score : Nat → S
  checkVector : Nat → Bool

structure CancelledError where
deriving DecidableEq

def checkProcessStopped (isStopped : Bool) : Except CancelledError Unit :=
  if isStopped then .error {} else .ok ()

namespace GraphLayers

variable {S : Type} [LinearOrder S] (g : GraphLayers S)

/-- The points that `score_points` scores. -/
def scorePoints (ids : List Nat) (limit : Nat) : List Nat :=
  let ids := ids.filter g.checkVector
  if limit ≠ 0 then ids.take limit else ids

/-- The best point so far, and whether it has changed. -/
def improve (state : Bool × Nat) (p : Nat) : Bool × Nat :=
  if g.score state.2 < g.score p then (true, p) else state

def searchEntryOnLevel (level : Nat) : Nat → Nat → Option Nat
  | 0, _ => none
  | fuel + 1, current =>
    let (changed, next) := (g.scorePoints (g.links current level) (g.getM level)).foldl g.improve
      (false, current)
    if changed then searchEntryOnLevel level fuel next else some next

/-- The levels from the top down. `isStopped` is the flag as it is read before a level. -/
def searchEntry (isStopped : Nat → Bool) (fuel entryPoint topLevel targetLevel : Nat) :
    Option (Except CancelledError Nat) :=
  (range' (targetLevel + 1) (topLevel - targetLevel)).reverse.foldlM (fun levelEntry level => do
    match levelEntry with
    | .error err => return .error err
    | .ok levelEntry =>
      match checkProcessStopped (isStopped level) with
      | .error err => return .error err
      | .ok () => return .ok (← g.searchEntryOnLevel level fuel levelEntry)) (.ok entryPoint)

theorem foldl_improve (ps : List Nat) (state : Bool × Nat) :
    let result := ps.foldl g.improve state
    (∀ p ∈ ps, g.score p ≤ g.score result.2) ∧ (result = state ∨
      result.1 = true ∧ result.2 ∈ ps ∧ g.score state.2 < g.score result.2) := by
  induction ps generalizing state with
  | nil => simp
  | cons p ps ih =>
    have hrest := ih (g.improve state p)
    rw [foldl_cons]
    generalize ps.foldl g.improve _ = result at hrest ⊢
    grind [improve]

/-- No point that is compared with it is better. -/
def LocallyBest (level p : Nat) : Prop :=
  ∀ q ∈ g.scorePoints (g.links p level) (g.getM level), g.score q ≤ g.score p

def better (p : Nat) : Finset Nat :=
  (Finset.range g.numPoints).filter (g.score p < g.score ·)

-- Every move leaves fewer points that are better.
theorem searchEntryOnLevel_spec (level : Nat) {fuel entry : Nat}
    (hfuel : (g.better entry).card < fuel) :
    ∃ p, g.searchEntryOnLevel level fuel entry = some p ∧ g.score entry ≤ g.score p ∧
      (p = entry ∨ g.checkVector p) ∧ g.LocallyBest level p := by
  induction fuel generalizing entry with
  | zero => cases hfuel
  | succ fuel ih =>
    obtain ⟨hbest, hresult⟩ := g.foldl_improve (g.scorePoints (g.links entry level) (g.getM level))
      (false, entry)
    rw [searchEntryOnLevel]
    generalize foldl g.improve _ _ = result at *
    obtain rfl | ⟨hchanged, hmem, hlt⟩ := hresult
    · exact ⟨entry, rfl, le_rfl, .inl rfl, hbest⟩
    · have hnext : result.2 ∈ (g.links entry level).filter g.checkVector := by grind [scorePoints]
      obtain ⟨hlink, hcheck⟩ := mem_filter.mp hnext
      have hsub : g.better result.2 ⊆ g.better entry :=
        Finset.monotone_filter_right _ fun q _ => hlt.trans
      have hless := (Finset.ssubset_iff_of_subset hsub).mpr
        ⟨result.2, by simp [better, g.lt _ _ _ hlink, hlt]⟩
      have hcard := (Finset.card_lt_card hless).trans_le (Nat.le_of_lt_succ hfuel)
      obtain ⟨p, hp, hle, hpass, hlocal⟩ := ih hcard
      refine ⟨p, by simp [hchanged, hp], hlt.le.trans hle, .inr ?_, hlocal⟩
      exact hpass.elim (fun h => h ▸ hcheck) id

/-- What a search ends with: an error if it was stopped, and else a point that is not worse than the
entry point and passes the filters, if it is another one. On the last level no link that is
followed leads to a better point. -/
def Found (isStopped : Nat → Bool) (entryPoint topLevel targetLevel : Nat) :
    Except CancelledError Nat → Prop
  | .error _ => ∃ level, targetLevel < level ∧ level ≤ topLevel ∧ isStopped level = true
  | .ok p => (∀ level, targetLevel < level → level ≤ topLevel → isStopped level = false) ∧
      g.score entryPoint ≤ g.score p ∧ (p = entryPoint ∨ g.checkVector p) ∧
      (targetLevel < topLevel → g.LocallyBest (targetLevel + 1) p)

theorem searchEntry_spec (isStopped : Nat → Bool) (entryPoint topLevel targetLevel : Nat) :
    ∃ result, g.searchEntry isStopped (g.numPoints + 1) entryPoint topLevel targetLevel = some result ∧
      g.Found isStopped entryPoint topLevel targetLevel result := by
  rw [searchEntry]
  induction hlevels : topLevel - targetLevel generalizing targetLevel with
  | zero =>
    have hle := Nat.le_of_sub_eq_zero hlevels
    exact ⟨.ok entryPoint, rfl, fun level hlt hle' => absurd (hlt.trans_le hle') hle.not_gt, le_rfl,
      .inl rfl, fun hlt => absurd hlt hle.not_gt⟩
  | succ levels ih =>
    obtain ⟨result, hresult, hfound⟩ := ih (targetLevel + 1) (by omega)
    rw [range'_succ, reverse_cons, foldlM_append, hresult]
    cases result with
    | error err =>
      obtain ⟨level, hlt, hle, hstopped⟩ := hfound
      exact ⟨.error err, rfl, level, Nat.lt_of_succ_lt hlt, hle, hstopped⟩
    | ok p =>
      obtain ⟨hrunning, hle, hpass, -⟩ := hfound
      cases hstopped : isStopped (targetLevel + 1) with
      | true =>
        exact ⟨.error {}, by simp [checkProcessStopped, hstopped], targetLevel + 1, by omega,
          by omega, hstopped⟩
      | false =>
        have hfuel : (g.better p).card < g.numPoints + 1 :=
          Nat.lt_succ_of_le ((Finset.card_filter_le _ _).trans (Finset.card_range _).le)
        obtain ⟨q, hq, hle', hpass', hlocal⟩ := g.searchEntryOnLevel_spec (targetLevel + 1) hfuel
        refine ⟨.ok q, by simp [checkProcessStopped, hstopped, hq], fun level hlt hle => ?_,
          hle.trans hle', by grind, fun _ => hlocal⟩
        rcases Nat.eq_or_lt_of_le hlt with rfl | hlt
        · exact hstopped
        · exact hrunning level hlt hle

/-- Three points in a row on the first level above the ground, scored by their ids. -/
def threePoints : GraphLayers Nat where
  numPoints := 3
  links point level := if level = 1 ∧ point < 2 then [point + 1] else []
  lt point level link hlink := by
    split at hlink
    · simp at hlink; omega
    · cases hlink
  getM _ := 2
  score := id
  checkVector _ := true

theorem searchEntry_spec_threePoints :
    threePoints.searchEntry (fun _ => false) 4 0 2 0 = some (.ok 2) ∧ threePoints.LocallyBest 1 2 ∧
      threePoints.searchEntry (fun level => level = 1) 4 0 2 0 = some (.error {}) := by
  obtain ⟨result, hresult, hfound⟩ := threePoints.searchEntry_spec (fun _ => false) 0 2 0
  have hend : threePoints.searchEntry (fun _ => false) 4 0 2 0 = some (.ok 2) := by decide
  cases hresult.symm.trans hend
  exact ⟨hend, hfound.2.2.2 (by decide), by decide⟩

end GraphLayers

end Qdrant.Hnsw
