-- SUMMARY: Where the links of a point on a level stand: level offsets, the back index and its inverse.
import Mathlib.Data.List.GetD
import Qdrant.Hnsw.GraphLinks

/-!
# The order of points and levels

`levelSize level` is the number of points that have the level, and `levelStart level` the
number of lists of links on the levels before it. The points that have a level are the first
ones of the back index, so their place is told by `reindex`.
-/

namespace Qdrant.GraphLinks

open List

/-- Edges that a graph can have. -/
structure WellFormed (edges : Edges) : Prop where
  levels : ∀ point ∈ edges, point ≠ []
  links : ∀ point ∈ edges, ∀ rawLinks ∈ point, ∀ link ∈ rawLinks, link < edges.length
  /-- Ids are of type `u32`. -/
  points : edges.length ≤ 2 ^ 32
  /-- Every list of links is a vector in memory, of three words and more. -/
  memory : 24 * (edges.map List.length).sum < 2 ^ 64

theorem WellFormed.links_lt {edges : Edges} (h : WellFormed edges) {pointId level : Nat}
    {point : List (List Nat)} {rawLinks : List Nat} (hpoint : edges[pointId]? = some point)
    (hraw : point[level]? = some rawLinks) : ∀ link ∈ rawLinks, link < edges.length :=
  h.links point (mem_of_getElem? hpoint) rawLinks (mem_of_getElem? hraw)

section

variable (edges : Edges)

/-- The number of points that have the level. -/
def levelSize (level : Nat) : Nat := edges.countP fun point => level < point.length

/-- The number of lists of links before the level. -/
def levelStart (level : Nat) : Nat := ((List.range level).map (levelSize edges)).sum

@[simp] theorem levelStart_zero : levelStart edges 0 = 0 := rfl

theorem levelStart_succ (level : Nat) :
    levelStart edges (level + 1) = levelStart edges level + levelSize edges level := by
  simp [levelStart, range_succ]

theorem levelSize_succ (level : Nat) : levelSize edges level =
      edges.countP (fun point => point.length = level + 1) + levelSize edges (level + 1) := by
  induction edges with
  | nil => rfl
  | cons point edges ih =>
    unfold levelSize at ih ⊢
    simp only [countP_cons, decide_eq_true_eq]
    split <;> split <;> split <;> omega

theorem levelSize_le (level : Nat) : levelSize edges level ≤ edges.length := countP_le_length

end

variable {levelsCount : Nat} {edges : Edges}

/-- All lists of links. -/
theorem levelStart_eq_sum (hle : ∀ point ∈ edges, point.length ≤ levelsCount) :
    levelStart edges levelsCount = (edges.map List.length).sum := by
  induction edges with
  | nil =>
    have hzero : ∀ n, levelStart [] n = 0 := by
      intro n
      induction n with
      | zero => rfl
      | succ n ih => rw [levelStart_succ, ih]; rfl
    exact hzero levelsCount
  | cons point edges ih =>
    have hcons : ∀ n, levelStart (point :: edges) n = min n point.length + levelStart edges n := by
      intro n
      induction n with
      | zero => simp
      | succ n ihn =>
        have hsize : levelSize (point :: edges) n =
            levelSize edges n + if n < point.length then 1 else 0 := by
          simp only [levelSize, countP_cons, decide_eq_true_eq]
        rw [levelStart_succ, levelStart_succ, hsize]
        split <;> omega
    rw [hcons, ih fun p hp => hle p (mem_cons_of_mem _ hp),
      Nat.min_eq_right (hle point mem_cons_self), map_cons, sum_cons]

/-! ## Counts and level offsets -/

/-- The number of points for which the level is the last one. -/
def lastLevelCount (edges : Edges) (level : Nat) : Nat := edges.countP fun point => point.length = level + 1

theorem pointCountByLevel_eq (hne : ∀ point ∈ edges, point ≠ [])
    (hle : ∀ point ∈ edges, point.length ≤ levelsCount) :
    pointCountByLevel levelsCount edges = .ok ((List.range levelsCount).map (lastLevelCount edges)) := by
  have hall : ∀ (points : Edges) (counts : List Nat), counts.length = levelsCount →
      (∀ point ∈ points, point ≠ [] ∧ point.length ≤ levelsCount) →
      points.foldlM (fun counts point =>
        if point.length = 0 ∨ counts.length < point.length then Except.error GraphLinksError.panicked
        else .ok (counts.modify (point.length - 1) (· + 1))) counts =
      .ok ((List.range levelsCount).map fun level => counts.getD level 0 + lastLevelCount points level) := by
    intro points
    induction points with
    | nil =>
      intro counts hlen _
      apply congrArg Except.ok
      apply ext_getElem
      · simp [hlen]
      · intro i hi _
        simp [lastLevelCount, hi]
    | cons point points ih =>
      intro counts hlen hpoints
      obtain ⟨hnil, hcount⟩ := hpoints point mem_cons_self
      have hpos := length_pos_iff.mpr hnil
      rw [foldlM_cons, if_neg (by omega)]
      refine (ih (counts.modify (point.length - 1) (· + 1)) (by simpa using hlen)
        fun p hp => hpoints p (mem_cons_of_mem _ hp)).trans ?_
      apply congrArg Except.ok
      apply map_congr_left
      intro level hlevel
      rw [mem_range, ← hlen] at hlevel
      simp only [lastLevelCount, getD_eq_getElem?_getD, getElem?_modify, getElem?_eq_getElem hlevel]
      by_cases heq : point.length = level + 1
      · simp [heq]
        omega
      · have hne : ¬ point.length - 1 = level := by omega
        simp [heq, hne]
  have hstart := hall edges (List.replicate levelsCount 0) length_replicate
    fun point hpoint => ⟨hne point hpoint, hle point hpoint⟩
  rw [pointCountByLevel, hstart]
  apply congrArg Except.ok
  apply map_congr_left
  intro level hlevel
  simp [getD_eq_getElem?_getD]

section

variable {edges : Edges} {levelsCount : Nat}

section

variable (hle : ∀ point ∈ edges, point.length ≤ levelsCount)

include hle

theorem sum_counts_from (n : Nat) : ∀ level, level + n = levelsCount →
      ((List.range' level n).map (lastLevelCount edges)).sum = levelSize edges level := by
  induction n with
  | zero =>
    rintro level rfl
    symm
    apply countP_eq_zero.mpr
    intro point hpoint
    simpa using hle point hpoint
  | succ n ih =>
    intro level hlevel
    rw [List.range'_succ, map_cons, sum_cons, ih (level + 1) (by omega), levelSize_succ edges level]
    rfl

/-- The points that have a level have it, or a later one, as their last. -/
theorem sum_drop_counts {level : Nat} (hlevel : level ≤ levelsCount) :
    (((List.range levelsCount).map (lastLevelCount edges)).drop level).sum = levelSize edges level := by
  rw [← map_drop, range_eq_range', drop_range', Nat.zero_add, Nat.mul_one]
  exact sum_counts_from hle _ level (by omega)

theorem levelOffsets_eq : levelOffsets ((List.range levelsCount).map (lastLevelCount edges)) =
      (List.range levelsCount).map (levelStart edges) := by
  have hall : ∀ n level, level + n = levelsCount →
      levelOffsetsFrom (levelStart edges level) (levelSize edges level)
        ((List.range' level n).map (lastLevelCount edges)) =
      (List.range' level n).map (levelStart edges) := by
    intro n
    induction n with
    | zero => intro level _; rfl
    | succ n ih =>
      intro level hlevel
      have hsub : levelSize edges level - lastLevelCount edges level = levelSize edges (level + 1) := by
        rw [levelSize_succ, lastLevelCount, Nat.add_sub_cancel_left]
      rw [List.range'_succ, map_cons, map_cons, levelOffsetsFrom, hsub, ← levelStart_succ,
        ih (level + 1) (by omega)]
  have hsum := sum_drop_counts hle (Nat.zero_le levelsCount)
  rw [drop_zero] at hsum
  rw [levelOffsets, hsum, range_eq_range']
  exact hall levelsCount 0 (Nat.zero_add _)

end

end

/-! ## The back index -/

/-- In a list that is sorted by descending keys, the elements with a large key come first. -/
theorem lt_countP_iff {α : Type} {key : α → Nat} {l : List α}
    (hsorted : l.Pairwise fun a b => key b ≤ key a) {i : Nat} {x : α} (hx : l[i]? = some x) (bound : Nat) :
    i < l.countP (fun a => bound < key a) ↔ bound < key x := by
  induction l generalizing i with
  | nil => cases hx
  | cons a l ih =>
    by_cases hlt : bound < key a
    · rw [countP_cons_of_pos (by simpa using hlt)]
      cases i with
      | zero =>
        obtain rfl : a = x := by simpa using hx
        simp [hlt]
      | succ i => rw [Nat.succ_lt_succ_iff, ih hsorted.of_cons (by simpa using hx)]
    · have hall : ∀ b ∈ a :: l, ¬ bound < key b := by
        intro b hb
        rcases mem_cons.mp hb with rfl | hb
        · exact hlt
        · exact fun h => hlt (h.trans_le (rel_of_pairwise_cons hsorted hb))
      have hzero : (a :: l).countP (fun a => bound < key a) = 0 :=
        countP_eq_zero.mpr fun b hb => by simpa using hall b hb
      rw [hzero]
      exact iff_of_false (Nat.not_lt_zero _) (hall x (mem_of_getElem? hx))

theorem foldl_set_zipIdx (l : List Nat) (start : Nat) (r : List Nat) (hnodup : l.Nodup)
    (hlt : ∀ x ∈ l, x < r.length) :
    (((l.zipIdx start).foldl (fun r (id, i) => r.set id i) r).length = r.length) ∧
      (∀ i x, l[i]? = some x →
        ((l.zipIdx start).foldl (fun r (id, i) => r.set id i) r)[x]? = some (start + i)) ∧
      ∀ x, x ∉ l → ((l.zipIdx start).foldl (fun r (id, i) => r.set id i) r)[x]? = r[x]? := by
  induction l generalizing start r with
  | nil => exact ⟨rfl, fun _ _ h => (nomatch h), fun _ _ => rfl⟩
  | cons y l ih =>
    obtain ⟨hy, hl⟩ := nodup_cons.mp hnodup
    obtain ⟨hlen, hin, hout⟩ := ih (start + 1) (r.set y start) hl fun x hx => by
      rw [length_set]
      exact hlt x (mem_cons_of_mem _ hx)
    rw [zipIdx_cons, foldl_cons]
    refine ⟨hlen.trans (length_set ..), fun i x hx => ?_, fun x hx => ?_⟩
    · cases i with
      | zero =>
        obtain rfl : y = x := by simpa using hx
        rw [hout y hy, getElem?_set_self (hlt y mem_cons_self), Nat.add_zero]
      | succ i =>
        rw [hin i x (by simpa using hx)]
        congr 1
        omega
    · have hne : y ≠ x := fun h => hx (h ▸ mem_cons_self)
      rw [hout x fun h => hx (mem_cons_of_mem _ h), getElem?_set_ne hne]

namespace BackIndex

variable {edges : Edges} (backIndex : BackIndex edges)

theorem nodup : backIndex.order.Nodup := backIndex.perm.nodup_iff.mpr nodup_range

theorem length_order : backIndex.order.length = edges.length := by
  rw [backIndex.perm.length_eq, length_range]

variable {pointId : Nat}

theorem mem_order : pointId ∈ backIndex.order ↔ pointId < edges.length := by
  rw [backIndex.perm.mem_iff, mem_range]

theorem countP_order (level : Nat) :
    backIndex.order.countP (fun id => level < (edges.getD id []).length) = levelSize edges level := by
  have hmap : (List.range edges.length).map (edges.getD · []) = edges := by
    apply ext_getElem
    · simp
    · intro i _ hi
      simp [hi]
  rw [backIndex.perm.countP_eq, levelSize]
  conv_rhs => rw [← hmap, countP_map]
  rfl

theorem length_le_levelsCount : ∀ point ∈ edges, point.length ≤ backIndex.levelsCount := by
  intro point hpoint
  obtain ⟨id, hid⟩ := List.getElem?_of_mem hpoint
  have hlt := (List.getElem?_eq_some_iff.mp hid).1
  have hmem := backIndex.mem_order.mpr hlt
  have hpointId : (edges.getD id []) = point := by rw [List.getD_eq_getElem?_getD, hid, Option.getD_some]
  have hsorted := backIndex.sorted
  unfold levelsCount
  cases horder : backIndex.order with
  | nil => rw [horder] at hmem; cases hmem
  | cons first rest =>
    rw [horder] at hmem hsorted
    rcases List.mem_cons.mp hmem with rfl | hmem
    · exact hpointId ▸ le_rfl
    · exact hpointId ▸ List.rel_of_pairwise_cons hsorted hmem

theorem lt_length_reindex : ∀ x ∈ backIndex.order,
    x < (List.replicate backIndex.order.length 0).length := by
  intro x hx
  rw [length_replicate, length_order]
  exact backIndex.mem_order.mp hx

/-- A point has one place in the back index, and `reindex` tells it. -/
theorem exists_place (h : pointId < edges.length) :
    ∃ place, backIndex.order[place]? = some pointId ∧
      (reindex backIndex.order)[pointId]? = some place := by
  obtain ⟨place, hplace⟩ := getElem?_of_mem (backIndex.mem_order.mpr h)
  have hset := (foldl_set_zipIdx backIndex.order 0 _ backIndex.nodup backIndex.lt_length_reindex).2.1
    place pointId hplace
  rw [Nat.zero_add] at hset
  exact ⟨place, hplace, hset⟩

theorem length_reindex : (reindex backIndex.order).length = edges.length := by
  have hset := (foldl_set_zipIdx backIndex.order 0 _ backIndex.nodup backIndex.lt_length_reindex).1
  exact hset.trans (length_replicate.trans backIndex.length_order)

theorem place_lt_iff {place : Nat} {point : List (List Nat)}
    (hplace : backIndex.order[place]? = some pointId) (hpoint : edges[pointId]? = some point) (level : Nat) :
    place < levelSize edges level ↔ level < point.length := by
  have hkey : place < backIndex.order.countP (fun id => level < (edges.getD id []).length) ↔
      level < (edges.getD pointId []).length := lt_countP_iff backIndex.sorted hplace level
  rw [countP_order, getD_eq_getElem?_getD, hpoint] at hkey
  exact hkey

end BackIndex

/-! ## The level of a point -/

theorem pointLevelFrom_eq {place levels : Nat} (hlevels : levels ≤ levelsCount)
    (hplace : ∀ level, place < levelSize edges level ↔ level < levels) (n : Nat) :
    ∀ level, level + n = levelsCount → level < levels →
      GraphLinksView.pointLevelFrom place (levelsCount - 1) level
        ((List.range' (level + 1) n).map (levelStart edges)) = levels - 1 := by
  induction n with
  | zero =>
    intro level hlevel hlt
    omega
  | succ n ih =>
    intro level hlevel hlt
    cases n with
    | zero =>
      rw [GraphLinksView.pointLevelFrom]
      · omega
      · intro a b rest h
        cases h
    | succ n =>
      have hsize : levelStart edges (level + 1 + 1) - levelStart edges (level + 1) =
          levelSize edges (level + 1) := by
        rw [levelStart_succ, Nat.add_sub_cancel_left]
      have hnext := ih (level + 1) (by omega)
      rw [List.range'_succ, map_cons, List.range'_succ, map_cons,
        GraphLinksView.pointLevelFrom, hsize]
      split
      next hge =>
        have := (hplace (level + 1)).not.mp (not_lt.mpr hge)
        omega
      next hlt' => exact hnext ((hplace (level + 1)).mp (Nat.lt_of_not_le hlt'))

/-! ## The place of a list of links -/

theorem getElem?_flatMap_range {α : Type} (f : Nat → List α) {n l j : Nat} (hl : l < n)
    (hj : j < (f l).length) :
    ((List.range n).flatMap f)[((List.range l).map fun k => (f k).length).sum + j]? = (f l)[j]? := by
  have hlen : ∀ m, ((List.range m).flatMap f).length = ((List.range m).map fun k => (f k).length).sum :=
    fun m => length_flatMap
  obtain ⟨k, rfl⟩ := Nat.exists_eq_add_of_lt hl
  have hsplit : List.range (l + k + 1) = List.range l ++ l :: (List.range' (l + 1) k) := by
    rw [range_eq_range', Nat.add_assoc, ← List.range'_append_1, Nat.zero_add, List.range'_succ,
      ← range_eq_range']
  rw [hsplit, flatMap_append, getElem?_append_right (by rw [hlen]; omega), hlen,
    Nat.add_sub_cancel_left, flatMap_cons, getElem?_append_left hj]

section

variable {edges : Edges} (backIndex : BackIndex edges)

/-- The points of a level in the order of the file. -/
def levelPoints (level : Nat) : List Nat :=
  if level = 0 then List.range (levelSize edges level)
  else backIndex.order.take (levelSize edges level)

@[simp] theorem length_levelPoints (level : Nat) :
    (levelPoints backIndex level).length = levelSize edges level := by
  have hle := levelSize_le edges level
  unfold levelPoints
  split
  · exact length_range
  · rw [length_take, backIndex.length_order, Nat.min_eq_left hle]

/-- All levels and points in the order of the file. -/
def allVisits : List (Nat × Nat) :=
  visits backIndex.levelsCount ((List.range backIndex.levelsCount).map (lastLevelCount edges))
    backIndex.order

theorem visits_eq : allVisits backIndex = (List.range backIndex.levelsCount).flatMap fun level =>
      (levelPoints backIndex level).map (level, ·) := by
  apply flatMap_congr
  intro level hlevel
  rw [sum_drop_counts backIndex.length_le_levelsCount (mem_range.mp hlevel).le]
  rfl

theorem length_visits : (allVisits backIndex).length = levelStart edges backIndex.levelsCount := by
  rw [visits_eq]
  simp [levelStart]

/-- The place of the links of a point on a level. -/
theorem getElem?_visits {pointId place level : Nat} {point : List (List Nat)}
    (hne : ∀ point ∈ edges, point ≠ []) (hplace : backIndex.order[place]? = some pointId)
    (hpoint : edges[pointId]? = some point) (hlevel : level < point.length) :
    (allVisits backIndex)[if level = 0 then pointId else levelStart edges level + place]? =
      some (level, pointId) := by
  have hcount := hlevel.trans_le
    (backIndex.length_le_levelsCount point (List.mem_of_getElem? hpoint))
  have hsum : ((List.range level).map fun k => ((levelPoints backIndex k).map (k, ·)).length).sum =
      levelStart edges level := by
    simp [levelStart]
  have hget : ∀ j, j < levelSize edges level → (allVisits backIndex)[levelStart edges level + j]? =
        (levelPoints backIndex level)[j]?.map (level, ·) := by
    intro j hj
    have hflat := getElem?_flatMap_range (fun level => (levelPoints backIndex level).map (level, ·))
      hcount (j := j) (by simpa using hj)
    rw [hsum, ← visits_eq, List.getElem?_map] at hflat
    exact hflat
  split
  next hzero =>
    subst hzero
    have hall : levelSize edges 0 = edges.length :=
      List.countP_eq_length.mpr fun p hp => by simpa using List.length_pos_iff.mpr (hne p hp)
    have hlt : pointId < levelSize edges 0 := hall ▸ (List.getElem?_eq_some_iff.mp hpoint).1
    have hfirst := hget pointId hlt
    rw [levelStart_zero, Nat.zero_add] at hfirst
    rw [hfirst, levelPoints, if_pos rfl, List.getElem?_range hlt]
    rfl
  next hpos =>
    have hlt := (backIndex.place_lt_iff hplace hpoint level).mpr hlevel
    rw [hget place hlt, levelPoints, if_neg hpos, List.getElem?_take_of_lt hlt, hplace]
    rfl

end

end Qdrant.GraphLinks
