-- SUMMARY: The neighbour lists of layer 0 are valid, whatever the threads do in which order.
import Qdrant.Base.Threads
import Mathlib

/-!
# Layer 0 is valid

Every candidate in a pool of `u` is the id of a point that is alive, with the score of
that point and `u`. All lock sections keep this, since scores are symmetric: a candidate
that moves to another pool gets the score of its new pair, and a reversed edge has the
same score. Candidates with the same id therefore have the same score, so they are next
to each other once the pool is sorted, and the final list has none of them twice.
-/

namespace Qdrant.Mirage

/-! ## Layer 0 refinement

`build_layer0` (`lib/segment/src/index/mirage_index/refinement_builder.rs`) starts with
random neighbours, then prunes and extends the pools of all points for some rounds. The
points that are alive have dense logical ids. Every phase runs on several threads, and
the pools are behind locks: a phase is a list of threads, with one lock section for
each time a lock is held.

Scores are from any linear order. `sort_unstable_by` may order equal candidates in any
way. A build that is stopped, or whose scorer cannot be made, returns an error; only
builds that run to their end are modelled.
-/

open Threads

section

variable {S : Type} [LinearOrder S]

structure Candidate (S : Type) where
  idx : Nat
  score : S
  newFlag : Bool
deriving DecidableEq

structure ScoredPointOffset (S : Type) where
  idx : Nat
  score : S
deriving DecidableEq

/-- The order of `cmp_desc`: the best score first, then the smallest id. -/
def Candidate.Precedes (a b : Candidate S) : Prop :=
  b.score < a.score ∨ a.score = b.score ∧ a.idx ≤ b.idx

instance (a b : Candidate S) : Decidable (a.Precedes b) :=
  inferInstanceAs (Decidable (_ ∨ _))

/-- What is known of `sort_unstable_by(cmp_desc)`. -/
structure UnstableSort (S : Type) [LinearOrder S] where
  sort : List (Candidate S) → List (Candidate S)
  perm : ∀ l, (sort l).Perm l
  sorted : ∀ l, (sort l).Pairwise Candidate.Precedes

structure RefinementParams where
  s : Nat
  r : Nat
  iter : Nat
  numReverseEdges : Nat

/-- The candidates of every logical id: the pools, and the reverse pools of `add_reverse_edges`. -/
structure Graph (S : Type) where
  pools : Nat → List (Candidate S)
  reverse : Nat → List (Candidate S)

namespace Graph

def empty : Graph S :=
  { pools := fun _ => [], reverse := fun _ => [] }

def setPool (u : Nat) (pool : List (Candidate S)) (g : Graph S) : Graph S :=
  { g with pools := Function.update g.pools u pool }

def setReverse (u : Nat) (pool : List (Candidate S)) (g : Graph S) : Graph S :=
  { g with reverse := Function.update g.reverse u pool }

def pushPool (u : Nat) (c : Candidate S) (g : Graph S) : Graph S :=
  g.setPool u (g.pools u ++ [c])

def pushReverse (u : Nat) (c : Candidate S) (g : Graph S) : Graph S :=
  g.setReverse u (g.reverse u ++ [c])

end Graph

/-- `dedup_by_key(|c| c.idx)`: of consecutive candidates with the same id the first is kept. -/
def dedupByIdx (lastIdx : Option Nat) : List (Candidate S) → List (Candidate S)
  | [] => []
  | c :: rest =>
    if some c.idx = lastIdx then dedupByIdx lastIdx rest else c :: dedupByIdx (some c.idx) rest

/-! ## Random neighbours -/

/-- Raise numbers that are not larger than the one before. -/
def spread (previous : Nat) : List Nat → List Nat
  | [] => []
  | x :: rest =>
    let x := if x ≤ previous then previous + 1 else x
    x :: spread x rest

/-- `rng` gives the outputs of the generator from its current position. -/
def genRandomMirageStyle (rng : Nat → Nat) (size n : Nat) : List Nat :=
  if size = 0 ∨ n = 0 then []
  else
    let upper := n - size
    let addr := ((List.range size).map fun k => rng k % upper).insertionSort (· ≤ ·)
    let addr := match addr with
      | [] => []
      | first :: rest => first :: spread first rest
    let offset := rng size % n
    addr.map fun item => (item + offset) % n

def chunkBounds (threadId numThreads len : Nat) : Nat × Nat :=
  let base := len / numThreads
  let rem := len % numThreads
  let start := threadId * base + min threadId rem
  (start, start + base + if threadId < rem then 1 else 0)

/-- The logical ids that a thread handles. -/
def chunk (threadId numThreads len : Nat) : List Nat :=
  let (start, stop) := chunkBounds threadId numThreads len
  List.range' start (stop - start)

/-- One thread per chunk, which handles its ids in turn. -/
def forChunks (numThreads len : Nat) (handle : Nat → Nat → Thread (Graph S)) : List (Thread (Graph S)) :=
  let numThreads := min (max numThreads 1) (max len 1)
  (List.range numThreads).map fun threadId =>
    Thread.sequence ((chunk threadId numThreads len).map (handle threadId))

/-- One thread per id. -/
def forEach (n : Nat) (handle : Nat → Thread (Graph S)) : List (Thread (Graph S)) :=
  (List.range n).map handle

section Phases

variable (numThreads : Nat) (aliveIndices : List Nat) (scorePair : Nat → Nat → S)
  (sorting : UnstableSort S)

/-- The score of two logical ids. -/
def score (a b : Nat) : S :=
  scorePair (aliveIndices.getD a 0) (aliveIndices.getD b 0)

/-- Fill the pool of `u` with new candidates. -/
def fillPool (u : Nat) (neighbors : List Nat) : Thread (Graph S) :=
  .lock (fun g => g.setPool u (sorting.sort ((neighbors.filter (· ≠ u)).map fun v =>
    { idx := v, score := score aliveIndices scorePair u v, newFlag := true }))) fun _ => .done

/-- `rng` gives the outputs of each thread's generator. A point takes `s + 1` of them. -/
def initRandomGraph (s : Nat) (rng : Nat → Nat → Nat) : List (Thread (Graph S)) :=
  let nAlive := aliveIndices.length
  if nAlive ≤ 1 then []
  else if nAlive ≤ s then
    forChunks numThreads nAlive fun _ u =>
      fillPool aliveIndices scorePair sorting u (List.range nAlive)
  else
    forChunks numThreads nAlive fun threadId u =>
      let first := (chunkBounds threadId (min (max numThreads 1) (max nAlive 1)) nAlive).1
      fillPool aliveIndices scorePair sorting u
        (genRandomMirageStyle (fun k => rng threadId ((u - first) * (s + 1) + k)) s nAlive)

/-! ## Updates -/

inductive Verdict (S : Type) where
  | keep
  | skip
  /-- The candidate becomes one of `other`. -/
  | reject (other : Nat) (score : S)

/-- Compare a candidate with those kept so far. -/
def checkCandidate (nn : Candidate S) : List (Candidate S) → Verdict S
  | [] => .keep
  | other :: others =>
    if !nn.newFlag && !other.newFlag then checkCandidate nn others
    else if other.idx = nn.idx then .skip
    else
      let distNnOther := score aliveIndices scorePair nn.idx other.idx
      if nn.score < distNnOther then .reject other.idx distNnOther
      else checkCandidate nn others

/-- The loop over the candidates of `u`, and the final assignment of those that are kept. -/
def pruneCandidates (u : Nat) : List (Candidate S) → List (Candidate S) → Thread (Graph S)
  | newPool, [] =>
    .lock (fun g => g.setPool u (newPool.map fun c => { c with newFlag := false })) fun _ => .done
  | newPool, nn :: rest =>
    if nn.idx = u then pruneCandidates u newPool rest
    else
      match checkCandidate aliveIndices scorePair nn newPool with
      | .keep => pruneCandidates u (newPool ++ [nn]) rest
      | .skip => pruneCandidates u newPool rest
      | .reject other distNnOther =>
        .lock (fun g => g.pushPool other { idx := nn.idx, score := distNnOther, newFlag := true })
          fun _ => pruneCandidates u newPool rest

/-- The pool is taken at the start, and what others add to it before the end is overwritten. -/
def updatePoint (u : Nat) : Thread (Graph S) :=
  .lock (fun g => g.setPool u []) fun g =>
    pruneCandidates aliveIndices scorePair u [] (dedupByIdx none (sorting.sort (g.pools u)))

def updateRound : List (Thread (Graph S)) :=
  forChunks numThreads aliveIndices.length fun _ u =>
    updatePoint aliveIndices scorePair sorting u

/-! ## Reverse edges -/

/-- Push the reverse of each of these edges of `u`, one lock section each. -/
def pushReversed (n u : Nat) (push : Nat → Candidate S → Graph S → Graph S) :
    List (Candidate S) → Thread (Graph S)
  | [] => .done
  | nn :: rest =>
    if nn.idx ≥ n then pushReversed n u push rest
    else .lock (push nn.idx { idx := u, score := nn.score, newFlag := nn.newFlag }) fun _ =>
      pushReversed n u push rest

def scatterReverse (n u : Nat) : Thread (Graph S) :=
  .lock id fun g => pushReversed n u Graph.pushReverse (g.pools u)

def mergeReverse (numReverseEdges u : Nat) : Thread (Graph S) :=
  .lock (fun g => g.setPool u []) fun g =>
    .lock (fun g' => g'.setReverse u ((dedupByIdx none (sorting.sort
      (g'.reverse u ++ (g.pools u).map fun c => { c with newFlag := true }))).take numReverseEdges))
      fun _ => .done

def backfill (n u : Nat) : Thread (Graph S) :=
  .lock id fun g => pushReversed n u Graph.pushPool (g.reverse u)

def truncatePool (numReverseEdges u : Nat) : Thread (Graph S) :=
  .lock (fun g => g.setPool u ((sorting.sort (g.pools u)).take numReverseEdges)) fun _ => .done

/-- Threads that run until all of them are done, after the main thread has prepared the state. -/
structure Phase (S : Type) where
  prepare : Graph S → Graph S
  threads : List (Thread (Graph S))

def addReverseEdges (numReverseEdges : Nat) : List (Phase S) :=
  let n := aliveIndices.length
  [⟨fun g => { g with reverse := fun _ => [] }, forEach n (scatterReverse n)⟩,
    ⟨id, forEach n (mergeReverse sorting numReverseEdges)⟩,
    ⟨id, forEach n (backfill n)⟩,
    ⟨id, forEach n (truncatePool sorting numReverseEdges)⟩]

/-- All phases of a build. -/
def refinement (params : RefinementParams) (rng : Nat → Nat → Nat) : List (Phase S) :=
  ⟨id, initRandomGraph numThreads aliveIndices scorePair sorting params.s rng⟩ ::
    (List.range params.r).flatMap fun round =>
      List.replicate params.iter ⟨id, updateRound numThreads aliveIndices scorePair sorting⟩ ++
        if round + 1 < params.r then addReverseEdges aliveIndices sorting params.numReverseEdges
        else []

end Phases

/-- Run the phases, each with its own schedule. -/
def runPhases : List (Phase S) → List (List Nat) → Graph S → Option (Graph S)
  | [], _, g => some g
  | phase :: phases, schedules, g =>
    (runThreads (schedules.headD []) phase.threads (phase.prepare g)).bind
      (runPhases phases schedules.tail)

/-! ## The build -/

/-- The final list of a point. Candidates that are the point itself, unknown, dead or repeated are
left out. -/
def selectNeighbors (alive : Nat → Bool) (aliveIndices : List Nat) (u : Nat) :
    Option Nat → List (Candidate S) → List (ScoredPointOffset S)
  | _, [] => []
  | lastIdx, c :: rest =>
    if c.idx = u then selectNeighbors alive aliveIndices u lastIdx rest
    else
      match aliveIndices[c.idx]? with
      | none => selectNeighbors alive aliveIndices u lastIdx rest
      | some actualIdx =>
        if !alive actualIdx then selectNeighbors alive aliveIndices u lastIdx rest
        else if some c.idx = lastIdx then selectNeighbors alive aliveIndices u lastIdx rest
        else ⟨actualIdx, c.score⟩ :: selectNeighbors alive aliveIndices u (some c.idx) rest

def pointOffsetMax : Nat := 2 ^ 32 - 1

/-- The result is `none` if the schedules do not run all threads to their end. -/
def buildLayer0 (numPoints : Nat) (params : RefinementParams) (numThreads : Nat)
    (isAlive : Nat → Bool) (scorePair : Nat → Nat → S) (sorting : UnstableSort S)
    (rng : Nat → Nat → Nat) (schedules : List (List Nat)) :
    Option (Except String (List (List (ScoredPointOffset S)))) :=
  if numPoints = 0 then some (.ok [])
  else if numPoints > pointOffsetMax then
    some (.error "MIRAGE: too many vectors for PointOffsetType")
  else if params.s = 0 then some (.error "MIRAGE: refinement parameter S must be > 0")
  else if params.r = 0 ∨ params.iter = 0 then
    some (.error "MIRAGE: refinement parameters R and iter must both be > 0")
  else
    let aliveIndices := (List.range numPoints).filter isAlive
    if aliveIndices = [] then some (.ok (List.replicate numPoints []))
    else
      (runPhases (refinement numThreads aliveIndices scorePair sorting params rng) schedules
        Graph.empty).map fun g =>
          .ok ((List.range numPoints).map fun actual =>
            match aliveIndices.idxOf? actual with
            | some logical => selectNeighbors isAlive aliveIndices logical none
                (sorting.sort (g.pools logical))
            | none => [])

end

/-! ## Sound pools -/

open List

variable {S : Type}

section Sound

variable {aliveIndices : List Nat} {scorePair : Nat → Nat → S} {g : Graph S} {u : Nat}
  {c : Candidate S} {pool : List (Candidate S)}

/-! ## The invariant -/

/-- A candidate of `u` is alive and has the score of the pair. -/
def Scored (aliveIndices : List Nat) (scorePair : Nat → Nat → S) (u : Nat) (c : Candidate S) :
    Prop :=
  c.idx < aliveIndices.length ∧ c.score = score aliveIndices scorePair u c.idx

structure Graph.Sound (aliveIndices : List Nat) (scorePair : Nat → Nat → S) (g : Graph S) : Prop where
  pools : ∀ u, ∀ c ∈ g.pools u, Scored aliveIndices scorePair u c
  reverse : ∀ u, ∀ c ∈ g.reverse u, Scored aliveIndices scorePair u c

theorem forall_update {p : Nat → Candidate S → Prop} {pools : Nat → List (Candidate S)}
    (h : ∀ u, ∀ c ∈ pools u, p u c) (hpool : ∀ c ∈ pool, p u c) :
    ∀ v, ∀ c ∈ Function.update pools u pool v, p v c := by
  intro v c hc
  by_cases hv : v = u
  · subst hv
    rw [Function.update_self] at hc
    exact hpool c hc
  · rw [Function.update_of_ne hv] at hc
    exact h v c hc

namespace Graph.Sound

section

variable (h : g.Sound aliveIndices scorePair)
  (hpool : ∀ c ∈ pool, Scored aliveIndices scorePair u c)

include h hpool

theorem setPool : (g.setPool u pool).Sound aliveIndices scorePair :=
  ⟨forall_update h.pools hpool, h.reverse⟩

theorem setReverse : (g.setReverse u pool).Sound aliveIndices scorePair :=
  ⟨h.pools, forall_update h.reverse hpool⟩

end

theorem sound_empty : (Graph.empty : Graph S).Sound aliveIndices scorePair :=
  ⟨fun _ _ hc => absurd hc not_mem_nil, fun _ _ hc => absurd hc not_mem_nil⟩

section

variable (h : g.Sound aliveIndices scorePair) (hc : Scored aliveIndices scorePair u c)

include h hc

theorem pushPool : (g.pushPool u c).Sound aliveIndices scorePair :=
  h.setPool (forall_mem_append.mpr ⟨h.pools u, forall_mem_singleton.mpr hc⟩)

theorem pushReverse : (g.pushReverse u c).Sound aliveIndices scorePair :=
  h.setReverse (forall_mem_append.mpr ⟨h.reverse u, forall_mem_singleton.mpr hc⟩)

end

end Graph.Sound

/-! ## Threads that keep an invariant -/

variable {I : Graph S → Prop}

theorem forChunks_keeps {numThreads len : Nat}
    {handle : Nat → Nat → Thread (Graph S)} (h : ∀ threadId u, (handle threadId u).Keeps I) :
    ∀ thread ∈ forChunks numThreads len handle, thread.Keeps I := by
  intro thread hmem
  obtain ⟨threadId, -, rfl⟩ := mem_map.mp hmem
  apply Thread.Keeps.sequence
  intro thread hmem
  obtain ⟨u, -, rfl⟩ := mem_map.mp hmem
  exact h threadId u

theorem forEach_keeps {n : Nat} {handle : Nat → Thread (Graph S)}
    (h : ∀ u < n, (handle u).Keeps I) : ∀ thread ∈ forEach n handle, thread.Keeps I := by
  intro thread hmem
  obtain ⟨u, hu, rfl⟩ := mem_map.mp hmem
  exact h u (mem_range.mp hu)

def Phase.Keeps (I : Graph S → Prop) (phase : Phase S) : Prop :=
  (∀ g, I g → I (phase.prepare g)) ∧ ∀ thread ∈ phase.threads, thread.Keeps I

theorem runPhases_keeps {phases : List (Phase S)} {schedules : List (List Nat)}
    {g' : Graph S} (h : ∀ phase ∈ phases, phase.Keeps I) (hg : I g)
    (hrun : runPhases phases schedules g = some g') : I g' := by
  induction phases generalizing schedules g with
  | nil =>
    cases hrun
    exact hg
  | cons phase phases ih =>
    obtain ⟨hphase, hphases⟩ := forall_mem_cons.mp h
    obtain ⟨g₁, hthreads, hrun⟩ := Option.bind_eq_some_iff.mp hrun
    exact ih hphases (runThreads_keeps hphase.2 (hphase.1 g hg) hthreads) hrun

/-- The phases can be run to their end from every state. -/
theorem exists_runPhases (phases : List (Phase S)) (g : Graph S) :
    ∃ schedules g', runPhases phases schedules g = some g' := by
  induction phases generalizing g with
  | nil => exact ⟨[], g, rfl⟩
  | cons phase phases ih =>
    obtain ⟨schedule, g₁, hthreads⟩ := exists_runThreads phase.threads (phase.prepare g)
    obtain ⟨schedules, g', hrun⟩ := ih g₁
    exact ⟨schedule :: schedules, g', Option.bind_eq_some_iff.mpr ⟨g₁, hthreads, hrun⟩⟩

theorem pushReversed_keeps (hsymm : ∀ a b, scorePair a b = scorePair b a)
    (hu : u < aliveIndices.length) {push : Nat → Candidate S → Graph S → Graph S}
    (hpush : ∀ v c g, Graph.Sound aliveIndices scorePair g → Scored aliveIndices scorePair v c →
      (push v c g).Sound aliveIndices scorePair)
    (hpool : ∀ c ∈ pool, Scored aliveIndices scorePair u c) :
    (pushReversed aliveIndices.length u push pool).Keeps (Graph.Sound aliveIndices scorePair) := by
  induction pool with
  | nil => trivial
  | cons nn pool ih =>
    obtain ⟨hnn, hpool⟩ := forall_mem_cons.mp hpool
    rw [pushReversed]
    split
    · exact ih hpool
    · intro g hg
      exact ⟨hpush _ _ _ hg ⟨hu, hnn.2.trans (hsymm _ _)⟩, ih hpool⟩

theorem lt_of_mem_genRandomMirageStyle {rng : Nat → Nat} {size n v : Nat}
    (h : v ∈ genRandomMirageStyle rng size n) : v < n := by
  unfold genRandomMirageStyle at h
  split at h
  · cases h
  next hne =>
    obtain ⟨item, -, rfl⟩ := mem_map.mp h
    exact Nat.mod_lt _ (Nat.pos_of_ne_zero fun hn => hne (.inr hn))

/-- Raised numbers grow strictly, each by one step more at most. -/
theorem spread_grows {l : List Nat} {previous bound : Nat} (hprevious : previous < bound)
    (hl : ∀ x ∈ l, x < bound) :
    (spread previous l).length = l.length ∧ (previous :: spread previous l).Pairwise (· < ·) ∧
      ∀ x ∈ spread previous l, x < bound + l.length := by
  induction l generalizing previous bound with
  | nil => simp [spread]
  | cons x l ih =>
    obtain ⟨hx, hl⟩ := forall_mem_cons.mp hl
    rw [spread]
    generalize hy : (if x ≤ previous then previous + 1 else x) = y
    obtain ⟨hlt, hy⟩ : previous < y ∧ y < bound + 1 := by
      rw [← hy]
      split <;> omega
    obtain ⟨hlength, hgrows, hbound⟩ := ih hy fun z hz => Nat.lt_succ_of_lt (hl z hz)
    refine ⟨congrArg (· + 1) hlength, pairwise_cons.mpr ⟨?_, hgrows⟩, ?_⟩
    · exact forall_mem_cons.mpr ⟨hlt, fun z hz => hlt.trans ((pairwise_cons.mp hgrows).1 z hz)⟩
    · rw [length_cons, Nat.add_comm l.length, ← Nat.add_assoc]
      exact forall_mem_cons.mpr ⟨Nat.lt_add_right _ hy, hbound⟩

/-- The random neighbours of a point are distinct. -/
theorem genRandomMirageStyle_distinct (rng : Nat → Nat) {size n : Nat} (h : size < n) :
    (genRandomMirageStyle rng size n).length = size ∧ (genRandomMirageStyle rng size n).Nodup ∧
      ∀ x ∈ genRandomMirageStyle rng size n, x < n := by
  simp only [← and_assoc]
  refine ⟨?_, fun x => lt_of_mem_genRandomMirageStyle⟩
  unfold genRandomMirageStyle
  split
  next hempty => simp only [length_nil, nodup_nil, and_true]; omega
  dsimp only
  generalize haddr : ((range size).map fun k => rng k % (n - size)).insertionSort (· ≤ ·) = addr
  have hlength : addr.length = size := by simp [← haddr]
  have hlt : ∀ x ∈ addr, x < n - size := by
    rw [← haddr]
    intro x hx
    obtain ⟨k, -, rfl⟩ := mem_map.mp ((mem_insertionSort _).mp hx)
    exact Nat.mod_lt _ (Nat.sub_pos_of_lt h)
  cases addr with
  | nil => exact ⟨hlength, nodup_nil⟩
  | cons first rest =>
    obtain ⟨hfirst, hrest⟩ := forall_mem_cons.mp hlt
    obtain ⟨hsame, hgrows, hbound⟩ := spread_grows hfirst hrest
    rw [length_cons] at hlength
    have hall : ∀ x ∈ first :: spread first rest, x < n :=
      forall_mem_cons.mpr ⟨by omega, fun x hx => (hbound x hx).trans_le (by omega)⟩
    refine ⟨by simp [hsame, hlength], ?_⟩
    refine Nodup.map_on (fun a ha b hb heq => ?_) (hgrows.imp Nat.ne_of_lt)
    have hmod := Nat.ModEq.add_right_cancel' (rng size % n) heq
    exact hmod.eq_of_lt_of_lt (hall a ha) (hall b hb)

theorem genRandomMirageStyle_three :
    genRandomMirageStyle (fun _ => 4) 3 5 = [4, 0, 1] ∧ [4, 0, 1].Nodup :=
  ⟨by decide, (genRandomMirageStyle_distinct (fun _ => 4) (show 3 < 5 by decide)).2.1⟩

theorem mem_of_mem_dedupByIdx {lastIdx : Option Nat} {l : List (Candidate S)} {c : Candidate S}
    (h : c ∈ dedupByIdx lastIdx l) : c ∈ l := by
  induction l generalizing lastIdx with
  | nil => exact h
  | cons d l ih =>
    rw [dedupByIdx] at h
    split at h
    · exact mem_cons_of_mem _ (ih h)
    · rcases mem_cons.mp h with rfl | h
      · exact mem_cons_self
      · exact mem_cons_of_mem _ (ih h)

section Order

variable [LinearOrder S] {sorting : UnstableSort S}
variable {p : Candidate S → Prop}

theorem forall_sort (h : ∀ c ∈ pool, p c) : ∀ c ∈ sorting.sort pool, p c :=
  fun c hc => h c ((sorting.perm pool).mem_iff.mp hc)

theorem forall_dedup_sort (h : ∀ c ∈ pool, p c) : ∀ c ∈ dedupByIdx none (sorting.sort pool), p c :=
  fun c hc => forall_sort h c (mem_of_mem_dedupByIdx hc)

/-! ## The phases -/

theorem fillPool_keeps {neighbors : List Nat} (h : ∀ v ∈ neighbors, v < aliveIndices.length) :
    (fillPool aliveIndices scorePair sorting u neighbors).Keeps
      (Graph.Sound aliveIndices scorePair) := by
  intro g hg
  refine ⟨hg.setPool (forall_sort ?_), trivial⟩
  intro c hc
  obtain ⟨v, hv, rfl⟩ := mem_map.mp hc
  exact ⟨h v (mem_of_mem_filter hv), rfl⟩

variable {numThreads : Nat}

theorem initRandomGraph_keeps {s : Nat} {rng : Nat → Nat → Nat} :
    ∀ thread ∈ initRandomGraph numThreads aliveIndices scorePair sorting s rng,
      thread.Keeps (Graph.Sound aliveIndices scorePair) := by
  unfold initRandomGraph
  dsimp only
  split
  · exact nofun
  · split
    · exact forChunks_keeps fun _ u => fillPool_keeps fun v hv => mem_range.mp hv
    · exact forChunks_keeps fun _ u => fillPool_keeps fun v hv => lt_of_mem_genRandomMirageStyle hv

/-- A candidate is only rejected for one that is kept, with the score of these two. -/
theorem checkCandidate_reject {nn : Candidate S} {kept : List (Candidate S)} {other : Nat} {d : S}
    (h : checkCandidate aliveIndices scorePair nn kept = .reject other d) :
    d = score aliveIndices scorePair nn.idx other := by
  induction kept with
  | nil => cases h
  | cons c kept ih =>
    rw [checkCandidate] at h
    split at h
    · exact ih h
    · split at h
      · cases h
      · dsimp only at h
        split at h
        · cases h
          rfl
        · exact ih h

section

variable (hsymm : ∀ a b, scorePair a b = scorePair b a)

include hsymm

theorem pruneCandidates_keeps
    {newPool rest : List (Candidate S)} (hnew : ∀ c ∈ newPool, Scored aliveIndices scorePair u c)
    (hrest : ∀ c ∈ rest, Scored aliveIndices scorePair u c) :
    (pruneCandidates aliveIndices scorePair u newPool rest).Keeps
      (Graph.Sound aliveIndices scorePair) := by
  induction rest generalizing newPool with
  | nil =>
    intro g hg
    refine ⟨hg.setPool ?_, trivial⟩
    intro c hc
    obtain ⟨d, hd, rfl⟩ := mem_map.mp hc
    exact hnew d hd
  | cons nn rest ih =>
    obtain ⟨hnn, hrest⟩ := forall_mem_cons.mp hrest
    rw [pruneCandidates]
    split
    · exact ih hnew hrest
    · split
      next =>
        exact ih (forall_mem_append.mpr ⟨hnew, forall_mem_singleton.mpr hnn⟩) hrest
      next => exact ih hnew hrest
      next other d hreject =>
        intro g hg
        refine ⟨hg.pushPool ⟨hnn.1, ?_⟩, ih hnew hrest⟩
        exact (checkCandidate_reject hreject).trans (hsymm _ _)

theorem updateRound_keeps : ∀ thread ∈ updateRound numThreads aliveIndices scorePair sorting,
      thread.Keeps (Graph.Sound aliveIndices scorePair) := by
  apply forChunks_keeps
  intro _ u g hg
  exact ⟨hg.setPool nofun, pruneCandidates_keeps hsymm nofun (forall_dedup_sort (hg.pools u))⟩

theorem addReverseEdges_keeps {numReverseEdges : Nat} :
    ∀ phase ∈ addReverseEdges aliveIndices sorting numReverseEdges,
      phase.Keeps (Graph.Sound aliveIndices scorePair) := by
  simp only [addReverseEdges, forall_mem_cons, not_mem_nil, false_imp_iff, implies_true, and_true]
  refine ⟨⟨fun g hg => ⟨hg.pools, nofun⟩, forEach_keeps fun u hu g hg => ⟨hg, ?_⟩⟩,
    ⟨fun g hg => hg, forEach_keeps fun u hu g hg => ⟨hg.setPool nofun, fun g' hg' => ⟨?_, trivial⟩⟩⟩,
    ⟨fun g hg => hg, forEach_keeps fun u hu g hg => ⟨hg, ?_⟩⟩,
    fun g hg => hg, forEach_keeps fun u hu g hg => ⟨?_, trivial⟩⟩
  · exact pushReversed_keeps hsymm hu (fun _ _ _ hg hc => hg.pushReverse hc) (hg.pools u)
  · refine hg'.setReverse fun c hc => forall_dedup_sort ?_ c (mem_of_mem_take hc)
    refine forall_mem_append.mpr ⟨hg'.reverse u, fun d hd => ?_⟩
    obtain ⟨e, he, rfl⟩ := mem_map.mp hd
    exact hg.pools u e he
  · exact pushReversed_keeps hsymm hu (fun _ _ _ hg hc => hg.pushPool hc) (hg.reverse u)
  · exact hg.setPool fun c hc => forall_sort (hg.pools u) c (mem_of_mem_take hc)

theorem refinement_keeps {params : RefinementParams} {rng : Nat → Nat → Nat} :
    ∀ phase ∈ refinement numThreads aliveIndices scorePair sorting params rng,
      phase.Keeps (Graph.Sound aliveIndices scorePair) := by
  intro phase hmem
  rcases mem_cons.mp hmem with rfl | hmem
  · exact ⟨fun g hg => hg, initRandomGraph_keeps⟩
  · obtain ⟨round, -, hmem⟩ := mem_flatMap.mp hmem
    rcases mem_append.mp hmem with hmem | hmem
    · rw [eq_of_mem_replicate hmem]
      exact ⟨fun g hg => hg, updateRound_keeps hsymm⟩
    · split at hmem
      · exact addReverseEdges_keeps hsymm phase hmem
      · cases hmem

end

/-! ## The final lists -/

/-- The order of candidates with different ids. -/
def Candidate.Before (a b : Candidate S) : Prop :=
  b.score < a.score ∨ a.score = b.score ∧ a.idx < b.idx

theorem Candidate.Before.trans {a b c : Candidate S} (hab : a.Before b) (hbc : b.Before c) :
    a.Before c := by
  rcases hab with hab | ⟨hab, hidx⟩
  · rcases hbc with hbc | ⟨hbc, -⟩
    · exact .inl (hbc.trans hab)
    · exact .inl (hbc ▸ hab)
  · rcases hbc with hbc | ⟨hbc, hidx'⟩
    · exact .inl (hab ▸ hbc)
    · exact .inr ⟨hab.trans hbc, hidx.trans hidx'⟩

/-- The list has candidates of the pool, in strict order and after the last one. -/
def Selected (aliveIndices : List Nat) (u : Nat) (alive : Nat → Bool) (last : Option (Candidate S))
    (pool : List (Candidate S)) (out : List (ScoredPointOffset S)) : Prop :=
  ∃ kept : List (Candidate S), kept ⊆ pool ∧ kept.Pairwise Candidate.Before ∧
    (∀ x, last = some x → ∀ c ∈ kept, x.Before c) ∧
    (∀ c ∈ kept, c.idx ≠ u ∧ alive (aliveIndices.getD c.idx 0) = true) ∧
    out = kept.map fun c => ⟨aliveIndices.getD c.idx 0, c.score⟩

theorem selected_selectNeighbors (aliveIndices : List Nat) (u : Nat) (alive : Nat → Bool)
    (last : Option (Candidate S)) (hsorted : pool.Pairwise Candidate.Precedes)
    (hlast : ∀ x, last = some x → ∀ c ∈ pool, x.Precedes c) :
    Selected aliveIndices u alive last pool
      (selectNeighbors alive aliveIndices u (last.map Candidate.idx) pool) := by
  induction pool generalizing last with
  | nil => exact ⟨[], List.Subset.refl _, .nil, nofun, nofun, rfl⟩
  | cons c pool ih =>
    obtain ⟨hfirst, hsorted⟩ := pairwise_cons.mp hsorted
    -- the candidate is left out
    have hskip : Selected aliveIndices u alive last (c :: pool)
        (selectNeighbors alive aliveIndices u (last.map Candidate.idx) pool) := by
      obtain ⟨kept, hsub, hrest⟩ := ih last hsorted fun x hx d hd => hlast x hx d (mem_cons_of_mem _ hd)
      exact ⟨kept, fun d hd => mem_cons_of_mem _ (hsub hd), hrest⟩
    rw [selectNeighbors]
    split
    · exact hskip
    next hself =>
      cases hget : aliveIndices[c.idx]? with
      | none => exact hskip
      | some actualIdx =>
        have hactual : aliveIndices.getD c.idx 0 = actualIdx := by
          rw [getD_eq_getElem?_getD, hget, Option.getD_some]
        dsimp only
        split
        · exact hskip
        next halive =>
          split
          · exact hskip
          next hnew =>
            obtain ⟨kept, hsub, hbefore, hafter, hall, heq⟩ := ih (some c) hsorted
              fun x hx => Option.some.inj hx ▸ hfirst
            have hlast' (x : Candidate S) (hx : last = some x) : x.Before c := by
              refine (hlast x hx c mem_cons_self).imp_right fun ⟨hscore, hle⟩ =>
                ⟨hscore, lt_of_le_of_ne hle fun hidx => hnew ?_⟩
              rw [hx, ← hidx, Option.map_some]
            refine ⟨c :: kept, cons_subset_cons c hsub, .cons (hafter c rfl) hbefore, ?_, ?_, ?_⟩
            · intro x hx d hd
              rcases mem_cons.mp hd with rfl | hd
              · exact hlast' x hx
              · exact (hlast' x hx).trans (hafter c rfl d hd)
            · refine forall_mem_cons.mpr ⟨⟨hself, ?_⟩, hall⟩
              rw [hactual]
              simpa using halive
            · rw [map_cons, hactual]
              exact congrArg _ heq

/-- What `build_layer0` promises of the list of a point. -/
structure ValidNeighbors (numPoints : Nat) (isAlive : Nat → Bool) (scorePair : Nat → Nat → S)
    (p : Nat) (out : List (ScoredPointOffset S)) : Prop where
  alive : ∀ e ∈ out, e.idx < numPoints ∧ isAlive e.idx = true
  not_self : ∀ e ∈ out, e.idx ≠ p
  score : ∀ e ∈ out, e.score = scorePair p e.idx
  nodup : (out.map ScoredPointOffset.idx).Nodup
  sorted : out.Pairwise fun a b => b.score ≤ a.score

theorem validNeighbors_selectNeighbors {numPoints p : Nat} {isAlive : Nat → Bool}
    (halive : aliveIndices = (List.range numPoints).filter isAlive)
    (hu : aliveIndices[u]? = some p) (hpool : ∀ c ∈ pool, Scored aliveIndices scorePair u c) :
    ValidNeighbors numPoints isAlive scorePair p
      (selectNeighbors isAlive aliveIndices u none (sorting.sort pool)) := by
  have hnodup : aliveIndices.Nodup := halive ▸ List.nodup_range.filter _
  obtain ⟨hlt, hp⟩ := List.getElem?_eq_some_iff.mp hu
  have hgetD {i : Nat} (hi : i < aliveIndices.length) : aliveIndices.getD i 0 = aliveIndices[i] := by
    rw [List.getD_eq_getElem?_getD, List.getElem?_eq_getElem hi, Option.getD_some]
  have hinj {i j : Nat} (hi : i < aliveIndices.length) (hj : j < aliveIndices.length)
      (heq : aliveIndices.getD i 0 = aliveIndices.getD j 0) : i = j := by
    rw [hgetD hi, hgetD hj] at heq
    exact (hnodup.getElem_inj_iff).mp heq
  obtain ⟨kept, hsub, hbefore, -, hall, heq⟩ := selected_selectNeighbors aliveIndices u isAlive none
    (sorting.sorted pool) nofun
  have hscored : ∀ c ∈ kept, Scored aliveIndices scorePair u c := fun c hc =>
    forall_sort hpool c (hsub hc)
  rw [Option.map_none] at heq
  rw [heq]
  constructor
  · refine List.forall_mem_map.mpr fun c hc => ?_
    have hmem : aliveIndices.getD c.idx 0 ∈ aliveIndices :=
      hgetD (hscored c hc).1 ▸ List.getElem_mem _
    rw [halive, List.mem_filter, List.mem_range, ← halive] at hmem
    exact hmem
  · refine List.forall_mem_map.mpr fun c hc hself => (hall c hc).1 ?_
    refine hinj (hscored c hc).1 hlt (hself.trans ?_)
    rw [hgetD hlt, hp]
  · refine List.forall_mem_map.mpr fun c hc => (hscored c hc).2.trans ?_
    rw [Mirage.score, hgetD hlt, hp]
  · rw [List.map_map, List.nodup_iff_pairwise_ne, List.pairwise_map]
    refine hbefore.imp_of_mem fun {a b} ha hb hab hidx => ?_
    have hsame := hinj (hscored a ha).1 (hscored b hb).1 hidx
    have hscore : a.score = b.score := by rw [(hscored a ha).2, (hscored b hb).2, hsame]
    rcases hab with hlt | ⟨-, hlt⟩
    · exact absurd hscore (ne_of_gt hlt)
    · exact absurd hsame (Nat.ne_of_lt hlt)
  · rw [List.pairwise_map]
    exact hbefore.imp fun h => h.elim le_of_lt fun h => le_of_eq h.1.symm

end Order

end Sound

section Build

variable [LinearOrder S] {numPoints : Nat} {params : RefinementParams} {numThreads : Nat} {isAlive : Nat → Bool}
  {scorePair : Nat → Nat → S} {sorting : UnstableSort S} {rng : Nat → Nat → Nat}

/-- For every number of threads, every random sequence and every schedule, the list of each point
that is alive is valid, and the others have empty lists. -/
theorem buildLayer0_valid (hsymm : ∀ a b, scorePair a b = scorePair b a)
    {schedules : List (List Nat)} {result : List (List (ScoredPointOffset S))}
    (h : buildLayer0 numPoints params numThreads isAlive scorePair sorting rng schedules =
      some (.ok result)) :
    result.length = numPoints ∧ ∀ p out, result[p]? = some out →
      (isAlive p = true → ValidNeighbors numPoints isAlive scorePair p out) ∧
        (isAlive p = false → out = []) := by
  unfold buildLayer0 at h
  split at h
  next hzero =>
    cases h
    exact ⟨hzero.symm, nofun⟩
  iterate 3 (split at h; · cases h)
  dsimp only at h
  split at h
  next hempty =>
    cases h
    refine ⟨List.length_replicate, fun p out hout => ?_⟩
    obtain ⟨hp, rfl⟩ := List.getElem?_eq_some_iff.mp hout
    rw [List.length_replicate] at hp
    rw [List.getElem_replicate]
    refine ⟨fun halive => ?_, fun _ => rfl⟩
    have hmem : p ∈ (List.range numPoints).filter isAlive :=
      List.mem_filter.mpr ⟨List.mem_range.mpr hp, halive⟩
    rw [hempty] at hmem
    cases hmem
  next =>
    obtain ⟨g, hrun, hresult⟩ := Option.map_eq_some_iff.mp h
    cases hresult
    have hsound := runPhases_keeps (refinement_keeps hsymm) Graph.Sound.sound_empty hrun
    refine ⟨by rw [List.length_map, List.length_range], fun p out hout => ?_⟩
    obtain ⟨hp, rfl⟩ := List.getElem?_eq_some_iff.mp hout
    rw [List.length_map, List.length_range] at hp
    rw [List.getElem_map, List.getElem_range]
    cases hlogical : ((List.range numPoints).filter isAlive).idxOf? p with
    | none =>
      refine ⟨fun halive => ?_, fun _ => rfl⟩
      have hmem := List.idxOf?_eq_none_iff.mp hlogical
      exact absurd (List.mem_filter.mpr ⟨List.mem_range.mpr hp, halive⟩) hmem
    | some logical =>
      obtain ⟨hlt, hget, -⟩ := List.idxOf?_eq_some_iff.mp hlogical
      have hget' := List.getElem?_eq_some_iff.mpr ⟨hlt, hget⟩
      refine ⟨fun _ => validNeighbors_selectNeighbors rfl hget' (hsound.pools logical), fun hdead => ?_⟩
      have halive := (List.mem_filter.mp (List.mem_of_getElem? hget')).2
      rw [hdead] at halive
      cases halive

/-- With parameters that pass the checks a build can be run to its end. -/
theorem exists_buildLayer0 (hnumber : numPoints ≤ pointOffsetMax) (hs : params.s ≠ 0)
    (hr : params.r ≠ 0) (hiter : params.iter ≠ 0) : ∃ schedules result,
      buildLayer0 numPoints params numThreads isAlive scorePair sorting rng schedules =
        some (.ok result) := by
  unfold buildLayer0
  simp only [not_lt.mpr hnumber, hr, hiter, or_self, if_false]
  split
  · exact ⟨[], _, rfl⟩
  · split
    · exact ⟨[], _, rfl⟩
    · obtain ⟨schedules, g, hrun⟩ := exists_runPhases
        (refinement numThreads ((List.range numPoints).filter isAlive) scorePair sorting params rng)
        Graph.empty
      exact ⟨schedules, _, Option.map_eq_some_iff.mpr ⟨g, hrun, rfl⟩⟩

end Build

/-! ## A build of five points -/

theorem Candidate.Precedes.trans [LinearOrder S] {a b c : Candidate S} (hab : a.Precedes b) (hbc : b.Precedes c) :
    a.Precedes c := by
  unfold Precedes at *
  grind

def mergeSorting [LinearOrder S] : UnstableSort S where
  sort l := l.mergeSort fun a b => decide (a.Precedes b)
  perm l := List.mergeSort_perm l _
  sorted l := by
    refine (List.pairwise_mergeSort ?_ ?_ l).imp of_decide_eq_true
    · intro a b c hab hbc
      simp only [decide_eq_true_eq] at *
      exact Candidate.Precedes.trans hab hbc
    · intro a b
      simp only [Bool.or_eq_true, decide_eq_true_eq]
      unfold Candidate.Precedes
      grind

/-- Two threads refine five points, of which point 3 is dead. -/
def buildFive (schedules : List (List Nat)) :
    Option (Except String (List (List (ScoredPointOffset Nat)))) :=
  buildLayer0 5 { s := 2, r := 2, iter := 1, numReverseEdges := 2 } 2 (fun p => p != 3)
    (fun a b => a + b) mergeSorting (fun thread k => 7 * thread + k) schedules

theorem buildLayer0_valid_five : ∃ schedules result, buildFive schedules = some (.ok result) ∧
    ∀ out, result[2]? = some out → ValidNeighbors 5 (fun p => p != 3) (fun a b => a + b) 2 out := by
  obtain ⟨schedules, result, h⟩ : ∃ schedules result, buildFive schedules = some (.ok result) :=
    exists_buildLayer0 (by decide) (by decide) (by decide) (by decide)
  exact ⟨schedules, result, h, fun out hout =>
    ((buildLayer0_valid Nat.add_comm h).2 2 out hout).1 rfl⟩

end Qdrant.Mirage
