-- SUMMARY: The topological sort of the flush order: Kahn's algorithm over a partially known graph.
import Qdrant.Base.HashMap
import Mathlib.Data.Finset.Card
import Mathlib.Order.WellFoundedSet

/-!
# Topological sort

`TopoSort` records dependencies between elements, each with a value. Sorting a
list of elements by them is Kahn's algorithm (`lib/common/common/src/toposort.rs`):
dependencies on elements outside the list are ignored, and elements on a cycle
come last, in no particular order.
-/

namespace Qdrant

open List

universe u v

/-- Every element with what it depends on, and a value for each dependency. -/
structure TopoSort (T : Type u) (V : Type v) where
  dependencies : HashMap T (HashMap T V)

namespace TopoSort

variable {T : Type u} {V : Type v} [DecidableEq T]

/-- Record that `element` depends on `dependsOn`. An existing value is overwritten. -/
def addDependency (t : TopoSort T V) (element dependsOn : T) (value : V) : TopoSort T V :=
  { dependencies := t.dependencies.insert element
      (((t.dependencies.get? element).getD ∅).insert dependsOn value) }

/-- Keep the dependencies that satisfy the filter. -/
def retain (filter : T → T → V → Bool) (t : TopoSort T V) : TopoSort T V :=
  { dependencies :=
      (t.dependencies.mapVal fun element deps => deps.retain (filter element)).retain
        fun _ deps => !deps.isEmpty }

/-- The value of the dependency of `element` on `dependsOn`. -/
def dependency (t : TopoSort T V) (element dependsOn : T) : Option V :=
  (t.dependencies.get? element).bind fun deps => deps.get? dependsOn

@[simp] theorem dependency_addDependency (t : TopoSort T V) (e d : T) (value : V) (e' d' : T) :
    (t.addDependency e d value).dependency e' d' =
      if e' = e ∧ d' = d then some value else t.dependency e' d' := by
  by_cases he : e' = e
  · subst he
    by_cases hd : d' = d
    · simp [addDependency, dependency, hd]
    · simp only [addDependency, dependency]
      cases t.dependencies.get? e' <;> simp
  · simp [addDependency, dependency, he]

@[simp] theorem dependency_retain (filter : T → T → V → Bool) (t : TopoSort T V) (e d : T) :
    (t.retain filter).dependency e d = (t.dependency e d).filter (filter e d) := by
  simp only [retain, dependency, HashMap.get?_retain, HashMap.get?_mapVal]
  cases t.dependencies.get? e with
  | none => rfl
  | some deps =>
    rw [Option.bind_some, ← HashMap.get?_retain]
    by_cases hempty : (deps.retain (filter e)).isEmpty = true
    · rw [HashMap.isEmpty_iff.mp hempty d]
      simp [hempty]
    · simp [Option.filter, hempty]

end TopoSort

/-! ## The iterator -/

structure TopoSortIter (T : Type u) where
  /-- The number of dependencies of every node that have not been emitted. -/
  inDegree : HashMap T Nat
  /-- The nodes that depend on a node. -/
  dependents : HashMap T (List T)
  /-- The nodes ready to be emitted. -/
  ready : List T

namespace TopoSortIter

variable {T : Type u} {V : Type v} [DecidableEq T]

/-- Add `node` to the dependents of `dep`. -/
def pushDependent (node : T) (dependents : HashMap T (List T)) (dep : T) : HashMap T (List T) :=
  dependents.insert dep ((dependents.get? dep).getD [] ++ [node])

section

variable (order : IterOrder T) (deps : HashMap T (HashMap T V))

/-- Count the known dependencies of a node and enter it as their dependent. Nodes that are
not in the list to be sorted are ignored. -/
def addNode
    (acc : HashMap T Nat × HashMap T (List T)) (node : T) : HashMap T Nat × HashMap T (List T) :=
  if (acc.1.get? node).isNone then acc
  else
    let known := (order.walk ((deps.get? node).getD ∅).keys).filter
      fun dep => (acc.1.get? dep).isSome
    (acc.1.insert node known.length, known.foldl (pushDependent node) acc.2)

/-- Start to sort the given nodes. The order is the one in which the hash maps are walked. -/
def new (allNodes : List T) : TopoSortIter T :=
  let inDegree := allNodes.foldl (fun m node => m.insert node 0) ∅
  let (inDegree, dependents) := (order.walk deps.keys).foldl (addNode order deps) (inDegree, ∅)
  { inDegree
    dependents
    ready := allNodes.filter fun node => (inDegree.get? node).getD 0 == 0 }

end

/-- A dependency of `dependent` has been emitted. -/
def release (acc : HashMap T Nat × List T) (dependent : T) : HashMap T Nat × List T :=
  match acc.1.get? dependent with
  | none => acc
  | some count =>
    (acc.1.insert dependent (count - 1),
      if count - 1 = 0 then acc.2 ++ [dependent] else acc.2)

/-- Emit the next node. -/
def next (it : TopoSortIter T) : Option (T × TopoSortIter T) :=
  match it.ready with
  | [] => none
  | node :: rest =>
    let (inDegree, ready) :=
      ((it.dependents.get? node).getD []).foldl release (it.inDegree, rest)
    some (node, { inDegree, dependents := it.dependents.erase node, ready })

/-- Emit nodes until none is ready, `fuel` of them at most. -/
def collect (it : TopoSortIter T) : Nat → List T × TopoSortIter T
  | 0 => ([], it)
  | fuel + 1 =>
    match it.next with
    | none => ([], it)
    | some (node, it') =>
      let (nodes, last) := it'.collect fuel
      (node :: nodes, last)

/-- The nodes that are left: those ready, then those on a cycle. -/
def intoUnorderedVec (order : IterOrder T) (it : TopoSortIter T) : List T :=
  it.ready ++ (order.walk it.inDegree.keys).filter fun node => (it.inDegree.get? node).getD 0 != 0

end TopoSortIter

/-- Sort the elements by the dependencies, elements on a cycle last. Every element is
emitted at most once, so their number is enough fuel. -/
def TopoSort.sortElements {T : Type u} {V : Type v} [DecidableEq T] (t : TopoSort T V)
    (order : IterOrder T) (elements : List T) : List T :=
  let (sorted, it) := (TopoSortIter.new order t.dependencies elements).collect elements.length
  sorted ++ it.intoUnorderedVec order

/-! ## Correctness -/

section Correctness

variable {T : Type u} {V : Type v} [DecidableEq T]

/-- What `node` depends on among the nodes to be sorted. -/
def TopoSort.depsIn (t : TopoSort T V) (nodes : List T) (node : T) : Finset T :=
  ((t.dependencies.get? node).getD ∅).keys.filter (· ∈ nodes)

variable {nodes : List T} {t : TopoSort T V}

theorem TopoSort.mem_depsIn {node dep : T} :
    dep ∈ t.depsIn nodes node ↔ (∃ v, t.dependency node dep = some v) ∧ dep ∈ nodes := by
  rw [depsIn, Finset.mem_filter, HashMap.mem_keys_iff, dependency]
  cases t.dependencies.get? node <;> simp

namespace TopoSortIter

/-! ### The start of the iteration -/

theorem get?_foldl_insert_zero (nodes : List T) (m : HashMap T Nat) (x : T) :
    (nodes.foldl (fun m node => m.insert node 0) m).get? x =
      if x ∈ nodes then some 0 else m.get? x := by
  induction nodes generalizing m with
  | nil => simp
  | cons node nodes ih =>
    rw [foldl_cons, ih]
    by_cases hx : x ∈ nodes
    · simp [hx]
    · simp [hx]

theorem get?_foldl_pushDependent {known : List T} (hknown : known.Nodup) (node : T)
    (m : HashMap T (List T)) (d : T) :
    ((known.foldl (pushDependent node) m).get? d).getD [] =
      (m.get? d).getD [] ++ if d ∈ known then [node] else [] := by
  induction known generalizing m with
  | nil => simp
  | cons dep known ih =>
    obtain ⟨hnotMem, hknown⟩ := nodup_cons.mp hknown
    rw [foldl_cons, ih hknown]
    by_cases hd : d = dep
    · subst hd
      simp [pushDependent, hnotMem]
    · simp [pushDependent, hd]

/-- What the iterator has been told about after the dependencies of some nodes. -/
structure Entered (t : TopoSort T V) (nodes entered : List T)
    (acc : HashMap T Nat × HashMap T (List T)) : Prop where
  inDegree : ∀ x, acc.1.get? x =
    if x ∈ nodes then some (if x ∈ entered then (t.depsIn nodes x).card else 0) else none
  dependents : ∀ d, (acc.2.get? d).getD [] =
    entered.filter fun x => x ∈ nodes ∧ d ∈ t.depsIn nodes x

variable {nodes : List T} {t : TopoSort T V}
variable {acc : HashMap T Nat × HashMap T (List T)} {entered : List T}

theorem Entered.addNode (h : Entered t nodes entered acc) (order : IterOrder T) (node : T) :
    Entered t nodes (entered ++ [node]) (addNode order t.dependencies acc node) := by
  have hsome : ∀ d, (acc.1.get? d).isSome = decide (d ∈ nodes) := by
    intro d
    rw [h.inDegree]
    by_cases hd : d ∈ nodes <;> simp [hd]
  unfold TopoSortIter.addNode
  by_cases hmem : node ∈ nodes
  · have hnone : ¬ (acc.1.get? node).isNone = true := by simp [h.inDegree, hmem]
    rw [if_neg hnone]
    simp only [hsome]
    -- the known dependencies, each of them once
    generalize hfilter : (order.walk _).filter (fun dep => decide (dep ∈ nodes)) = known
    have hnodup : known.Nodup := hfilter ▸ (order.nodup _).filter _
    have hknown : ∀ d, d ∈ known ↔ d ∈ t.depsIn nodes node := by
      intro d
      rw [← hfilter, mem_filter, order.mem_walk, TopoSort.depsIn, Finset.mem_filter, decide_eq_true_eq]
    have hlength : known.length = (t.depsIn nodes node).card := by
      rw [← toFinset_card_of_nodup hnodup]
      congr 1
      ext d
      rw [mem_toFinset, hknown]
    refine ⟨fun x => ?_, fun d => ?_⟩
    · by_cases hx : x = node
      · simp [hx, hmem, hlength]
      · simp [hx, h.inDegree]
    · rw [get?_foldl_pushDependent hnodup, h.dependents]
      simp only [hknown]
      by_cases hd : d ∈ t.depsIn nodes node <;> simp [hd, hmem]
  · have hnone : (acc.1.get? node).isNone = true := by simp [h.inDegree, hmem]
    rw [if_pos hnone]
    refine ⟨fun x => ?_, fun d => ?_⟩
    · rw [h.inDegree]
      by_cases hx : x = node
      · simp [hx, hmem]
      · simp [hx]
    · rw [h.dependents]
      simp [hmem]

theorem Entered.foldl (order : IterOrder T) (more : List T) (h : Entered t nodes entered acc) :
    Entered t nodes (entered ++ more)
      (more.foldl (TopoSortIter.addNode order t.dependencies) acc) := by
  induction more generalizing entered acc with
  | nil => simpa using h
  | cons node more ih =>
    have hnext := ih (h.addNode order node)
    simpa using hnext

/-! ### One emission -/

/-- Releasing distinct dependents lowers each of their counts once, and those that had
one dependency left become ready. -/
theorem foldl_release {dependents : List T} (hnodup : dependents.Nodup) (inDegree : HashMap T Nat)
    (hknown : ∀ x ∈ dependents, (inDegree.get? x).isSome) (ready : List T) :
    (∀ x, (dependents.foldl release (inDegree, ready)).1.get? x =
      if x ∈ dependents then (inDegree.get? x).map (· - 1) else inDegree.get? x) ∧
    (dependents.foldl release (inDegree, ready)).2 =
      ready ++ dependents.filter fun x => (inDegree.get? x).getD 0 - 1 = 0 := by
  induction dependents generalizing inDegree ready with
  | nil => simp
  | cons dep dependents ih =>
    obtain ⟨hnotMem, hnodup⟩ := nodup_cons.mp hnodup
    obtain ⟨count, hcount⟩ := Option.isSome_iff_exists.mp (hknown dep mem_cons_self)
    have hother : ∀ x ∈ dependents, (inDegree.insert dep (count - 1)).get? x = inDegree.get? x := by
      intro x hx
      have hne : x ≠ dep := fun heq => hnotMem (heq ▸ hx)
      simp [hne]
    have hrest := ih hnodup (inDegree.insert dep (count - 1))
      (fun x hx => by rw [hother x hx]; exact hknown x (mem_cons_of_mem _ hx))
      (if count - 1 = 0 then ready ++ [dep] else ready)
    simp only [foldl_cons, release, hcount]
    refine ⟨fun x => ?_, ?_⟩
    · rw [hrest.1]
      by_cases hx : x = dep
      · subst hx
        simp [hnotMem, hcount]
      · by_cases hmem : x ∈ dependents
        · simp [hx]
        · simp [hx]
    · rw [hrest.2, filter_congr (fun x hx => by rw [hother x hx])]
      by_cases hzero : count - 1 = 0 <;> simp [hcount, hzero]

/-- What holds after some nodes have been emitted: counts are of the dependencies not yet
emitted, the nodes emitted or ready are those with none left, and every emitted node comes
after what it depends on. -/
structure Inv (t : TopoSort T V) (nodes emitted : List T) (it : TopoSortIter T) : Prop where
  inDegree : ∀ x ∈ nodes, it.inDegree.get? x = some (t.depsIn nodes x \ emitted.toFinset).card
  inDegree_unknown : ∀ x ∉ nodes, it.inDegree.get? x = none
  dependents_nodup : ∀ d ∉ emitted, ((it.dependents.get? d).getD []).Nodup
  mem_dependents : ∀ d ∉ emitted, ∀ x,
    x ∈ (it.dependents.get? d).getD [] ↔ x ∈ nodes ∧ d ∈ t.depsIn nodes x
  nodup : (emitted ++ it.ready).Nodup
  mem_ready : ∀ x, x ∈ emitted ++ it.ready ↔ x ∈ nodes ∧ t.depsIn nodes x ⊆ emitted.toFinset
  ordered : ∀ before x after, emitted = before ++ x :: after →
    t.depsIn nodes x ⊆ before.toFinset

theorem inv_new (t : TopoSort T V) (order : IterOrder T) (hnodup : nodes.Nodup) :
    Inv t nodes [] (new order t.dependencies nodes) := by
  have hstart : Entered t nodes [] (nodes.foldl (fun m node => m.insert node 0) ∅, ∅) :=
    ⟨fun x => by simp [get?_foldl_insert_zero], by simp⟩
  have hentered := hstart.foldl order (order.walk t.dependencies.keys)
  rw [nil_append] at hentered
  -- a node without an entry has no dependencies
  have hkeys : ∀ x d, d ∈ t.depsIn nodes x → x ∈ order.walk t.dependencies.keys := by
    intro x d hd
    rw [order.mem_walk, HashMap.mem_keys_iff]
    obtain ⟨⟨v, hv⟩, _⟩ := TopoSort.mem_depsIn.mp hd
    obtain ⟨deps, hdeps, _⟩ := Option.bind_eq_some_iff.mp hv
    exact ⟨deps, hdeps⟩
  have hdegree : ∀ x ∈ nodes, (new order t.dependencies nodes).inDegree.get? x =
      some (t.depsIn nodes x).card := by
    intro x hx
    refine (hentered.inDegree x).trans ?_
    rw [if_pos hx]
    by_cases hmem : x ∈ order.walk t.dependencies.keys
    · rw [if_pos hmem]
    · have hempty : t.depsIn nodes x = ∅ :=
        Finset.eq_empty_of_forall_notMem fun d hd => hmem (hkeys x d hd)
      rw [if_neg hmem, hempty, Finset.card_empty]
  have hdependents : ∀ d, ((new order t.dependencies nodes).dependents.get? d).getD [] =
      (order.walk t.dependencies.keys).filter fun x => x ∈ nodes ∧ d ∈ t.depsIn nodes x :=
    hentered.dependents
  refine ⟨fun x hx => ?_, fun x hx => ?_, fun d _ => ?_, fun d _ x => ?_, ?_, fun x => ?_, ?_⟩
  · rw [hdegree x hx, toFinset_nil, Finset.sdiff_empty]
  · exact (hentered.inDegree x).trans (if_neg hx)
  · rw [hdependents]
    exact (order.nodup _).filter _
  · rw [hdependents, mem_filter, decide_eq_true_eq, and_iff_right_iff_imp]
    exact fun h => hkeys x d h.2
  · exact hnodup.filter _
  · change x ∈ nodes.filter _ ↔ _
    rw [mem_filter, toFinset_nil, Finset.subset_empty]
    refine and_congr_right fun hx => ?_
    change ((new order t.dependencies nodes).inDegree.get? x).getD 0 == 0 ↔ _
    rw [hdegree x hx, Option.getD_some, beq_iff_eq, Finset.card_eq_zero]
  · intro before x after h
    simp at h

/-- The dependencies left after one more emission. -/
theorem sdiff_snoc (deps : Finset T) (emitted : List T) (node : T) :
    deps \ (emitted ++ [node]).toFinset = (deps \ emitted.toFinset).erase node := by
  ext d
  simp only [Finset.mem_sdiff, mem_toFinset, mem_append, mem_singleton, Finset.mem_erase]
  tauto

theorem Inv.next {emitted rest : List T} {it : TopoSortIter T} {node : T}
    (h : Inv t nodes emitted it) (hready : it.ready = node :: rest) :
    ∃ it', it.next = some (node, it') ∧ Inv t nodes (emitted ++ [node]) it' := by
  have hnode : node ∈ nodes ∧ t.depsIn nodes node ⊆ emitted.toFinset :=
    (h.mem_ready node).mp (by simp [hready])
  have hfresh : node ∉ emitted := by
    intro hmem
    refine (nodup_append.mp h.nodup).2.2 node hmem node ?_ rfl
    rw [hready]
    exact mem_cons_self
  have hmem := h.mem_dependents node hfresh
  have hcount : ∀ x ∈ (it.dependents.get? node).getD [],
      it.inDegree.get? x = some (t.depsIn nodes x \ emitted.toFinset).card :=
    fun x hx => h.inDegree x ((hmem x).mp hx).1
  have hleft : ∀ x ∈ (it.dependents.get? node).getD [],
      (t.depsIn nodes x \ emitted.toFinset).card - 1 =
        (t.depsIn nodes x \ (emitted ++ [node]).toFinset).card := by
    intro x hx
    rw [sdiff_snoc, Finset.card_erase_of_mem]
    rw [Finset.mem_sdiff, mem_toFinset]
    exact ⟨((hmem x).mp hx).2, hfresh⟩
  obtain ⟨hdegree, hready'⟩ := foldl_release (h.dependents_nodup node hfresh) it.inDegree
    (fun x hx => by rw [hcount x hx]; rfl) rest
  unfold TopoSortIter.next
  rw [hready]
  refine ⟨_, rfl, ?_⟩
  -- a dependent becomes ready when the node was the last it waited for
  have hreleased : ∀ x, x ∈ ((it.dependents.get? node).getD []).filter
      (fun x => (it.inDegree.get? x).getD 0 - 1 = 0) ↔
      x ∈ nodes ∧ node ∈ t.depsIn nodes x ∧ t.depsIn nodes x ⊆ (emitted ++ [node]).toFinset := by
    intro x
    rw [mem_filter, decide_eq_true_eq, ← and_assoc, ← hmem]
    refine and_congr_right fun hx => ?_
    rw [hcount x hx, Option.getD_some, hleft x hx, Finset.card_eq_zero, Finset.sdiff_eq_empty_iff_subset]
  refine ⟨fun x hx => ?_, fun x hx => ?_, fun d hd => ?_, fun d hd x => ?_, ?_, fun x => ?_, ?_⟩
  · rw [hdegree]
    by_cases hx' : x ∈ (it.dependents.get? node).getD []
    · rw [if_pos hx', hcount x hx', Option.map_some, hleft x hx']
    · have hnotDep : node ∉ t.depsIn nodes x := fun hdep => hx' ((hmem x).mpr ⟨hx, hdep⟩)
      rw [if_neg hx', h.inDegree x hx, sdiff_snoc, Finset.erase_eq_of_notMem]
      exact fun hin => hnotDep (Finset.mem_sdiff.mp hin).1
  · rw [hdegree, if_neg fun hx' => hx ((hmem x).mp hx').1]
    exact h.inDegree_unknown x hx
  · rw [mem_append, mem_singleton, not_or] at hd
    simpa [hd.2] using h.dependents_nodup d hd.1
  · rw [mem_append, mem_singleton, not_or] at hd
    simpa [hd.2] using h.mem_dependents d hd.1 x
  · rw [hready', ← append_assoc, nodup_append]
    refine ⟨by simpa [hready] using h.nodup, (h.dependents_nodup node hfresh).filter _, ?_⟩
    rintro x hx y hy rfl
    obtain ⟨_, hdep, _⟩ := (hreleased x).mp hy
    have hsub := ((h.mem_ready x).mp (by simpa [hready] using hx)).2 hdep
    exact hfresh (mem_toFinset.mp hsub)
  · rw [hready', ← append_assoc, mem_append, hreleased,
      show x ∈ emitted ++ [node] ++ rest ↔ x ∈ emitted ++ it.ready by simp [hready], h.mem_ready]
    have hgrow : emitted.toFinset ⊆ (emitted ++ [node]).toFinset := by
      intro d hd
      simp only [mem_toFinset, mem_append] at hd ⊢
      exact .inl hd
    constructor
    · rintro (⟨hx, hsub⟩ | ⟨hx, _, hsub⟩)
      · exact ⟨hx, hsub.trans hgrow⟩
      · exact ⟨hx, hsub⟩
    · rintro ⟨hx, hsub⟩
      by_cases hdep : node ∈ t.depsIn nodes x
      · exact .inr ⟨hx, hdep, hsub⟩
      · refine .inl ⟨hx, fun d hd => ?_⟩
        have hd' := hsub hd
        simp only [mem_toFinset, mem_append, mem_singleton] at hd' ⊢
        rcases hd' with hd' | rfl
        · exact hd'
        · exact absurd hd hdep
  · intro before x after hsplit
    rcases eq_nil_or_concat after with rfl | ⟨after', last, rfl⟩
    · obtain ⟨rfl, hx⟩ := append_inj' hsplit rfl
      cases hx
      exact hnode.2
    · rw [concat_eq_append, ← cons_append, ← append_assoc] at hsplit
      exact h.ordered before x after' (append_inj' hsplit rfl).1

/-- Collecting emits nodes as long as one is ready. -/
theorem Inv.collect (fuel : Nat) :
    ∀ {emitted : List T} {it : TopoSortIter T}, Inv t nodes emitted it →
      Inv t nodes (emitted ++ (it.collect fuel).1) (it.collect fuel).2 ∧
      ((it.collect fuel).2.ready = [] ∨ (it.collect fuel).1.length = fuel) := by
  induction fuel with
  | zero =>
    intro emitted it h
    exact ⟨by simpa [TopoSortIter.collect] using h, .inr rfl⟩
  | succ fuel ih =>
    intro emitted it h
    cases hready : it.ready with
    | nil =>
      have hnone : it.next = none := by simp [TopoSortIter.next, hready]
      simp only [TopoSortIter.collect, hnone]
      exact ⟨by simpa using h, .inl hready⟩
    | cons node rest =>
      obtain ⟨it', hnext, hinv⟩ := h.next hready
      simp only [TopoSortIter.collect, hnext]
      obtain ⟨hinv', hend⟩ := ih hinv
      exact ⟨by simpa using hinv', hend.imp id fun hlen => by rw [length_cons, hlen]⟩

/-- With as much fuel as there are nodes, collecting ends with no node ready. -/
theorem Inv.collect_ready {it : TopoSortIter T}
    (h : Inv t nodes [] it) : (it.collect nodes.length).2.ready = [] := by
  obtain ⟨hinv, hempty | hlen⟩ := h.collect nodes.length
  · exact hempty
  · have hsub : [] ++ (it.collect nodes.length).1 ++ (it.collect nodes.length).2.ready ⊆ nodes :=
      fun x hx => ((hinv.mem_ready x).mp hx).1
    have hle := (subperm_of_subset hinv.nodup hsub).length_le
    rw [length_append, nil_append] at hle
    exact length_eq_zero_iff.mp (by omega)

end TopoSortIter

/-- No node to be sorted depends on itself, directly or through others. -/
def TopoSort.Acyclic (t : TopoSort T V) (nodes : List T) : Prop :=
  ∀ x, ¬ Relation.TransGen (fun d e => e ∈ nodes ∧ d ∈ t.depsIn nodes e) x x

/-- There are no cycles if dependencies have no dependencies themselves. -/
theorem TopoSort.acyclic_of_flat
    (hflat : ∀ e ∈ nodes, ∀ d ∈ t.depsIn nodes e, t.depsIn nodes d = ∅) : t.Acyclic nodes := by
  intro x hcycle
  obtain ⟨e, ⟨he, hx⟩, _⟩ := Relation.TransGen.head'_iff.mp hcycle
  obtain ⟨d, _, _, hd⟩ := Relation.TransGen.tail'_iff.mp hcycle
  rw [hflat e he x hx] at hd
  exact Finset.notMem_empty d hd

/-- Without cycles every node is emitted: a node that is left waits for one that is left. -/
theorem TopoSortIter.Inv.all_emitted {emitted : List T}
    {it : TopoSortIter T} (h : Inv t nodes emitted it) (hready : it.ready = [])
    (hacyclic : t.Acyclic nodes) {x : T} (hx : x ∈ nodes) : x ∈ emitted := by
  let before := Relation.TransGen fun d e => e ∈ nodes ∧ d ∈ t.depsIn nodes e
  have : IsStrictOrder T before :=
    { irrefl := hacyclic, trans := fun _ _ _ => Relation.TransGen.trans }
  have hwf : ({x | x ∈ nodes} : Set T).WellFoundedOn before := (finite_toSet nodes).wellFoundedOn
  refine hwf.induction hx fun y hy ih => ?_
  have hmem := (h.mem_ready y).mpr ⟨hy, fun d hd => mem_toFinset.mpr
    (ih d (TopoSort.mem_depsIn.mp hd).2 (.single ⟨hy, hd⟩))⟩
  simpa [hready] using hmem

section

variable (t : TopoSort T V) (order : IterOrder T) (hnodup : nodes.Nodup)

include hnodup

/-- What is sorted is what was emitted, followed by what is left when no node is ready. -/
theorem TopoSort.sortElements_eq :
    ∃ emitted it, t.sortElements order nodes = emitted ++ it.intoUnorderedVec order ∧
      TopoSortIter.Inv t nodes emitted it ∧ it.ready = [] := by
  have hstart := TopoSortIter.inv_new t order hnodup
  exact ⟨_, _, rfl, (hstart.collect nodes.length).1, hstart.collect_ready⟩

/-- Sorting permutes the elements, also when some are on a cycle. -/
theorem TopoSort.sortElements_perm : (t.sortElements order nodes).Perm nodes := by
  obtain ⟨emitted, it, heq, hinv, hready⟩ := t.sortElements_eq order hnodup
  rw [heq]
  -- what is not emitted still waits for something
  have hleft : ∀ x, x ∈ it.intoUnorderedVec order ↔ x ∈ nodes ∧ x ∉ emitted := by
    intro x
    rw [TopoSortIter.intoUnorderedVec, hready, nil_append, mem_filter, order.mem_walk,
      HashMap.mem_keys_iff]
    by_cases hx : x ∈ nodes
    · have hmem := hinv.mem_ready x
      rw [hready, append_nil, ← Finset.sdiff_eq_empty_iff_subset] at hmem
      simp [hinv.inDegree x hx, hmem, hx]
    · simp [hinv.inDegree_unknown x hx, hx]
  have hemitted : emitted.Nodup := (nodup_append.mp hinv.nodup).1
  refine (perm_ext_iff_of_nodup (nodup_append.mpr ⟨hemitted, ?_, ?_⟩) hnodup).mpr ?_
  · rw [TopoSortIter.intoUnorderedVec, hready]
    exact (order.nodup _).filter _
  · rintro x hx y hy rfl
    exact ((hleft x).mp hy).2 hx
  · intro x
    rw [mem_append, hleft]
    have hsub : x ∈ emitted → x ∈ nodes :=
      fun hx => ((hinv.mem_ready x).mp (mem_append_left _ hx)).1
    tauto

/-- Without cyclic dependencies, every element comes after all it depends on. -/
theorem TopoSort.sortElements_ordered (hacyclic : t.Acyclic nodes) {before after : List T} {x : T}
    (hsplit : t.sortElements order nodes = before ++ x :: after) :
    t.depsIn nodes x ⊆ before.toFinset := by
  have hperm := t.sortElements_perm order hnodup
  obtain ⟨emitted, it, heq, hinv, hready⟩ := t.sortElements_eq order hnodup
  rw [heq] at hsplit hperm
  -- all nodes are emitted, so nothing is left
  have hnil : it.intoUnorderedVec order = [] := by
    refine eq_nil_iff_forall_not_mem.mpr fun y hy => ?_
    have hy' : y ∈ nodes := hperm.mem_iff.mp (mem_append_right _ hy)
    exact (nodup_append.mp (hperm.nodup_iff.mpr hnodup)).2.2 y
      (hinv.all_emitted hready hacyclic hy') y hy rfl
  rw [hnil, append_nil] at hsplit
  exact hinv.ordered before x after hsplit

end

end Correctness

end Qdrant
