/-
# Dependency graphs

`bc_core.py` builds its graphs with `networkx`.  What it uses of that library is a parameter here,
with the laws that the code relies on.
-/
import AraCore.Lib.Order
import AraCore.Lib.Reach

namespace AraCore.BuildCentral

open Relation

/-- The exceptions that leave the code. -/
inductive PyError where
  | valueError
  | keyError
  | recursionError
  | networkXError
  | typeError
  | osError
  | unboundLocalError
deriving DecidableEq, Repr

/-- `build_all_target` -/
def buildAllTarget : String := "__all__"

/-- `if not x in l: l.append(x)` -/
def appendNew (l : List String) (x : String) : List String := if x ∈ l then l else l ++ [x]

variable {l : List String} {u v x : String}

@[simp] lemma mem_appendNew : x ∈ appendNew l u ↔ x ∈ l ∨ x = u := by
  unfold appendNew
  split
  · next hu =>
    constructor
    · exact Or.inl
    · rintro (hx | rfl)
      · exact hx
      · exact hu
  · simp

lemma nodup_appendNew (hl : l.Nodup) : (appendNew l u).Nodup := by
  unfold appendNew
  split
  · exact hl
  · next hu =>
    refine List.nodup_append.mpr ⟨hl, List.nodup_singleton u, ?_⟩
    rintro x hx y hy rfl
    exact hu (List.mem_singleton.mp hy ▸ hx)

/-- What can be read from a graph: the nodes, the successors of each, and `G.neighbors`, which lists
the successors of a node and raises an exception for anything else. -/
structure DiGraph where
  nodes : List String
  successors : String → List String
  neighbors : String → Except PyError (List String)
  nodup : nodes.Nodup
  successors_nodup : ∀ u, (successors u).Nodup
  mem_nodes : ∀ u v, v ∈ successors u → u ∈ nodes ∧ v ∈ nodes
  neighbors_of_mem : ∀ u ∈ nodes, neighbors u = .ok (successors u)
  neighbors_of_notMem : ∀ u, u ∉ nodes → neighbors u = .error .networkXError

namespace DiGraph

variable {G : DiGraph}

/-- There is an edge from `u` to `v`: the package `u` depends on `v`. -/
def Edge (G : DiGraph) (u v : String) : Prop := v ∈ G.successors u

instance (G : DiGraph) (u v : String) : Decidable (G.Edge u v) :=
  inferInstanceAs (Decidable (v ∈ G.successors u))

lemma Edge.left (h : G.Edge u v) : u ∈ G.nodes := (G.mem_nodes u v h).1

lemma Edge.right (h : G.Edge u v) : v ∈ G.nodes := (G.mem_nodes u v h).2

/-- The number of edges into `v`. -/
def inDegree (G : DiGraph) (v : String) : ℕ := G.nodes.countP fun u => v ∈ G.successors u

lemma inDegree_eq_zero : G.inDegree v = 0 ↔ ∀ u, ¬ G.Edge u v := by
  rw [inDegree, List.countP_eq_zero]
  constructor
  · intro h u huv
    exact h u huv.left (decide_eq_true huv)
  · intro h u _ huv
    exact h u (of_decide_eq_true huv)

/-- Without cycles no path is longer than there are nodes. -/
lemma within_nodes (hacyclic : ∀ u, ¬ TransGen G.Edge u u) (hu : u ∈ G.nodes) :
    Lib.Reach.Within G.Edge G.nodes.length u := by
  have hcard : G.nodes.toFinset.card = G.nodes.length := List.toFinset_card_of_nodup G.nodup
  rw [← hcard]
  exact Lib.Reach.within_card hacyclic (fun _ _ h => List.mem_toFinset.mpr h.right)
    (List.mem_toFinset.mpr hu)

/-- There is no cycle if every edge leads to a lower rank. -/
lemma acyclic_of_rank (rank : String → ℕ)
    (h : ∀ u ∈ G.nodes, ∀ v ∈ G.successors u, rank v < rank u) (u : String) :
    ¬ TransGen G.Edge u u := by
  have hlt : ∀ v, TransGen G.Edge u v → rank v < rank u := by
    intro v huv
    induction huv with
    | single huv => exact h _ (Edge.left huv) _ huv
    | tail _ hvw ih => exact (h _ (Edge.left hvw) _ hvw).trans ih
  exact fun hu => Nat.lt_irrefl _ (hlt u hu)

/-- What `load_build_config` sees to: there is no cycle, and the target that stands for all packages
leads to every package and is led to by none. -/
structure Rooted (G : DiGraph) : Prop where
  acyclic : ∀ u, ¬ TransGen G.Edge u u
  all : buildAllTarget ∈ G.nodes
  into : ∀ u, ¬ G.Edge u buildAllTarget
  reach : ∀ v ∈ G.nodes, ReflTransGen G.Edge buildAllTarget v

/-- It is enough that nothing else has no edges into it. -/
lemma Rooted.of_acyclic (hacyclic : ∀ u, ¬ TransGen G.Edge u u) (hall : buildAllTarget ∈ G.nodes)
    (hinto : ∀ u, ¬ G.Edge u buildAllTarget)
    (h : ∀ v ∈ G.nodes, v ≠ buildAllTarget → ∃ u ∈ G.nodes, G.Edge u v) : G.Rooted := by
  refine ⟨hacyclic, hall, hinto, fun v hv => ?_⟩
  obtain ⟨r, hr, hnone, hreach⟩ := Lib.Reach.exists_root (s := G.nodes.toFinset) hacyclic
    (fun u w huw => List.mem_toFinset.mpr huw.left) (List.mem_toFinset.mpr hv)
  obtain rfl : r = buildAllTarget := by
    by_contra hne
    obtain ⟨u, -, hu⟩ := h r (List.mem_toFinset.mp hr) hne
    exact hnone u hu
  exact hreach

lemma Rooted.of_rank (rank : String → ℕ)
    (hrank : ∀ u ∈ G.nodes, ∀ v ∈ G.successors u, rank v < rank u) (hall : buildAllTarget ∈ G.nodes)
    (hinto : ∀ u ∈ G.nodes, buildAllTarget ∉ G.successors u)
    (h : ∀ v ∈ G.nodes, v ≠ buildAllTarget → ∃ u ∈ G.nodes, v ∈ G.successors u) : G.Rooted :=
  .of_acyclic (acyclic_of_rank rank hrank) hall (fun u hu => hinto u hu.left hu) h

end DiGraph

/-! ## What is used of `networkx` -/

/-- The operations on graphs, which are kept in some type. -/
structure NetworkX (γ : Type) where
  view : γ → DiGraph
  /-- `nx.DiGraph()` -/
  empty : γ
  /-- `graph.add_edge(u, v)` -/
  addEdge : γ → String → String → γ
  /-- `graph.in_degree()` -/
  inDegree : γ → List (String × ℕ)
  /-- `nx.simple_cycles` -/
  simpleCycles : γ → List (List String)

/-- What the code relies on: an edge that is added brings its nodes with it, the degrees are those
of all nodes, and the cycles are found. -/
structure NetworkX.Sound {γ : Type} (nx : NetworkX γ) : Prop where
  nodes_empty : (nx.view nx.empty).nodes = []
  mem_nodes_addEdge : ∀ g u v x,
    x ∈ (nx.view (nx.addEdge g u v)).nodes ↔ x ∈ (nx.view g).nodes ∨ x = u ∨ x = v
  addEdge_edge : ∀ g u v x y,
    (nx.view (nx.addEdge g u v)).Edge x y ↔ (nx.view g).Edge x y ∨ x = u ∧ y = v
  mem_inDegree : ∀ g v n, (v, n) ∈ nx.inDegree g ↔
    v ∈ (nx.view g).nodes ∧ n = (nx.view g).inDegree v
  simpleCycles : ∀ g, nx.simpleCycles g = [] ↔ ∀ u, ¬ TransGen (nx.view g).Edge u u

/-! ## Lists of successors -/

namespace DiGraph

variable {G : DiGraph} {n : ℕ} {u v : String}

/-- A graph that keeps its nodes, and the successors of each, in lists. -/
def ofLists (nodes : List String) (successors : String → List String) (nodup : nodes.Nodup)
    (successors_nodup : ∀ u, (successors u).Nodup)
    (mem_nodes : ∀ u v, v ∈ successors u → u ∈ nodes ∧ v ∈ nodes) : DiGraph where
  nodes := nodes
  successors := successors
  neighbors u := if u ∈ nodes then .ok (successors u) else .error .networkXError
  nodup := nodup
  successors_nodup := successors_nodup
  mem_nodes := mem_nodes
  neighbors_of_mem _ hu := if_pos hu
  neighbors_of_notMem _ hu := if_neg hu

/-- The graph without nodes. -/
def empty : DiGraph := ofLists [] (fun _ => []) List.nodup_nil (fun _ => List.nodup_nil) nofun

lemma addEdge_nodup (G : DiGraph) (u v : String) :
    (appendNew (appendNew G.nodes u) v).Nodup :=
  nodup_appendNew (nodup_appendNew G.nodup)

lemma addEdge_successors_nodup (G : DiGraph) (u v x : String) :
    (Function.update G.successors u (appendNew (G.successors u) v) x).Nodup := by
  rw [Function.update_apply]
  split
  · exact nodup_appendNew (G.successors_nodup u)
  · exact G.successors_nodup x

lemma addEdge_mem_nodes (G : DiGraph) (u v x y : String)
    (hy : y ∈ Function.update G.successors u (appendNew (G.successors u) v) x) :
    x ∈ appendNew (appendNew G.nodes u) v ∧ y ∈ appendNew (appendNew G.nodes u) v := by
  rw [Function.update_apply] at hy
  split at hy
  · next hx =>
    subst hx
    rw [mem_appendNew] at hy
    rcases hy with hy | rfl
    · simp [G.mem_nodes x y hy]
    · simp
  · simp [G.mem_nodes x y hy]

/-- The graph with the edge from `u` to `v`. -/
def addEdge (G : DiGraph) (u v : String) : DiGraph :=
  ofLists (appendNew (appendNew G.nodes u) v)
    (Function.update G.successors u (appendNew (G.successors u) v)) (G.addEdge_nodup u v)
    (G.addEdge_successors_nodup u v) (G.addEdge_mem_nodes u v)

lemma addEdge_edge (G : DiGraph) (u v x y : String) :
    (G.addEdge u v).Edge x y ↔ G.Edge x y ∨ x = u ∧ y = v := by
  show y ∈ Function.update G.successors u (appendNew (G.successors u) v) x ↔ _
  rw [Function.update_apply]
  split
  · next hx =>
    subst hx
    simp [Edge]
  · next hx => simp [Edge, hx]

lemma mem_nodes_addEdge (G : DiGraph) (u v x : String) :
    x ∈ (G.addEdge u v).nodes ↔ x ∈ G.nodes ∨ x = u ∨ x = v := by
  show x ∈ appendNew (appendNew G.nodes u) v ↔ _
  rw [mem_appendNew, mem_appendNew, or_assoc]

/-- All paths from `package` have fewer than `n` steps. -/
def within (G : DiGraph) : ℕ → String → Bool
  | 0, _ => false
  | n + 1, package => (G.successors package).all (G.within n)

lemma within_iff {package : String} :
    G.within n package = true ↔ Lib.Reach.Within G.Edge n package := by
  induction n generalizing package with
  | zero => exact iff_of_false (by simp [within]) id
  | succ n ih =>
    rw [within, List.all_eq_true]
    exact forall_congr' fun v => forall_congr' fun _ => ih

lemma all_within_iff :
    G.nodes.all (G.within G.nodes.length) = true ↔ ∀ u, ¬ TransGen G.Edge u u := by
  rw [List.all_eq_true]
  constructor
  · intro h u hu
    obtain ⟨v, huv, -⟩ := TransGen.head'_iff.mp hu
    exact (within_iff.mp (h u huv.left)).acyclic hu
  · exact fun h u hu => within_iff.mpr (within_nodes h hu)

end DiGraph

/-- The operations on lists of successors, where cycles are found by following all paths. -/
def successorLists : NetworkX DiGraph where
  view G := G
  empty := .empty
  addEdge := DiGraph.addEdge
  inDegree G := G.nodes.map fun v => (v, G.inDegree v)
  simpleCycles G := if G.nodes.all (G.within G.nodes.length) then [] else [G.nodes]

lemma successorLists_sound : successorLists.Sound where
  nodes_empty := rfl
  mem_nodes_addEdge := DiGraph.mem_nodes_addEdge
  addEdge_edge := DiGraph.addEdge_edge
  mem_inDegree G v n := by
    show (v, n) ∈ G.nodes.map (fun v => (v, G.inDegree v)) ↔ _
    rw [List.mem_map]
    constructor
    · rintro ⟨u, hu, heq⟩
      cases heq
      exact ⟨hu, rfl⟩
    · rintro ⟨hv, rfl⟩
      exact ⟨v, hv, rfl⟩
  simpleCycles G := by
    show (if G.nodes.all (G.within G.nodes.length) then [] else [G.nodes]) = [] ↔ _
    rw [← DiGraph.all_within_iff]
    split
    · next h => exact iff_of_true rfl h
    · next h => exact iff_of_false (List.cons_ne_nil _ _) h

end AraCore.BuildCentral
