import Mathlib.Algebra.Order.Field.Rat
import Mathlib.Logic.Function.Basic

/-!
# `DiEdge` and `EdgeWeightedDiGraph` (`ds/edge_weighted_digraph.py`)

A directed edge `v -> w` with a weight, and a digraph as one adjacency list per vertex.
`add_edge` files an edge under its tail after checking both ends, so every stored edge leaves
the vertex whose list holds it and enters a vertex of the graph; the structure carries both
facts, and that no list lies past `_n_vertices`. `adj(v)` iterates a list last-inserted-first,
and `edges()` lists `adj(v)` vertex by vertex. Weights are exact rationals.
-/

namespace GraphAlgo

/-- `DiEdge(v, w, weight)`: the edge `v -> w`. -/
structure DiEdge where
  v : Nat
  w : Nat
  weight : ℚ
  deriving DecidableEq, Repr

namespace DiEdge

def fromVertex (e : DiEdge) : Nat := e.v

def toVertex (e : DiEdge) : Nat := e.w

end DiEdge

/-- The fields of an `EdgeWeightedDiGraph`: `_n_vertices`, `_n_edges` and the adjacency lists
`_adj`, each in insertion order, with what `add_edge` guarantees of them. -/
structure EdgeWeightedDiGraph where
  nVertices : Nat
  nEdges : Nat
  adjList : Nat → List DiEdge
  adjList_from : ∀ v, ∀ e ∈ adjList v, e.fromVertex = v
  adjList_to : ∀ v, ∀ e ∈ adjList v, e.toVertex < nVertices
  adjList_nil : ∀ v, nVertices ≤ v → adjList v = []

namespace EdgeWeightedDiGraph

/-- `EdgeWeightedDiGraph(n_vertices)`, with no edges. -/
def init (nVertices : Nat) : EdgeWeightedDiGraph :=
  ⟨nVertices, 0, fun _ => [], by simp, by simp, fun _ _ => rfl⟩

def isValid (g : EdgeWeightedDiGraph) (v : Nat) : Bool := v < g.nVertices

/-- `adj(v)`: the list of `v`, last-inserted-first. -/
def adj (g : EdgeWeightedDiGraph) (v : Nat) : Except String (List DiEdge) :=
  if g.isValid v then .ok (g.adjList v).reverse else .error "invalid vertex"

/-- `edges()`: `adj(v)` for every vertex `v`, in order. -/
def edges (g : EdgeWeightedDiGraph) : List DiEdge :=
  (List.range g.nVertices).flatMap fun v => (g.adjList v).reverse

/-- `add_edge(edge)`: append the edge to the list of its tail. -/
def addEdge (g : EdgeWeightedDiGraph) (e : DiEdge) : Except String EdgeWeightedDiGraph :=
  if h : g.isValid e.fromVertex ∧ g.isValid e.toVertex then
    .ok { nVertices := g.nVertices
          nEdges := g.nEdges + 1
          adjList := Function.update g.adjList e.fromVertex (g.adjList e.fromVertex ++ [e])
          adjList_from := fun v x hx => by
            rw [Function.update_apply] at hx
            split_ifs at hx with hv
            · rcases List.mem_append.mp hx with hx | hx
              · exact hv ▸ g.adjList_from _ x hx
              · rw [List.mem_singleton.mp hx, hv]
            · exact g.adjList_from v x hx
          adjList_to := fun v x hx => by
            rw [Function.update_apply] at hx
            split_ifs at hx with hv
            · rcases List.mem_append.mp hx with hx | hx
              · exact g.adjList_to _ x hx
              · rw [List.mem_singleton.mp hx]; simpa [isValid] using h.2
            · exact g.adjList_to v x hx
          adjList_nil := fun v hv => by
            have : v ≠ e.fromVertex := by simp [isValid] at h; omega
            rw [Function.update_noteq this, g.adjList_nil v hv] }
  else .error "invalid edge vertices"

/-- `from_graph(other)`: the same vertices and edge count, each list copied from
`other.adj(v)`. -/
def fromGraph (other : EdgeWeightedDiGraph) : EdgeWeightedDiGraph :=
  ⟨other.nVertices, other.nEdges, fun v => (other.adjList v).reverse,
    fun v e he => other.adjList_from v e (List.mem_reverse.mp he),
    fun v e he => other.adjList_to v e (List.mem_reverse.mp he),
    fun v hv => by simp [other.adjList_nil v hv]⟩

/-- The graph on `n` vertices that `add_edge` builds from the edges `es`, in order. -/
def build (n : Nat) (es : List DiEdge) : Except String EdgeWeightedDiGraph :=
  es.foldlM addEdge (init n)

theorem adj_eq {g : EdgeWeightedDiGraph} {v : Nat} (h : v < g.nVertices) :
    g.adj v = .ok (g.adjList v).reverse := by
  simp [adj, isValid, h]

/-- As for `DiGraph.from_graph`: the copy's `adj(v)` iterates the list of `v` in insertion
order, the reverse of `other.adj(v)`. -/
theorem fromGraph_adj {g : EdgeWeightedDiGraph} {v : Nat} (h : v < g.nVertices) :
    g.fromGraph.adj v = .ok (g.adjList v) := by
  simp [fromGraph, adj, isValid, h]

/-- The stored edges are the entries of the lists. -/
theorem mem_edges {g : EdgeWeightedDiGraph} {e : DiEdge} : e ∈ g.edges ↔ ∃ v, e ∈ g.adjList v := by
  simp only [edges, List.mem_flatMap, List.mem_range, List.mem_reverse]
  refine ⟨fun ⟨v, _, he⟩ => ⟨v, he⟩, fun ⟨v, he⟩ => ⟨v, ?_, he⟩⟩
  by_contra hv
  rw [g.adjList_nil v (by omega)] at he
  exact List.not_mem_nil e he

end EdgeWeightedDiGraph

end GraphAlgo
