import Mathlib.Algebra.Order.Field.Rat
import Mathlib.Logic.Function.Basic

/-!
# `Edge` and `EdgeWeightedGraph` (`ds/edge_weighted_graph.py`)

The three MST clients import `Edge` and `EdgeWeightedGraph` from `ds/edge_weighted_graph.py`,
which is not among the sources. Both are modelled from the spec: an undirected edge is an
ordered pair of endpoints with a weight, ordered by weight only; the graph keeps one
adjacency list per vertex, stores every edge in the lists of both endpoints, and `adj(v)`
iterates a list last-inserted-first. `edges()` lists every adjacency entry, vertex by vertex,
as `EdgeWeightedDiGraph.edges()` in `ds/edge_weighted_digraph.py` does; an undirected edge is
listed once from each endpoint. Weights are exact rationals.
-/

namespace GraphAlgo

/-- Modelled from the spec: `Edge(v, w, weight)` of `ds/edge_weighted_graph.py`. -/
structure Edge where
  v : Nat
  w : Nat
  weight : ℚ
  deriving DecidableEq, Repr

namespace Edge

def first (e : Edge) : Nat := e.v

def second (e : Edge) : Nat := e.w

/-- Modelled from the spec: `other(x)`, the endpoint other than `x`. -/
def other (e : Edge) (x : Nat) : Nat := if x = e.v then e.w else e.v

/-- Modelled from the spec: `x < y` on edges compares the weights only. -/
def lt (x y : Edge) : Bool := decide (x.weight < y.weight)

end Edge

/-- Modelled from the spec: the fields of an `EdgeWeightedGraph`, `_n_vertices`, `_n_edges`
and the adjacency lists `_adj`, each in insertion order. -/
structure EdgeWeightedGraph where
  nVertices : Nat
  nEdges : Nat
  adjList : Nat → List Edge

namespace EdgeWeightedGraph

/-- Modelled from the spec: `EdgeWeightedGraph(n_vertices)`, with no edges. -/
def init (nVertices : Nat) : EdgeWeightedGraph := ⟨nVertices, 0, fun _ => []⟩

def isValid (g : EdgeWeightedGraph) (v : Nat) : Bool := v < g.nVertices

/-- Modelled from the spec: `adj(v)`, last-inserted-first. -/
def adj (g : EdgeWeightedGraph) (v : Nat) : List Edge := (g.adjList v).reverse

/-- Modelled from the spec: `add_edge(edge)` appends the edge to the lists of both endpoints
(twice to one list for a self-loop). -/
def addEdge (g : EdgeWeightedGraph) (e : Edge) : Except String EdgeWeightedGraph :=
  if g.isValid e.v ∧ g.isValid e.w then
    let adjList := Function.update g.adjList e.v (g.adjList e.v ++ [e])
    .ok { g with adjList := Function.update adjList e.w (adjList e.w ++ [e]),
                 nEdges := g.nEdges + 1 }
  else .error "invalid edge vertices"

/-- Modelled from the spec: `edges()`, every adjacency entry, vertex by vertex. -/
def edges (g : EdgeWeightedGraph) : List Edge := (List.range g.nVertices).flatMap g.adj

/-- The graph on `n` vertices that `add_edge` builds from the edges `es`, in order. -/
def build (n : Nat) (es : List Edge) : Except String EdgeWeightedGraph :=
  es.foldlM addEdge (init n)

end EdgeWeightedGraph

end GraphAlgo
