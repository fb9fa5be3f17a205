import GraphAlgo.Ds.EdgeWeightedDiGraph
import GraphAlgo.Ds.PriorityQueue
import GraphAlgo.Ds.Deque

/-!
# Lazy Dijkstra (`path_dijkstra.py`)

`PathDijkstra(graph, src)` checks that no weight is negative, sets `_dist_to[src] = 0.0`,
relaxes `src`, and then pops pairs `(edge, distance)` off a queue built with
`lambda x, y: x > y`, relaxing the head of each popped edge that is not yet visited. With the
heap order `not compare(pq[k // 2], pq[k])` of `PriorityQueue` that comparator keeps the
smallest distance on top. `numpy.inf` is `none`.

The `while` loop pops one pair per iteration and runs on as much fuel as `graph.edges()` has
entries: a vertex is relaxed once, and each of its edges pushes at most one pair. The loop of
`path_to` follows `_edge_to` back to the source; it runs on explicit fuel.
-/

namespace GraphAlgo

/-- `PathDijkstra.Pair(edge, weight)`: a queued edge and the distance it gave its head. -/
structure Pair where
  edge : DiEdge
  weight : ℚ
  deriving DecidableEq, Repr

/-- The comparator of `_pq`, `lambda x, y: x > y`, on pairs, which compare by weight. -/
def Pair.gt (x y : Pair) : Bool := decide (x.weight > y.weight)

/-- The fields of `PathDijkstra`: the length of its lists, `_state` (visited or not),
`_dist_to`, `_edge_to` and `_pq`. -/
structure PathDijkstra where
  nVertices : Nat
  state : Nat → Bool
  dist : Nat → Option ℚ
  edgeTo : Nat → Option DiEdge
  pq : PriorityQueue Pair

namespace PathDijkstra

/-- `_dist_to[w] > x` against a distance that may be `numpy.inf` (`none`). -/
def gtDist : Option ℚ → ℚ → Bool
  | none, _ => true
  | some d, x => decide (d > x)

/-- One edge of `_relax(graph, v)`: when `_dist_to[w] > _dist_to[v] + weight`, record the
shorter distance and the edge, and push the pair. With `_dist_to[v]` infinite the sum is
infinite, and no distance exceeds it. -/
def relaxEdge (v : Nat) (d : PathDijkstra) (edge : DiEdge) : Except String PathDijkstra :=
  match d.dist v with
  | none => .ok d
  | some dv =>
    if gtDist (d.dist edge.toVertex) (dv + edge.weight) then
      d.pq.push Pair.gt ⟨edge, dv + edge.weight⟩ >>= fun pq =>
        .ok { d with dist := Function.update d.dist edge.toVertex (some (dv + edge.weight)),
                     edgeTo := Function.update d.edgeTo edge.toVertex (some edge), pq }
    else .ok d

/-- `_relax(graph, v)`: mark `v` visited, then relax every edge of `adj(v)`. -/
def relax (g : EdgeWeightedDiGraph) (d : PathDijkstra) (v : Nat) : Except String PathDijkstra :=
  if v < d.nVertices then
    g.adj v >>= fun adj => adj.foldlM (relaxEdge v) { d with state := Function.update d.state v true }
  else .error "list assignment index out of range"

/-- The text of the `AttributeError` of `None.edge`. -/
def nonePair : String := "'NoneType' object has no attribute 'edge'"

/-- The `while` loop of `PathDijkstra.__init__`: pop the top pair and relax the head of its
edge unless it is visited. -/
def loop (g : EdgeWeightedDiGraph) : Nat → PathDijkstra → Except String PathDijkstra
  | 0, d => .ok d
  | fuel + 1, d =>
    if d.pq.isEmpty then .ok d
    else
      d.pq.top >>= fun pair => d.pq.pop Pair.gt >>= fun pq =>
        match pair with
        | none => .error nonePair
        | some pair =>
          if !d.state pair.edge.toVertex then
            relax g { d with pq } pair.edge.toVertex >>= loop g fuel
          else loop g fuel { d with pq }

/-- `PathDijkstra(graph, src)`. -/
def init (g : EdgeWeightedDiGraph) (src : Nat) : Except String PathDijkstra :=
  if g.edges.all fun edge => decide (0 ≤ edge.weight) then
    PriorityQueue.init g.nVertices >>= fun pq =>
      if src < g.nVertices then
        relax g ⟨g.nVertices, fun _ => false, Function.update (fun _ => none) src (some 0),
            fun _ => none, pq⟩ src >>= loop g g.edges.length
      else .error "list assignment index out of range"
  else .error "edge has negative weight"

def isValid (d : PathDijkstra) (v : Nat) : Bool := v < d.nVertices

/-- `dist_to(v)`. -/
def distTo (d : PathDijkstra) (v : Nat) : Except String (Option ℚ) :=
  if d.isValid v then .ok (d.dist v) else .error "invalid vertex"

/-- `has_path_to(v)`: `_dist_to[v] < float("inf")`. -/
def hasPathTo (d : PathDijkstra) (v : Nat) : Except String Bool :=
  if d.isValid v then .ok (d.dist v).isSome else .error "invalid vertex"

/-- What the model reports when the loop of `path_to` runs out of fuel, where the source would
go on following `_edge_to`. -/
def outOfFuel : String := "path_to: out of fuel"

/-- The `while` loop of `path_to`, on fuel: push `e`, then step to
`_edge_to[e.from_vertex()]`, until `None`. -/
def pathToLoop (edgeTo : Nat → Option DiEdge) :
    Nat → Option DiEdge → Stack DiEdge → Except String (Stack DiEdge)
  | _, none, path => .ok path
  | 0, some _, _ => .error outOfFuel
  | fuel + 1, some e, path => pathToLoop edgeTo fuel (edgeTo e.fromVertex) (path.push e)

/-- `path_to(v)`, its loop on `fuel`: `None` when `v` is unreached, else the stack of the edges
back from `v`. -/
def pathTo (d : PathDijkstra) (v fuel : Nat) : Except String (Option (Stack DiEdge)) :=
  if d.isValid v then
    d.hasPathTo v >>= fun b =>
      if b then (pathToLoop d.edgeTo fuel (d.edgeTo v) Stack.init).map some else .ok none
  else .error "invalid vertex"

end PathDijkstra

end GraphAlgo
