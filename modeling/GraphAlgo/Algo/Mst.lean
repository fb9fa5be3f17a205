import GraphAlgo.Ds.EdgeWeightedGraph
import GraphAlgo.Ds.PriorityQueue
import GraphAlgo.Ds.PriorityIndexQueue
import GraphAlgo.Ds.UnionFind

/-!
# Minimum spanning trees (`mst_kruskal.py`, `mst_prim_lazy.py`, `mst_prim_eager.py`)

The three constructors, each returning the list `_mst` (for `MstPrimEager`, the list its
constructor builds from `_edge_to[1..]`, where an unreached vertex leaves `None`).

All three build their queue with `lambda x, y: x < y`, and the comments beside each call say
the queue is ascending with the minimum-weight edge on top. With the heap order
`not compare(pq[k // 2], pq[k])` of `PriorityQueue` and `PriorityIndexQueue` that comparator
keeps the maximum on top (`Logic/PriorityQueue.lean`), so each loop pops the heaviest
candidate first.

Every `while` loop pops one queue entry per iteration and runs on as much fuel as the entries
that can ever be pushed: all of `graph.edges()` for Kruskal, every adjacency entry for lazy Prim
(each vertex is visited once), and `n_vertices` for eager Prim (a vertex is pushed only while
unvisited and absent from the queue).
-/

namespace GraphAlgo

open EdgeWeightedGraph

/-- The text of the `AttributeError` of `None.first()`. -/
def noneEdge : String := "'NoneType' object has no attribute 'first'"

/-- `weight()` of the three classes: the edge weights of `edges()`, summed from `0.0` in list
order. Weights are exact rationals here, so the sum does not depend on that order; the source
adds floats, where two orders of the same weights can round differently
(`0.3 + 0.2 + 0.1 == 0.6` but `0.1 + 0.2 + 0.3 == 0.6000000000000001`). -/
def weight (mst : List Edge) : ℚ := mst.foldl (fun w edge => w + edge.weight) 0

/-! ## `MstKruskal` -/

/-- The `while` loop of `MstKruskal.__init__`: pop the top edge; skip it when `uf` already
connects its endpoints, else join them and append it. -/
def kruskalLoop (n : Nat) :
    Nat → PriorityQueue Edge → UnionFind → List Edge → Except String (List Edge)
  | 0, _, _, mst => .ok mst
  | fuel + 1, pq, uf, mst =>
    if !pq.isEmpty && decide (mst.length < n - 1) then
      pq.top >>= fun edge => pq.pop Edge.lt >>= fun pq =>
        match edge with
        | none => .error noneEdge
        | some edge =>
          uf.connected edge.first edge.second >>= fun (uf, c) =>
            if c then kruskalLoop n fuel pq uf mst
            else uf.join edge.first edge.second >>= fun uf => kruskalLoop n fuel pq uf (mst ++ [edge])
    else .ok mst

/-- `MstKruskal(graph)`: push every edge of `graph.edges()`, then run the loop. -/
def mstKruskal (g : EdgeWeightedGraph) : Except String (List Edge) :=
  UnionFind.init g.nVertices >>= fun uf =>
    PriorityQueue.init g.nEdges >>= fun pq =>
      g.edges.foldlM (fun pq e => pq.push Edge.lt e) pq >>= fun pq =>
        kruskalLoop g.nVertices g.edges.length pq uf []

/-! ## `MstPrimLazy` -/

/-- `MstPrimLazy._visit(graph, v)`: mark `v` visited, push every incident edge whose other end
is unvisited. -/
def primLazyVisit (g : EdgeWeightedGraph) (pq : PriorityQueue Edge) (state : Nat → Bool)
    (v : Nat) : Except String (PriorityQueue Edge × (Nat → Bool)) :=
  if v < g.nVertices then
    let state := Function.update state v true
    (g.adj v).foldlM (fun pq edge => if state (edge.other v) then .ok pq else pq.push Edge.lt edge)
      pq >>= fun pq => .ok (pq, state)
  else .error "list assignment index out of range"

/-- The `while` loop of `MstPrimLazy.__init__`: pop the top edge; skip it when both ends are
visited, else append it and visit its unvisited end. -/
def primLazyLoop (g : EdgeWeightedGraph) :
    Nat → PriorityQueue Edge → (Nat → Bool) → List Edge → Except String (List Edge)
  | 0, _, _, mst => .ok mst
  | fuel + 1, pq, state, mst =>
    if pq.isEmpty then .ok mst
    else
      pq.top >>= fun edge => pq.pop Edge.lt >>= fun pq =>
        match edge with
        | none => .error noneEdge
        | some edge =>
          if state edge.first && state edge.second then primLazyLoop g fuel pq state mst
          else
            (if !state edge.first then primLazyVisit g pq state edge.first
              else .ok (pq, state)) >>= fun (pq, state) =>
            (if !state edge.second then primLazyVisit g pq state edge.second
              else .ok (pq, state)) >>= fun (pq, state) =>
            primLazyLoop g fuel pq state (mst ++ [edge])

/-- `MstPrimLazy(graph)`: visit vertex 0, then run the loop. -/
def mstPrimLazy (g : EdgeWeightedGraph) : Except String (List Edge) :=
  PriorityQueue.init g.nEdges >>= fun pq =>
    primLazyVisit g pq (fun _ => false) 0 >>= fun (pq, state) =>
      primLazyLoop g g.edges.length pq state []

/-! ## `MstPrimEager` -/

/-- `weight < dist` against a distance that may be `numpy.inf` (`none`). -/
def ltDist (weight : ℚ) : Option ℚ → Bool
  | none => true
  | some d => decide (weight < d)

/-- The fields of `MstPrimEager` while its constructor runs: `_state`, `_edge_to`, `_dist_to`
and `_pq`. -/
structure PrimEager where
  state : Nat → Bool
  edgeTo : Nat → Option Edge
  distTo : Nat → Option ℚ
  pq : PriorityIndexQueue ℚ

/-- The comparator of `_pq`: `lambda x, y: x < y` on distances. -/
def distLt (x y : ℚ) : Bool := decide (x < y)

/-- One edge of `MstPrimEager._visit(graph, v)`: when the other end `w` is unvisited and the
edge beats `_dist_to[w]`, record it and `change` or `push` the key of `w`. -/
def primEagerRelax (v : Nat) (s : PrimEager) (edge : Edge) : Except String PrimEager :=
  let w := edge.other v
  if s.state w then .ok s
  else if ltDist edge.weight (s.distTo w) then
    let s := { s with edgeTo := Function.update s.edgeTo w (some edge),
                      distTo := Function.update s.distTo w (some edge.weight) }
    s.pq.contains w >>= fun c =>
      (if c then s.pq.change distLt w edge.weight else s.pq.push distLt w edge.weight) >>=
        fun pq => .ok { s with pq }
  else .ok s

/-- `MstPrimEager._visit(graph, v)`. -/
def primEagerVisit (g : EdgeWeightedGraph) (s : PrimEager) (v : Nat) : Except String PrimEager :=
  (g.adj v).foldlM (primEagerRelax v) { s with state := Function.update s.state v true }

/-- The `while` loop of `MstPrimEager.__init__`: pop the top index and visit it. -/
def primEagerLoop (g : EdgeWeightedGraph) : Nat → PrimEager → Except String PrimEager
  | 0, s => .ok s
  | fuel + 1, s =>
    if s.pq.count = 0 then .ok s
    else s.pq.topIx >>= fun v => s.pq.pop distLt >>= fun pq =>
      primEagerVisit g { s with pq } v >>= primEagerLoop g fuel

/-- `MstPrimEager(graph)`: push vertex 0 at distance 0, run the loop, and list
`_edge_to[1..n_vertices - 1]`. -/
def mstPrimEager (g : EdgeWeightedGraph) : Except String (List (Option Edge)) :=
  PriorityIndexQueue.init g.nVertices >>= fun pq =>
    pq.push distLt 0 0 >>= fun pq =>
      primEagerLoop g (g.nVertices + 1)
          ⟨fun _ => false, fun _ => none, Function.update (fun _ => none) 0 (some 0), pq⟩ >>=
        fun s => .ok ((List.range (g.nVertices - 1)).map fun v => s.edgeTo (v + 1))

end GraphAlgo
