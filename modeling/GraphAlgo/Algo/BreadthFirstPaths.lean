import GraphAlgo.Ds.DiGraph
import GraphAlgo.Ds.Deque

/-!
# Breadth-first paths (`bread_first_paths.py`)

`BreadthFirstPaths(graph, source)` marks `source` with distance `0` and enqueues it; `_bfs` then
pops the front vertex `v` and marks, measures (`_dist_to[v] + 1`), links (`_edge_to[w] = v`) and
enqueues each new head `w` of it. `path_to(v)` follows `_edge_to` from `v` back to the source,
pushing each vertex on a `Stack`, so that the stack iterates the path source first.
`numpy.inf` is `none`.

The graph is read only through `vertices()` and `adj(v)`. `ds/graph.py`, which the source
imports, is not among the sources; `DiGraph` has the same two methods, and an undirected `Graph`
(its lists symmetric, as the spec describes it) is a `DiGraph` whose every edge is stored at
both ends, so the model runs on `DiGraph`.

A vertex is enqueued once, when it is marked: the loop of `_bfs` runs on one more iteration than
the graph has vertices. The loop of `path_to` runs on explicit fuel.
-/

namespace GraphAlgo

/-- The fields of `BreadthFirstPaths`: `_source`, the length of its lists, `_state` (visited or
not), `_edge_to` and `_dist_to`. -/
structure BreadthFirstPaths where
  source : Nat
  nVertices : Nat
  state : Nat → Bool
  edgeTo : Nat → Nat
  dist : Nat → Option Nat

namespace BreadthFirstPaths

/-- One head `w` of `v` in `_bfs`: when `w` is new, mark it, set `_dist_to[w]` to
`_dist_to[v] + 1` and `_edge_to[w]` to `v`, and enqueue it. -/
def visitHead (v : Nat) (bq : BreadthFirstPaths × Queue Nat) (w : Nat) :
    BreadthFirstPaths × Queue Nat :=
  if !bq.1.state w then
    ({ bq.1 with state := Function.update bq.1.state w true
                 dist := Function.update bq.1.dist w ((bq.1.dist v).map (· + 1))
                 edgeTo := Function.update bq.1.edgeTo w v }, bq.2.push w)
  else bq

/-- What the model reports when the loop of `_bfs` runs out of fuel; the source has no
counterpart. -/
def outOfFuel : String := "_bfs: out of fuel"

/-- The `while` loop of `_bfs`, on fuel: pop the front vertex and visit its heads. -/
def bfsLoop (g : DiGraph) : Nat → BreadthFirstPaths → Queue Nat → Except String BreadthFirstPaths
  | 0, _, _ => .error outOfFuel
  | fuel + 1, b, q =>
    if q.isEmpty then .ok b
    else
      match q.pop with
      | (none, _) => .error "'>=' not supported between instances of 'NoneType' and 'int'"
      | (some v, q) =>
        g.adj v >>= fun adj =>
          let bq := adj.foldl (visitHead v) (b, q)
          bfsLoop g fuel bq.1 bq.2

/-- `BreadthFirstPaths(graph, source)`: mark `source` at distance `0`, enqueue it, and run the
loop of `_bfs`. -/
def init (g : DiGraph) (source : Nat) : Except String BreadthFirstPaths :=
  if source < g.nVertices then
    bfsLoop g (g.nVertices + 1)
      ⟨source, g.nVertices, Function.update (fun _ => false) source true, fun _ => 0,
        Function.update (fun _ => none) source (some 0)⟩
      (Queue.init.push source)
  else .error "list assignment index out of range"

/-- `is_visited(v)`. -/
def isVisited (b : BreadthFirstPaths) (v : Nat) : Except String Bool :=
  if v < b.nVertices then .ok (b.state v) else .error "list index out of range"

/-- `dist_to(v)`. -/
def distTo (b : BreadthFirstPaths) (v : Nat) : Except String (Option Nat) :=
  if v < b.nVertices then .ok (b.dist v) else .error "list index out of range"

/-- What the model reports when the loop of `path_to` runs out of fuel, where the source would
go on following `_edge_to`. -/
def pathOutOfFuel : String := "path_to: out of fuel"

/-- The `while` loop of `path_to`, on fuel: until `x` is the source, push `x` and step to
`_edge_to[x]`; then push the source. -/
def pathToLoop (b : BreadthFirstPaths) : Nat → Nat → Stack Nat → Except String (Stack Nat)
  | fuel, x, r =>
    if x = b.source then .ok (r.push b.source)
    else
      match fuel with
      | 0 => .error pathOutOfFuel
      | fuel + 1 => pathToLoop b fuel (b.edgeTo x) (r.push x)

/-- `path_to(v)`, its loop on `fuel`: `None` when `v` is not visited, else the stack of the
vertices back from `v`. -/
def pathTo (b : BreadthFirstPaths) (v fuel : Nat) : Except String (Option (Stack Nat)) :=
  b.isVisited v >>= fun visited =>
    if !visited then .ok none else (pathToLoop b fuel v Stack.init).map some

end BreadthFirstPaths

end GraphAlgo
