import GraphAlgo.Ds.DiGraph
import GraphAlgo.Ds.Deque
import Mathlib.Algebra.Order.Ring.Nat

/-!
# Topological order, strong and connected components (`depth_first_toposort_recursive.py`,
`depth_first_scc.py`, `depth_first_ucc.py`)

`DepthFirstTopoSortRecursive(graph)` runs the recursive `_dfs` from every unvisited vertex in
turn and pushes each vertex on a stack once all its heads are done; iterating the stack gives
the reverse postorder. `DepthFirstSCC(graph)` takes that order for `DiGraph.reverse(graph)`
(pass 1) and runs the stack-based `_dfs` on `graph` from each vertex of it still unvisited,
marking what it reaches with the current count (pass 2). `DepthFirstUCC(graph)` has the same
fields and the same `_dfs`, run from each unvisited vertex in vertex order. `numpy.inf` is
`none`. An undirected `Graph` (`ds/graph.py`, not among the sources) is a `DiGraph` whose every
edge is stored at both ends.

`depth_first_scc.py` imports `DepthFirstTopoSort` from `depth_first_toposort.py`, which is not
among the sources; pass 1 is the reverse postorder that `DepthFirstTopoSortRecursive`
computes, as the spec describes it.

The recursion of the topological sort is at most as deep as the graph has vertices, and runs on
that much fuel; the loop of the stack-based `_dfs` pops at most one entry per vertex and per
adjacency entry, and runs on `dfsFuel` (both sufficient, `Logic/TopoSort.lean` and
`Logic/Scc.lean`).
-/

namespace GraphAlgo

/-- The fields of `DepthFirstTopoSortRecursive`: `_state` (visited or not) and the stack
`_vertices`. -/
structure DepthFirstTopoSortRecursive where
  state : Nat → Bool
  vertices : Stack Nat

namespace DepthFirstTopoSortRecursive

/-- What the model reports when the recursion runs out of fuel; the source has no
counterpart. -/
def outOfFuel : String := "_dfs: out of fuel"

/-- `_dfs(graph, v)`, its recursion on `fuel`: mark `v`, recurse on every unvisited head, then
push `v`. -/
def dfs (g : DiGraph) : Nat → DepthFirstTopoSortRecursive → Nat →
    Except String DepthFirstTopoSortRecursive
  | 0, _, _ => .error outOfFuel
  | fuel + 1, t, v =>
    if v < g.nVertices then
      g.adj v >>= fun adj =>
        adj.foldlM (fun t w => if !t.state w then dfs g fuel t w else .ok t)
            { t with state := Function.update t.state v true } >>= fun t =>
          .ok { t with vertices := t.vertices.push v }
    else .error "list assignment index out of range"

/-- `DepthFirstTopoSortRecursive(graph)`: `_dfs` from every unvisited vertex, in order. -/
def init (g : DiGraph) : Except String DepthFirstTopoSortRecursive :=
  (List.range g.nVertices).foldlM
    (fun t v => if !t.state v then dfs g (g.nVertices + 1) t v else .ok t)
    ⟨fun _ => false, Stack.init⟩

/-- `__iter__`: the stack `_vertices`, last pushed first. -/
def iter (t : DepthFirstTopoSortRecursive) : List Nat := t.vertices.iter

end DepthFirstTopoSortRecursive

/-- The fields of `DepthFirstSCC`: the length of its lists, `_state`, `_id` and `_count`. -/
structure DepthFirstScc where
  nVertices : Nat
  state : Nat → Bool
  ids : Nat → Option Nat
  count : Nat

namespace DepthFirstScc

/-- What the model reports when the loop of `_dfs` runs out of fuel; the source has no
counterpart. -/
def outOfFuel : String := "_dfs: out of fuel"

/-- The `while` loop of `_dfs(graph, s)`, on fuel: pop a vertex, mark it visited with id
`_count`, and push every head of it still unvisited. -/
def dfsLoop (g : DiGraph) : Nat → DepthFirstScc → Stack Nat → Except String DepthFirstScc
  | 0, _, _ => .error outOfFuel
  | fuel + 1, d, st =>
    if st.isEmpty then .ok d
    else
      match st.pop with
      | (none, _) => .error "list indices must be integers or slices, not NoneType"
      | (some v, st) =>
        if v < d.nVertices then
          let d := { d with state := Function.update d.state v true,
                            ids := Function.update d.ids v (some d.count) }
          g.adj v >>= fun adj =>
            dfsLoop g fuel d (adj.foldl (fun st w => if !d.state w then st.push w else st) st)
        else .error "list assignment index out of range"

/-- The fuel of `_dfs`: one iteration for the source, at most one per vertex and per adjacency
entry, and the last, which finds the stack empty. -/
def dfsFuel (g : DiGraph) : Nat :=
  ((List.range g.nVertices).map fun v => (g.adjList v).length + 1).sum + 2

/-- `_dfs(graph, s)`. -/
def dfs (g : DiGraph) (d : DepthFirstScc) (s : Nat) : Except String DepthFirstScc :=
  dfsLoop g (dfsFuel g) d (Stack.init.push s)

def isVisited (d : DepthFirstScc) (v : Nat) : Bool := d.state v

/-- `DepthFirstSCC(graph)`. -/
def init (g : DiGraph) : Except String DepthFirstScc :=
  g.reverse >>= fun r => DepthFirstTopoSortRecursive.init r >>= fun toposort =>
    toposort.iter.foldlM
      (fun d v =>
        if !d.isVisited v then dfs g d v >>= fun d => .ok { d with count := d.count + 1 }
        else .ok d)
      ⟨g.nVertices, fun _ => false, fun _ => none, 0⟩

/-- `connected(v, w)`: `_id[v] == _id[w]`. -/
def connected (d : DepthFirstScc) (v w : Nat) : Except String Bool :=
  if v < d.nVertices ∧ w < d.nVertices then .ok (d.ids v == d.ids w)
  else .error "list index out of range"

/-- `id(v)`: `_id[v]`. -/
def id (d : DepthFirstScc) (v : Nat) : Except String (Option Nat) :=
  if v < d.nVertices then .ok (d.ids v) else .error "list index out of range"

end DepthFirstScc

/-- The fields of `DepthFirstUCC` are those of `DepthFirstSCC`: the length of its lists,
`_state`, `_id` and `_count`. -/
abbrev DepthFirstUcc := DepthFirstScc

namespace DepthFirstUcc

/-- `_dfs(graph, s)`: the body of `DepthFirstSCC._dfs`, line for line. -/
def dfs (g : DiGraph) (d : DepthFirstUcc) (s : Nat) : Except String DepthFirstUcc :=
  DepthFirstScc.dfs g d s

def isVisited (d : DepthFirstUcc) (v : Nat) : Bool := DepthFirstScc.isVisited d v

/-- `DepthFirstUCC(graph)`: `_dfs` from every vertex still unvisited, in vertex order, counting
one component per call. -/
def init (g : DiGraph) : Except String DepthFirstUcc :=
  (List.range g.nVertices).foldlM
    (fun d v =>
      if !isVisited d v then dfs g d v >>= fun d => .ok { d with count := d.count + 1 }
      else .ok d)
    ⟨g.nVertices, fun _ => false, fun _ => none, 0⟩

/-- `connected(v, w)`: `_id[v] == _id[w]`. -/
def connected (d : DepthFirstUcc) (v w : Nat) : Except String Bool := DepthFirstScc.connected d v w

/-- `id(v)`: `_id[v]`. -/
def id (d : DepthFirstUcc) (v : Nat) : Except String (Option Nat) := DepthFirstScc.id d v

end DepthFirstUcc

end GraphAlgo
