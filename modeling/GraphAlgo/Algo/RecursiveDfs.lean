import GraphAlgo.Algo.BreadthFirstPaths

/-!
# Recursive depth-first search over `_edge_to` trees (`depth_first_paths_recursive.py`,
`graph_cycle.py`)

Both classes mark a vertex, then go through `graph.adj(v)`, setting `_edge_to[w] = v` on each
new head `w` and recursing into it; both later follow `_edge_to` from a vertex back up the tree
with a `while` loop that pushes each vertex on a `Stack`.

`DepthFirstPathsRecursive(graph, source)` runs `_dfs` from `source`; its `path_to(v)` is the loop
of `BreadthFirstPaths.path_to` line for line, over the same two fields `_source` and `_edge_to`,
so the model reads it through that definition. `_edge_to` starts at `0`.

`GraphCycle(graph)` runs `_dfs` from every new vertex. In the loop over the heads of `v`, a
visited head `w` other than `_edge_to[v]` closes a cycle: the loop `while x != w` pushes `v`,
`_edge_to[v]`, … up to `w`, then `w` and `v` are pushed. Once the stack `_cycle` is non-empty,
every later iteration of a heads loop returns at once, so the model lets the remaining
iterations leave the state as it is. `_edge_to` starts at `-1` and is read with Python's
negative indices, so a walk that ran past a root would go on from `_edge_to[n - 1]`; the walk
runs on `n_vertices` fuel.

The graph of `graph_cycle.py` is an undirected `Graph` (`ds/graph.py`, not among the sources):
a `DiGraph` whose every edge is stored at both ends. Each recursion runs on one more level of
fuel than the graph has vertices.
-/

namespace GraphAlgo

/-- The fields of `DepthFirstPathsRecursive`: `_source`, the length of its lists, `_state`
(visited or not) and `_edge_to`. -/
structure DepthFirstPathsRecursive where
  source : Nat
  nVertices : Nat
  state : Nat → Bool
  edgeTo : Nat → Nat

namespace DepthFirstPathsRecursive

/-- What the model reports when the recursion runs out of fuel; the source has no
counterpart. -/
def outOfFuel : String := "_dfs: out of fuel"

/-- `_dfs(graph, v)`, its recursion on `fuel`: mark `v`, then for each new head `w` set
`_edge_to[w] = v` and recurse. -/
def dfs (g : DiGraph) : Nat → DepthFirstPathsRecursive → Nat →
    Except String DepthFirstPathsRecursive
  | 0, _, _ => .error outOfFuel
  | fuel + 1, p, v =>
    if v < p.nVertices then
      g.adj v >>= fun adj =>
        adj.foldlM
          (fun p w =>
            if !p.state w then dfs g fuel { p with edgeTo := Function.update p.edgeTo w v } w
            else .ok p)
          { p with state := Function.update p.state v true }
    else .error "list assignment index out of range"

/-- `DepthFirstPathsRecursive(graph, source)`. -/
def init (g : DiGraph) (source : Nat) : Except String DepthFirstPathsRecursive :=
  dfs g (g.nVertices + 1) ⟨source, g.nVertices, fun _ => false, fun _ => 0⟩ source

/-- `_source`, the length of the lists, `_state` and `_edge_to`, as the fields `path_to` reads
in `BreadthFirstPaths`; no distance is read. -/
def paths (p : DepthFirstPathsRecursive) : BreadthFirstPaths :=
  ⟨p.source, p.nVertices, p.state, p.edgeTo, fun _ => none⟩

/-- `is_visited(v)`. -/
def isVisited (p : DepthFirstPathsRecursive) (v : Nat) : Except String Bool := p.paths.isVisited v

/-- `path_to(v)`, its loop on `fuel`: `None` when `v` is not visited, else the stack of the
vertices back from `v` to the source. -/
def pathTo (p : DepthFirstPathsRecursive) (v fuel : Nat) : Except String (Option (Stack Nat)) :=
  p.paths.pathTo v fuel

end DepthFirstPathsRecursive

/-- The fields of `GraphCycle`: the length of its lists, `_state`, `_edge_to` and the stack
`_cycle`. -/
structure GraphCycle where
  nVertices : Nat
  state : Nat → Bool
  edgeTo : Nat → Int
  cycle : Stack Int

namespace GraphCycle

/-- `has_cycle()`. -/
def hasCycle (c : GraphCycle) : Bool := !c.cycle.isEmpty

/-- `_edge_to[x]`, a negative `x` counting from the end of the list. -/
def edgeToAt (c : GraphCycle) (x : Int) : Except String Int :=
  if 0 ≤ x ∧ x < c.nVertices then .ok (c.edgeTo x.toNat)
  else if -(c.nVertices : Int) ≤ x ∧ x < 0 then .ok (c.edgeTo (c.nVertices + x).toNat)
  else .error "list index out of range"

/-- What the model reports when a recursion or the cycle walk runs out of fuel; the source has
no counterpart. -/
def outOfFuel : String := "_dfs: out of fuel"

/-- The loop `while x != w` of `_dfs`, on fuel: push `x` and step to `_edge_to[x]`. -/
def walkLoop (c : GraphCycle) (w : Nat) : Nat → Int → Stack Int → Except String (Stack Int)
  | fuel, x, st =>
    if x = w then .ok st
    else
      match fuel with
      | 0 => .error outOfFuel
      | fuel + 1 => c.edgeToAt x >>= fun y => walkLoop c w fuel y (st.push x)

/-- One head `w` of `v` in `_dfs`: return if a cycle is known; recurse into a new `w`; on a
visited `w` other than `_edge_to[v]`, walk back from `v` to `w` and close the cycle. -/
def visitHead (dfs : GraphCycle → Nat → Except String GraphCycle) (v : Nat) (c : GraphCycle)
    (w : Nat) : Except String GraphCycle :=
  if c.hasCycle then .ok c
  else if !c.state w then dfs { c with edgeTo := Function.update c.edgeTo w v } w
  else if (w : Int) ≠ c.edgeTo v then
    walkLoop c w c.nVertices v c.cycle >>= fun st =>
      .ok { c with cycle := (st.push w).push v }
  else .ok c

/-- `_dfs(graph, v)`, its recursion on `fuel`: mark `v`, then visit its heads. -/
def dfs (g : DiGraph) : Nat → GraphCycle → Nat → Except String GraphCycle
  | 0, _, _ => .error outOfFuel
  | fuel + 1, c, v =>
    if v < c.nVertices then
      g.adj v >>= fun adj =>
        adj.foldlM (visitHead (dfs g fuel) v) { c with state := Function.update c.state v true }
    else .error "list assignment index out of range"

/-- `GraphCycle(graph)`: `_dfs` from every new vertex, in order. -/
def init (g : DiGraph) : Except String GraphCycle :=
  (List.range g.nVertices).foldlM
    (fun c s => if !c.state s then dfs g (g.nVertices + 1) c s else .ok c)
    ⟨g.nVertices, fun _ => false, fun _ => -1, Stack.init⟩

/-- `cycle()`: `None` without a cycle, else the stack `_cycle`. -/
def cycle? (c : GraphCycle) : Option (Stack Int) := if c.hasCycle then some c.cycle else none

end GraphCycle

end GraphAlgo
