import Mathlib.Logic.Function.Basic
import Mathlib.Data.List.Range
import Mathlib.Logic.Relation

/-!
# `DiGraph` (`ds/digraph.py`)

A directed graph as one list of heads per vertex. `add_edge(v, w)` checks both ends and appends
`w` to the list of `v`, so every stored head is a vertex of the graph; the structure carries
that fact, and that no list lies past `_n_vertices`. `adj(v)` iterates a list
last-inserted-first.

`DiGraph.reverse(other)` adds `w -> v` for every `v -> w` of `other`, vertex by vertex:
`reverse_eq` says it succeeds and lists the heads of `a` in increasing order, each as often as
`other` has the edge to `a`, so that reversing twice sorts each list (`reverse_reverse`).
-/

namespace GraphAlgo

/-- The fields of a `DiGraph`: `_n_vertices`, `_n_edges` and the lists `_adj`, each in insertion
order, with what `add_edge` guarantees of them. -/
structure DiGraph where
  nVertices : Nat
  nEdges : Nat
  adjList : Nat → List Nat
  adjList_lt : ∀ v, ∀ w ∈ adjList v, w < nVertices
  adjList_nil : ∀ v, nVertices ≤ v → adjList v = []

namespace DiGraph

/-- `DiGraph(n_vertices)`, with no edges. -/
def init (nVertices : Nat) : DiGraph :=
  ⟨nVertices, 0, fun _ => [], by simp, fun _ _ => rfl⟩

def isValid (g : DiGraph) (v : Nat) : Bool := v < g.nVertices

/-- `adj(v)`: the list of `v`, last-inserted-first. -/
def adj (g : DiGraph) (v : Nat) : Except String (List Nat) :=
  if g.isValid v then .ok (g.adjList v).reverse else .error "invalid vertex"

/-- `add_edge(v, w)`: append `w` to the list of `v`. -/
def addEdge (g : DiGraph) (v w : Nat) : Except String DiGraph :=
  if h : g.isValid v ∧ g.isValid w then
    .ok { nVertices := g.nVertices
          nEdges := g.nEdges + 1
          adjList := Function.update g.adjList v (g.adjList v ++ [w])
          adjList_lt := fun u x hx => by
            rw [Function.update_apply] at hx
            split_ifs at hx
            · rcases List.mem_append.mp hx with hx | hx
              · exact g.adjList_lt _ x hx
              · rw [List.mem_singleton.mp hx]; simpa [isValid] using h.2
            · exact g.adjList_lt u x hx
          adjList_nil := fun u hu => by
            have : u ≠ v := by simp [isValid] at h; omega
            rw [Function.update_noteq this, g.adjList_nil u hu] }
  else .error "invalid edge vertices"

/-- `from_graph(other)`: the same vertices and edge count, each list copied from
`other.adj(v)`. -/
def fromGraph (other : DiGraph) : DiGraph :=
  ⟨other.nVertices, other.nEdges, fun v => (other.adjList v).reverse,
    fun v w hw => other.adjList_lt v w (List.mem_reverse.mp hw),
    fun v hv => by simp [other.adjList_nil v hv]⟩

/-- `DiGraph.reverse(other)`: `add_edge(w, v)` for every `w` of `other.adj(v)`, vertex by
vertex. -/
def reverse (other : DiGraph) : Except String DiGraph :=
  (List.range other.nVertices).foldlM
    (fun graph v => other.adj v >>= fun adj => adj.foldlM (fun graph w => graph.addEdge w v) graph)
    (init other.nVertices)

/-- The edge `u -> w`. -/
def Adj (g : DiGraph) (u w : Nat) : Prop := w ∈ g.adjList u

/-- `w` is reachable from `u`. -/
def Reach (g : DiGraph) : Nat → Nat → Prop := Relation.ReflTransGen g.Adj

theorem Reach.lt {g : DiGraph} {u w : Nat} (h : g.Reach u w) (hu : u < g.nVertices) :
    w < g.nVertices := by
  induction h with
  | refl => exact hu
  | tail _ hxy _ => exact g.adjList_lt _ _ hxy

/-- Only a vertex has heads. -/
theorem adj_lt_left {g : DiGraph} {u w : Nat} (h : g.Adj u w) : u < g.nVertices := by
  by_contra hu
  rw [Adj, g.adjList_nil u (by omega)] at h
  exact List.not_mem_nil w h

theorem adj_eq {g : DiGraph} {v : Nat} (h : v < g.nVertices) : g.adj v = .ok (g.adjList v).reverse := by
  simp [adj, isValid, h]

/-- `from_graph(other)` stores the lists `other.adj(v)` yields, already reversed, and `adj`
reverses them once more: the copy iterates each list in insertion order, the reverse of
`other.adj(v)`. -/
theorem fromGraph_adj {g : DiGraph} {v : Nat} (h : v < g.nVertices) :
    g.fromGraph.adj v = .ok (g.adjList v) := by
  simp [fromGraph, adj, isValid, h]

/-- After `add_edge(0, 1)` and `add_edge(0, 2)` on three vertices, `adj(0)` yields `2, 1` and
the copy's `adj(0)` yields `1, 2`. -/
theorem fromGraph_adj_reversed :
    ∃ g, ((init 3).addEdge 0 1 >>= fun g => g.addEdge 0 2) = .ok g ∧
      g.adj 0 = .ok [2, 1] ∧ g.fromGraph.adj 0 = .ok [1, 2] :=
  ⟨_, rfl, rfl, rfl⟩

/-- `add_edge(v, w)` on two vertices succeeds, counts one more edge, and appends `w` to the list
of `v`. -/
theorem addEdge_eq {g : DiGraph} {v w : Nat} (hv : v < g.nVertices) (hw : w < g.nVertices) :
    ∃ g', g.addEdge v w = .ok g' ∧ g'.nVertices = g.nVertices ∧ g'.nEdges = g.nEdges + 1 ∧
      g'.adjList = Function.update g.adjList v (g.adjList v ++ [w]) :=
  ⟨_, dif_pos (by simp [isValid, hv, hw]), rfl, rfl, rfl⟩

/-- The inner loop of `reverse` over the heads `ws` of `v`: the list of each `w` of `ws` gets
`v` appended, once per occurrence of `w`. -/
theorem reverse_inner {g : DiGraph} {v : Nat} (hv : v < g.nVertices) : ∀ (ws : List Nat) (graph : DiGraph),
    graph.nVertices = g.nVertices → (∀ w ∈ ws, w < g.nVertices) →
    ∃ graph', ws.foldlM (fun graph w => graph.addEdge w v) graph = .ok graph' ∧
      graph'.nVertices = g.nVertices ∧ graph'.nEdges = graph.nEdges + ws.length ∧
      ∀ a, graph'.adjList a = graph.adjList a ++ List.replicate (ws.count a) v := by
  intro ws
  induction ws with
  | nil => intro graph hn _; exact ⟨graph, rfl, hn, rfl, by simp⟩
  | cons w ws ih =>
    intro graph hn hws
    obtain ⟨g₁, h₁, hn₁, hE₁, hadj₁⟩ := addEdge_eq (g := graph)
      (hn ▸ hws w (List.mem_cons_self w ws)) (hn ▸ hv)
    obtain ⟨g', h', hn', hE', hadj'⟩ := ih g₁ (hn₁.trans hn) fun x hx => hws x (List.mem_cons_of_mem w hx)
    refine ⟨g', by simp [List.foldlM_cons, h₁, h', bind, Except.bind], hn',
      by rw [hE', hE₁, List.length_cons]; omega, fun a => ?_⟩
    rw [hadj', hadj₁, List.count_cons]
    by_cases ha : a = w
    · subst ha; simp [List.replicate_succ]
    · simp [ha, Function.update_noteq ha, Ne.symm ha]

/-- **The reverse graph.** `DiGraph.reverse(g)` succeeds, keeps the vertices, counts every edge
of `g`, and lists as heads of `a` every `b` with an edge `b -> a`, in increasing order and as
often as `g` has that edge. -/
theorem reverse_eq (g : DiGraph) :
    ∃ r, g.reverse = .ok r ∧ r.nVertices = g.nVertices ∧
      r.nEdges = ((List.range g.nVertices).flatMap g.adjList).length ∧
      ∀ a, r.adjList a = (List.range g.nVertices).flatMap fun b =>
        List.replicate ((g.adjList b).count a) b := by
  -- after the vertices below `k`, the lists hold the reversed edges out of them
  suffices key : ∀ k ≤ g.nVertices, ∃ r, (List.range k).foldlM
      (fun graph v => g.adj v >>= fun adj => adj.foldlM (fun graph w => graph.addEdge w v) graph)
      (init g.nVertices) = .ok r ∧ r.nVertices = g.nVertices ∧
      r.nEdges = ((List.range k).flatMap g.adjList).length ∧
      ∀ a, r.adjList a = (List.range k).flatMap fun b => List.replicate ((g.adjList b).count a) b from
    key g.nVertices le_rfl
  intro k
  induction k with
  | zero => intro _; exact ⟨init g.nVertices, rfl, rfl, rfl, fun _ => rfl⟩
  | succ k ih =>
    intro hk
    obtain ⟨r₁, h₁, hn₁, hE₁, hm₁⟩ := ih (by omega)
    obtain ⟨r, h, hn, hE, hm⟩ := reverse_inner (g := g) (v := k) (by omega) (g.adjList k).reverse r₁
      hn₁ fun w hw => g.adjList_lt k w (List.mem_reverse.mp hw)
    refine ⟨r, ?_, hn, ?_, fun a => ?_⟩
    · rw [List.range_succ, List.foldlM_append, h₁]
      simp [adj_eq (show k < g.nVertices by omega), h, bind, Except.bind]; rfl
    · rw [hE, hE₁, List.range_succ, List.flatMap_append, List.length_append, List.length_reverse]
      simp
    · rw [hm, hm₁, List.count_reverse, List.range_succ, List.flatMap_append]
      simp

/-- The edges `a -> b` of `DiGraph.reverse(g)` are the edges `b -> a` of `g`. -/
theorem reverse_spec (g : DiGraph) :
    ∃ r, g.reverse = .ok r ∧ r.nVertices = g.nVertices ∧
      ∀ a b, b ∈ r.adjList a ↔ a ∈ g.adjList b := by
  obtain ⟨r, h, hn, -, hm⟩ := g.reverse_eq
  refine ⟨r, h, hn, fun a b => ?_⟩
  rw [hm, List.mem_flatMap]
  constructor
  · rintro ⟨c, -, hc⟩
    obtain ⟨hk, rfl⟩ := List.mem_replicate.mp hc
    exact List.count_pos_iff.mp (Nat.pos_of_ne_zero hk)
  · intro hab
    refine ⟨b, List.mem_range.mpr ?_, List.mem_replicate.mpr ⟨(List.count_pos_iff.mpr hab).ne', rfl⟩⟩
    by_contra hb
    rw [g.adjList_nil b (by omega)] at hab
    exact List.not_mem_nil a hab

/-- In the list of `reverse`'s shape, each `x` below `n` occurs `f x` times, and nothing else
occurs. -/
theorem count_flatMap_replicate (f : Nat → Nat) (x : Nat) : ∀ n,
    ((List.range n).flatMap fun b => List.replicate (f b) b).count x = if x < n then f x else 0
  | 0 => by simp
  | n + 1 => by
    rw [List.range_succ, List.flatMap_append, List.count_append, count_flatMap_replicate f x n]
    simp only [List.flatMap_cons, List.flatMap_nil, List.append_nil, List.count_replicate, beq_iff_eq]
    by_cases hx : x = n
    · subst hx; simp
    · simp only [Ne.symm hx, if_false]
      split_ifs <;> omega

/-- A list of `reverse`'s shape is in increasing order. -/
theorem pairwise_flatMap_replicate (f : Nat → Nat) : ∀ n,
    ((List.range n).flatMap fun b => List.replicate (f b) b).Pairwise (· ≤ ·)
  | 0 => List.Pairwise.nil
  | n + 1 => by
    rw [List.range_succ, List.flatMap_append, List.pairwise_append]
    refine ⟨pairwise_flatMap_replicate f n, by simp [List.pairwise_replicate], fun a ha b hb => ?_⟩
    simp only [List.mem_flatMap, List.mem_range, List.mem_singleton, List.mem_replicate] at ha hb
    obtain ⟨c, hc, -, rfl⟩ := ha
    obtain ⟨d, rfl, -, rfl⟩ := hb
    omega

/-- **Reversing twice.** `DiGraph.reverse(DiGraph.reverse(g))` succeeds and gives back `g` up to
the order of each list: the same vertices, and for every vertex the heads of `g` with their
multiplicities, sorted. -/
theorem reverse_reverse (g : DiGraph) :
    ∃ r r', g.reverse = .ok r ∧ r.reverse = .ok r' ∧ r'.nVertices = g.nVertices ∧
      ∀ v, (r'.adjList v).Perm (g.adjList v) ∧ (r'.adjList v).Pairwise (· ≤ ·) := by
  obtain ⟨r, h, hn, -, hm⟩ := g.reverse_eq
  obtain ⟨r', h', hn', -, hm'⟩ := r.reverse_eq
  refine ⟨r, r', h, h', hn'.trans hn, fun v => ?_⟩
  -- `v` is a head of `a` in `r` as often as `a` is a head of `v` in `g`
  have hcount : ∀ a, (r.adjList a).count v = if v < g.nVertices then (g.adjList v).count a else 0 :=
    fun a => by rw [hm, count_flatMap_replicate]
  rw [hm', hn]
  simp only [hcount]
  refine ⟨List.perm_iff_count.mpr fun x => ?_, pairwise_flatMap_replicate _ _⟩
  rw [count_flatMap_replicate]
  by_cases hv : v < g.nVertices
  · simp only [hv, if_true]
    split_ifs with hx
    · rfl
    · exact (List.count_eq_zero_of_not_mem fun h => hx (g.adjList_lt v x h)).symm
  · simp [hv, g.adjList_nil v (by omega)]

end DiGraph

end GraphAlgo
