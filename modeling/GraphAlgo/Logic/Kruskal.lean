import GraphAlgo.Logic.PrimLazy

/-!
# What `MstKruskal` computes: a maximum spanning forest

`mstKruskal_refines` (`Logic/Mst.lean`) puts the loop of `MstKruskal.__init__` under a run of
`KruskalRun` from the queue of every entry of `graph.edges()`, heaviest first. This module reads
the result off that run.

One run lemma carries everything (`KruskalRun.spec`): the kept edges are drawn from the queue,
they grow a forest, and every queued edge `e` either has its ends connected by kept edges at
least as heavy as `e` (it was skipped, or kept itself, after every heavier edge), or the run
stopped at `n_vertices - 1` edges, all at least as heavy as `e`. In the second case the forest
already connects every vertex (`Acyclic.connected_of_length`), so the stop never loses an edge.

So `MstKruskal` returns a spanning forest of the graph in which every graph edge's ends are
joined by forest edges at least as heavy as it (`mstKruskal_forest`): the cycle condition of a
*maximum* spanning forest, so that no spanning forest of the graph weighs more
(`mstKruskal_max_spanning_forest`). The spec's triangle, where it returns weight `1.5`, is one
case.

`MstPrimLazy` keeps, within the component of vertex 0, the same cycle condition
(`Logic/PrimLazy.lean`). Two forests of graph edges that both meet it cover each other at every
weight threshold, so they have as many edges of weight `≥ t` for every `t`, and hence list the
same weights, each as often (`weights_perm_of_count`). On a graph whose edges all lie in the
component of vertex 0 the two constructors therefore return as many edges with the same
weights (`mstKruskal_agrees_mstPrimLazy`); in the exact rationals of the model they weigh the
same, although `weight()` adds them in the order each list has. With pairwise distinct weights
they return the same edges: such a forest keeps exactly the edges whose ends the heavier graph
edges leave apart (`mem_iff_of_cycle`, `mstKruskal_perm_mstPrimLazy`).
-/

namespace GraphAlgo

namespace KruskalRun

/-- **Run lemma.** A run from `mst` appends edges `K` of the queue; it keeps a forest a forest;
and every queued edge `e` has its ends connected by `mst` and the kept edges at least as heavy
as `e`, or the run stopped at `n - 1` edges, all of `K` at least as heavy as `e`. -/
theorem spec {n : Nat} {M : Multiset Edge} {mst r : List Edge} (h : KruskalRun n M mst r) :
    ∃ K, r = mst ++ K ∧ (↑K : Multiset Edge) ≤ M ∧ (Acyclic mst → Acyclic r) ∧
      ∀ e ∈ M, Connected (mst ++ atLeast e.weight K) e.first e.second ∨
        (n - 1 ≤ r.length ∧ ∀ f ∈ K, e.weight ≤ f.weight) := by
  induction h with
  | @stop M mst hstop =>
    refine ⟨[], (List.append_nil _).symm, Multiset.zero_le _, id, fun e he => .inr ⟨?_, ?_⟩⟩
    · by_contra hlt
      exact hstop ⟨fun h0 => Multiset.not_mem_zero e (h0 ▸ he), by omega⟩
    · exact fun _ h => absurd h (List.not_mem_nil _)
  | @skip M mst r t _ ht _ hc _ ih =>
    obtain ⟨K, rfl, hK, hacyc, hcov⟩ := ih
    refine ⟨K, rfl, hK.trans (Multiset.erase_le _ _), hacyc, fun e he => ?_⟩
    by_cases het : e = t
    · -- the skipped edge: its ends were connected already
      exact .inl (het ▸ hc.mono (List.subset_append_left _ _))
    · exact hcov e ((Multiset.mem_erase_of_ne het).mpr he)
  | @keep M mst r t _ ht hmax hc _ ih =>
    obtain ⟨K, rfl, hK, hacyc, hcov⟩ := ih
    refine ⟨t :: K, by simp, ?_, fun h => hacyc (h.snoc hc), fun e he => ?_⟩
    · rw [← Multiset.cons_coe, ← Multiset.cons_erase ht]
      exact Multiset.cons_le_cons t hK
    -- `t` outweighs every queued edge, so it is among the heavy kept edges of each
    have hte : e.weight ≤ t.weight := not_lt.mp (hmax e he)
    have hsplit : mst ++ atLeast e.weight (t :: K) = mst ++ [t] ++ atLeast e.weight K := by
      rw [atLeast_cons, if_pos hte, List.append_assoc, List.singleton_append]
    rw [hsplit]
    by_cases het : e = t
    · subst het
      exact .inl (Connected.of_mem (List.mem_append_left _ (List.mem_append_right _
        (List.mem_singleton_self e))))
    · rcases hcov e ((Multiset.mem_erase_of_ne het).mpr he) with h | ⟨hlen, hall⟩
      · exact .inl h
      · refine .inr ⟨by simpa using hlen, fun f hf => ?_⟩
        rcases List.mem_cons.mp hf with rfl | hf
        · exact hte
        · exact hall f hf

end KruskalRun

/-- On a graph with a vertex and an edge whose edges end at vertices, `MstKruskal(graph)` returns
entries of `graph.edges()` (no entry more often than it is listed) that form a forest, connect
exactly what the graph connects, and join the ends of every graph edge `e` by forest edges at
least as heavy as `e`. -/
theorem mstKruskal_forest (g : EdgeWeightedGraph) (hn : 0 < g.nVertices)
    (hE : 0 < g.nEdges) (hends : ∀ e ∈ g.edges, e.first < g.nVertices ∧ e.second < g.nVertices) :
    ∃ r, mstKruskal g = .ok r ∧ (↑r : Multiset Edge) ≤ ↑g.edges ∧ Acyclic r ∧
      (∀ a b, Connected r a b ↔ Connected g.edges a b) ∧
      ∀ e ∈ g.edges, Connected (atLeast e.weight r) e.first e.second := by
  obtain ⟨r, hr, hrun⟩ := mstKruskal_refines g hn hE hends
  -- the run appends its kept edges to `[]`: they are the result
  obtain ⟨K, hrK, hK, hacyc, hcov⟩ := hrun.spec
  rw [List.nil_append] at hrK
  subst hrK
  have hA : Acyclic r := hacyc .nil
  have hrg : r ⊆ g.edges := fun f hf => Multiset.mem_of_le hK hf
  -- the cycle condition: a stopped run already connects every vertex
  have hcycle : ∀ e ∈ g.edges, Connected (atLeast e.weight r) e.first e.second := fun e he => by
    rcases hcov e he with h | ⟨hlen, hall⟩
    · simpa using h
    · rw [atLeast, List.filter_eq_self.mpr fun f hf => decide_eq_true (hall f hf)]
      exact hA.connected_of_length hn (fun f hf => hends f (hrg hf)) hlen
        (hends e he).1 (hends e he).2
  refine ⟨r, hr, hK, hA, fun a b => ⟨fun h => h.mono hrg, fun h => h.of_cover fun e he =>
    (hcycle e he).mono atLeast_subset⟩, hcycle⟩

/-- **Kruskal computes a maximum spanning forest.** On a graph with a vertex and an edge whose
edges end at vertices, `MstKruskal(graph)` returns entries of `graph.edges()` (no entry more
often than it is listed) that form a forest and connect exactly what the graph connects. Every
graph edge `e` has its ends joined by forest edges at least as heavy as `e`, and no forest of
graph edges that connects the ends of every graph edge weighs more. -/
theorem mstKruskal_max_spanning_forest (g : EdgeWeightedGraph) (hn : 0 < g.nVertices)
    (hE : 0 < g.nEdges) (hends : ∀ e ∈ g.edges, e.first < g.nVertices ∧ e.second < g.nVertices) :
    ∃ r, mstKruskal g = .ok r ∧ (↑r : Multiset Edge) ≤ ↑g.edges ∧ Acyclic r ∧
      (∀ a b, Connected r a b ↔ Connected g.edges a b) ∧
      (∀ e ∈ g.edges, Connected (atLeast e.weight r) e.first e.second) ∧
      ∀ F : List Edge, Acyclic F → (∀ e ∈ F, e ∈ g.edges) →
        (∀ e ∈ g.edges, Connected F e.first e.second) → weight F ≤ weight r := by
  obtain ⟨r, hr, hrg, hA, hconn, hcycle⟩ := mstKruskal_forest g hn hE hends
  exact ⟨r, hr, hrg, hA, hconn, hcycle, fun F hF hFg hspan => weight_le_of_cycle hn hends hA
    (fun e he => Multiset.mem_of_le hrg he) hcycle hF hFg hspan⟩

/-- Kruskal on the spec's triangle. -/
theorem mstKruskal_max_spanning_forest_triangle : ∃ g, EdgeWeightedGraph.build 3 triangle = .ok g ∧
    (0 < g.nVertices ∧ 0 < g.nEdges ∧
      ∀ e ∈ g.edges, e.first < g.nVertices ∧ e.second < g.nVertices) ∧
    ∃ r, mstKruskal g = .ok r ∧ (↑r : Multiset Edge) ≤ ↑g.edges ∧ Acyclic r ∧
      (∀ a b, Connected r a b ↔ Connected g.edges a b) ∧
      (∀ e ∈ g.edges, Connected (atLeast e.weight r) e.first e.second) ∧
      ∀ F : List Edge, Acyclic F → (∀ e ∈ F, e ∈ g.edges) →
        (∀ e ∈ g.edges, Connected F e.first e.second) → weight F ≤ weight r := by
  obtain ⟨g, hg, h3, hE, hedges⟩ := build_triangle
  have hends : ∀ e ∈ g.edges, e.first < g.nVertices ∧ e.second < g.nVertices := by
    rw [hedges, h3]; decide
  exact ⟨g, hg, ⟨by omega, by omega, hends⟩,
    mstKruskal_max_spanning_forest g (by omega) (by omega) hends⟩

/-- On a graph built by `add_edge` with a vertex and an edge, all of whose edges lie in the
component of vertex 0, `MstPrimLazy(graph)` returns a forest of graph edges whose edges at least
as heavy as any graph edge `e` join the ends of `e`: the cycle condition Kruskal meets. -/
theorem mstPrimLazy_cycle (g : EdgeWeightedGraph) (hg : g.WF) (hn : 0 < g.nVertices)
    (hE : 0 < g.nEdges) (hconn : ∀ e ∈ g.edges, Connected g.edges 0 e.first) :
    ∃ p, mstPrimLazy g = .ok p ∧ Acyclic p ∧ p ⊆ g.edges ∧
      ∀ e ∈ g.edges, Connected (atLeast e.weight p) e.first e.second := by
  obtain ⟨p, hp, hpg, hpA, -, hheavy⟩ := mstPrimLazy_tree g hg hn hE
  exact ⟨p, hp, hpA, fun e he => (hpg e he).1, fun e he =>
    hheavy e.weight _ _ (hconn e he) (Connected.of_mem (mem_atLeast.mpr ⟨he, le_rfl⟩))⟩

/-- **Kruskal and lazy Prim agree.** On a graph built by `add_edge` with a vertex and an edge,
all of whose edges lie in the component of vertex 0, `MstKruskal(graph)` and
`MstPrimLazy(graph)` return as many edges, with the same weights, each as often; so the exact
sums of their weights are equal. -/
theorem mstKruskal_agrees_mstPrimLazy (g : EdgeWeightedGraph) (hg : g.WF) (hn : 0 < g.nVertices)
    (hE : 0 < g.nEdges) (hconn : ∀ e ∈ g.edges, Connected g.edges 0 e.first) :
    ∃ r p, mstKruskal g = .ok r ∧ mstPrimLazy g = .ok p ∧ r.length = p.length ∧
      (r.map Edge.weight).Perm (p.map Edge.weight) ∧ weight r = weight p := by
  have hends : ∀ e ∈ g.edges, e.first < g.nVertices ∧ e.second < g.nVertices :=
    fun e he => hg.edges_lt he
  obtain ⟨r, hr, hrg, hrA, -, hrc⟩ := mstKruskal_forest g hn hE hends
  obtain ⟨p, hp, hpA, hpE, hpc⟩ := mstPrimLazy_cycle g hg hn hE hconn
  have hrE : ∀ e ∈ r, e ∈ g.edges := fun e he => Multiset.mem_of_le hrg he
  have hrn : ∀ e ∈ r, e.first < g.nVertices ∧ e.second < g.nVertices :=
    fun e he => hends e (hrE e he)
  have hpn : ∀ e ∈ p, e.first < g.nVertices ∧ e.second < g.nVertices :=
    fun e he => hends e (hpE he)
  -- both forests meet the cycle condition, so each covers the other at every threshold
  have hrp : ∀ e ∈ r, Connected (atLeast e.weight p) e.first e.second :=
    fun e he => hpc e (hrE e he)
  have hpr : ∀ e ∈ p, Connected (atLeast e.weight r) e.first e.second :=
    fun e he => hrc e (hpE he)
  have hlen : r.length = p.length := le_antisymm
    (hrA.length_le_of_cover hn hpA hrn hpn fun e he => (hrp e he).mono atLeast_subset)
    (hpA.length_le_of_cover hn hrA hpn hrn fun e he => (hpr e he).mono atLeast_subset)
  have hperm := weights_perm_of_count _ r p rfl hlen.symm fun t => le_antisymm
    (length_atLeast_le_of_cover hn hrA hpA hrn hpn hrp t)
    (length_atLeast_le_of_cover hn hpA hrA hpn hrn hpr t)
  exact ⟨r, p, hr, hp, hlen, hperm, by rw [weight_eq_sum, weight_eq_sum, hperm.sum_eq]⟩

/-- Every edge of the spec's triangle lies in the component of vertex 0. -/
theorem build_triangle_connected {g : EdgeWeightedGraph}
    (h : EdgeWeightedGraph.build 3 triangle = .ok g) : ∀ e ∈ g.edges, Connected g.edges 0 e.first := by
  obtain ⟨g', hg', -, -, hedges⟩ := build_triangle
  obtain rfl : g = g' := Except.ok.inj (h.symm.trans hg')
  have h01 : Connected g.edges 0 1 :=
    Connected.of_mem (K := g.edges) (e := ⟨0, 1, mkRat 1 2⟩) (by rw [hedges]; simp)
  intro e he
  rw [hedges] at he
  simp only [List.mem_cons, List.mem_singleton, List.not_mem_nil, or_false] at he
  rcases he with rfl | rfl | rfl | rfl | rfl | rfl
  all_goals first | exact .refl _ | exact h01

/-- Kruskal and lazy Prim on the spec's triangle, whose edges all touch vertex 0 or 1. -/
theorem mstKruskal_agrees_mstPrimLazy_triangle : ∃ g, EdgeWeightedGraph.build 3 triangle = .ok g ∧
    (g.WF ∧ 0 < g.nVertices ∧ 0 < g.nEdges ∧ ∀ e ∈ g.edges, Connected g.edges 0 e.first) ∧
    ∃ r p, mstKruskal g = .ok r ∧ mstPrimLazy g = .ok p ∧ r.length = p.length ∧
      (r.map Edge.weight).Perm (p.map Edge.weight) ∧ weight r = weight p := by
  obtain ⟨g, hg, h3, hE, -⟩ := build_triangle
  have hconn := build_triangle_connected hg
  exact ⟨g, hg, ⟨EdgeWeightedGraph.build_wf hg, by omega, by omega, hconn⟩,
    mstKruskal_agrees_mstPrimLazy g (EdgeWeightedGraph.build_wf hg) (by omega) (by omega) hconn⟩

/-- **With distinct weights, Kruskal and lazy Prim return the same edges.** On a graph built by
`add_edge` with a vertex and an edge, all of whose edges lie in the component of vertex 0 and
no two of whose distinct edges weigh the same, `MstKruskal(graph)` and `MstPrimLazy(graph)`
return the same edges, each once, in some order: exactly the graph edges whose ends the
strictly heavier graph edges leave apart. -/
theorem mstKruskal_perm_mstPrimLazy (g : EdgeWeightedGraph) (hg : g.WF) (hn : 0 < g.nVertices)
    (hE : 0 < g.nEdges) (hconn : ∀ e ∈ g.edges, Connected g.edges 0 e.first)
    (hdist : ∀ e ∈ g.edges, ∀ f ∈ g.edges, e.weight = f.weight → e = f) :
    ∃ r p, mstKruskal g = .ok r ∧ mstPrimLazy g = .ok p ∧ r.Perm p ∧ r.Nodup ∧
      ∀ e, e ∈ r ↔ e ∈ g.edges ∧
        ¬ Connected (g.edges.filter fun f => decide (e.weight < f.weight)) e.first e.second := by
  have hends : ∀ e ∈ g.edges, e.first < g.nVertices ∧ e.second < g.nVertices :=
    fun e he => hg.edges_lt he
  obtain ⟨r, hr, hrg, hrA, -, hrc⟩ := mstKruskal_forest g hn hE hends
  obtain ⟨p, hp, hpA, hpE, hpc⟩ := mstPrimLazy_cycle g hg hn hE hconn
  have hrE : r ⊆ g.edges := fun e he => Multiset.mem_of_le hrg he
  -- each keeps exactly the edges that the heavier graph edges leave apart
  have hmem := mem_iff_of_cycle hn hends hrA hrE hrc hdist
  exact ⟨r, p, hr, hp, (List.perm_ext_iff_of_nodup hrA.nodup hpA.nodup).mpr fun e =>
    (hmem e).trans (mem_iff_of_cycle hn hends hpA hpE hpc hdist e).symm, hrA.nodup, hmem⟩

/-- Kruskal and lazy Prim on the spec's triangle, whose three edges weigh `0.5`, `0.3` and
`1.0`. -/
theorem mstKruskal_perm_mstPrimLazy_triangle : ∃ g, EdgeWeightedGraph.build 3 triangle = .ok g ∧
    (g.WF ∧ 0 < g.nVertices ∧ 0 < g.nEdges ∧ (∀ e ∈ g.edges, Connected g.edges 0 e.first) ∧
      ∀ e ∈ g.edges, ∀ f ∈ g.edges, e.weight = f.weight → e = f) ∧
    ∃ r p, mstKruskal g = .ok r ∧ mstPrimLazy g = .ok p ∧ r.Perm p ∧ r.Nodup ∧
      ∀ e, e ∈ r ↔ e ∈ g.edges ∧
        ¬ Connected (g.edges.filter fun f => decide (e.weight < f.weight)) e.first e.second := by
  obtain ⟨g, hg, h3, hE, hedges⟩ := build_triangle
  have hconn := build_triangle_connected hg
  have hdist : ∀ e ∈ g.edges, ∀ f ∈ g.edges, e.weight = f.weight → e = f := by
    rw [hedges]; decide
  exact ⟨g, hg, ⟨EdgeWeightedGraph.build_wf hg, by omega, by omega, hconn, hdist⟩,
    mstKruskal_perm_mstPrimLazy g (EdgeWeightedGraph.build_wf hg) (by omega) (by omega) hconn hdist⟩

end GraphAlgo
