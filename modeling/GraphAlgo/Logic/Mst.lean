import GraphAlgo.Algo.Mst
import GraphAlgo.Logic.PriorityQueue
import GraphAlgo.Logic.UnionFind
import Mathlib.Tactic.NormNum

/-!
# What the MST constructors compute

`kruskalLoop` refines an abstract greedy loop, `KruskalRun`: while the queue is non-empty and
fewer than `n_vertices - 1` edges are kept, take a queued edge that no queued edge outweighs,
and keep it when its endpoints are not yet connected by the kept edges. The proof reads the
queue through `PriorityQueue.pop_spec` (a popped key is one no stored key beats under `x < y`)
and the union-find through `UnionFind.Tracks` (`connected` decides the closure of the joined
pairs, which are the kept edges).

So the loop takes the edges heaviest first. On the spec's triangle it keeps `(0, 2, 1.0)` and
`(0, 1, 0.5)`, a spanning tree of weight `1.5`, where `(1, 2, 0.3)` and `(0, 1, 0.5)` weigh
`0.8` (`mstKruskal_triangle`). Both Prims pop their queues the same way: on the triangle lazy
Prim returns the same two edges (`mstPrimLazy_triangle`) and eager Prim `(1, 2, 0.3)` and
`(0, 2, 1.0)`, of weight `1.3` (`mstPrimEager_triangle`).
-/

namespace GraphAlgo

open PriorityQueue

/-- `x < y` on edges, by weight, is a strict weak order. -/
theorem edgeLt_strictWeakOrder : IsStrictWeakOrder Edge (fun x y => Edge.lt x y = true) where
  irrefl a := by simp [Edge.lt]
  trans a b c := by simpa [Edge.lt] using lt_trans
  incomp_trans a b c := by
    simp only [Edge.lt, decide_eq_true_eq, not_lt]
    intro ⟨h₁, h₂⟩ ⟨h₃, h₄⟩
    exact ⟨h₃.trans h₁, h₂.trans h₄⟩

instance edgeLt_isStrictWeakOrder : IsStrictWeakOrder Edge (fun x y => Edge.lt x y = true) :=
  edgeLt_strictWeakOrder

/-! ## The abstract loop -/

/-- The kept edges join the endpoints of each. -/
def Joins (mst : List Edge) (a b : Nat) : Prop := ∃ e ∈ mst, e.first = a ∧ e.second = b

/-- The endpoints are connected by the kept edges. -/
def Connected (mst : List Edge) : Nat → Nat → Prop := Relation.EqvGen (Joins mst)

/-- Kruskal's loop over an abstract queue `M` of edges, from the kept edges `mst` to the result:
stop when `M` is empty or `n - 1` edges are kept; otherwise take an edge `t` of `M` that no
edge of `M` outweighs, and skip it or keep it as its endpoints are connected or not. -/
inductive KruskalRun (n : Nat) : Multiset Edge → List Edge → List Edge → Prop
  | stop {M : Multiset Edge} {mst : List Edge} : ¬ (M ≠ 0 ∧ mst.length < n - 1) →
      KruskalRun n M mst mst
  | skip {M : Multiset Edge} {mst r : List Edge} {t : Edge} : mst.length < n - 1 → t ∈ M →
      (∀ x ∈ M, ¬ t.weight < x.weight) → Connected mst t.first t.second →
      KruskalRun n (M.erase t) mst r → KruskalRun n M mst r
  | keep {M : Multiset Edge} {mst r : List Edge} {t : Edge} : mst.length < n - 1 → t ∈ M →
      (∀ x ∈ M, ¬ t.weight < x.weight) → ¬ Connected mst t.first t.second →
      KruskalRun n (M.erase t) (mst ++ [t]) r → KruskalRun n M mst r

/-! ## The union-find -/

/-- The pairs `join`ed so far are the endpoints of the kept edges. -/
def JoinsPairs (J : List (Nat × Nat)) (mst : List Edge) : Prop :=
  ∀ a b, (a, b) ∈ J ↔ Joins mst a b

theorem JoinsPairs.connected {J : List (Nat × Nat)} {mst : List Edge} (h : JoinsPairs J mst)
    {a b : Nat} : Relation.EqvGen (UnionFind.Joined J) a b ↔ Connected mst a b := by
  have : UnionFind.Joined J = Joins mst := funext fun a => funext fun b => propext (h a b)
  rw [this]; rfl

theorem JoinsPairs.snoc {J : List (Nat × Nat)} {mst : List Edge} (h : JoinsPairs J mst)
    (t : Edge) : JoinsPairs ((t.first, t.second) :: J) (mst ++ [t]) := by
  intro a b
  simp only [List.mem_cons, Prod.mk.injEq, h a b, Joins, List.mem_append, List.not_mem_nil,
    or_false]
  constructor
  · rintro (⟨rfl, rfl⟩ | ⟨e, he, rfl, rfl⟩)
    · exact ⟨t, .inr rfl, rfl, rfl⟩
    · exact ⟨e, .inl he, rfl, rfl⟩
  · rintro ⟨e, he | rfl, rfl, rfl⟩
    · exact .inr ⟨e, he, rfl, rfl⟩
    · exact .inl ⟨rfl, rfl⟩

/-! ## The loop refines the abstract loop -/

/-- From a `WF` queue of edges with endpoints below `n` and a union-find over `n` keys whose
joined pairs are the kept edges, the loop runs to completion on as much fuel as queued edges,
as some run of `KruskalRun`. -/
theorem kruskalLoop_refines (n : Nat) : ∀ (fuel : Nat) (pq : PriorityQueue Edge)
    (uf : UnionFind) (mst : List Edge) (J : List (Nat × Nat)), WF Edge.lt pq →
    pq.count ≤ fuel → UnionFind.WF uf → UnionFind.Tracks uf J → JoinsPairs J mst →
    uf.nKeys = n → (∀ e ∈ contents pq, e.first < n ∧ e.second < n) →
    ∃ r, kruskalLoop n fuel pq uf mst = .ok r ∧ KruskalRun n (contents pq) mst r := by
  intro fuel
  induction fuel with
  | zero =>
    intro pq uf mst J hpq hfuel _ _ _ _ _
    exact ⟨mst, rfl, .stop fun h => h.1 ((contents_eq_zero Edge.lt hpq).mpr (by omega))⟩
  | succ fuel ih =>
    intro pq uf mst J hpq hfuel huf htr hJ hn hends
    by_cases hgo : pq.count ≠ 0 ∧ mst.length < n - 1
    · obtain ⟨t, pq', htop, hpop, hwf', hc', hmax, hcont⟩ :=
        pop_spec Edge.lt hpq (Nat.pos_of_ne_zero hgo.1)
      have ht : t ∈ contents pq := by rw [hcont]; exact Multiset.mem_cons_self t _
      have hmax' : ∀ x ∈ contents pq, ¬ t.weight < x.weight := fun x hx => by
        simpa [Edge.lt] using hmax x hx
      have herase : (contents pq).erase t = contents pq' := by rw [hcont, Multiset.erase_cons_head]
      have hends' : ∀ e ∈ contents pq', e.first < n ∧ e.second < n := fun e he =>
        hends e (by rw [hcont]; exact Multiset.mem_cons_of_mem he)
      obtain ⟨ha, hb⟩ := hends t ht
      obtain ⟨uf₁, hconn, hw₁, hc₁⟩ := UnionFind.connected_spec huf (hn ▸ ha) (hn ▸ hb)
      have hroot := htr.root_iff t.first t.second (hn ▸ ha) (hn ▸ hb)
      have hstep : kruskalLoop n (fuel + 1) pq uf mst =
          if uf.root t.first = uf.root t.second then kruskalLoop n fuel pq' uf₁ mst
          else uf₁.join t.first t.second >>= fun uf => kruskalLoop n fuel pq' uf (mst ++ [t]) := by
        simp [kruskalLoop, PriorityQueue.isEmpty, hgo.1, hgo.2, htop, hpop, hconn, bind,
          Except.bind]
      by_cases hc : uf.root t.first = uf.root t.second
      · -- the ends are connected: the edge is skipped
        obtain ⟨r, hr, hrun⟩ := ih pq' uf₁ mst J hwf' (by omega) hw₁ (htr.compresses hc₁) hJ
          (hc₁.nKeys.trans hn) hends'
        refine ⟨r, by rw [hstep, if_pos hc, hr], .skip hgo.2 ht hmax' ?_ (herase ▸ hrun)⟩
        exact hJ.connected.mp (hroot.mp hc)
      · -- the ends are apart: join them and keep the edge
        obtain ⟨uf₂, hjoin, hw₂, htr₂, hn₂, -⟩ := UnionFind.join_spec hw₁ (htr.compresses hc₁)
          (hc₁.nKeys ▸ hn ▸ ha) (hc₁.nKeys ▸ hn ▸ hb)
        obtain ⟨r, hr, hrun⟩ := ih pq' uf₂ (mst ++ [t]) _ hwf' (by omega) hw₂ htr₂ (hJ.snoc t)
          (hn₂.trans (hc₁.nKeys.trans hn)) hends'
        refine ⟨r, by rw [hstep, if_neg hc, hjoin]; exact hr, .keep hgo.2 ht hmax' ?_ (herase ▸ hrun)⟩
        exact fun h => hc (hroot.mpr (hJ.connected.mpr h))
    · refine ⟨mst, ?_, .stop fun h => hgo ⟨fun h0 => h.1 ((contents_eq_zero Edge.lt hpq).mpr h0), h.2⟩⟩
      have : ¬ (pq.count ≠ 0 ∧ mst.length < n - 1) := hgo
      simp only [kruskalLoop, PriorityQueue.isEmpty]
      split_ifs with h
      · simp at h; omega
      · rfl

/-- **Kruskal runs the abstract loop over all of `graph.edges()`.** On a graph with a vertex and
an edge whose edges end at vertices, `MstKruskal(graph)` succeeds, and its edge list is the
result of a run of `KruskalRun` from the queue of every entry of `graph.edges()`. -/
theorem mstKruskal_refines (g : EdgeWeightedGraph) (hn : 0 < g.nVertices) (hE : 0 < g.nEdges)
    (hends : ∀ e ∈ g.edges, e.first < g.nVertices ∧ e.second < g.nVertices) :
    ∃ r, mstKruskal g = .ok r ∧ KruskalRun g.nVertices ↑g.edges [] r := by
  have hpq₀ : WF Edge.lt (⟨g.nEdges, 0, fun _ => none, g.nEdges + 1⟩ : PriorityQueue Edge) :=
    init_wf Edge.lt g.nEdges hE
  obtain ⟨pq, hpush, hpq, hc, hcont⟩ := pushAll_spec Edge.lt g.edges _ hpq₀
  have hcont' : contents pq = ↑g.edges := by rw [hcont]; simp [contents, Heap.contents]
  have huf : UnionFind.init g.nVertices = .ok ⟨g.nVertices, g.nVertices, fun i => i, fun _ => 1⟩ :=
    by simp [UnionFind.init, hn]
  obtain ⟨hw, htr, hkeys⟩ := UnionFind.init_spec huf
  obtain ⟨r, hr, hrun⟩ := kruskalLoop_refines g.nVertices g.edges.length pq _ [] [] hpq
    (by simp [hc]) hw htr (fun a b => by simp [Joins]) hkeys
    (fun e he => hends e (by rw [hcont'] at he; exact he))
  refine ⟨r, ?_, hcont' ▸ hrun⟩
  simp [mstKruskal, huf, init_ok hE, hpush, hr, bind, Except.bind]

/-- Both `MstKruskal` and `MstPrimLazy` size their queue by `n_edges()`: on the one-vertex graph
with no edges, both stop at the queue's capacity assertion before any MST logic runs. -/
theorem mst_edgeless_capacity_error :
    ∃ g, EdgeWeightedGraph.build 1 [] = .ok g ∧
      mstKruskal g = .error "invalid priority queue capacity" ∧
      mstPrimLazy g = .error "invalid priority queue capacity" :=
  ⟨_, rfl, rfl, rfl⟩

/-! ## Forced steps -/

namespace KruskalRun

variable {n : Nat} {l mst r : List Edge} {e : Edge}

/-- With `n - 1` edges kept, a run stops. -/
theorem eq_of_full {M : Multiset Edge} (h : KruskalRun n M mst r) (hl : n - 1 ≤ mst.length) :
    r = mst := by
  cases h with
  | stop => rfl
  | skip hl' => omega
  | keep hl' => omega

/-- A run that has to take `e` next (every heaviest edge of `l` is `e`) and finds its ends
connected skips it. -/
theorem skip_of (h : KruskalRun n ↑l mst r) (hl : mst.length < n - 1) (he : e ∈ l)
    (hmax : ∀ t ∈ l, (∀ x ∈ l, ¬ t.weight < x.weight) → t = e)
    (hc : Connected mst e.first e.second) : KruskalRun n ↑(l.erase e) mst r := by
  rw [← Multiset.coe_erase]
  cases h with
  | stop h => exact absurd ⟨by simpa using List.ne_nil_of_mem he, hl⟩ h
  | skip _ ht hm _ h => rwa [← hmax _ ht hm]
  | keep _ ht hm hc' _ => exact absurd (hmax _ ht hm ▸ hc) hc'

/-- A run that has to take `e` next and finds its ends apart keeps it. -/
theorem keep_of (h : KruskalRun n ↑l mst r) (hl : mst.length < n - 1) (he : e ∈ l)
    (hmax : ∀ t ∈ l, (∀ x ∈ l, ¬ t.weight < x.weight) → t = e)
    (hc : ¬ Connected mst e.first e.second) : KruskalRun n ↑(l.erase e) (mst ++ [e]) r := by
  rw [← Multiset.coe_erase]
  cases h with
  | stop h => exact absurd ⟨by simpa using List.ne_nil_of_mem he, hl⟩ h
  | skip _ ht hm hc' _ => exact absurd (hmax _ ht hm ▸ hc') hc
  | keep _ ht hm _ h => rwa [← hmax _ ht hm]

end KruskalRun

/-- Ends that a map `f` tells apart, where `f` agrees on the ends of every kept edge, are not
connected. -/
theorem not_connected_of_sep {mst : List Edge} (f : Nat → Nat)
    (hf : ∀ e ∈ mst, f e.first = f e.second) {a b : Nat} (hab : f a ≠ f b) :
    ¬ Connected mst a b :=
  fun h => hab (UnionFind.eqvGen_kernel (fun _ _ ⟨e, he, h₁, h₂⟩ => h₁ ▸ h₂ ▸ hf e he) h)

/-! ## The spec's triangle -/

/-- The spec's triangle: `(0, 1, 0.5)`, `(1, 2, 0.3)` and `(0, 2, 1.0)`, added in that order. -/
def triangle : List Edge := [⟨0, 1, mkRat 1 2⟩, ⟨1, 2, mkRat 3 10⟩, ⟨0, 2, 1⟩]

/-- The spec's minimum spanning tree of the triangle: `(1, 2, 0.3)` and `(0, 1, 0.5)`. -/
def triangleMst : List Edge := [⟨1, 2, mkRat 3 10⟩, ⟨0, 1, mkRat 1 2⟩]

/-- `triangleMst` is a spanning tree of the triangle: two of its edges, connecting vertex `0`
to `1` and to `2`, of weight `0.8`. -/
theorem triangleMst_spans : triangleMst ⊆ triangle ∧ Connected triangleMst 0 1 ∧
    Connected triangleMst 0 2 ∧ weight triangleMst = 4 / 5 := by
  have h₀₁ : Connected triangleMst 0 1 := .rel _ _ ⟨_, .tail _ (.head _), rfl, rfl⟩
  have h₁₂ : Connected triangleMst 1 2 := .rel _ _ ⟨_, .head _, rfl, rfl⟩
  refine ⟨by decide, h₀₁, h₀₁.trans _ _ _ h₁₂, ?_⟩
  norm_num [weight, triangleMst, Rat.mkRat_eq_div]

/-- `build 3 triangle`: three vertices, three edges, and `edges()` lists every edge once from
each end. -/
theorem build_triangle : ∃ g, EdgeWeightedGraph.build 3 triangle = .ok g ∧ g.nVertices = 3 ∧
    g.nEdges = 3 ∧ g.edges = [⟨0, 2, 1⟩, ⟨0, 1, mkRat 1 2⟩, ⟨1, 2, mkRat 3 10⟩,
      ⟨0, 1, mkRat 1 2⟩, ⟨0, 2, 1⟩, ⟨1, 2, mkRat 3 10⟩] :=
  ⟨_, rfl, rfl, rfl, by decide⟩

/-- **Kruskal on the triangle.** `MstKruskal` keeps `(0, 2, 1.0)`, skips its second copy, and
keeps `(0, 1, 0.5)`: weight `1.5`, above the `0.8` of `triangleMst`. -/
theorem mstKruskal_triangle :
    (EdgeWeightedGraph.build 3 triangle >>= mstKruskal) = .ok [⟨0, 2, 1⟩, ⟨0, 1, mkRat 1 2⟩] ∧
      weight [⟨0, 2, 1⟩, ⟨0, 1, mkRat 1 2⟩] = 3 / 2 ∧
      triangleMst ⊆ triangle ∧ Connected triangleMst 0 1 ∧ Connected triangleMst 0 2 ∧
      weight triangleMst = 4 / 5 := by
  obtain ⟨g, hg, h3, hE, hedges⟩ := build_triangle
  obtain ⟨r, hr, hrun⟩ := mstKruskal_refines g (by omega) (by omega)
    (by rw [hedges, h3]; decide)
  rw [hedges, h3] at hrun
  -- the heaviest edge `(0, 2, 1.0)` joins two singletons
  have h₁ := hrun.keep_of (e := ⟨0, 2, 1⟩) (by decide) (by decide) (by decide)
    (not_connected_of_sep id (by simp) (by decide))
  -- its second copy closes a cycle
  have h₂ := h₁.skip_of (e := ⟨0, 2, 1⟩) (by decide) (by decide) (by decide) (.rel _ _ ⟨_, .head _, rfl, rfl⟩)
  -- `(0, 1, 0.5)` joins `1` to `{0, 2}`
  have h₃ := h₂.keep_of (e := ⟨0, 1, mkRat 1 2⟩) (by decide) (by decide) (by decide)
    (not_connected_of_sep (fun v => if v = 1 then 1 else 0) (by decide) (by decide))
  refine ⟨?_, by norm_num [weight, Rat.mkRat_eq_div], triangleMst_spans⟩
  have hr' : r = [⟨0, 2, 1⟩, ⟨0, 1, mkRat 1 2⟩] := h₃.eq_of_full (by decide)
  rw [hg, ← hr']
  exact hr

/-- **Lazy Prim on the triangle.** From vertex `0` the queue holds `(0, 2, 1.0)` and
`(0, 1, 0.5)`; `MstPrimLazy` pops the heavier first and keeps both: weight `1.5`, above the
`0.8` of `triangleMst`. -/
theorem mstPrimLazy_triangle :
    (EdgeWeightedGraph.build 3 triangle >>= mstPrimLazy) = .ok [⟨0, 2, 1⟩, ⟨0, 1, mkRat 1 2⟩] ∧
      weight [⟨0, 2, 1⟩, ⟨0, 1, mkRat 1 2⟩] = 3 / 2 ∧
      triangleMst ⊆ triangle ∧ Connected triangleMst 0 1 ∧ Connected triangleMst 0 2 ∧
      weight triangleMst = 4 / 5 :=
  ⟨by rfl, by norm_num [weight, Rat.mkRat_eq_div], triangleMst_spans⟩

/-- **Eager Prim on the triangle.** From vertex `0`, `MstPrimEager` pops vertex `2` (distance
`1.0`) before vertex `1` (distance `0.5`); visiting `2` lowers `_dist_to[1]` to `0.3`. Its
`_edge_to[1..2]` is `(1, 2, 0.3)`, `(0, 2, 1.0)`: weight `1.3`, above the `0.8` of
`triangleMst`. -/
theorem mstPrimEager_triangle :
    (EdgeWeightedGraph.build 3 triangle >>= mstPrimEager) =
        .ok [some ⟨1, 2, mkRat 3 10⟩, some ⟨0, 2, 1⟩] ∧
      weight [⟨1, 2, mkRat 3 10⟩, ⟨0, 2, 1⟩] = 13 / 10 ∧
      triangleMst ⊆ triangle ∧ Connected triangleMst 0 1 ∧ Connected triangleMst 0 2 ∧
      weight triangleMst = 4 / 5 :=
  ⟨by rfl, by norm_num [weight, Rat.mkRat_eq_div], triangleMst_spans⟩

end GraphAlgo
