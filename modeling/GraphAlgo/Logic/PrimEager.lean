import GraphAlgo.Logic.PrimLazy
import GraphAlgo.Logic.PriorityIndexQueue

/-!
# What `MstPrimEager` computes: a spanning tree of the component of vertex 0

The loop of `MstPrimEager.__init__` pops a vertex from the indexed queue, marks it, and relaxes
its edges: an edge to an unmarked vertex `w` lighter than `_dist_to[w]` becomes `_edge_to[w]`,
and `w` is pushed, or its key changed, to the edge's weight. `EagerInv` is what holds around
each relaxation, with `V` the marked vertices in the order they were popped and `P` the edges
of the last popped vertex still to relax:

* the queue binds exactly unmarked vertices with a distance, each to its `_dist_to`, and every
  one but vertex 0 has an `_edge_to`, a graph edge to a marked vertex;
* `_edge_to` of the marked vertices other than 0, in the order `V`, grows a forest of graph
  edges that connects vertex 0 to each marked vertex;
* every edge from a marked vertex leads to a marked vertex or to one whose `_dist_to` is no
  more than its weight, or is still in `P`;
* every vertex popped after vertex 0 hangs from the vertices popped before it as `Attaches`
  says: by a lightest edge to them, at least as heavy as the lightest edge to them of any
  vertex left behind.

A popped vertex is unmarked, so the loop marks one new vertex per iteration and ends on
`n_vertices + 1` fuel with an empty queue (`primEagerLoop_spec`); the pushes fit, since the
queue binds fewer vertices than its capacity `n_vertices` (`count_lt_of_unbound`). With the
queue empty the marks are closed under the graph's edges: the component of vertex 0.

The constructor returns `_edge_to[1..n_vertices - 1]` in vertex order, `None` exactly for the
vertices outside that component; the others form, in any order (`Acyclic.perm`), a spanning
tree of the component (`mstPrimEager_spanning_tree`). Its weight is neither the least nor the
most (`Logic/Mst.lean`, the triangle): the queue pops the vertex whose lightest edge to the
tree is the heaviest, and that edge is what it keeps (`mstPrimEager_greedy`).
-/

namespace GraphAlgo

open EdgeWeightedGraph

/-- `x < y` on distances is a strict weak order. -/
theorem distLt_strictWeakOrder : IsStrictWeakOrder ℚ (fun x y => distLt x y = true) where
  irrefl a := by simp [distLt]
  trans a b c := by simpa [distLt] using lt_trans
  incomp_trans a b c := by
    simp only [distLt, decide_eq_true_eq, not_lt]
    intro ⟨h₁, h₂⟩ ⟨h₃, h₄⟩
    exact ⟨h₃.trans h₁, h₂.trans h₄⟩

instance distLt_isStrictWeakOrder : IsStrictWeakOrder ℚ (fun x y => distLt x y = true) :=
  distLt_strictWeakOrder

namespace PriorityIndexQueue

variable {α : Type} {compare : α → α → Bool} {s : PriorityIndexQueue α} {m : Nat → Option α}

/-- A queue that binds only indices below `n`, and not `w < n`, holds fewer than `n` entries:
its slots name distinct bound indices. -/
theorem count_lt_of_unbound (hs : WF compare s) (ht : Tracks s m) {n w : Nat}
    (hm : ∀ x y, m x = some y → x < n) (hw : w < n) (hmw : m w = none) : s.count < n := by
  have hslot : ∀ k ∈ Finset.Icc 1 s.count, s.pq k ∈ (Finset.range n).erase w := by
    intro k hk
    obtain ⟨hk1, hkn⟩ := Finset.mem_Icc.mp hk
    obtain ⟨y, hy⟩ := (ht.contained _ (hs.indexed.pq_le k hk1 hkn)).mp
      (by rw [hs.indexed.qp_pq hk1 hkn]; omega)
    refine Finset.mem_erase.mpr ⟨fun h => ?_, Finset.mem_range.mpr (hm _ _ hy)⟩
    rw [h, hmw] at hy
    cases hy
  have := Finset.card_le_card_of_injOn s.pq hslot fun k₁ h₁ k₂ h₂ h =>
    hs.indexed.pq_inj (Finset.mem_Icc.mp h₁).1 (Finset.mem_Icc.mp h₁).2
      (Finset.mem_Icc.mp h₂).1 (Finset.mem_Icc.mp h₂).2 h
  rw [Nat.card_Icc, Finset.card_erase_of_mem (Finset.mem_range.mpr hw), Finset.card_range] at this
  omega

/-- An empty queue binds nothing. -/
theorem unbound_of_count_eq_zero (hs : WF compare s) (ht : Tracks s m) (h0 : s.count = 0)
    (x : Nat) : m x = none := by
  by_contra hx
  obtain ⟨y, hy⟩ := Option.ne_none_iff_exists'.mp hx
  have hxC : x ≤ s.capacity := by
    by_contra hC; rw [ht.bound x (by omega)] at hy; cases hy
  obtain ⟨k, -, hk1, hkn, -⟩ := hs.indexed.slot_of_ne hxC ((ht.contained x hxC).mpr ⟨y, hy⟩)
  omega

variable [IsStrictWeakOrder α (fun x y => compare x y = true)]

/-- The `change` or `push` of `_visit`: after `contains(w)`, a bound `w` is rebound to `key`,
an unbound one pushed with it. -/
theorem changeOrPush_spec (hs : WF compare s) (ht : Tracks s m) {w : Nat} (hw : w ≤ s.capacity)
    (hc : m w = none → s.count < s.capacity) (key : α) :
    ∃ s', (s.contains w >>= fun c =>
        if c then s.change compare w key else s.push compare w key) = .ok s' ∧
      WF compare s' ∧ Tracks s' (Function.update m w (some key)) ∧ s'.capacity = s.capacity := by
  rw [contains_eq hw]
  by_cases hq : s.qp w = -1
  · obtain ⟨s', h, hw', ht', hcap⟩ := push_spec hs ht (by rw [contains_eq hw, hq]; rfl)
      (hc (Option.eq_none_iff_forall_not_mem.mpr fun y hy =>
        ((ht.contained w hw).mpr ⟨y, hy⟩) hq)) key
    exact ⟨s', by simpa [hq, bind, Except.bind] using h, hw', ht', hcap⟩
  · obtain ⟨s', h, hw', ht', hcap, -⟩ := change_spec hs ht (by rw [contains_eq hw]; simpa using hq) key
    exact ⟨s', by simpa [hq, bind, Except.bind] using h, hw', ht', hcap⟩

end PriorityIndexQueue

namespace Edge

variable {e : Edge} {u v : Nat}

/-- An edge incident to `v` joins `v` and `e.other v`. -/
theorem ends_other (h : e.first = v ∨ e.second = v) :
    e.first = e.other v ∧ e.second = v ∨ e.first = v ∧ e.second = e.other v := by
  unfold other first second at *
  split_ifs with hv <;> omega

/-- Seen from one end, the other end of an edge incident to two distinct vertices is the
second. -/
theorem other_of_ends (hu : e.first = u ∨ e.second = u) (hv : e.first = v ∨ e.second = v)
    (huv : u ≠ v) : e.other u = v := by
  unfold other first second at *
  split_ifs <;> omega

/-- `e` joins the vertex `w` to a vertex of `U`. -/
def Joins (e : Edge) (w : Nat) (U : List Nat) : Prop :=
  e.first = w ∧ e.second ∈ U ∨ e.second = w ∧ e.first ∈ U

end Edge

/-- What the pop of `w` after the vertices `U` makes of `_edge_to[w] = e`. It is a graph edge
from `w` to `U`, and no such edge is lighter. Every other vertex outside `U` with an edge to
`U` has one no heavier than `e`, since the queue pops the largest `_dist_to`. -/
structure Attaches (g : EdgeWeightedGraph) (U : List Nat) (w : Nat) (e : Edge) : Prop where
  mem : e ∈ g.edges
  joins : e.Joins w U
  lightest : ∀ f ∈ g.edges, f.Joins w U → e.weight ≤ f.weight
  heaviest : ∀ x, x ∉ U → x ≠ w → ∀ f ∈ g.edges, f.Joins x U →
    ∃ f' ∈ g.edges, f'.Joins x U ∧ f'.weight ≤ e.weight

/-- Splitting `V ++ [v]` around an entry `w`: either `w` is the last entry `v`, or the split is
one of `V`. -/
theorem snoc_eq_append_cons {α : Type} {V U W : List α} {v w : α} (h : V ++ [v] = U ++ w :: W) :
    (U = V ∧ w = v ∧ W = []) ∨ ∃ W', W = W' ++ [v] ∧ V = U ++ w :: W' := by
  rcases List.eq_nil_or_concat W with rfl | ⟨W', b, rfl⟩
  · obtain ⟨hUV, hwv⟩ := List.append_inj' h rfl
    exact .inl ⟨hUV.symm, (List.singleton_inj.mp hwv).symm, rfl⟩
  · rw [List.concat_eq_append, ← List.cons_append, ← List.append_assoc] at h
    obtain ⟨hV, hb⟩ := List.append_inj' h rfl
    exact .inr ⟨W', by rw [List.concat_eq_append, List.singleton_inj.mp hb], hV⟩

/-! ## The loop invariant -/

/-- The unmarked vertices. -/
def unmarked (g : EdgeWeightedGraph) (state : Nat → Bool) : Nat :=
  ((Finset.range g.nVertices).filter fun v => state v = false).card

theorem unmarked_update {g : EdgeWeightedGraph} {state : Nat → Bool} {v : Nat}
    (hv : v < g.nVertices) (hs : state v = false) :
    unmarked g (Function.update state v true) + 1 = unmarked g state := by
  have hmem : v ∈ (Finset.range g.nVertices).filter fun x => state x = false :=
    Finset.mem_filter.mpr ⟨Finset.mem_range.mpr hv, hs⟩
  unfold unmarked
  rw [show (Finset.range g.nVertices).filter (fun x => Function.update state v true x = false) =
      ((Finset.range g.nVertices).filter fun x => state x = false).erase v from
    Finset.ext fun x => by
      by_cases hx : x = v <;> simp [Finset.mem_erase, Finset.mem_filter, hx, Function.update_noteq],
    Finset.card_erase_of_mem hmem]
  have := Finset.card_pos.mpr ⟨v, hmem⟩
  omega

/-- `_edge_to` of the vertices of `V`, in the order of `V`. -/
def treeOf (s : PrimEager) (V : List Nat) : List Edge := V.filterMap s.edgeTo

/-- The edge `e` out of `u` is accounted for: its other end is marked, or has a `_dist_to` no
more than the weight of `e`. -/
def PrimEager.Covered (s : PrimEager) (u : Nat) (e : Edge) : Prop :=
  s.state (e.other u) = true ∨ ∃ d, s.distTo (e.other u) = some d ∧ d ≤ e.weight

/-- Covered edges stay covered while marks only grow and distances only drop. -/
theorem PrimEager.Covered.mono {s s' : PrimEager} {u : Nat} {e : Edge}
    (hst : ∀ x, s.state x = true → s'.state x = true)
    (hdist : ∀ x d, s.distTo x = some d → ∃ d', s'.distTo x = some d' ∧ d' ≤ d) :
    s.Covered u e → s'.Covered u e
  | .inl h => .inl (hst _ h)
  | .inr ⟨_, hd, hle⟩ => let ⟨d', hd', hle'⟩ := hdist _ _ hd; .inr ⟨d', hd', hle'.trans hle⟩

/-- What holds around each relaxation of the loop of `MstPrimEager.__init__`, with the bindings
`m` of the queue, the marked vertices `V` in popping order, and the edges `P` of the last
popped vertex still to relax. -/
structure EagerInv (g : EdgeWeightedGraph) (s : PrimEager) (m : Nat → Option ℚ) (V : List Nat)
    (P : List Edge) : Prop where
  wf : PriorityIndexQueue.WF distLt s.pq
  tracks : PriorityIndexQueue.Tracks s.pq m
  capacity : s.pq.capacity = g.nVertices
  marked : ∀ v, s.state v = true ↔ v ∈ V
  nodup : V.Nodup
  lt : ∀ v ∈ V, v < g.nVertices
  zero : V.head? = some 0 ∨ (V = [] ∧ m 0 ≠ none ∧ ∀ x, m x ≠ none → x = 0)
  edgeTo_zero : s.edgeTo 0 = none
  edge_end : ∀ x e, s.edgeTo x = some e → e ∈ g.edges ∧ (e.first = x ∨ e.second = x)
  weight : ∀ x e, s.edgeTo x = some e → s.distTo x = some e.weight
  queued : ∀ x d, m x = some d → s.state x = false ∧ x < g.nVertices ∧ s.distTo x = some d
  dist : ∀ x, s.state x = false → s.distTo x ≠ none → m x ≠ none
  pending : ∀ x e, s.state x = false → s.edgeTo x = some e →
    e.first = x ∧ s.state e.second = true ∨ e.second = x ∧ s.state e.first = true
  queued_edge : ∀ x, m x ≠ none → x ≠ 0 → s.edgeTo x ≠ none
  tree_some : ∀ x ∈ V, x ≠ 0 → s.edgeTo x ≠ none
  tree : ∀ e ∈ treeOf s V, s.state e.first = true ∧ s.state e.second = true
  acyclic : Acyclic (treeOf s V)
  spans : ∀ x ∈ V, Connected (treeOf s V) 0 x
  frontier : ∀ u ∈ V, ∀ e ∈ g.adj u, e ∈ P ∨ s.Covered u e
  popped : ∀ U w W, V = U ++ w :: W → U ≠ [] → ∃ e, s.edgeTo w = some e ∧ Attaches g U w e

namespace EagerInv

variable {g : EdgeWeightedGraph} {s : PrimEager} {m : Nat → Option ℚ} {V : List Nat}
  {P : List Edge} {v : Nat}

theorem head_zero (hI : EagerInv g s m V P) (hv : v ∈ V) : V.head? = some 0 :=
  hI.zero.resolve_right fun ⟨h, _⟩ => absurd (h ▸ hv) (List.not_mem_nil v)

theorem zero_mem (hI : EagerInv g s m V P) (hv : v ∈ V) : 0 ∈ V :=
  List.mem_of_mem_head? (hI.head_zero hv)

/-- Relaxing the first edge `e` of `P`, out of a marked `v`, keeps the frontier once `e` is
covered, as long as covered edges stay covered. -/
theorem frontier_tail (hg : g.WF) {s' : PrimEager} {e : Edge}
    (hfr : ∀ u ∈ V, ∀ e' ∈ g.adj u, e' ∈ e :: P ∨ s.Covered u e')
    (hmono : ∀ u e', s.Covered u e' → s'.Covered u e') (hv : s'.state v = true)
    (he : e ∈ g.adj v) (hw : s'.Covered v e) :
    ∀ u ∈ V, ∀ e' ∈ g.adj u, e' ∈ P ∨ s'.Covered u e' := by
  intro u hu e' he'
  rcases hfr u hu e' he' with h | h
  · rcases List.mem_cons.mp h with rfl | h
    · by_cases huv : u = v
      · subst huv; exact .inr hw
      · rw [PrimEager.Covered, Edge.other_of_ends (hg.incident_adj he') (hg.incident_adj he) huv]
        exact .inr (.inl hv)
    · exact .inl h
  · exact .inr (hmono _ _ h)

/-- **Relaxing** the next edge `e` of the popped vertex `v` keeps the invariant, and the marks. -/
theorem relax (hg : g.WF) {e : Edge} (hI : EagerInv g s m V (e :: P)) (hv : v ∈ V)
    (he : e ∈ g.adj v) :
    ∃ s' m', primEagerRelax v s e = .ok s' ∧ EagerInv g s' m' V P ∧ s'.state = s.state := by
  have heg : e ∈ g.edges := mem_edges_of_adj (hI.lt v hv) he
  have hvs : s.state v = true := (hI.marked v).mpr hv
  have hsame : s.Covered v e → EagerInv g s m V P := fun hw =>
    { hI with frontier := frontier_tail hg hI.frontier (fun _ _ h => h) hvs he hw }
  by_cases hw : s.state (e.other v) = true
  · exact ⟨s, m, by simp [primEagerRelax, hw], hsame (.inl hw), rfl⟩
  replace hw : s.state (e.other v) = false := by simpa using hw
  by_cases hlt : ltDist e.weight (s.distTo (e.other v)) = true
  swap
  · -- `e` is no lighter than `_dist_to[w]`, which covers it
    obtain ⟨d, hd⟩ := Option.ne_none_iff_exists'.mp
      fun h : s.distTo (e.other v) = none => hlt (by rw [h]; rfl)
    exact ⟨s, m, by simp [primEagerRelax, hw, hlt],
      hsame (.inr ⟨d, hd, by simpa [ltDist, hd] using hlt⟩), rfl⟩
  -- `e` is the lightest edge to `w` so far: record it and bind `w` to its weight
  obtain ⟨w, hwdef⟩ : ∃ w, w = e.other v := ⟨_, rfl⟩
  rw [← hwdef] at hw hlt
  have hwn : w < g.nVertices := hwdef ▸ (Edge.other_eq v).elim (fun h => h ▸ (hg.edges_lt heg).1)
    (fun h => h ▸ (hg.edges_lt heg).2)
  have hwV : ∀ x ∈ V, x ≠ w := fun x hx h =>
    absurd ((hI.marked x).mpr hx) (by rw [h, hw]; exact Bool.false_ne_true)
  have hw0 : 0 ≠ w := hwV 0 (hI.zero_mem hv)
  have hends : e.first = w ∨ e.second = w := hwdef ▸ (Edge.other_eq (e := e) v).imp Eq.symm Eq.symm
  obtain ⟨pq', hop, hwf, htr, hcap⟩ := PriorityIndexQueue.changeOrPush_spec hI.wf hI.tracks
    (w := w) (by rw [hI.capacity]; omega)
    (fun hmw => hI.capacity ▸ PriorityIndexQueue.count_lt_of_unbound hI.wf hI.tracks
      (fun x y h => (hI.queued x y h).2.1) hwn hmw) e.weight
  let s' : PrimEager :=
    { s with edgeTo := Function.update s.edgeTo w (some e),
             distTo := Function.update s.distTo w (some e.weight), pq := pq' }
  have hcode : primEagerRelax v s e = .ok s' := by
    simp only [primEagerRelax, ← hwdef, hw, hlt, if_true, Bool.false_eq_true, if_false]
    rw [← bind_assoc, hop]
    rfl
  have htree : treeOf s' V = treeOf s V :=
    List.filterMap_congr fun x hx => Function.update_noteq (hwV x hx) _ _
  -- the new `_edge_to[w]` is `e`; every other one is as it was
  have hedgeTo : ∀ x e', s'.edgeTo x = some e' → x = w ∧ e' = e ∨ x ≠ w ∧ s.edgeTo x = some e' :=
    fun x e' hx => by
      by_cases hxw : x = w
      · subst hxw
        simp only [s', Function.update_same, Option.some.injEq] at hx
        exact .inl ⟨rfl, hx.symm⟩
      · exact .inr ⟨hxw, (Function.update_noteq hxw _ _).symm.trans hx⟩
  refine ⟨s', Function.update m w (some e.weight), hcode, ⟨hwf, htr, hcap.trans hI.capacity,
    hI.marked, hI.nodup, hI.lt, .inl (hI.head_zero hv),
    (Function.update_noteq hw0 _ _).trans hI.edgeTo_zero, ?_, ?_, ?_, ?_, ?_, ?_,
    fun x hx hx0 => by simpa [s', Function.update_noteq (hwV x hx)] using hI.tree_some x hx hx0,
    htree ▸ hI.tree, htree ▸ hI.acyclic, htree ▸ hI.spans, ?_, fun U x W hV hU => ?_⟩, rfl⟩
  · -- edge_end
    intro x e' hx
    rcases hedgeTo x e' hx with ⟨rfl, rfl⟩ | ⟨-, hx⟩
    · exact ⟨heg, hends⟩
    · exact hI.edge_end x e' hx
  · -- weight
    intro x e' hx
    rcases hedgeTo x e' hx with ⟨rfl, rfl⟩ | ⟨hxw, hx⟩
    · simp [s']
    · simpa [s', Function.update_noteq hxw] using hI.weight x e' hx
  · -- queued
    intro x d hx
    by_cases hxw : x = w
    · subst hxw
      simp only [Function.update_same, Option.some.injEq] at hx
      exact ⟨hw, hwn, by simp [s', hx]⟩
    · obtain ⟨h₁, h₂, h₃⟩ := hI.queued x d ((Function.update_noteq hxw _ _).symm.trans hx)
      exact ⟨h₁, h₂, (Function.update_noteq hxw _ _).trans h₃⟩
  · -- dist
    intro x hx hd
    by_cases hxw : x = w
    · subst hxw; simp
    · rw [Function.update_noteq hxw]
      exact hI.dist x hx (by simpa [s', Function.update_noteq hxw] using hd)
  · -- pending: the new `_edge_to[w]` leads to the marked `v`
    intro x e' hx hxe
    rcases hedgeTo x e' hxe with ⟨rfl, rfl⟩ | ⟨-, hxe⟩
    · rcases Edge.ends_other (hg.incident_adj he) with ⟨h₁, h₂⟩ | ⟨h₁, h₂⟩
      · exact .inl ⟨h₁.trans hwdef.symm, h₂ ▸ hvs⟩
      · exact .inr ⟨h₂.trans hwdef.symm, h₁ ▸ hvs⟩
    · exact hI.pending x e' hx hxe
  · -- queued_edge
    intro x hx hx0
    by_cases hxw : x = w
    · subst hxw; simp [s']
    · simpa [s', Function.update_noteq hxw] using
        hI.queued_edge x (by simpa [Function.update_noteq hxw] using hx) hx0
  · -- frontier: `_dist_to[w]` only drops, to the weight of `e`
    refine frontier_tail hg hI.frontier (fun _ _ => PrimEager.Covered.mono (fun _ h => h)
      fun x d hx => ?_) hvs he (.inr ⟨e.weight, by rw [← hwdef]; simp [s'], le_rfl⟩)
    by_cases hxw : x = w
    · subst hxw
      rw [hx] at hlt
      exact ⟨e.weight, by simp [s'], le_of_lt (by simpa [ltDist] using hlt)⟩
    · exact ⟨d, by simpa [s', Function.update_noteq hxw] using hx, le_rfl⟩
  · -- popped: `w` is unmarked, so no popped vertex changes its `_edge_to`
    obtain ⟨e', he', hA⟩ := hI.popped U x W hV hU
    have hxV : x ∈ V := hV ▸ List.mem_append_right U (List.mem_cons_self x W)
    exact ⟨e', (Function.update_noteq (hwV x hxV) _ _).trans he', hA⟩

/-- With every edge relaxed, an unmarked `y` with a graph edge `f` to a marked vertex has a
`_dist_to` no more than the weight of `f`. -/
theorem distTo_le (hg : g.WF) (hI : EagerInv g s m V []) {y : Nat} {f : Edge}
    (hy : s.state y = false) (hf : f ∈ g.edges) (hj : f.Joins y V) :
    ∃ d, s.distTo y = some d ∧ d ≤ f.weight := by
  have hne : ∀ u ∈ V, u ≠ y := fun u hu h => by rw [← h, (hI.marked u).mpr hu] at hy; cases hy
  obtain ⟨u, huV, hfu, hyu⟩ : ∃ u ∈ V, f ∈ g.adj u ∧ f.other u = y := by
    rcases hj with ⟨h₁, h₂⟩ | ⟨h₁, h₂⟩
    · exact ⟨_, h₂, (hg.mem_adj_ends hf).2, Edge.other_of_ends (.inr rfl) (.inl h₁) (hne _ h₂)⟩
    · exact ⟨_, h₂, (hg.mem_adj_ends hf).1, Edge.other_of_ends (.inl rfl) (.inr h₁) (hne _ h₂)⟩
  rcases (hI.frontier u huV f hfu).resolve_left (List.not_mem_nil f) with h | h
  · rw [hyu, hy] at h; cases h
  · exact hyu ▸ h

/-- **The pop.** With every edge relaxed, the top vertex `v` of the queue, bound to `x`, hangs
from the marked vertices by its `_edge_to`: no edge from `v` to them is lighter, and every
other vertex with an edge to them is bound to a key, the weight of its own `_edge_to`, no more
than `x`. -/
theorem attaches (hg : g.WF) (hI : EagerInv g s m V []) (hV : V ≠ []) {x : ℚ}
    (hmv : m v = some x) (htop : ∀ i y, m i = some y → distLt x y = false) :
    ∃ e, s.edgeTo v = some e ∧ Attaches g V v e := by
  obtain ⟨hvs, -, hdv⟩ := hI.queued v x hmv
  have h0 : 0 ∈ V := let ⟨_, hu⟩ := List.exists_mem_of_ne_nil V hV; hI.zero_mem hu
  -- a bound vertex is not 0; its `_edge_to` joins it to a marked vertex and weighs its key
  have hedge : ∀ y d, m y = some d →
      ∃ e, s.edgeTo y = some e ∧ e ∈ g.edges ∧ e.Joins y V ∧ e.weight = d := by
    intro y d hy
    obtain ⟨hys, -, hyd⟩ := hI.queued y d hy
    have hy0 : y ≠ 0 := fun h => by rw [h, (hI.marked 0).mpr h0] at hys; cases hys
    obtain ⟨e, he⟩ := Option.ne_none_iff_exists'.mp (hI.queued_edge y (by rw [hy]; simp) hy0)
    refine ⟨e, he, (hI.edge_end y e he).1, ?_, Option.some.inj ((hI.weight y e he).symm.trans hyd)⟩
    rcases hI.pending y e hys he with ⟨h₁, h₂⟩ | ⟨h₁, h₂⟩
    · exact .inl ⟨h₁, (hI.marked _).mp h₂⟩
    · exact .inr ⟨h₁, (hI.marked _).mp h₂⟩
  obtain ⟨e, he, hem, hej, hex⟩ := hedge v x hmv
  refine ⟨e, he, hem, hej, fun f hf hfj => ?_, fun y hyV _ f hf hfj => ?_⟩
  · -- lightest: `f` covers `v`, so `_dist_to[v]`, the key `x`, is no more than its weight
    obtain ⟨d, hd, hle⟩ := hI.distTo_le hg hvs hf hfj
    rw [hex, Option.some.inj (hdv.symm.trans hd)]
    exact hle
  · -- heaviest: `f` makes `y` bound, to a key no more than the top key `x`
    have hys : s.state y = false := Bool.eq_false_iff.mpr fun h => hyV ((hI.marked y).mp h)
    obtain ⟨d, hd, -⟩ := hI.distTo_le hg hys hf hfj
    obtain ⟨d', hmy⟩ := Option.ne_none_iff_exists'.mp (hI.dist y hys (by rw [hd]; simp))
    obtain ⟨f', -, hf'm, hf'j, hf'w⟩ := hedge y d' hmy
    have hle : d' ≤ x := by simpa [distLt] using htop y d' hmy
    exact ⟨f', hf'm, hf'j, hf'w ▸ hex ▸ hle⟩

/-- **Popping and marking** the top vertex `v`: it is unmarked, and marking it, with all its
edges still to relax, keeps the invariant. -/
theorem mark (hg : g.WF) (hI : EagerInv g s m V []) (hne : 0 < s.pq.count) :
    ∃ v pq', s.pq.topIx = .ok v ∧ s.pq.pop distLt = .ok pq' ∧ s.state v = false ∧
      v < g.nVertices ∧ EagerInv g { s with pq := pq', state := Function.update s.state v true }
        (Function.update m v none) (V ++ [v]) (g.adj v) := by
  obtain ⟨x, htopIx, -, -, -, hmv, htop⟩ := PriorityIndexQueue.top_spec hI.wf hI.tracks hne
  obtain ⟨pq', hpop, hwf, htr, hcap, -⟩ := PriorityIndexQueue.pop_spec hI.wf hI.tracks hne
  obtain ⟨v, hvdef⟩ : ∃ v, v = s.pq.pq 1 := ⟨_, rfl⟩
  rw [← hvdef] at htopIx htr hmv
  obtain ⟨hvs, hvn, -⟩ := hI.queued v x hmv
  have hvV : v ∉ V := fun h => by rw [(hI.marked v).mpr h] at hvs; cases hvs
  let s' : PrimEager := { s with pq := pq', state := Function.update s.state v true }
  have hmarks : ∀ y, s'.state y = true ↔ y ∈ V ++ [v] := fun y => by
    rw [update_true_iff, hI.marked, List.mem_append, List.mem_singleton, or_comm]
  have hmono : ∀ y, s.state y = true → s'.state y = true := fun _ h => update_true_of h
  have hbound : ∀ y, Function.update m v none y ≠ none → y ≠ v ∧ m y ≠ none := fun y hy => by
    by_cases hyv : y = v
    · subst hyv; simp at hy
    · exact ⟨hyv, by rwa [Function.update_noteq hyv] at hy⟩
  have hunmarked : ∀ y, s'.state y = false → y ≠ v ∧ s.state y = false := fun y hy => by
    by_cases hyv : y = v
    · subst hyv; simp [s'] at hy
    · exact ⟨hyv, by simpa [s', Function.update_noteq hyv] using hy⟩
  -- `_edge_to[v]` joins `v` to a marked vertex, unless `v` is vertex 0
  have htree : treeOf s' (V ++ [v]) = treeOf s V ++ (s.edgeTo v).toList := by
    simp only [treeOf, List.filterMap_append, List.filterMap_cons, List.filterMap_nil, s']
    cases s.edgeTo v <;> rfl
  have hfresh : ∀ e, s.edgeTo v = some e → ¬ Connected (treeOf s V) e.first e.second := by
    intro e he hc
    have := Connected.eq_of_ends (f := s.state) (fun f hf => (hI.tree f hf).1.trans (hI.tree f hf).2.symm) hc
    rcases hI.pending v e hvs he with ⟨h₁, h₂⟩ | ⟨h₁, h₂⟩ <;> rw [h₁, hvs, h₂] at this <;> cases this
  refine ⟨v, pq', htopIx, hpop, hvs, hvn, hwf, htr, hcap.trans hI.capacity, hmarks,
    List.nodup_append.mpr ⟨hI.nodup, List.nodup_singleton v, fun a ha hb =>
      hvV (List.mem_singleton.mp hb ▸ ha)⟩,
    fun y hy => (List.mem_append.mp hy).elim (hI.lt y) fun h => List.mem_singleton.mp h ▸ hvn,
    ?_, hI.edgeTo_zero, hI.edge_end, hI.weight, ?_, ?_, ?_, ?_, ?_, ?_, ?_, ?_, ?_, ?_⟩
  · -- zero: the first vertex popped is 0
    rcases hI.zero with h | ⟨rfl, -, h⟩
    · exact .inl (by rw [List.head?_append, h]; rfl)
    · exact .inl (by simp [h v (by rw [hmv]; simp)])
  · -- queued
    intro y d hy
    obtain ⟨hyv, -⟩ := hbound y (by rw [hy]; simp)
    rw [Function.update_noteq hyv] at hy
    obtain ⟨h₁, h₂, h₃⟩ := hI.queued y d hy
    exact ⟨by simpa [s', Function.update_noteq hyv] using h₁, h₂, h₃⟩
  · -- dist
    intro y hy hd
    obtain ⟨hyv, hy'⟩ := hunmarked y hy
    rw [Function.update_noteq hyv]
    exact hI.dist y hy' hd
  · -- pending
    intro y e hy he
    obtain ⟨-, hy'⟩ := hunmarked y hy
    exact (hI.pending y e hy' he).imp (fun h => ⟨h.1, hmono _ h.2⟩) fun h => ⟨h.1, hmono _ h.2⟩
  · -- queued_edge
    intro y hy hy0
    exact hI.queued_edge y (hbound y hy).2 hy0
  · -- tree_some
    intro y hy hy0
    rcases List.mem_append.mp hy with hy | hy
    · exact hI.tree_some y hy hy0
    · rw [List.mem_singleton.mp hy]
      exact hI.queued_edge v (by rw [hmv]; simp) (List.mem_singleton.mp hy ▸ hy0)
  · -- tree
    rw [htree]
    intro e he
    rcases List.mem_append.mp he with he | he
    · exact ⟨hmono _ (hI.tree e he).1, hmono _ (hI.tree e he).2⟩
    · have he' : s.edgeTo v = some e := Option.mem_def.mp (Option.mem_toList.mp he)
      have hv' : s'.state v = true := (hmarks v).mpr (List.mem_append_right _ (List.mem_singleton_self v))
      rcases hI.pending v e hvs he' with ⟨h₁, h₂⟩ | ⟨h₁, h₂⟩
      · exact ⟨by rw [h₁]; exact hv', hmono _ h₂⟩
      · exact ⟨hmono _ h₂, by rw [h₁]; exact hv'⟩
  · -- acyclic
    rw [htree]
    cases he : s.edgeTo v with
    | none => simpa using hI.acyclic
    | some e => exact hI.acyclic.snoc (hfresh e he)
  · -- spans
    rw [htree]
    intro y hy
    rcases List.mem_append.mp hy with hy | hy
    · exact (hI.spans y hy).mono (List.subset_append_left _ _)
    · obtain rfl := List.mem_singleton.mp hy
      cases he : s.edgeTo y with
      | none =>
        by_cases hy0 : y = 0
        · exact hy0 ▸ .refl 0
        · exact absurd he (hI.queued_edge y (by rw [hmv]; simp) hy0)
      | some e =>
        have hnew : e ∈ treeOf s V ++ (some e).toList := List.mem_append_right _ (by simp)
        rcases hI.pending y e hvs he with ⟨h₁, h₂⟩ | ⟨h₁, h₂⟩
        · exact ((hI.spans _ ((hI.marked _).mp h₂)).mono (List.subset_append_left _ _)).trans
            (Connected.of_ends hnew (.inr ⟨h₁, rfl⟩))
        · exact ((hI.spans _ ((hI.marked _).mp h₂)).mono (List.subset_append_left _ _)).trans
            (Connected.of_ends hnew (.inl ⟨rfl, h₁⟩))
  · -- frontier: every edge of `v` is still to relax
    intro u hu e he
    rcases List.mem_append.mp hu with hu | hu
    · exact .inr (((hI.frontier u hu e he).resolve_left (List.not_mem_nil e)).mono hmono
        fun _ d h => ⟨d, h, le_rfl⟩)
    · exact .inl (List.mem_singleton.mp hu ▸ he)
  · -- popped: `v` hangs from the vertices popped before it
    intro U w W hVW hU
    rcases snoc_eq_append_cons hVW with ⟨rfl, rfl, -⟩ | ⟨W', -, hV⟩
    · obtain ⟨e, he, hA⟩ := hI.attaches hg hU hmv htop
      exact ⟨e, he, hA⟩
    · exact hI.popped U w W' hV hU

end EagerInv

open EagerInv in
/-- The loop of `_visit(graph, v)` over the edges `P` of a marked `v`. -/
theorem relaxAll {g : EdgeWeightedGraph} {V : List Nat} {v : Nat} (hg : g.WF) (hv : v ∈ V) :
    ∀ (P : List Edge) (s : PrimEager) (m : Nat → Option ℚ), EagerInv g s m V P →
      (∀ e ∈ P, e ∈ g.adj v) →
      ∃ s' m', P.foldlM (primEagerRelax v) s = .ok s' ∧ EagerInv g s' m' V [] ∧ s'.state = s.state
  | [], s, m, hI, _ => ⟨s, m, rfl, hI, rfl⟩
  | e :: P, s, m, hI, hP => by
    obtain ⟨s₁, m₁, h₁, hI₁, hst₁⟩ := hI.relax hg hv (hP e (List.mem_cons_self e P))
    obtain ⟨s', m', h', hI', hst'⟩ :=
      relaxAll hg hv P s₁ m₁ hI₁ fun e' he' => hP e' (List.mem_cons_of_mem e he')
    exact ⟨s', m', by rw [List.foldlM_cons, h₁]; exact h', hI', hst'.trans hst₁⟩

/-- **Loop lemma.** From the invariant, on as much fuel as unmarked vertices, the loop of
`MstPrimEager.__init__` runs until the queue is empty, and the invariant holds at the end. -/
theorem primEagerLoop_spec {g : EdgeWeightedGraph} (hg : g.WF) :
    ∀ (fuel : Nat) (s : PrimEager) (m : Nat → Option ℚ) (V : List Nat), EagerInv g s m V [] →
      unmarked g s.state ≤ fuel →
      ∃ s' m' V', primEagerLoop g fuel s = .ok s' ∧ EagerInv g s' m' V' [] ∧ s'.pq.count = 0
  | 0, s, m, V, hI, hfuel => by
    refine ⟨s, m, V, rfl, hI, ?_⟩
    by_contra hne
    -- a bound vertex is unmarked, so some vertex is left
    obtain ⟨x, -, -, -, -, hmv, -⟩ :=
      PriorityIndexQueue.top_spec hI.wf hI.tracks (Nat.pos_of_ne_zero hne)
    obtain ⟨hvs, hvn, -⟩ := hI.queued _ _ hmv
    have : 0 < unmarked g s.state :=
      Finset.card_pos.mpr ⟨_, Finset.mem_filter.mpr ⟨Finset.mem_range.mpr hvn, hvs⟩⟩
    omega
  | fuel + 1, s, m, V, hI, hfuel => by
    by_cases h0 : s.pq.count = 0
    · exact ⟨s, m, V, by simp [primEagerLoop, h0], hI, h0⟩
    obtain ⟨v, pq', htopIx, hpop, hvs, hvn, hI₁⟩ := hI.mark hg (Nat.pos_of_ne_zero h0)
    obtain ⟨s₂, m₂, hfold, hI₂, hst₂⟩ := relaxAll hg
      (List.mem_append_right _ (List.mem_singleton_self v)) (g.adj v) _ _ hI₁ fun _ h => h
    have hU := unmarked_update hvn hvs
    have hst₂' : s₂.state = Function.update s.state v true := hst₂
    obtain ⟨s', m', V', hr, hI', hc⟩ :=
      primEagerLoop_spec hg fuel s₂ m₂ _ hI₂ (by rw [hst₂']; omega)
    refine ⟨s', m', V', ?_, hI', hc⟩
    simp only [primEagerLoop, h0, if_false, htopIx, hpop, bind, Except.bind, primEagerVisit]
    rw [hfold]
    exact hr

/-! ## The constructor -/

/-- Over duplicate-free vertices below `n`, outside which `f` is `None`, `filterMap f` lists
what it lists over `0 .. n - 1`, in some order. -/
theorem filterMap_perm_range {f : Nat → Option Edge} {V : List Nat} {n : Nat} (hV : V.Nodup)
    (hlt : ∀ x ∈ V, x < n) (hf : ∀ x, x ∉ V → f x = none) :
    (V.filterMap f).Perm ((List.range n).filterMap f) := by
  have hp : V.Perm ((List.range n).filter fun x => decide (x ∈ V)) :=
    (List.perm_ext_iff_of_nodup hV ((List.nodup_range n).filter _)).mpr fun x => by
      simp only [List.mem_filter, List.mem_range, decide_eq_true_eq]
      exact ⟨fun h => ⟨hlt x h, h⟩, fun h => h.2⟩
  refine (hp.filterMap f).trans (List.Perm.of_eq ?_)
  rw [List.filterMap_filter]
  exact List.filterMap_congr fun x _ => by by_cases hx : x ∈ V <;> simp [hx, hf x]

/-- `_edge_to[1..n - 1]` with its `None`s dropped, when `_edge_to[0]` is `None`. -/
theorem filterMap_range_succ {f : Nat → Option Edge} (hf : f 0 = none) (n : Nat) :
    (List.range (n + 1)).filterMap f = ((List.range n).map fun v => f (v + 1)).reduceOption := by
  rw [List.range_succ_eq_map, List.filterMap_cons_none hf, List.filterMap_map, List.reduceOption,
    List.filterMap_map]
  rfl

/-- `_pq.push(0, 0.0)` on the fresh queue, with vertex 0 at distance `0.0`, sets up the
invariant. -/
theorem eagerInv_init {g : EdgeWeightedGraph} {pq : PriorityIndexQueue ℚ}
    (hwf : PriorityIndexQueue.WF distLt pq)
    (htr : PriorityIndexQueue.Tracks pq (Function.update (fun _ => none) 0 (some 0)))
    (hcap : pq.capacity = g.nVertices) (hn : 0 < g.nVertices) :
    EagerInv g ⟨fun _ => false, fun _ => none, Function.update (fun _ => none) 0 (some 0), pq⟩
      (Function.update (fun _ => none) 0 (some 0)) [] [] := by
  have hzero : ∀ x, Function.update (fun _ => (none : Option ℚ)) 0 (some 0) x ≠ none → x = 0 :=
    fun x hx => by by_contra h; exact hx (Function.update_noteq h _ _)
  refine ⟨hwf, htr, hcap, fun v => ?_, List.nodup_nil, fun _ h => absurd h (List.not_mem_nil _),
    .inr ⟨rfl, ?_, hzero⟩, rfl, fun _ _ h => ?_, fun _ _ h => ?_, fun x d hx => ?_,
    fun x _ hd => ?_, fun _ _ _ h => ?_, fun x hx hx0 => absurd (hzero x hx) hx0,
    fun _ h => absurd h (List.not_mem_nil _), fun _ h => absurd h (List.not_mem_nil _), .nil,
    fun _ h => absurd h (List.not_mem_nil _), fun _ h => absurd h (List.not_mem_nil _),
    fun _ _ _ h => ?_⟩
  · simp
  · simp
  · simp at h
  · simp at h
  · obtain rfl := hzero x (by rw [hx]; simp)
    exact ⟨rfl, hn, hx⟩
  · obtain rfl := hzero x hd
    simp
  · simp at h
  · simp at h

namespace EagerInv

variable {g : EdgeWeightedGraph} {s : PrimEager} {m : Nat → Option ℚ} {V : List Nat}

/-- **After the loop.** With the queue empty, the marked vertices are those vertex 0 reaches,
and only they have an `_edge_to`. -/
theorem final (hg : g.WF) (hI : EagerInv g s m V []) (hc : s.pq.count = 0) :
    (∀ x, x ∈ V ↔ Connected g.edges 0 x) ∧ ∀ x, x ∉ V → s.edgeTo x = none := by
  -- the queue is empty: nothing is bound, every edge out of a mark leads to a mark
  have hnone := PriorityIndexQueue.unbound_of_count_eq_zero hI.wf hI.tracks hc
  have h0V : 0 ∈ V :=
    List.mem_of_mem_head? (hI.zero.resolve_right fun ⟨_, h, _⟩ => h (hnone 0))
  have hfr : ∀ u, s.state u = true → ∀ e ∈ g.adj u, s.state (e.other u) = true := by
    intro u hu e he
    rcases (hI.frontier u ((hI.marked u).mp hu) e he).resolve_left (List.not_mem_nil e) with
      h | ⟨d, hd, -⟩
    · exact h
    · by_contra hx
      exact hI.dist _ (by simpa using hx) (by rw [hd]; simp) (hnone _)
  have hclosed := hg.marks_closed hfr
  have hT : treeOf s V ⊆ g.edges := fun e he => by
    obtain ⟨x, -, hx⟩ := List.mem_filterMap.mp he
    exact (hI.edge_end x e hx).1
  refine ⟨fun x => ⟨fun h => (hI.spans x h).mono hT, fun h => (hI.marked x).mp
      ((Connected.eq_of_ends hclosed h).symm.trans ((hI.marked 0).mpr h0V))⟩, fun x hx => ?_⟩
  -- an `_edge_to` outside the marks would be an edge leaving them
  by_contra h
  obtain ⟨e, he⟩ := Option.ne_none_iff_exists'.mp h
  have hx' : s.state x = false := Bool.eq_false_iff.mpr fun h => hx ((hI.marked x).mp h)
  have := Connected.eq_of_ends (f := s.state) hclosed
    (Connected.of_mem (K := g.edges) (hI.edge_end x e he).1)
  rcases hI.pending x e hx' he with ⟨h₁, h₂⟩ | ⟨h₁, h₂⟩ <;> rw [h₁, hx', h₂] at this <;> cases this

end EagerInv

/-- The constructor of `MstPrimEager` runs its loop to an empty queue, from the invariant, and
lists `_edge_to[1..n_vertices - 1]`. -/
theorem mstPrimEager_run {g : EdgeWeightedGraph} (hg : g.WF) (hn : 0 < g.nVertices) :
    ∃ s m V, mstPrimEager g = .ok ((List.range (g.nVertices - 1)).map fun v => s.edgeTo (v + 1)) ∧
      EagerInv g s m V [] ∧ s.pq.count = 0 := by
  -- the queue: `PriorityIndexQueue(n_vertices)`, then `push(0, 0.0)`
  have hinit : PriorityIndexQueue.init g.nVertices =
      .ok (⟨g.nVertices, 0, fun _ => none, fun _ => 0, fun _ => -1⟩ : PriorityIndexQueue ℚ) := by
    simp [PriorityIndexQueue.init, hn]
  obtain ⟨hwf₀, htr₀, hcap₀⟩ := @PriorityIndexQueue.init_spec ℚ distLt _ _ hinit
  obtain ⟨pq, hpush, hwf, htr, hcap⟩ := PriorityIndexQueue.push_spec hwf₀ htr₀
    (PriorityIndexQueue.contains_eq (x := 0) (by rw [hcap₀]; omega)) (by rw [hcap₀]; exact hn) (0 : ℚ)
  obtain ⟨s, m, V, hloop, hI, hc⟩ := primEagerLoop_spec hg (g.nVertices + 1) _ _ []
    (eagerInv_init hwf htr (hcap.trans hcap₀) hn)
    (by simp only [unmarked]; exact (Finset.card_filter_le _ _).trans (by simp))
  exact ⟨s, m, V, by simp only [mstPrimEager, hinit, hpush, hloop, bind, Except.bind], hI, hc⟩

/-- **Eager Prim returns a spanning tree of the component of vertex 0.** On a graph built by
`add_edge` with a vertex, `MstPrimEager(graph)` returns one entry for each vertex
`1 .. n_vertices - 1`: `None` exactly for the vertices vertex 0 does not reach, and otherwise a
graph edge ending at that vertex. The edges form a forest connecting vertex 0 to exactly the
vertices the graph connects it to. -/
theorem mstPrimEager_spanning_tree (g : EdgeWeightedGraph) (hg : g.WF) (hn : 0 < g.nVertices) :
    ∃ es, mstPrimEager g = .ok es ∧ es.length = g.nVertices - 1 ∧
      (∀ v e, es[v]? = some (some e) → e ∈ g.edges ∧ (e.first = v + 1 ∨ e.second = v + 1)) ∧
      (∀ v, v < g.nVertices - 1 → (es[v]? = some none ↔ ¬ Connected g.edges 0 (v + 1))) ∧
      Acyclic es.reduceOption ∧ ∀ v, Connected es.reduceOption 0 v ↔ Connected g.edges 0 v := by
  obtain ⟨s, m, V, hrun, hI, hc⟩ := mstPrimEager_run hg hn
  obtain ⟨hmarked, hedge⟩ := hI.final hg hc
  have hT : treeOf s V ⊆ g.edges := fun e he => by
    obtain ⟨x, -, hx⟩ := List.mem_filterMap.mp he
    exact (hI.edge_end x e hx).1
  -- `_edge_to[1..n_vertices - 1]` lists the tree edges, in vertex order
  obtain ⟨k, hk⟩ : ∃ k, g.nVertices = k + 1 := ⟨g.nVertices - 1, by omega⟩
  rw [show g.nVertices - 1 = k by omega] at hrun ⊢
  have hperm : (treeOf s V).Perm ((List.range k).map fun v => s.edgeTo (v + 1)).reduceOption := by
    rw [← filterMap_range_succ hI.edgeTo_zero, ← hk]
    exact filterMap_perm_range hI.nodup hI.lt hedge
  have hconn : ∀ a b, Connected (treeOf s V) a b ↔
      Connected ((List.range k).map fun v => s.edgeTo (v + 1)).reduceOption a b :=
    fun a b => ⟨fun h => h.mono hperm.subset, fun h => h.mono hperm.symm.subset⟩
  refine ⟨_, hrun, by simp, ?_, ?_, hI.acyclic.perm hn (fun e he => hg.edges_lt (hT he)) hperm,
    fun v => ?_⟩
  · intro v e hv
    rw [List.getElem?_map] at hv
    obtain ⟨hvk, hv'⟩ : v < k ∧ s.edgeTo (v + 1) = some e := by
      by_cases hvk : v < k
      · rw [List.getElem?_range hvk] at hv; exact ⟨hvk, Option.some.inj hv⟩
      · rw [List.getElem?_eq_none (by simpa using hvk)] at hv; cases hv
    exact hI.edge_end _ e hv'
  · intro v hv
    rw [List.getElem?_map, List.getElem?_range hv, ← hmarked]
    refine ⟨fun h => fun hV => hI.tree_some _ hV (by omega) (Option.some.inj h), fun h => ?_⟩
    rw [Option.map_some', hedge _ h]
  · rw [← hconn, ← hmarked]
    exact ⟨fun h => (hmarked v).mpr (h.mono hT), fun h => hI.spans v h⟩

/-- Eager Prim on the spec's triangle. -/
theorem mstPrimEager_spanning_tree_triangle : ∃ g, EdgeWeightedGraph.build 3 triangle = .ok g ∧
    (g.WF ∧ 0 < g.nVertices) ∧
    ∃ es, mstPrimEager g = .ok es ∧ es.length = g.nVertices - 1 ∧
      (∀ v e, es[v]? = some (some e) → e ∈ g.edges ∧ (e.first = v + 1 ∨ e.second = v + 1)) ∧
      (∀ v, v < g.nVertices - 1 → (es[v]? = some none ↔ ¬ Connected g.edges 0 (v + 1))) ∧
      Acyclic es.reduceOption ∧ ∀ v, Connected es.reduceOption 0 v ↔ Connected g.edges 0 v := by
  obtain ⟨g, hg, h3, -, -⟩ := build_triangle
  exact ⟨g, hg, ⟨build_wf hg, by omega⟩, mstPrimEager_spanning_tree g (build_wf hg) (by omega)⟩

/-- **What eager Prim's greedy choice is.** On a graph built by `add_edge` with a vertex, the
vertices vertex 0 reaches are popped one at a time, vertex 0 first. Each later vertex `w`,
popped after the vertices `U`, gets as its entry of `MstPrimEager(graph)` a lightest graph edge
from `w` to `U`. That edge is at least as heavy as the lightest edge to `U` of every other
vertex outside `U`: the queue pops the vertex whose best connection is the heaviest. -/
theorem mstPrimEager_greedy (g : EdgeWeightedGraph) (hg : g.WF) (hn : 0 < g.nVertices) :
    ∃ es V, mstPrimEager g = .ok es ∧ V.Nodup ∧ V.head? = some 0 ∧
      (∀ x, x ∈ V ↔ Connected g.edges 0 x) ∧
      ∀ U w W, V = U ++ w :: W → U ≠ [] → ∃ e, es[w - 1]? = some (some e) ∧ Attaches g U w e := by
  obtain ⟨s, m, V, hrun, hI, hc⟩ := mstPrimEager_run hg hn
  obtain ⟨hmarked, -⟩ := hI.final hg hc
  have h0V : 0 ∈ V := (hmarked 0).mpr (.refl 0)
  refine ⟨_, V, hrun, hI.nodup, hI.head_zero h0V, hmarked, fun U w W hV hU => ?_⟩
  obtain ⟨e, he, hA⟩ := hI.popped U w W hV hU
  -- `w` has an `_edge_to`, so it is a vertex other than 0
  have hw0 : w ≠ 0 := fun h => by rw [h, hI.edgeTo_zero] at he; cases he
  have hwn : w < g.nVertices := hI.lt w (hV ▸ List.mem_append_right U (List.mem_cons_self w W))
  refine ⟨e, ?_, hA⟩
  rw [List.getElem?_map, List.getElem?_range (by omega), Option.map_some',
    Nat.sub_add_cancel (Nat.pos_of_ne_zero hw0), he]

/-- Eager Prim's greedy choice on the spec's triangle. -/
theorem mstPrimEager_greedy_triangle : ∃ g, EdgeWeightedGraph.build 3 triangle = .ok g ∧
    (g.WF ∧ 0 < g.nVertices) ∧
    ∃ es V, mstPrimEager g = .ok es ∧ V.Nodup ∧ V.head? = some 0 ∧
      (∀ x, x ∈ V ↔ Connected g.edges 0 x) ∧
      ∀ U w W, V = U ++ w :: W → U ≠ [] → ∃ e, es[w - 1]? = some (some e) ∧ Attaches g U w e := by
  obtain ⟨g, hg, h3, -, -⟩ := build_triangle
  exact ⟨g, hg, ⟨build_wf hg, by omega⟩, mstPrimEager_greedy g (build_wf hg) (by omega)⟩

end GraphAlgo
