import GraphAlgo.Algo.PathDijkstra
import GraphAlgo.Logic.PriorityQueue
import Mathlib.Algebra.BigOperators.Group.Finset
import Mathlib.Algebra.Order.BigOperators.Group.List
import Mathlib.Tactic.Linarith

/-!
# Lazy Dijkstra computes shortest paths

`PathDijkstra(graph, src)` on a graph without negative weights ends with `_dist_to[v]` the least
weight of a walk from `src` to `v` (`none` when there is none), and `path_to(v)` follows
`_edge_to` back to `src` along such a walk (`pathDijkstra_shortest`).

The proof keeps a ghost list `order` of the vertices `_relax` has visited, in visiting order.
`Pre` is what holds at every step: a visited vertex's distance is at most every walk's weight,
`_edge_to[v]` is a graph edge into `v` from a vertex visited before `v` that accounts for `v`'s
distance, and a queued pair never undercuts its head's distance. `Inv` adds, at the loop head,
that every unvisited vertex with a finite distance has a pair of that weight in the queue.
Popping the least pair for an unvisited vertex then finds its true distance
(`Inv.lower_of_min`): a shorter walk would leave the visited set along an edge whose head has a
lighter pair queued. The loop pops one pair per iteration; `pending` counts what can still be
pushed, and bounds the fuel.
-/

namespace GraphAlgo

open PriorityQueue EdgeWeightedDiGraph

/-- `x > y` on pairs, by weight, is a strict weak order. -/
theorem pairGt_strictWeakOrder : IsStrictWeakOrder Pair (fun x y => Pair.gt x y = true) where
  irrefl a := by simp [Pair.gt]
  trans a b c := by simpa [Pair.gt] using fun h₁ h₂ => lt_trans h₂ h₁
  incomp_trans a b c := by
    simp only [Pair.gt, decide_eq_true_eq, not_lt]
    intro ⟨h₁, h₂⟩ ⟨h₃, h₄⟩
    exact ⟨h₁.trans h₃, h₄.trans h₂⟩

instance pairGt_isStrictWeakOrder : IsStrictWeakOrder Pair (fun x y => Pair.gt x y = true) :=
  pairGt_strictWeakOrder

/-! ## Walks -/

/-- A walk from `s` to `v`: graph edges listed from the source end, each leaving the vertex the
one before it entered. -/
inductive Walk (g : EdgeWeightedDiGraph) (s : Nat) : Nat → List DiEdge → Prop
  | nil : Walk g s s []
  | snoc {v : Nat} {es : List DiEdge} {e : DiEdge} : Walk g s v es → e ∈ g.adjList v →
      Walk g s e.toVertex (es ++ [e])

/-- `v` is reachable from `s`. -/
def Reach (g : EdgeWeightedDiGraph) (s v : Nat) : Prop := ∃ es, Walk g s v es

/-- The total weight of a list of edges. -/
def pathWeight (es : List DiEdge) : ℚ := (es.map DiEdge.weight).sum

@[simp] theorem pathWeight_nil : pathWeight [] = 0 := rfl

@[simp] theorem pathWeight_append (es es' : List DiEdge) :
    pathWeight (es ++ es') = pathWeight es + pathWeight es' := by
  simp [pathWeight]

@[simp] theorem pathWeight_cons (e : DiEdge) (es : List DiEdge) :
    pathWeight (e :: es) = e.weight + pathWeight es := by
  simp [pathWeight]

/-- No edge of `g` weighs less than `0`. -/
def NonNeg (g : EdgeWeightedDiGraph) : Prop := ∀ v, ∀ e ∈ g.adjList v, 0 ≤ e.weight

section Walk

variable {g : EdgeWeightedDiGraph} {s v : Nat} {es : List DiEdge}

theorem Walk.edge_mem (h : Walk g s v es) : ∀ e ∈ es, ∃ u, e ∈ g.adjList u := by
  induction h with
  | nil => simp
  | snoc _ he ih =>
    intro e' he'
    rcases List.mem_append.mp he' with h' | h'
    · exact ih e' h'
    · exact ⟨_, List.mem_singleton.mp h' ▸ he⟩

theorem pathWeight_nonneg (hg : NonNeg g) (h : ∀ e ∈ es, ∃ u, e ∈ g.adjList u) :
    0 ≤ pathWeight es :=
  List.sum_nonneg fun x hx => by
    obtain ⟨e, he, rfl⟩ := List.mem_map.mp hx
    obtain ⟨u, hu⟩ := h e he
    exact hg u e hu

/-- A walk from inside a set of vertices to outside it leaves the set along some edge. -/
theorem Walk.exit {S : Nat → Prop} (h : Walk g s v es) (hs : S s) :
    ¬ S v → ∃ es₁ a e es₂, es = es₁ ++ e :: es₂ ∧ Walk g s a es₁ ∧ S a ∧ e ∈ g.adjList a ∧
      ¬ S e.toVertex := by
  induction h with
  | nil => exact fun hv => absurd hs hv
  | @snoc u es e hw he ih =>
    intro hv
    by_cases hu : S u
    · exact ⟨es, u, e, [], rfl, hw, hu, he, hv⟩
    · obtain ⟨es₁, a, e', es₂, rfl, h₁⟩ := ih hu
      exact ⟨es₁, a, e', es₂ ++ [e], by simp, h₁⟩

end Walk

namespace PathDijkstra

/-! ## Comparisons against `numpy.inf` -/

@[simp] theorem gtDist_none (x : ℚ) : gtDist none x = true := rfl

@[simp] theorem gtDist_some (d x : ℚ) : gtDist (some d) x = decide (x < d) := rfl

/-! ## The invariant -/

/-- The edge `e` out of `u` is relaxed: `dist[u] + weight` bounds `dist[e.to_vertex()]`. -/
def Relaxed (dist : Nat → Option ℚ) (u : Nat) (e : DiEdge) : Prop :=
  ∀ y, dist u = some y → ∃ z, dist e.toVertex = some z ∧ z ≤ y + e.weight

/-- `_edge_to[v] = e`: a graph edge into `v` from a vertex visited before `v`, whose distance
plus the edge's weight is `v`'s. -/
structure EdgeTo (g : EdgeWeightedDiGraph) (dist : Nat → Option ℚ) (order : List Nat) (v : Nat)
    (e : DiEdge) : Prop where
  mem : e ∈ g.adjList e.fromVertex
  to_eq : e.toVertex = v
  before : order.indexOf e.fromVertex < order.indexOf v
  dist_eq : ∃ y, dist e.fromVertex = some y ∧ dist v = some (y + e.weight)

/-- What holds at every step of the constructor, `order` listing the visited vertices in
visiting order and `todo` the edges of the last one still to relax. -/
structure Pre (g : EdgeWeightedDiGraph) (s : Nat) (d : PathDijkstra) (order : List Nat)
    (todo : List DiEdge) : Prop where
  nVertices : d.nVertices = g.nVertices
  wf : WF Pair.gt d.pq
  visited : ∀ v, d.state v = true ↔ v ∈ order
  nodup : order.Nodup
  order_lt : ∀ v ∈ order, v < g.nVertices
  dist_src : d.dist s = some 0
  dist_lt : ∀ v x, d.dist v = some x → v < g.nVertices
  dist_mem : ∀ v ∈ order, ∃ x, d.dist v = some x
  lower : ∀ v ∈ order, ∀ x, d.dist v = some x → ∀ es, Walk g s v es → x ≤ pathWeight es
  edgeTo : ∀ v e, d.edgeTo v = some e → EdgeTo g d.dist order v e
  reached : ∀ v x, d.dist v = some x → v = s ∨ ∃ e, d.edgeTo v = some e
  pairs : ∀ p ∈ contents d.pq, ∃ y, d.dist p.edge.toVertex = some y ∧ y ≤ p.weight
  relaxed : ∀ u ∈ order, ∀ e ∈ g.adjList u, e ∉ todo → Relaxed d.dist u e

/-- Every unvisited vertex with a finite distance has a pair of that weight queued. -/
def Queued (d : PathDijkstra) (order : List Nat) (v : Nat) : Prop :=
  v ∉ order → ∀ x, d.dist v = some x → ∃ p ∈ contents d.pq, p.edge.toVertex = v ∧ p.weight = x

/-- The invariant of the loop and of `_relax`: `Pre`, with the source visited and every
unvisited vertex queued. -/
structure Inv (g : EdgeWeightedDiGraph) (s : Nat) (d : PathDijkstra) (order : List Nat)
    (todo : List DiEdge) extends Pre g s d order todo : Prop where
  src_mem : s ∈ order
  queued : ∀ v, Queued d order v

variable {g : EdgeWeightedDiGraph} {s w : Nat} {d : PathDijkstra} {order : List Nat}
  {todo : List DiEdge}

theorem indexOf_le_append (order l : List Nat) (v : Nat) :
    order.indexOf v ≤ (order ++ l).indexOf v := by
  by_cases hv : v ∈ order
  · rw [List.indexOf_append_of_mem hv]
  · rw [List.indexOf_append_of_not_mem hv, List.indexOf_eq_length.mpr hv]; omega

theorem EdgeTo.from_mem {dist : Nat → Option ℚ} {v : Nat} {e : DiEdge}
    (h : EdgeTo g dist order v e) : e.fromVertex ∈ order :=
  List.indexOf_lt_length.mp (lt_of_lt_of_le h.before List.indexOf_le_length)

/-- Visiting more vertices keeps `_edge_to` in visiting order. -/
theorem EdgeTo.append {dist : Nat → Option ℚ} {v : Nat} {e : DiEdge}
    (h : EdgeTo g dist order v e) (l : List Nat) : EdgeTo g dist (order ++ l) v e :=
  { h with
    before := by
      rw [List.indexOf_append_of_mem h.from_mem]
      exact lt_of_lt_of_le h.before (indexOf_le_append order l v) }

/-- **`_edge_to` leads back to the source.** From a vertex with a finite distance, the loop of
`path_to` on more fuel than the vertex's place in `order` pushes the edges of a walk from `src`
of exactly that weight, last edge first. -/
theorem Pre.pathToLoop (h : Pre g s d order todo) :
    ∀ (fuel v : Nat) (x : ℚ) (path : Stack DiEdge), d.dist v = some x → order.indexOf v < fuel →
      ∃ es st, Walk g s v es ∧ pathWeight es = x ∧
        PathDijkstra.pathToLoop d.edgeTo fuel (d.edgeTo v) path = .ok st ∧
        st.items = path.items ++ es.reverse := by
  intro fuel
  induction fuel with
  | zero => intro v x path _ hf; omega
  | succ fuel ih =>
    intro v x path hx hf
    cases he : d.edgeTo v with
    | none =>
      -- only the source has a distance and no edge
      obtain rfl : v = s := (h.reached v x hx).resolve_right fun ⟨e, he'⟩ => by simp [he] at he'
      have hx0 : x = 0 := Option.some.inj (hx.symm.trans h.dist_src)
      exact ⟨[], path, .nil, by simp [hx0], by simp [PathDijkstra.pathToLoop], by simp⟩
    | some e =>
      obtain ⟨hmem, hto, hbefore, y, hy, hxv⟩ := h.edgeTo v e he
      obtain ⟨es, st, hwalk, hw, hloop, hst⟩ := ih e.fromVertex y (path.push e) hy (by omega)
      refine ⟨es ++ [e], st, hto ▸ hwalk.snoc hmem, ?_, by simp [PathDijkstra.pathToLoop, hloop],
        by simp [hst]⟩
      rw [pathWeight_append, hw, Option.some.inj (hx.symm.trans hxv)]
      simp

/-- A finite distance is the weight of a walk. -/
theorem Pre.walk_of_dist (h : Pre g s d order todo) {v : Nat} {x : ℚ} (hx : d.dist v = some x) :
    ∃ es, Walk g s v es ∧ pathWeight es = x :=
  let ⟨es, _, hw, hx', _⟩ := h.pathToLoop _ v x Stack.init hx (Nat.lt_succ_self _)
  ⟨es, hw, hx'⟩

/-! ## Popping -/

/-- Popping a pair keeps `Pre`: the queue only loses a pair. -/
theorem Pre.pop (h : Pre g s d order todo) {pq : PriorityQueue Pair} {p : Pair}
    (hwf : WF Pair.gt pq) (hcont : contents d.pq = p ::ₘ contents pq) :
    Pre g s { d with pq } order todo :=
  { h with
    wf := hwf
    pairs := fun q hq => h.pairs q (hcont ▸ Multiset.mem_cons_of_mem hq) }

/-- After popping the pair `p`, every unvisited vertex but the head of `p` is still queued. -/
theorem Inv.queued_pop (h : Inv g s d order todo) {pq : PriorityQueue Pair} {p : Pair}
    (hcont : contents d.pq = p ::ₘ contents pq) {v : Nat} (hv : v ≠ p.edge.toVertex) :
    Queued { d with pq } order v := fun hvo x hx => by
  obtain ⟨q, hq, hqv, hqx⟩ := h.queued v hvo x hx
  rw [hcont] at hq
  rcases Multiset.mem_cons.mp hq with rfl | hq
  · exact absurd hqv.symm hv
  · exact ⟨q, hq, hqv, hqx⟩

/-- Popping a pair whose head is visited keeps `Inv`. -/
theorem Inv.pop_visited (h : Inv g s d order []) {pq : PriorityQueue Pair} {p : Pair}
    (hwf : WF Pair.gt pq) (hcont : contents d.pq = p ::ₘ contents pq)
    (hp : p.edge.toVertex ∈ order) : Inv g s { d with pq } order [] :=
  { h.toPre.pop hwf hcont with
    src_mem := h.src_mem
    queued := fun v hv => h.queued_pop hcont (by rintro rfl; exact hv hp) hv }

/-- **The popped distance is the true one.** When the least queued pair `p` enters an unvisited
vertex, that vertex's distance is at most the weight of every walk to it: a lighter walk leaves
the visited vertices along a relaxed edge whose head is queued below `p`. -/
theorem Inv.lower_of_min (hg : NonNeg g) (h : Inv g s d order []) {p : Pair}
    (hmin : ∀ q ∈ contents d.pq, p.weight ≤ q.weight) (hw : p.edge.toVertex ∉ order) {y : ℚ}
    (hyp : y ≤ p.weight) :
    ∀ es, Walk g s p.edge.toVertex es → y ≤ pathWeight es := by
  intro es hes
  obtain ⟨es₁, a, e, es₂, rfl, hw₁, ha, he, hb⟩ := hes.exit (S := (· ∈ order)) h.src_mem hw
  obtain ⟨ya, hya⟩ := h.dist_mem a ha
  have h₁ := h.lower a ha ya hya es₁ hw₁
  obtain ⟨zb, hzb, hzb'⟩ := h.relaxed a ha e he (List.not_mem_nil _) ya hya
  obtain ⟨q, hq, -, rfl⟩ := h.queued _ hb zb hzb
  have h₂ : 0 ≤ pathWeight es₂ := pathWeight_nonneg hg fun x hx =>
    hes.edge_mem x (List.mem_append_right _ (List.mem_cons_of_mem _ hx))
  have := hmin q hq
  simp only [pathWeight_append, pathWeight_cons]
  linarith

/-! ## `_relax` -/

/-- Marking `w` visited, where `w` is unvisited, has a finite distance below every walk's weight,
and every other unvisited vertex is queued: `Inv` with the edges of `w` still to relax. -/
theorem Pre.visit (h : Pre g s d order []) (hw : w ∉ order) (hwn : w < g.nVertices)
    (hs : s ∈ order ∨ w = s) (hq : ∀ v, v ≠ w → Queued d order v) {x : ℚ}
    (hx : d.dist w = some x) (hlow : ∀ es, Walk g s w es → x ≤ pathWeight es) :
    Inv g s { d with state := Function.update d.state w true } (order ++ [w])
      (g.adjList w).reverse where
  nVertices := h.nVertices
  wf := h.wf
  visited v := by
    by_cases hv : v = w
    · subst hv; simp
    · simp [Function.update_noteq hv, h.visited, hv]
  nodup := h.nodup.append (List.nodup_singleton w) (List.disjoint_singleton.mpr hw)
  order_lt v hv := by
    rcases List.mem_append.mp hv with hv | hv
    · exact h.order_lt v hv
    · rw [List.mem_singleton.mp hv]; exact hwn
  dist_src := h.dist_src
  dist_lt := h.dist_lt
  dist_mem v hv := by
    rcases List.mem_append.mp hv with hv | hv
    · exact h.dist_mem v hv
    · rw [List.mem_singleton.mp hv]; exact ⟨x, hx⟩
  lower v hv := by
    rcases List.mem_append.mp hv with hv | hv
    · exact h.lower v hv
    · rw [List.mem_singleton.mp hv, hx]; rintro _ ⟨⟩; exact hlow
  edgeTo v e he := (h.edgeTo v e he).append [w]
  reached := h.reached
  pairs := h.pairs
  relaxed u hu e he hnot := by
    rcases List.mem_append.mp hu with hu | hu
    · exact h.relaxed u hu e he (List.not_mem_nil e)
    · rw [List.mem_singleton.mp hu] at he
      exact absurd (List.mem_reverse.mpr he) hnot
  src_mem := by
    rcases hs with hs | rfl
    · exact List.mem_append_left _ hs
    · exact List.mem_append_right _ (List.mem_singleton_self _)
  queued v hv y hy := by
    have hv' : v ∉ order ∧ v ≠ w := by simpa using hv
    exact hq v hv'.2 hv'.1 y hy

/-- An edge of the visited `w` whose `dist[w] + weight` does not beat its head's distance is
relaxed already. -/
theorem Inv.skip (h : Inv g s d order (e :: todo)) (he : e ∈ g.adjList w)
    (hr : Relaxed d.dist w e) : Inv g s d order todo :=
  { h with
    relaxed := fun u hu e' he' hnot => by
      by_cases hee : e' = e
      · subst hee
        rw [← g.adjList_from u e' he', g.adjList_from w e' he]
        exact hr
      · exact h.relaxed u hu e' he' (by simp [hee, hnot]) }

/-- An edge of the visited `w` that beats its head's distance `x + weight`: the head is
unvisited, and recording the distance, the edge and the pair keeps `Inv`. -/
theorem Inv.update (h : Inv g s d order (e :: todo)) (hw : w ∈ order) (he : e ∈ g.adjList w)
    {x : ℚ} (hx : d.dist w = some x) (hlt : ∀ z, d.dist e.toVertex = some z → x + e.weight < z)
    {pq : PriorityQueue Pair} (hwf : WF Pair.gt pq)
    (hcont : contents pq = ⟨e, x + e.weight⟩ ::ₘ contents d.pq) :
    e.toVertex ∉ order ∧
      Inv g s { d with dist := Function.update d.dist e.toVertex (some (x + e.weight)),
                       edgeTo := Function.update d.edgeTo e.toVertex (some e), pq } order todo := by
  have hfrom : e.fromVertex = w := g.adjList_from w e he
  -- the head is unvisited: a visited head's distance is below the walk through `w`
  have hu : e.toVertex ∉ order := fun hu => by
    obtain ⟨z, hz⟩ := h.dist_mem _ hu
    obtain ⟨es, hes, hxes⟩ := h.walk_of_dist hx
    have hle := h.lower _ hu z hz _ (hes.snoc he)
    rw [pathWeight_append, hxes, pathWeight_cons, pathWeight_nil, add_zero] at hle
    linarith [hlt z hz]
  have hne : ∀ v ∈ order, v ≠ e.toVertex := fun v hv hvu => hu (hvu ▸ hv)
  -- distances only fall
  have hdec : ∀ v z, d.dist v = some z →
      ∃ z', Function.update d.dist e.toVertex (some (x + e.weight)) v = some z' ∧ z' ≤ z := by
    intro v z hz
    by_cases hv : v = e.toVertex
    · subst hv; exact ⟨_, by simp, (hlt z hz).le⟩
    · exact ⟨z, by simp [hv, hz], le_rfl⟩
  refine ⟨hu, ?_⟩
  exact
  { nVertices := h.nVertices
    wf := hwf
    visited := h.visited
    nodup := h.nodup
    order_lt := h.order_lt
    dist_src := by simp [Function.update_noteq (hne s h.src_mem), h.dist_src]
    dist_lt := fun v z hz => by
      by_cases hv : v = e.toVertex
      · rw [hv]; exact g.adjList_to w e he
      · exact h.dist_lt v z (by simpa [hv] using hz)
    dist_mem := fun v hv => by
      simp only [Function.update_noteq (hne v hv)]; exact h.dist_mem v hv
    lower := fun v hv => by simp only [Function.update_noteq (hne v hv)]; exact h.lower v hv
    edgeTo := fun v e' he' => by
      by_cases hv : v = e.toVertex
      · subst hv
        simp only [Function.update_same, Option.some.injEq] at he'
        subst he'
        refine ⟨hfrom ▸ he, rfl, ?_, ⟨x, ?_, by simp⟩⟩
        · rw [hfrom, List.indexOf_eq_length.mpr hu]; exact List.indexOf_lt_length.mpr hw
        · rw [hfrom]; simp [Function.update_noteq (hne w hw), hx]
      · replace he' : d.edgeTo v = some e' := by simpa [hv] using he'
        obtain ⟨hmem, hto, hbefore, y, hy, hyv⟩ := h.edgeTo v e' he'
        have hf := (h.edgeTo v e' he').from_mem
        exact ⟨hmem, hto, hbefore, y, by simpa [Function.update_noteq (hne _ hf)] using hy,
          by simpa [hv] using hyv⟩
    reached := fun v z hz => by
      by_cases hv : v = e.toVertex
      · exact .inr ⟨e, by rw [hv]; exact Function.update_same _ _ _⟩
      · simp only [Function.update_noteq hv] at hz ⊢
        exact h.reached v z hz
    pairs := fun p hp => by
      rw [hcont] at hp
      rcases Multiset.mem_cons.mp hp with rfl | hp
      · exact ⟨_, by simp, le_rfl⟩
      · obtain ⟨y, hy, hyp⟩ := h.pairs p hp
        obtain ⟨z', hz', hzy⟩ := hdec _ y hy
        exact ⟨z', hz', hzy.trans hyp⟩
    relaxed := fun a ha e' he' hnot y hy => by
      replace hy : d.dist a = some y := by simpa [Function.update_noteq (hne a ha)] using hy
      by_cases hee : e' = e
      · subst hee
        obtain rfl : a = w := (g.adjList_from a e' he').symm.trans hfrom
        obtain rfl : y = x := Option.some.inj (hy.symm.trans hx)
        exact ⟨_, by simp, le_rfl⟩
      · obtain ⟨z, hz, hzy⟩ := h.relaxed a ha e' he' (by simp [hee, hnot]) y hy
        obtain ⟨z', hz', hzz⟩ := hdec _ z hz
        exact ⟨z', hz', hzz.trans hzy⟩
    src_mem := h.src_mem
    queued := fun v hv z hz => by
      by_cases hvu : v = e.toVertex
      · subst hvu
        simp only [Function.update_same, Option.some.injEq] at hz
        exact ⟨_, by rw [hcont]; exact Multiset.mem_cons_self _ _, rfl, hz⟩
      · obtain ⟨p, hp, hpv, hpz⟩ := h.queued v hv z (by simpa [hvu] using hz)
        exact ⟨p, by rw [hcont]; exact Multiset.mem_cons_of_mem hp, hpv, hpz⟩ }

/-- One edge of `_relax(graph, w)` keeps `Inv` and pushes at most one pair. -/
theorem relaxEdge_spec (h : Inv g s d order (e :: todo)) (hw : w ∈ order) (he : e ∈ g.adjList w) :
    ∃ d', relaxEdge w d e = .ok d' ∧ Inv g s d' order todo ∧ d'.pq.count ≤ d.pq.count + 1 := by
  obtain ⟨x, hx⟩ := h.dist_mem w hw
  by_cases hgt : gtDist (d.dist e.toVertex) (x + e.weight)
  · -- the edge beats the head's distance
    obtain ⟨pq, hpush, hwf, hc, hcont⟩ := push_spec Pair.gt h.wf ⟨e, x + e.weight⟩
    have hlt : ∀ z, d.dist e.toVertex = some z → x + e.weight < z := fun z hz => by
      simpa [hz] using hgt
    refine ⟨_, ?_, (h.update hw he hx hlt hwf hcont).2, by simp [hc]⟩
    simp [relaxEdge, hx, hgt, hpush, bind, Except.bind]
  · -- the edge is relaxed already
    refine ⟨d, by simp [relaxEdge, hx, hgt], h.skip he fun y hy => ?_, by omega⟩
    obtain rfl := Option.some.inj (hy.symm.trans hx)
    cases hz : d.dist e.toVertex with
    | none => simp [hz] at hgt
    | some z => exact ⟨z, rfl, by simpa [hz] using hgt⟩

/-- The loop of `_relax(graph, w)` over the edges still to relax keeps `Inv`, relaxes them all,
and pushes at most one pair per edge. -/
theorem relaxAll_spec (hw : w ∈ order) : ∀ (todo : List DiEdge) (d : PathDijkstra),
    Inv g s d order todo → (∀ e ∈ todo, e ∈ g.adjList w) →
    ∃ d', todo.foldlM (relaxEdge w) d = .ok d' ∧ Inv g s d' order [] ∧
      d'.pq.count ≤ d.pq.count + todo.length := by
  intro todo
  induction todo with
  | nil => intro d h _; exact ⟨d, rfl, h, by simp⟩
  | cons e todo ih =>
    intro d h hmem
    obtain ⟨d₁, h₁, hi₁, hc₁⟩ := relaxEdge_spec h hw (hmem e (List.mem_cons_self e todo))
    obtain ⟨d', h', hi', hc'⟩ := ih d₁ hi₁ fun e' he' => hmem e' (List.mem_cons_of_mem e he')
    refine ⟨d', by simp [List.foldlM_cons, h₁, h', bind, Except.bind], hi', ?_⟩
    simp only [List.length_cons]
    omega

/-- **`_relax(graph, w)`.** On an unvisited vertex `w` whose distance no walk undercuts, with
every other unvisited vertex queued, `_relax` succeeds, visits `w`, restores `Inv`, and pushes at
most one pair per edge of `w`. -/
theorem relax_spec (h : Pre g s d order []) (hw : w ∉ order) (hwn : w < g.nVertices)
    (hs : s ∈ order ∨ w = s) (hq : ∀ v, v ≠ w → Queued d order v) {x : ℚ}
    (hx : d.dist w = some x) (hlow : ∀ es, Walk g s w es → x ≤ pathWeight es) :
    ∃ d', relax g d w = .ok d' ∧ Inv g s d' (order ++ [w]) [] ∧
      d'.pq.count ≤ d.pq.count + (g.adjList w).length := by
  obtain ⟨d', h', hi', hc'⟩ := relaxAll_spec (List.mem_append_right _ (List.mem_singleton_self w))
    _ _ (h.visit hw hwn hs hq hx hlow) fun e he => List.mem_reverse.mp he
  refine ⟨d', ?_, hi', by simpa using hc'⟩
  rw [relax, if_pos (h.nVertices ▸ hwn), adj_eq hwn]
  exact h'

/-! ## The loop -/

/-- The adjacency entries of the unvisited vertices: at most what the queue can still receive. -/
def pending (g : EdgeWeightedDiGraph) (order : List Nat) : Nat :=
  ∑ v ∈ (Finset.range g.nVertices).filter (· ∉ order), (g.adjList v).length

theorem pending_append (hw : w ∉ order) (hwn : w < g.nVertices) :
    pending g (order ++ [w]) + (g.adjList w).length = pending g order := by
  have : (Finset.range g.nVertices).filter (· ∉ order ++ [w]) =
      ((Finset.range g.nVertices).filter (· ∉ order)).erase w := by
    ext v
    by_cases hv : v = w <;> simp [hv]
  rw [pending, this, Finset.sum_erase_add _ _ (by simp [hw, hwn]), pending]

theorem pending_nil : pending g [] = g.edges.length := by
  simp only [pending, List.not_mem_nil, not_false_eq_true, Finset.filter_True, edges]
  induction g.nVertices with
  | zero => simp
  | succ n ih => simp [List.range_succ, Finset.sum_range_succ, ih]

/-- **The loop runs to an empty queue.** From `Inv` at the loop head, on fuel at least the
queued pairs plus the pending entries, the `while` loop of the constructor succeeds and ends with
`Inv` and an empty queue. -/
theorem loop_spec (hg : NonNeg g) : ∀ (fuel : Nat) (d : PathDijkstra) (order : List Nat),
    Inv g s d order [] → d.pq.count + pending g order ≤ fuel →
    ∃ d' order', loop g fuel d = .ok d' ∧ Inv g s d' order' [] ∧ d'.pq.count = 0 := by
  intro fuel
  induction fuel with
  | zero => intro d order h hf; exact ⟨d, order, rfl, h, by omega⟩
  | succ fuel ih =>
    intro d order h hf
    by_cases h0 : d.pq.count = 0
    · exact ⟨d, order, by simp [loop, PriorityQueue.isEmpty, h0], h, h0⟩
    obtain ⟨p, pq, htop, hpop, hwf, hc, hmax, hcont⟩ := pop_spec Pair.gt h.wf (Nat.pos_of_ne_zero h0)
    have hstep : loop g (fuel + 1) d =
        if !d.state p.edge.toVertex then relax g { d with pq } p.edge.toVertex >>= loop g fuel
        else loop g fuel { d with pq } := by
      simp [loop, PriorityQueue.isEmpty, h0, htop, hpop, bind, Except.bind]
    have hp : p ∈ contents d.pq := by rw [hcont]; exact Multiset.mem_cons_self p _
    by_cases hvis : p.edge.toVertex ∈ order
    · -- a stale pair: its head is visited
      obtain ⟨d', order', hl, h', hc'⟩ :=
        ih { d with pq } order (h.pop_visited hwf hcont hvis) (by simp only at hc ⊢; omega)
      refine ⟨d', order', ?_, h', hc'⟩
      rw [hstep, if_neg (by simpa [h.visited] using hvis)]
      exact hl
    · -- the least pair enters an unvisited vertex: relax it
      obtain ⟨y, hy, hyp⟩ := h.pairs p hp
      have hmin : ∀ q ∈ contents d.pq, p.weight ≤ q.weight := fun q hq => by
        simpa [Pair.gt] using hmax q hq
      have hwn := h.dist_lt _ y hy
      obtain ⟨d', hr, h', hc'⟩ := relax_spec (h.toPre.pop hwf hcont) hvis hwn (.inl h.src_mem)
        (fun v hv => h.queued_pop hcont hv) hy (h.lower_of_min hg hmin hvis hyp)
      have hpend := pending_append hvis hwn
      obtain ⟨d'', order'', hl, h'', hc''⟩ := ih d' _ h' (by simp only at hc' hc; omega)
      refine ⟨d'', order'', ?_, h'', hc''⟩
      have hst : d.state p.edge.toVertex = false :=
        Bool.eq_false_iff.mpr fun ht => hvis ((h.visited _).mp ht)
      rw [hstep, if_pos (by simp [hst]), hr]
      exact hl

/-! ## The constructor -/

/-- `PathDijkstra(graph, src)` on a graph without negative weights: the check passes,
`_relax(graph, src)` visits `src`, and the loop ends with `Inv` and an empty queue. -/
theorem init_spec (hs : s < g.nVertices) (hg : ∀ e ∈ g.edges, 0 ≤ e.weight) :
    ∃ d order, init g s = .ok d ∧ Inv g s d order [] ∧ d.pq.count = 0 := by
  have hnn : NonNeg g := fun v e he => hg e (mem_edges.mpr ⟨v, he⟩)
  have hn : 0 < g.nVertices := by omega
  have hcheck : (g.edges.all fun edge => decide (0 ≤ edge.weight)) = true :=
    List.all_eq_true.mpr fun e he => decide_eq_true (hg e he)
  let d₀ : PathDijkstra := ⟨g.nVertices, fun _ => false,
    Function.update (fun _ => none) s (some 0), fun _ => none,
    ⟨g.nVertices, 0, fun _ => none, g.nVertices + 1⟩⟩
  have hd₀ : ∀ v x, d₀.dist v = some x → v = s := fun v x hx => by
    by_contra hv
    simp [d₀, hv] at hx
  have h₀ : Pre g s d₀ [] [] :=
    { nVertices := rfl
      wf := init_wf Pair.gt _ hn
      visited := by simp [d₀]
      nodup := List.nodup_nil
      order_lt := fun _ h => absurd h (List.not_mem_nil _)
      dist_src := by simp [d₀]
      dist_lt := fun v x hx => hd₀ v x hx ▸ hs
      dist_mem := fun _ h => absurd h (List.not_mem_nil _)
      lower := fun _ h => absurd h (List.not_mem_nil _)
      edgeTo := by simp [d₀]
      reached := fun v x hx => .inl (hd₀ v x hx)
      pairs := by simp [d₀, contents, Heap.contents]
      relaxed := fun _ h => absurd h (List.not_mem_nil _) }
  obtain ⟨d₁, hr, h₁, hc₁⟩ := relax_spec h₀ (List.not_mem_nil s) hs (.inr rfl)
    (fun v hv _ y hy => absurd (hd₀ v y hy) hv) (by simp [d₀])
    (fun es hes => pathWeight_nonneg hnn hes.edge_mem)
  have hpend := pending_append (g := g) (List.not_mem_nil s) hs
  rw [pending_nil] at hpend
  obtain ⟨d, order, hl, h, hc⟩ := loop_spec hnn g.edges.length d₁ _ h₁ (by simp only [d₀] at hc₁; omega)
  refine ⟨d, order, ?_, h, hc⟩
  simp [init, hcheck, init_ok hn, hs, hr, hl, bind, Except.bind]

/-- **Lazy Dijkstra computes shortest paths.** On a graph without negative weights and a vertex
`src` of it, `PathDijkstra(graph, src)` succeeds, and for every vertex `v`: `dist_to(v)` is
infinite exactly when no walk reaches `v`, and `has_path_to(v)` says whether one does; a finite
`dist_to(v)` is at most the weight of every walk to `v`, and `path_to(v)` then ends within
`n_vertices` steps of its loop and iterates, from the source end, a walk to `v` of exactly that
weight; for an unreached `v`, `path_to(v)` returns `None`. -/
theorem pathDijkstra_shortest (g : EdgeWeightedDiGraph) {s : Nat} (hs : s < g.nVertices)
    (hg : ∀ e ∈ g.edges, 0 ≤ e.weight) :
    ∃ d, init g s = .ok d ∧ ∀ v < g.nVertices,
      (d.distTo v = .ok none ↔ ¬ Reach g s v) ∧
      (d.hasPathTo v = .ok true ↔ Reach g s v) ∧
      (∀ x, d.distTo v = .ok (some x) →
        (∀ es, Walk g s v es → x ≤ pathWeight es) ∧
        ∃ st, d.pathTo v g.nVertices = .ok (some st) ∧ Walk g s v st.iter ∧
          pathWeight st.iter = x) ∧
      (¬ Reach g s v → d.pathTo v g.nVertices = .ok none) := by
  obtain ⟨d, order, hinit, h, hc⟩ := init_spec hs hg
  have hempty : contents d.pq = 0 := (contents_eq_zero Pair.gt h.wf).mpr hc
  -- with the queue empty, every finite distance is visited, and so is every reachable vertex
  have hmem : ∀ v x, d.dist v = some x → v ∈ order := fun v x hx => by
    by_contra hv
    obtain ⟨p, hp, -⟩ := h.queued v hv x hx
    simp [hempty] at hp
  have hreach : ∀ v es, Walk g s v es → v ∈ order := by
    intro v es hw
    induction hw with
    | nil => exact h.src_mem
    | snoc _ he ih =>
      obtain ⟨y, hy⟩ := h.dist_mem _ ih
      obtain ⟨z, hz, -⟩ := h.relaxed _ ih _ he (List.not_mem_nil _) y hy
      exact hmem _ z hz
  have hreach_iff : ∀ v, Reach g s v ↔ ∃ x, d.dist v = some x := fun v =>
    ⟨fun ⟨es, hw⟩ => h.dist_mem v (hreach v es hw),
      fun ⟨x, hx⟩ => let ⟨es, hw, _⟩ := h.walk_of_dist hx; ⟨es, hw⟩⟩
  have hlen : order.length ≤ g.nVertices := by
    rw [← List.toFinset_card_of_nodup h.nodup, ← Finset.card_range g.nVertices]
    exact Finset.card_le_card fun v hv => by simpa using h.order_lt v (List.mem_toFinset.mp hv)
  refine ⟨d, hinit, fun v hv => ?_⟩
  have hvd : d.isValid v = true := by simp [isValid, h.nVertices, hv]
  have hdist : d.distTo v = .ok (d.dist v) := by simp [distTo, hvd]
  have hnone : d.dist v = none → d.pathTo v g.nVertices = .ok none := fun hx => by
    simp [pathTo, hasPathTo, hvd, hx, bind, Except.bind]
  refine ⟨?_, ?_, fun x hx => ?_, fun hr => hnone ?_⟩
  · -- `dist_to(v)` is infinite exactly when `v` is unreached
    rw [hdist, Except.ok.injEq, hreach_iff, not_exists, Option.eq_none_iff_forall_not_mem]
    rfl
  · -- `has_path_to(v)`
    rw [hreach_iff, ← Option.isSome_iff_exists]
    simp [hasPathTo, hvd]
  · -- a finite `dist_to(v)` is the least weight, and `path_to(v)` walks it
    rw [hdist, Except.ok.injEq] at hx
    obtain ⟨es, st, hw, hwt, hloop, hst⟩ := h.pathToLoop g.nVertices v x Stack.init hx
      (lt_of_lt_of_le (List.indexOf_lt_length.mpr (hmem v x hx)) hlen)
    have hiter : st.iter = es := by simp [Stack.iter_eq, hst]
    refine ⟨h.lower v (hmem v x hx) x hx, st, ?_, hiter ▸ hw, hiter ▸ hwt⟩
    simp [pathTo, hasPathTo, hvd, hx, hloop, Except.map, bind, Except.bind]
  · exact Option.eq_none_iff_forall_not_mem.mpr fun x hx => hr ((hreach_iff v).mpr ⟨x, hx⟩)

/-- The digraph `0 -> 1` of weight `1`. -/
def oneEdge : EdgeWeightedDiGraph :=
  ⟨2, 1, fun v => if v = 0 then [⟨0, 1, 1⟩] else [],
    fun v e he => by dsimp only at he; split_ifs at he <;> simp_all [DiEdge.fromVertex],
    fun v e he => by dsimp only at he; split_ifs at he <;> simp_all [DiEdge.toVertex],
    fun v hv => by simp; omega⟩

theorem pathDijkstra_shortest_oneEdge : 0 < oneEdge.nVertices ∧
    (∀ e ∈ oneEdge.edges, 0 ≤ e.weight) ∧
    ∃ d, init oneEdge 0 = .ok d ∧ ∀ v < oneEdge.nVertices,
      (d.distTo v = .ok none ↔ ¬ Reach oneEdge 0 v) ∧
      (d.hasPathTo v = .ok true ↔ Reach oneEdge 0 v) ∧
      (∀ x, d.distTo v = .ok (some x) →
        (∀ es, Walk oneEdge 0 v es → x ≤ pathWeight es) ∧
        ∃ st, d.pathTo v oneEdge.nVertices = .ok (some st) ∧ Walk oneEdge 0 v st.iter ∧
          pathWeight st.iter = x) ∧
      (¬ Reach oneEdge 0 v → d.pathTo v oneEdge.nVertices = .ok none) :=
  ⟨by decide, by decide, pathDijkstra_shortest oneEdge (by decide) (by decide)⟩

end PathDijkstra

end GraphAlgo
