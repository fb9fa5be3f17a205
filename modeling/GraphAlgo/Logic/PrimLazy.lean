import GraphAlgo.Logic.SpanningForest

/-!
# What `MstPrimLazy` computes: a maximum spanning tree of the component of vertex 0

The loop of `MstPrimLazy.__init__` grows a tree from vertex 0. `LazyInv` is what holds before
every iteration:

* `state` marks the tree's vertices; `_mst` is a forest of graph edges between marked
  vertices that connects vertex 0 to each of them;
* the queue holds graph edges with a marked end, and among them every edge from a marked
  vertex to an unmarked one (the crossing edges);
* at every threshold `t`, two marked vertices that the graph's edges of weight `≥ t` connect
  are connected by the tree's edges of weight `≥ t`.

The last holds because a kept edge is a heaviest crossing edge: the queue pops its heaviest
entry, and every crossing edge is queued. A popped edge with both ends marked is dropped; one
with an unmarked end `w` is kept, and `_visit(w)` queues the edges from `w` to unmarked
vertices (`LazyInv.drop`, `LazyInv.keep`). Each iteration pops an entry, and every entry
`_visit` pushes comes from the adjacency list of a vertex visited once, so the loop ends on
`len(graph.edges())` fuel with an empty queue (`primLazyLoop_spec`).

With the queue empty no edge crosses: the tree spans the component of vertex 0, and its paths
are heaviest-bottleneck paths of the graph (`mstPrimLazy_tree`). By the weight bound of
`Logic/SpanningForest.lean` no spanning tree of that component weighs more
(`mstPrimLazy_max_spanning_tree`).
-/

namespace GraphAlgo

open PriorityQueue EdgeWeightedGraph

namespace Edge

variable {e : Edge}

theorem other_first : e.other e.first = e.second := by simp [other, first, second]

theorem other_second : e.other e.second = e.first := by
  unfold other first second; split_ifs with h <;> simp [h]

theorem other_eq (x : Nat) : e.other x = e.first ∨ e.other x = e.second := by
  unfold other first second; split_ifs <;> simp

end Edge

/-! ## Marks and the fuel measure -/

section Marks

variable {state : Nat → Bool} {w x : Nat}

theorem update_true_of (h : state x = true) : Function.update state w true x = true := by
  by_cases hx : x = w
  · rw [hx, Function.update_same]
  · rwa [Function.update_noteq hx]

theorem update_true_iff : Function.update state w true x = true ↔ x = w ∨ state x = true := by
  by_cases hx : x = w
  · subst hx; simp
  · simp [Function.update_noteq hx, hx]

/-- Marks that no edge leaves, out of a marked vertex, are the same at both ends of every graph
edge. -/
theorem EdgeWeightedGraph.WF.marks_closed {g : EdgeWeightedGraph} (hg : g.WF)
    (hfr : ∀ u, state u = true → ∀ e ∈ g.adj u, state (e.other u) = true) :
    ∀ e ∈ g.edges, state e.first = state e.second := fun e he => by
  obtain ⟨h₁, h₂⟩ := hg.mem_adj_ends he
  cases hf : state e.first <;> cases hs : state e.second
  · rfl
  · simpa [Edge.other_second, hf] using hfr _ hs e h₂
  · simpa [Edge.other_first, hs] using hfr _ hf e h₁
  · rfl

end Marks

/-- The adjacency entries of the unvisited vertices: the pushes `_visit` can still make. -/
def unvisitedDegree (g : EdgeWeightedGraph) (state : Nat → Bool) : Nat :=
  ∑ v ∈ Finset.range g.nVertices, if state v then 0 else (g.adj v).length

theorem unvisitedDegree_update {g : EdgeWeightedGraph} {state : Nat → Bool} {w : Nat}
    (hw : w < g.nVertices) (hs : state w = false) :
    unvisitedDegree g (Function.update state w true) + (g.adj w).length =
      unvisitedDegree g state := by
  unfold unvisitedDegree
  rw [← Finset.add_sum_erase _ _ (Finset.mem_range.mpr hw),
    ← Finset.add_sum_erase _ _ (Finset.mem_range.mpr hw), Function.update_same, hs,
    Finset.sum_congr rfl fun v hv => by rw [Function.update_noteq (Finset.ne_of_mem_erase hv)]]
  simp only [if_true, Bool.false_eq_true, if_false]
  omega

theorem length_edges (g : EdgeWeightedGraph) : g.edges.length = unvisitedDegree g fun _ => false := by
  have h : ∀ m, ((List.range m).flatMap g.adj).length = ∑ v ∈ Finset.range m, (g.adj v).length := by
    intro m
    induction m with
    | zero => rfl
    | succ m ih => rw [List.range_succ, List.flatMap_append, List.length_append, ih,
        Finset.sum_range_succ, List.flatMap_singleton]
  simp only [unvisitedDegree, Bool.false_eq_true, ite_false]
  exact h g.nVertices

/-! ## `_visit` -/

/-- The loop of `_visit(graph, v)` pushes the edges of a list whose other end is unmarked. -/
theorem foldlM_pushUnvisited (state : Nat → Bool) (v : Nat) : ∀ (l : List Edge)
    (pq : PriorityQueue Edge), WF Edge.lt pq →
    ∃ pq', l.foldlM (fun pq edge => if state (edge.other v) then .ok pq else pq.push Edge.lt edge)
        pq = .ok pq' ∧ WF Edge.lt pq' ∧ pq'.count ≤ pq.count + l.length ∧
      ∀ e, e ∈ contents pq' ↔ e ∈ contents pq ∨ (e ∈ l ∧ state (e.other v) = false)
  | [], pq, hpq => ⟨pq, rfl, hpq, le_refl _, fun e => by simp⟩
  | e :: l, pq, hpq => by
    by_cases hs : state (e.other v) = true
    · obtain ⟨pq', h, hw, hc, hm⟩ := foldlM_pushUnvisited state v l pq hpq
      refine ⟨pq', by simpa [List.foldlM_cons, hs] using h, hw, by simp only [List.length_cons]; omega,
        fun x => ?_⟩
      rw [hm, List.mem_cons]
      by_cases hx : x = e
      · subst hx; simp [hs]
      · simp [hx]
    · obtain ⟨pq₁, h₁, hw₁, hc₁, hm₁⟩ := push_spec Edge.lt hpq e
      obtain ⟨pq', h, hw, hc, hm⟩ := foldlM_pushUnvisited state v l pq₁ hw₁
      refine ⟨pq', by simpa [List.foldlM_cons, hs, h₁] using h, hw,
        by simp only [List.length_cons]; omega, fun x => ?_⟩
      rw [hm, hm₁, Multiset.mem_cons, List.mem_cons]
      by_cases hx : x = e
      · subst hx; simp [hs]
      · simp [hx]

/-- `_visit(graph, v)` on a vertex marks it and pushes its edges to unmarked vertices. -/
theorem primLazyVisit_spec {g : EdgeWeightedGraph} {pq : PriorityQueue Edge}
    (state : Nat → Bool) {v : Nat} (hpq : WF Edge.lt pq) (hv : v < g.nVertices) :
    ∃ pq', primLazyVisit g pq state v = .ok (pq', Function.update state v true) ∧
      WF Edge.lt pq' ∧ pq'.count ≤ pq.count + (g.adj v).length ∧
      ∀ e, e ∈ contents pq' ↔ e ∈ contents pq ∨
        (e ∈ g.adj v ∧ Function.update state v true (e.other v) = false) := by
  obtain ⟨pq', h, hw, hc, hm⟩ :=
    foldlM_pushUnvisited (Function.update state v true) v (g.adj v) pq hpq
  exact ⟨pq', by simp [primLazyVisit, hv, h, bind, Except.bind], hw, hc, hm⟩

/-! ## The loop invariant -/

/-- What holds before every iteration of the loop of `MstPrimLazy.__init__`: the marked
vertices are spanned from vertex 0 by `mst`, a forest of graph edges between marked vertices;
the queue holds graph edges with a marked end, among them every edge leaving a marked vertex
for an unmarked one; and the heavy edges of `mst` connect any two marked vertices that the
heavy graph edges connect. -/
structure LazyInv (g : EdgeWeightedGraph) (pq : PriorityQueue Edge) (state : Nat → Bool)
    (mst : List Edge) : Prop where
  wf : WF Edge.lt pq
  root : state 0 = true
  tree : ∀ e ∈ mst, e ∈ g.edges ∧ state e.first = true ∧ state e.second = true
  spans : ∀ v, state v = true → Connected mst 0 v
  acyclic : Acyclic mst
  queued : ∀ e ∈ contents pq, e ∈ g.edges ∧ (state e.first = true ∨ state e.second = true)
  frontier : ∀ v, state v = true → ∀ e ∈ g.adj v, state (e.other v) = true ∨ e ∈ contents pq
  heavy : ∀ t a b, state a = true → state b = true → Connected (atLeast t g.edges) a b →
    Connected (atLeast t mst) a b

namespace LazyInv

variable {g : EdgeWeightedGraph} {pq pq' pq'' : PriorityQueue Edge} {state : Nat → Bool}
  {mst : List Edge} {t : Edge}

/-- The marked vertices are those `mst` connects to vertex 0. -/
theorem marked_iff (hI : LazyInv g pq state mst) {v : Nat} :
    state v = true ↔ Connected mst 0 v :=
  ⟨hI.spans v, fun h => (Connected.eq_of_ends (f := state)
    (fun e he => (hI.tree e he).2.1.trans (hI.tree e he).2.2.symm) h).symm.trans hI.root⟩

/-- No graph edge with one marked end outweighs a queued edge that no queued edge outweighs:
every such edge is queued. -/
theorem crossing_le (hg : g.WF) (hI : LazyInv g pq state mst)
    (hmax : ∀ x ∈ contents pq, Edge.lt t x = false) {c : Edge} (hc : c ∈ g.edges)
    (hcross : state c.first ≠ state c.second) : c.weight ≤ t.weight := by
  have hq : c ∈ contents pq := by
    obtain ⟨hadj₁, hadj₂⟩ := hg.mem_adj_ends hc
    cases h₁ : state c.first
    · have h₂ : state c.second = true := by simpa [h₁] using hcross.symm
      refine (hI.frontier _ h₂ c hadj₂).resolve_left ?_
      rw [Edge.other_second, h₁]; exact Bool.false_ne_true
    · have h₂ : state c.second = false := by simpa [h₁] using hcross.symm
      refine (hI.frontier _ h₁ c hadj₁).resolve_left ?_
      rw [Edge.other_first, h₂]; exact Bool.false_ne_true
  simpa [Edge.lt] using hmax c hq

/-- **Dropping** a popped edge whose ends are both marked keeps the invariant. -/
theorem drop (hI : LazyInv g pq state mst) (hwf : WF Edge.lt pq')
    (hcont : contents pq = t ::ₘ contents pq')
    (hboth : state t.first = true ∧ state t.second = true) : LazyInv g pq' state mst where
  wf := hwf
  root := hI.root
  tree := hI.tree
  spans := hI.spans
  acyclic := hI.acyclic
  queued e he := hI.queued e (hcont ▸ Multiset.mem_cons_of_mem he)
  frontier v hv e he := by
    rcases hI.frontier v hv e he with h | h
    · exact .inl h
    · rw [hcont, Multiset.mem_cons] at h
      rcases h with rfl | h
      · rcases Edge.other_eq (e := e) v with h | h <;> rw [h]
        exacts [.inl hboth.1, .inl hboth.2]
      · exact .inr h
  heavy := hI.heavy

/-- **Keeping** a popped edge `t` that no queued edge outweighs, from a marked `u` to an
unmarked `w`, and visiting `w`, keeps the invariant. -/
theorem keep (hg : g.WF) (hI : LazyInv g pq state mst) {u w : Nat}
    (hcont : contents pq = t ::ₘ contents pq') (hmax : ∀ x ∈ contents pq, Edge.lt t x = false)
    (hu : state u = true) (hw : state w = false)
    (hends : t.first = u ∧ t.second = w ∨ t.first = w ∧ t.second = u) (hwf : WF Edge.lt pq'')
    (hvisit : ∀ e, e ∈ contents pq'' ↔ e ∈ contents pq' ∨
      (e ∈ g.adj w ∧ Function.update state w true (e.other w) = false)) :
    LazyInv g pq'' (Function.update state w true) (mst ++ [t]) := by
  have htg : t ∈ g.edges := (hI.queued t (hcont ▸ Multiset.mem_cons_self t _)).1
  have hwn : w < g.nVertices := hends.elim (fun h => h.2 ▸ (hg.edges_lt htg).2)
    (fun h => h.1 ▸ (hg.edges_lt htg).1)
  have hnew : t ∈ mst ++ [t] := List.mem_append_right _ (List.mem_singleton_self t)
  have hsub : mst ⊆ mst ++ [t] := List.subset_append_left _ _
  have hmarks : ∀ x, Function.update state w true x = true ↔ x = w ∨ state x = true :=
    fun _ => update_true_iff
  have hends' : Function.update state w true t.first = true ∧
      Function.update state w true t.second = true := by
    rcases hends with ⟨h₁, h₂⟩ | ⟨h₁, h₂⟩ <;> rw [h₁, h₂]
    exacts [⟨update_true_of hu, Function.update_same _ _ _⟩,
      ⟨Function.update_same _ _ _, update_true_of hu⟩]
  refine ⟨hwf, update_true_of hI.root, ?_, ?_, ?_, ?_, ?_, ?_⟩
  · -- tree: `t` joins two marked vertices
    intro e he
    rcases List.mem_append.mp he with he | he
    · obtain ⟨h₁, h₂, h₃⟩ := hI.tree e he
      exact ⟨h₁, update_true_of h₂, update_true_of h₃⟩
    · rw [List.mem_singleton.mp he]
      exact ⟨htg, hends'⟩
  · -- spans: `w` hangs off `u` by `t`
    intro v hv
    rcases (hmarks v).mp hv with rfl | hv
    · exact ((hI.spans u hu).mono hsub).trans (Connected.of_ends hnew hends)
    · exact (hI.spans v hv).mono hsub
  · -- acyclic: `mst` stays inside the marks, so it does not reach `w`
    refine hI.acyclic.snoc fun h => ?_
    have huw : Connected mst u w := by
      rcases hends with ⟨h₁, h₂⟩ | ⟨h₁, h₂⟩
      · rwa [h₁, h₂] at h
      · rw [h₁, h₂] at h; exact h.symm
    have := hI.marked_iff.mpr ((hI.spans u hu).trans huw)
    rw [hw] at this
    exact Bool.false_ne_true this
  · -- queued: the pushes of `_visit(w)` leave `w`
    intro e he
    rcases (hvisit e).mp he with he | ⟨hadj, -⟩
    · obtain ⟨h₁, h₂⟩ := hI.queued e (hcont ▸ Multiset.mem_cons_of_mem he)
      exact ⟨h₁, h₂.imp update_true_of update_true_of⟩
    · refine ⟨mem_edges_of_adj hwn hadj, ?_⟩
      rcases hg.incident_adj hadj with h | h <;> rw [h]
      exacts [.inl (Function.update_same _ _ _), .inr (Function.update_same _ _ _)]
  · -- frontier: `_visit(w)` pushed what leaves `w`; `t` no longer leaves the marks
    intro v hv e he
    by_cases hvw : v = w
    · subst hvw
      cases hx : Function.update state v true (e.other v)
      · exact .inr ((hvisit e).mpr (.inr ⟨he, hx⟩))
      · exact .inl rfl
    · rcases hI.frontier v (((hmarks v).mp hv).resolve_left hvw) e he with h | h
      · exact .inl (update_true_of h)
      · rw [hcont, Multiset.mem_cons] at h
        rcases h with rfl | h
        · rcases Edge.other_eq (e := e) v with h | h <;> rw [h]
          exacts [.inl hends'.1, .inl hends'.2]
        · exact .inr ((hvisit e).mpr (.inl h))
  · -- heavy: a heavy path into `w` crosses the marks, so `t` is heavy too
    have hreach : ∀ τ a, state a = true → Connected (atLeast τ g.edges) a w →
        Connected (atLeast τ (mst ++ [t])) a w := by
      intro τ a ha haw
      have hτ : τ ≤ t.weight := by
        by_contra hlt
        have hsame := Connected.eq_of_ends (f := state) (fun c hc => by
          by_contra hne
          exact hlt ((mem_atLeast.mp hc).2.trans
            (hI.crossing_le hg hmax (mem_atLeast.mp hc).1 hne))) haw
        rw [ha, hw] at hsame
        exact Bool.noConfusion hsame
      have hwu : Connected (atLeast τ g.edges) a u :=
        haw.trans (Connected.of_ends (mem_atLeast.mpr ⟨htg, hτ⟩) hends).symm
      exact ((hI.heavy τ a u ha hu hwu).mono (atLeast_mono hsub)).trans
        (Connected.of_ends (mem_atLeast.mpr ⟨hnew, hτ⟩) hends)
    intro τ a b ha hb hab
    rcases (hmarks a).mp ha with rfl | ha' <;> rcases (hmarks b).mp hb with rfl | hb'
    · exact .refl _
    · exact (hreach τ b hb' hab.symm).symm
    · exact hreach τ a ha' hab
    · exact (hI.heavy τ a b ha' hb' hab).mono (atLeast_mono hsub)

end LazyInv

/-! ## The loop and the constructor -/

variable {g : EdgeWeightedGraph}

/-- **Loop lemma.** From the invariant, on as much fuel as entries queued or still to be
pushed, the loop of `MstPrimLazy.__init__` runs until the queue is empty, and the invariant
holds at the end. -/
theorem primLazyLoop_spec (hg : g.WF) : ∀ (fuel : Nat) (pq : PriorityQueue Edge)
    (state : Nat → Bool) (mst : List Edge), LazyInv g pq state mst →
    pq.count + unvisitedDegree g state ≤ fuel →
    ∃ r pq' state', primLazyLoop g fuel pq state mst = .ok r ∧ LazyInv g pq' state' r ∧
      pq'.count = 0 := by
  intro fuel
  induction fuel with
  | zero => intro pq state mst hI hfuel; exact ⟨mst, pq, state, rfl, hI, by omega⟩
  | succ fuel ih =>
    intro pq state mst hI hfuel
    by_cases h0 : pq.count = 0
    · exact ⟨mst, pq, state, by simp [primLazyLoop, PriorityQueue.isEmpty, h0], hI, h0⟩
    obtain ⟨t, pq', htop, hpop, hwf', hc', hmax, hcont⟩ :=
      pop_spec Edge.lt hI.wf (Nat.pos_of_ne_zero h0)
    have hq := hI.queued t (hcont ▸ Multiset.mem_cons_self t _)
    have hlt := hg.edges_lt hq.1
    -- keeping `t` and visiting its unmarked end `w`: the rest of the loop has the fuel it needs
    have hkeep : ∀ u w, state u = true → state w = false →
        (t.first = u ∧ t.second = w ∨ t.first = w ∧ t.second = u) → w < g.nVertices →
        ∃ pq'', primLazyVisit g pq' state w = .ok (pq'', Function.update state w true) ∧
          ∃ r pq_f st_f, primLazyLoop g fuel pq'' (Function.update state w true) (mst ++ [t]) =
            .ok r ∧ LazyInv g pq_f st_f r ∧ pq_f.count = 0 := by
      intro u w hu hw hends hwn
      obtain ⟨pq'', hvisit, hwf'', hc'', hm''⟩ := primLazyVisit_spec state hwf' hwn
      have hU := unvisitedDegree_update hwn hw
      exact ⟨pq'', hvisit, ih pq'' _ _ (hI.keep hg hcont hmax hu hw hends hwf'' hm'') (by omega)⟩
    cases h₁ : state t.first <;> cases h₂ : state t.second
    · -- a queued edge has a marked end
      simp [h₁, h₂] at hq
    · -- `edge.first()` is unmarked: keep the edge and visit it
      obtain ⟨pq'', hvisit, r, pq_f, st_f, hr, hI', hc⟩ := hkeep _ _ h₂ h₁ (.inr ⟨rfl, rfl⟩) hlt.1
      have hsecond : Function.update state t.first true t.second = true := update_true_of h₂
      exact ⟨r, pq_f, st_f, by simp [primLazyLoop, PriorityQueue.isEmpty, h0, htop, hpop, h₁, h₂,
        hvisit, hsecond, bind, Except.bind, hr], hI', hc⟩
    · -- `edge.second()` is unmarked: keep the edge and visit it
      obtain ⟨pq'', hvisit, r, pq_f, st_f, hr, hI', hc⟩ := hkeep _ _ h₁ h₂ (.inl ⟨rfl, rfl⟩) hlt.2
      exact ⟨r, pq_f, st_f, by simp [primLazyLoop, PriorityQueue.isEmpty, h0, htop, hpop, h₁, h₂,
        hvisit, bind, Except.bind, hr], hI', hc⟩
    · -- both ends marked: drop the edge
      obtain ⟨r, pq_f, st_f, hr, hI', hc⟩ :=
        ih pq' state mst (hI.drop hwf' hcont ⟨h₁, h₂⟩) (by omega)
      exact ⟨r, pq_f, st_f, by simp [primLazyLoop, PriorityQueue.isEmpty, h0, htop, hpop, h₁, h₂,
        bind, Except.bind, hr], hI', hc⟩

/-- `_visit(graph, 0)` from no marks sets up the invariant. -/
theorem lazyInv_init (hg : g.WF) (hn : 0 < g.nVertices) {pq₀ pq : PriorityQueue Edge}
    (hwf : WF Edge.lt pq) (hempty : contents pq₀ = 0)
    (hm : ∀ e, e ∈ contents pq ↔ e ∈ contents pq₀ ∨
      (e ∈ g.adj 0 ∧ Function.update (fun _ => false) 0 true (e.other 0) = false)) :
    LazyInv g pq (Function.update (fun _ => false) 0 true) [] := by
  have hzero : ∀ v, Function.update (fun _ => false) 0 true v = true → v = 0 := fun v hv =>
    (update_true_iff.mp hv).resolve_right Bool.false_ne_true
  refine ⟨hwf, Function.update_same _ _ _, fun e he => absurd he (List.not_mem_nil _),
    fun v hv => hzero v hv ▸ .refl 0, .nil, fun e he => ?_, fun v hv e he => ?_,
    fun t a b ha hb _ => hzero a ha ▸ hzero b hb ▸ .refl 0⟩
  · rcases (hm e).mp he with h | ⟨hadj, -⟩
    · rw [hempty] at h; exact absurd h (Multiset.not_mem_zero e)
    · refine ⟨mem_edges_of_adj hn hadj, ?_⟩
      rcases hg.incident_adj hadj with h | h <;> rw [h]
      exacts [.inl (Function.update_same _ _ _), .inr (Function.update_same _ _ _)]
  · obtain rfl := hzero v hv
    cases hx : Function.update (fun _ => false) 0 true (e.other 0)
    · exact .inr ((hm e).mpr (.inr ⟨he, hx⟩))
    · exact .inl rfl

/-- On a graph built by `add_edge`, with a vertex and an edge, `MstPrimLazy(graph)` returns
graph edges of the component of vertex 0 that form a forest connecting vertex 0 to exactly the
vertices the graph connects it to; and any two of those vertices that the graph's edges of
weight at least `t` connect, the tree's edges of weight at least `t` connect. -/
theorem mstPrimLazy_tree (g : EdgeWeightedGraph) (hg : g.WF) (hn : 0 < g.nVertices)
    (hE : 0 < g.nEdges) :
    ∃ r, mstPrimLazy g = .ok r ∧ (∀ e ∈ r, e ∈ g.edges ∧ Connected g.edges 0 e.first) ∧
      Acyclic r ∧
      (∀ v, Connected r 0 v ↔ Connected g.edges 0 v) ∧
      ∀ t a b, Connected g.edges 0 a → Connected (atLeast t g.edges) a b →
        Connected (atLeast t r) a b := by
  obtain ⟨pq, hvisit, hwf, hc, hm⟩ :=
    primLazyVisit_spec (fun _ => false) (init_wf Edge.lt g.nEdges hE) hn
  have hI := lazyInv_init hg hn hwf (by simp [contents, Heap.contents]) hm
  have hU : unvisitedDegree g (Function.update (fun _ => false) 0 true) + (g.adj 0).length =
      unvisitedDegree g fun _ => false := unvisitedDegree_update hn rfl
  obtain ⟨r, pq_f, st, hr, hI', hc'⟩ :=
    primLazyLoop_spec hg g.edges.length pq _ [] hI
      (by rw [length_edges]; simp only [zero_add] at hc; omega)
  -- the queue is empty at the end, so no graph edge leaves the marks
  have hempty : ∀ e, e ∉ contents pq_f := fun e he => by
    rw [(contents_eq_zero Edge.lt hI'.wf).mpr hc'] at he; exact Multiset.not_mem_zero e he
  have hclosed := hg.marks_closed fun u hu e he => (hI'.frontier u hu e he).resolve_right (hempty e)
  have hmarked : ∀ v, st v = true ↔ Connected g.edges 0 v := fun v =>
    ⟨fun h => (hI'.spans v h).mono fun e he => (hI'.tree e he).1,
      fun h => (Connected.eq_of_ends hclosed h).symm.trans hI'.root⟩
  refine ⟨r, by simp [mstPrimLazy, init_ok hE, hvisit, hr, bind, Except.bind],
    fun e he => ⟨(hI'.tree e he).1, (hmarked _).mp (hI'.tree e he).2.1⟩, hI'.acyclic, fun v => hI'.marked_iff.symm.trans (hmarked v),
    fun t a b ha hab => hI'.heavy t a b ((hmarked a).mpr ha)
      ((hmarked b).mpr (ha.trans (hab.mono atLeast_subset))) hab⟩

/-- **Lazy Prim computes a maximum spanning tree of the component of vertex 0.** On a graph
built by `add_edge`, with a vertex and an edge, `MstPrimLazy(graph)` returns graph edges of the
component of vertex 0 that form a forest connecting vertex 0 to exactly the vertices the graph
connects it to. Any two of those vertices that the graph's edges of weight at least `t` connect,
the tree's edges of weight at least `t` connect; and no forest of graph edges of the component
that connects the ends of each of them weighs more. -/
theorem mstPrimLazy_max_spanning_tree (g : EdgeWeightedGraph) (hg : g.WF) (hn : 0 < g.nVertices)
    (hE : 0 < g.nEdges) :
    ∃ r, mstPrimLazy g = .ok r ∧ (∀ e ∈ r, e ∈ g.edges ∧ Connected g.edges 0 e.first) ∧
      Acyclic r ∧ (∀ v, Connected r 0 v ↔ Connected g.edges 0 v) ∧
      (∀ t a b, Connected g.edges 0 a → Connected (atLeast t g.edges) a b →
        Connected (atLeast t r) a b) ∧
      ∀ F : List Edge, Acyclic F → (∀ e ∈ F, e ∈ g.edges ∧ Connected g.edges 0 e.first) →
        (∀ e ∈ g.edges, Connected g.edges 0 e.first → Connected F e.first e.second) →
        weight F ≤ weight r := by
  obtain ⟨r, hr, hrg, hA, hconn, hheavy⟩ := mstPrimLazy_tree g hg hn hE
  -- the tree's edges at least as heavy as a graph edge of the component connect its ends
  have hcycle : ∀ e, e ∈ g.edges ∧ Connected g.edges 0 e.first →
      Connected (atLeast e.weight r) e.first e.second := fun e he =>
    hheavy _ _ _ he.2 (Connected.of_mem (mem_atLeast.mpr ⟨he.1, le_rfl⟩))
  exact ⟨r, hr, hrg, hA, hconn, hheavy, fun F hF hFg hspan =>
    weight_le_of_cycle hn (fun e he => hg.edges_lt he.1) hA hrg hcycle hF hFg
      fun e he => hspan e he.1 he.2⟩

/-- Lazy Prim on the spec's triangle. -/
theorem mstPrimLazy_max_spanning_tree_triangle : ∃ g, EdgeWeightedGraph.build 3 triangle = .ok g ∧
    (g.WF ∧ 0 < g.nVertices ∧ 0 < g.nEdges) ∧
    ∃ r, mstPrimLazy g = .ok r ∧ (∀ e ∈ r, e ∈ g.edges ∧ Connected g.edges 0 e.first) ∧
      Acyclic r ∧ (∀ v, Connected r 0 v ↔ Connected g.edges 0 v) ∧
      (∀ t a b, Connected g.edges 0 a → Connected (atLeast t g.edges) a b →
        Connected (atLeast t r) a b) ∧
      ∀ F : List Edge, Acyclic F → (∀ e ∈ F, e ∈ g.edges ∧ Connected g.edges 0 e.first) →
        (∀ e ∈ g.edges, Connected g.edges 0 e.first → Connected F e.first e.second) →
        weight F ≤ weight r := by
  obtain ⟨g, hg, h3, hE, -⟩ := build_triangle
  exact ⟨g, hg, ⟨build_wf hg, by omega, by omega⟩,
    mstPrimLazy_max_spanning_tree g (build_wf hg) (by omega) (by omega)⟩

end GraphAlgo
