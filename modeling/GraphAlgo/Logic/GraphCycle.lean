import GraphAlgo.Algo.RecursiveDfs
import GraphAlgo.Logic.DepthFirstPaths
import GraphAlgo.Logic.Ucc

/-!
# Cycle detection (`graph_cycle.py`)

On an undirected graph without parallel edges, `GraphCycle(graph).has_cycle()` holds exactly
when the graph has a cycle, and `cycle()` then iterates one (`graphCycle_correct`).

The invariant `Inv` of `_dfs`, while no cycle is found, carries the visited vertices `V` in
visiting order and the recursion stack `A`: each `_edge_to` of a visited vertex is a vertex
visited before it along an edge, consecutive vertices of the stack are parent and child, and
every edge out of a vertex off the stack is a tree edge, `_edge_to` of one of its ends being the
other (`closed`). The loop over the heads of `v` also knows which heads it has seen and that the
children of `v` are among them (`Heads`).

*Soundness.* A visited head `w` of `v` other than `_edge_to[v]` is on the stack (`Inv.ancestor`):
off the stack, the edge `w - v` would make `w` a child of `v`, met before at another entry of
`adj(v)`, a parallel edge. So the walk from `v` up `_edge_to` reaches `w` along the stack, and
the pushes make a cycle (`Inv.close`). Once the stack `_cycle` holds it, nothing more is pushed
(`Found`).

*Completeness.* When no cycle is found, every vertex ends visited and off the stack, so every
edge is a tree edge, and a graph whose edges all join a vertex to its parent, parents visited
first, has no cycle (`not_isCycle_of_forest`): the last-visited vertex of a cycle would be the
child of both its neighbours on it.
-/

namespace GraphAlgo

namespace DiGraph

/-- A cycle `c₀, c₁, …, c_k` of an undirected graph: each `c_(i+1)` is a head of `c_i`,
`c_k = c₀`, the vertices `c₀, …, c_(k-1)` are distinct, and `k = 1` (a self-loop) or `k ≥ 3`;
out along an edge and back along it is no cycle. -/
structure IsCycle (g : DiGraph) (cs : List Nat) : Prop where
  chain : cs.Chain' g.Adj
  closed : cs.head? = cs.getLast?
  distinct : cs.dropLast.Nodup
  length : cs.length = 2 ∨ 4 ≤ cs.length

variable {g : DiGraph}

/-- Two consecutive vertices of a walk are an edge. -/
theorem adj_of_infix {cs : List Nat} (h : cs.Chain' g.Adj) {a b : Nat} (hab : [a, b] <:+: cs) :
    g.Adj a b := by
  simpa using h.infix hab

/-- Every vertex of a cycle through three or more vertices has two distinct neighbours on it,
one before it and one after it. -/
theorem IsCycle.neighbours {cs : List Nat} (h : g.IsCycle cs) (h4 : 4 ≤ cs.length) {m : Nat}
    (hm : m ∈ cs) : ∃ a ∈ cs, ∃ b ∈ cs, a ≠ b ∧ g.Adj a m ∧ g.Adj m b := by
  -- `cs = c₀ :: T ++ [c₀]`, with `c₀ :: T` the distinct vertices
  obtain ⟨c₀, T, rfl⟩ : ∃ c₀ T, cs = c₀ :: T ++ [c₀] := by
    obtain _ | ⟨c₀, R⟩ := cs
    · simp at h4
    obtain rfl | ⟨T, z, rfl⟩ := R.eq_nil_or_concat
    · simp at h4
    have hz := h.closed
    rw [List.concat_eq_append, ← List.cons_append, List.getLast?_concat] at hz
    exact ⟨c₀, T, by rw [List.concat_eq_append, ← Option.some_injective _ hz]; rfl⟩
  have hnd : (c₀ :: T).Nodup := by simpa only [List.dropLast_concat] using h.distinct
  have hT : 2 ≤ T.length := by simp at h4; omega
  have hadj := fun {a b : Nat} (hab : [a, b] <:+: c₀ :: T ++ [c₀]) => adj_of_infix h.chain hab
  have hm' : m ∈ c₀ :: T := (List.mem_append.mp hm).elim id fun h' =>
    List.mem_singleton.mp h' ▸ List.mem_cons_self c₀ T
  rcases List.mem_cons.mp hm' with rfl | hmT
  · -- `m = c₀`: its neighbours are the second vertex and the last distinct one
    obtain _ | ⟨b, T⟩ := T
    · simp at hT
    obtain rfl | ⟨T, a, rfl⟩ := T.eq_nil_or_concat
    · simp at hT
    simp only [List.concat_eq_append] at hnd hadj ⊢
    refine ⟨a, by simp, b, by simp, ?_, hadj ⟨m :: b :: T, [], by simp⟩,
      hadj ⟨[], T ++ [a, m], by simp⟩⟩
    rintro rfl
    simp at hnd
  · -- `m` inside: its neighbours are the vertices around it, `c₀` standing in at either end
    obtain ⟨s, t, rfl⟩ := List.append_of_mem hmT
    obtain rfl | ⟨b, t, rfl⟩ : t = [] ∨ ∃ b t', t = b :: t' := by cases t <;> simp
    · -- `m` last: `c₀` follows it, and the vertex before it is not `c₀`
      obtain rfl | ⟨s, a, rfl⟩ := s.eq_nil_or_concat
      · simp at hT
      simp only [List.concat_eq_append] at hnd hadj ⊢
      refine ⟨a, by simp, c₀, by simp, ?_, hadj ⟨c₀ :: s, [c₀], by simp⟩,
        hadj ⟨c₀ :: s ++ [a], [], by simp⟩⟩
      rintro rfl
      simp at hnd
    · -- `b` follows `m`, and the vertex before it is `c₀` or the last of `s`
      obtain ⟨a, ha, hinfa, hac⟩ : ∃ a ∈ c₀ :: s ++ m :: b :: t ++ [c₀],
          [a, m] <:+: c₀ :: s ++ m :: b :: t ++ [c₀] ∧ (a = c₀ ∨ a ∈ s) := by
        obtain rfl | ⟨s, a, rfl⟩ := s.eq_nil_or_concat
        · exact ⟨c₀, by simp, ⟨[], b :: t ++ [c₀], by simp⟩, .inl rfl⟩
        · exact ⟨a, by simp, ⟨c₀ :: s, b :: t ++ [c₀], by simp⟩, .inr (by simp)⟩
      refine ⟨a, ha, b, by simp, ?_, hadj hinfa, hadj ⟨c₀ :: s, t ++ [c₀], by simp⟩⟩
      rintro rfl
      rcases hac with rfl | has
      · simp at hnd
      · exact List.disjoint_of_nodup_append (List.nodup_cons.mp hnd).2 has (by simp)

/-- **No cycle in a forest.** If every edge joins a vertex to its parent `par`, each parent
before its children in a list `V` of distinct vertices holding every vertex, the graph has no
cycle: the latest vertex of a cycle would be the child of both its neighbours on it. -/
theorem not_isCycle_of_forest (hsym : ∀ u w, g.Adj u w → g.Adj w u) {V : List Nat}
    (par : Nat → Int) (hV : ∀ u < g.nVertices, u ∈ V)
    (hedge : ∀ x y, g.Adj x y → par y = x ∨ par x = y)
    (hrank : ∀ x ∈ V, ∀ p : Nat, par x = p → V.indexOf p < V.indexOf x) (cs : List Nat) :
    ¬ g.IsCycle cs := by
  intro h
  rcases h.length with h2 | h4
  · -- a self-loop `v - v` would make `v` its own parent
    obtain ⟨v, v', rfl⟩ := List.length_eq_two.mp h2
    obtain rfl : v = v' := by simpa using h.closed
    have hadj : g.Adj v v := by simpa using h.chain
    have := hrank v (hV v (g.adj_lt_left hadj)) v ((hedge v v hadj).elim id id)
    omega
  · have hmem : ∀ m ∈ cs, m ∈ V := fun m hm => by
      obtain ⟨_, -, _, -, -, -, hadj⟩ := h.neighbours h4 hm
      exact hV m (g.adj_lt_left hadj)
    obtain ⟨x, hx⟩ := List.exists_mem_of_length_pos (by omega : 0 < cs.length)
    obtain ⟨m, hm, hmax⟩ :=
      cs.toFinset.exists_max_image V.indexOf ⟨x, List.mem_toFinset.mpr hx⟩
    simp only [List.mem_toFinset] at hm hmax
    obtain ⟨a, ha, b, hb, hab, ham, hmb⟩ := h.neighbours h4 hm
    -- no vertex of the cycle is a child of the latest one, so both neighbours are its parent
    have hpar : ∀ y ∈ cs, par y = m ∨ par m = y → par m = y := fun y hy hy' =>
      hy'.resolve_left fun hym => by
        have := hrank y (hmem y hy) m hym
        have := hmax y hy
        omega
    exact hab (by exact_mod_cast
      (hpar a ha (hedge m a (hsym a m ham))).symm.trans (hpar b hb (hedge m b hmb)))

end DiGraph

namespace GraphCycle

open DiGraph

variable {g : DiGraph}

/-! ## The walk up `_edge_to` -/

theorem edgeToAt_of_lt (c : GraphCycle) {x : Nat} (hx : x < c.nVertices) :
    c.edgeToAt x = .ok (c.edgeTo x) := by
  simp [edgeToAt, hx]

theorem walkLoop_self (c : GraphCycle) (w fuel : Nat) (st : Stack Int) :
    c.walkLoop w fuel w st = .ok st := by
  rw [walkLoop.eq_def]; simp

/-- The loop `while x != w` from a vertex `x` whose `_edge_to` chain runs through `U` to `w`
pushes `x` and then `U`. -/
theorem walkLoop_up (c : GraphCycle) (w : Nat) :
    ∀ (U : List Nat) (x : Nat) (st : Stack Int) (fuel : Nat),
      List.Chain (fun a b : Nat => c.edgeTo a = b) x (U ++ [w]) →
      (∀ y ∈ x :: U, y ≠ w ∧ y < c.nVertices) → U.length < fuel →
      ∃ st', c.walkLoop w fuel x st = .ok st' ∧ st'.items = st.items ++ (x :: U).map (↑)
  | _, _, _, 0, _, _, hf => absurd hf (Nat.not_lt_zero _)
  | U, x, st, fuel + 1, hch, hU, hf => by
    have hx := hU x (List.mem_cons_self x U)
    have hstep : c.walkLoop w (fuel + 1) x st = c.walkLoop w fuel (c.edgeTo x) (st.push x) := by
      rw [walkLoop.eq_def]
      simp [hx.1, edgeToAt_of_lt c hx.2, bind, Except.bind]
    rw [hstep]
    cases U with
    | nil =>
      have hxw : c.edgeTo x = w := by simpa using hch
      exact ⟨st.push x, by rw [hxw, walkLoop_self], by simp⟩
    | cons u U =>
      obtain ⟨hxu, hch'⟩ := List.chain_cons.mp hch
      obtain ⟨st', h, hst'⟩ := walkLoop_up c w U u (st.push x) fuel hch'
        (fun y hy => hU y (List.mem_cons_of_mem x hy)) (by simp at hf; omega)
      exact ⟨st', by rw [hxu]; exact h, by simp [hst']⟩

/-! ## The invariant -/

/-- The invariant of `_dfs` while no cycle is found, with `V` the visited vertices in visiting
order and `A` the recursion stack: an `_edge_to` that is a vertex is one visited earlier, along
an edge; each vertex of the stack is the child of the one below; every edge out of a vertex off
the stack is a tree edge; and `_cycle` is empty. -/
structure Inv (g : DiGraph) (c : GraphCycle) (V A : List Nat) : Prop where
  nVertices : c.nVertices = g.nVertices
  visited : ∀ u, c.state u = true ↔ u ∈ V
  nodup : V.Nodup
  lt : ∀ u ∈ V, u < g.nVertices
  tree : ∀ x ∈ V, ∀ p : Nat, c.edgeTo x = p → p ∈ V ∧ V.indexOf p < V.indexOf x ∧ g.Adj p x
  stack : List.Sublist A V
  chain : A.Chain' fun a b => c.edgeTo b = a
  closed : ∀ x ∈ V, x ∉ A → ∀ y, g.Adj x y → y ∈ V ∧ (c.edgeTo y = x ∨ c.edgeTo x = y)
  empty : c.cycle.items = []

/-- `_edge_to[v]` as `_dfs(graph, v)` finds it: `-1` for a root, else the top of the stack,
an edge away. -/
def Parent (g : DiGraph) (c : GraphCycle) (A : List Nat) (v : Nat) : Prop :=
  match A.getLast? with
  | none => c.edgeTo v = -1
  | some p => c.edgeTo v = p ∧ g.Adj p v

/-- `_cycle` holds a cycle of the graph. -/
def Found (g : DiGraph) (c : GraphCycle) : Prop :=
  c.nVertices = g.nVertices ∧ ∃ cs, c.cycle.iter = cs.map (↑) ∧ g.IsCycle cs

/-- What `_dfs(graph, v)` does to `_edge_to`, from `c₀` to `c`: it sets it only on the vertices
`W` it visits after `v`, each to `v` or to one of `W`. -/
def Frame (c₀ c : GraphCycle) (v : Nat) (W : List Nat) : Prop :=
  (∀ u ∉ W, c.edgeTo u = c₀.edgeTo u) ∧ ∀ x ∈ W, ∃ p ∈ v :: W, c.edgeTo x = p

/-- The end of `_dfs(graph, v)` entered at `c₀` with the visited vertices `V` and the stack
`A`: a cycle is found, or the invariant holds again with `v` and then `W` visited. -/
def Done (g : DiGraph) (c₀ : GraphCycle) (V A : List Nat) (v : Nat) (c : GraphCycle) : Prop :=
  Found g c ∨ ∃ W, Inv g c (V ++ v :: W) A ∧ Frame c₀ c v W

/-- The loop over the heads of `v` after the heads `done`: a cycle is found, or the invariant
holds with `v` on top, each head seen is joined to `v` by a tree edge, and each child of `v` is
among them. -/
def Heads (g : DiGraph) (c₀ : GraphCycle) (V A : List Nat) (v : Nat) (done : List Nat)
    (c : GraphCycle) : Prop :=
  Found g c ∨ ∃ W, Inv g c (V ++ v :: W) (A ++ [v]) ∧ Frame c₀ c v W ∧
    (∀ y ∈ done, y ∈ V ++ v :: W ∧ (c.edgeTo y = v ∨ c.edgeTo v = y)) ∧
    ∀ x ∈ V ++ v :: W, c.edgeTo x = v → x ∈ done

/-- The contract of `_dfs` on `fuel`: from a new vertex `v` with its parent set, with fuel
beyond the visited vertices, it succeeds and ends `Done`. -/
def DfsSpec (g : DiGraph) (fuel : Nat) : Prop :=
  ∀ (c : GraphCycle) (V A : List Nat) (v : Nat), Inv g c V A → c.state v = false →
    v < g.nVertices → Parent g c A v → g.nVertices < fuel + V.length →
    ∃ c', dfs g fuel c v = .ok c' ∧ Done g c V A v c'

variable {c : GraphCycle} {V A : List Nat} {v : Nat}

theorem Inv.not_mem (h : Inv g c V A) (hv : c.state v = false) : v ∉ V := fun hm => by
  simp [(h.visited v).mpr hm] at hv

theorem Inv.hasCycle (h : Inv g c V A) : c.hasCycle = false := by
  simp [GraphCycle.hasCycle, Stack.isEmpty_iff, h.empty]

theorem Found.hasCycle (h : Found g c) : c.hasCycle = true := by
  obtain ⟨-, cs, hcs, hc⟩ := h
  have hne : cs ≠ [] := by rintro rfl; have := hc.length; simp at this
  have hitems : c.cycle.items ≠ [] := fun hnil =>
    hne (by simpa [Stack.iter_eq, hnil] using hcs.symm)
  simpa [GraphCycle.hasCycle, ← Bool.not_eq_true, Stack.isEmpty_iff] using hitems

/-- Setting `_edge_to` of an unvisited vertex keeps the invariant. -/
theorem Inv.setEdge (h : Inv g c V A) {w : Nat} (hw : w ∉ V) (x : Int) :
    Inv g { c with edgeTo := Function.update c.edgeTo w x } V A := by
  have hne : ∀ y ∈ V, Function.update c.edgeTo w x y = c.edgeTo y := fun y hy =>
    Function.update_noteq (fun h' : y = w => hw (h' ▸ hy)) _ _
  exact { h with
    tree := fun y hy p hp => h.tree y hy p (by rwa [← hne y hy])
    chain := (List.Chain'.iff_mem.mp h.chain).imp fun a b ⟨_, hb, hab⟩ => by
      rw [← hne b (h.stack.subset hb)] at hab; exact hab
    closed := fun y hy hyA z hyz => by
      obtain ⟨hz, h'⟩ := h.closed y hy hyA z hyz
      exact ⟨hz, by simpa only [hne z hz, hne y hy] using h'⟩ }

/-- Marking an unvisited vertex `v` whose `_edge_to` is its parent visits it last and puts it
on the stack. -/
theorem Inv.mark (h : Inv g c V A) (hv : c.state v = false) (hvn : v < g.nVertices)
    (hpar : Parent g c A v) :
    Inv g { c with state := Function.update c.state v true } (V ++ [v]) (A ++ [v]) where
  nVertices := h.nVertices
  visited u := by
    by_cases hu : u = v
    · subst hu; simp
    · simp [Function.update_noteq hu, h.visited u, hu]
  nodup := List.nodup_append.mpr ⟨h.nodup, List.nodup_singleton v,
    List.disjoint_singleton.mpr (h.not_mem hv)⟩
  lt u hu := by
    rcases List.mem_append.mp hu with hu | hu
    · exact h.lt u hu
    · exact List.mem_singleton.mp hu ▸ hvn
  tree x hx p hp := by
    have hidx : ∀ u ∈ V, (V ++ [v]).indexOf u = V.indexOf u := fun u hu =>
      List.indexOf_append_of_mem hu
    rcases List.mem_append.mp hx with hx | hx
    · obtain ⟨hpV, hlt, hadj⟩ := h.tree x hx p hp
      exact ⟨List.mem_append_left _ hpV, by rw [hidx _ hpV, hidx x hx]; exact hlt, hadj⟩
    · obtain rfl := List.mem_singleton.mp hx
      -- the parent of `v` is the top of the stack
      unfold Parent at hpar
      split at hpar
      · have : (-1 : Int) = p := hpar.symm.trans hp
        omega
      · rename_i q hq
        obtain ⟨hqv, hadj⟩ := hpar
        obtain rfl : q = p := by exact_mod_cast hqv.symm.trans hp
        have hqV : q ∈ V := h.stack.subset (List.mem_of_getLast?_eq_some hq)
        refine ⟨List.mem_append_left _ hqV, ?_, hadj⟩
        rw [hidx _ hqV, List.indexOf_append_of_not_mem (h.not_mem hv), List.indexOf_cons_self]
        exact (List.indexOf_lt_length.mpr hqV).trans_le (Nat.le_add_right _ _)
  stack := h.stack.append (List.Sublist.refl [v])
  chain := List.chain'_append.mpr ⟨h.chain, List.chain'_singleton v, fun a ha b hb => by
    obtain rfl : v = b := by simpa using hb
    unfold Parent at hpar
    rw [Option.mem_def.mp ha] at hpar
    exact hpar.1⟩
  closed x hx hxA y hxy := by
    have hxV : x ∈ V := (List.mem_append.mp hx).resolve_right fun h' => hxA (by simp_all)
    obtain ⟨hy, h'⟩ := h.closed x hxV (fun h' => hxA (List.mem_append_left _ h')) y hxy
    exact ⟨List.mem_append_left _ hy, h'⟩
  empty := h.empty

/-- The vertex just marked has no child yet. -/
theorem Inv.no_child {A' : List Nat} (h : Inv g c (V ++ [v]) A') (hv : v ∉ V) {x : Nat}
    (hx : x ∈ V ++ [v]) : c.edgeTo x ≠ v := fun hxv => by
  have hlt := (h.tree x hx v hxv).2.1
  rw [List.indexOf_append_of_not_mem hv, List.indexOf_cons_self] at hlt
  have := List.indexOf_lt_length.mpr hx
  simp at this
  omega

/-- Popping `v`, the top of the stack, once each edge out of it is a tree edge. -/
theorem Inv.pop (h : Inv g c V (A ++ [v]))
    (hdone : ∀ y, g.Adj v y → y ∈ V ∧ (c.edgeTo y = v ∨ c.edgeTo v = y)) : Inv g c V A :=
  { h with
    stack := (List.sublist_append_left A [v]).trans h.stack
    chain := (List.chain'_append.mp h.chain).1
    closed := fun x hx hxA y hxy => by
      by_cases hxv : x = v
      · exact hxv ▸ hdone y (hxv ▸ hxy)
      · exact h.closed x hx (by simp [hxA, hxv]) y hxy }

/-! ## A visited head other than the parent closes a cycle -/

/-- **Soundness.** In the loop over the heads of `v`, a visited head `w` other than
`_edge_to[v]` is on the stack: off it, the edge `w - v` would be a tree edge making `w` a child
of `v`, met already at another entry `w` of `adj(v)`, a parallel edge. -/
theorem Inv.ancestor (hsym : ∀ u w, g.Adj u w → g.Adj w u)
    (hsimple : ∀ u w, u ≠ w → (g.adjList u).count w ≤ 1) (h : Inv g c V (A ++ [v]))
    {done rest : List Nat} {w : Nat} (hL : (g.adjList v).reverse = done ++ w :: rest)
    (hkids : ∀ x ∈ V, c.edgeTo x = v → x ∈ done) (hw : w ∈ V) (hne : (w : Int) ≠ c.edgeTo v) :
    w ∈ A ++ [v] := by
  by_contra hA
  have hvw : g.Adj v w := List.mem_reverse.mp (hL ▸ by simp)
  obtain ⟨-, hvw' | hwv⟩ := h.closed w hw hA v (hsym v w hvw)
  · exact hne hvw'.symm
  · have hcount := hsimple v w fun h' => hA (by simp [h'])
    rw [← List.count_reverse, hL, List.count_append, List.count_cons_self] at hcount
    have := List.count_pos_iff.mpr (hkids w hw hwv)
    omega

/-- The walk from `v` up to `w` on the stack, then the pushes of `w` and `v`, leave a cycle in
`_cycle`: `v, w` and the stack from `w` up to `v`, or `v, v` for a self-loop. -/
theorem Inv.close (h : Inv g c V (A ++ [v])) {w : Nat} (hvw : g.Adj v w) (hwA : w ∈ A ++ [v])
    (hne : (w : Int) ≠ c.edgeTo v) :
    ∃ st, c.walkLoop w c.nVertices v c.cycle = .ok st ∧
      Found g { c with cycle := (st.push w).push v } := by
  have hnd : (A ++ [v]).Nodup := h.nodup.sublist h.stack
  rcases List.mem_append.mp hwA with hwA | hwv
  · obtain ⟨B, C, rfl⟩ := List.append_of_mem hwA
    -- the stack runs `B, w, C, v`, each vertex the child of the one before
    have hinf : w :: C ++ [v] <:+: B ++ w :: C ++ [v] := ⟨B, [], by simp⟩
    have hch : (w :: C ++ [v]).Chain' fun a b => c.edgeTo b = a := h.chain.infix hinf
    have hC : C ≠ [] := by
      rintro rfl
      have : c.edgeTo v = w := by simpa using hch
      exact hne this.symm
    have hP : (w :: C ++ [v]).Nodup := hnd.sublist hinf.sublist
    have hwCv : w ∉ C ++ [v] := (List.nodup_cons.mp (by simpa using hP)).1
    have hPV : ∀ y ∈ w :: C ++ [v], y ∈ V := fun y hy => h.stack.subset (hinf.subset hy)
    have hup : List.Chain (fun a b : Nat => c.edgeTo a = b) v (C.reverse ++ [w]) := by
      have := List.chain'_reverse.mpr (show (w :: C ++ [v]).Chain' (flip (flip fun a b : Nat =>
        c.edgeTo b = a)) from hch)
      simpa [flip] using this
    have hlen : (B ++ w :: C ++ [v]).length ≤ g.nVertices :=
      h.stack.length_le.trans (length_le_of_nodup h.nodup h.lt)
    obtain ⟨st, hst, hitems⟩ := walkLoop_up c w C.reverse v c.cycle c.nVertices hup
      (fun y hy => by
        have hy' : y ∈ C ++ [v] := by simpa [or_comm] using hy
        refine ⟨fun hyw => hwCv (hyw ▸ hy'), ?_⟩
        rw [h.nVertices]
        exact h.lt y (hPV y (List.mem_cons_of_mem w (by simpa using hy'))))
      (by simp [h.nVertices] at hlen ⊢; omega)
    refine ⟨st, hst, h.nVertices, v :: w :: C ++ [v], ?_, ⟨?_, ?_, ?_,
      .inr (by simp; exact List.length_pos.mpr hC)⟩⟩
    · rw [Stack.iter_eq]; simp [hitems, h.empty]
    · -- each step of the stack is an edge, by `tree`
      refine List.chain'_cons'.mpr ⟨fun y hy => by simp at hy; exact hy ▸ hvw, ?_⟩
      exact (List.Chain'.iff_mem.mp hch).imp fun a b ⟨_, hb, hab⟩ =>
        (h.tree b (hPV b hb) a hab).2.2
    · rw [List.getLast?_concat]; rfl
    · rw [List.dropLast_concat]
      exact (List.perm_append_singleton v (w :: C)).nodup_iff.mp hP
  · -- a self-loop
    obtain rfl := List.mem_singleton.mp hwv
    refine ⟨c.cycle, walkLoop_self c w _ _, h.nVertices, [w, w], ?_,
      ⟨by simpa using hvw, by simp, by simp, .inl rfl⟩⟩
    rw [Stack.iter_eq]; simp [h.empty]

/-! ## The loop over the heads of `v` -/

variable {c₀ : GraphCycle} {done : List Nat}

/-- Once `_cycle` holds a cycle, the loop over the heads leaves the state as it is. -/
theorem foldlM_visitHead_found (dfs : GraphCycle → Nat → Except String GraphCycle) (v : Nat)
    (h : c.hasCycle = true) : ∀ ws : List Nat, ws.foldlM (visitHead dfs v) c = .ok c
  | [] => rfl
  | w :: ws => by
    simp only [List.foldlM_cons, visitHead, h, if_true, bind, Except.bind]
    exact foldlM_visitHead_found dfs v h ws

/-- After the call `_dfs(graph, w)` on a new head `w` of `v`, which visited `w` and then `W'`,
`w` is a seen head and the child of `v`, and the vertices of `W'` hang below `w`. -/
theorem Heads.descend {W W' : List Nat} {w : Nat} {c' : GraphCycle}
    (hi' : Inv g c' (V ++ v :: W ++ w :: W') (A ++ [v])) (hfr : Frame c₀ c v W)
    (hfr' : Frame { c with edgeTo := Function.update c.edgeTo w v } c' w W')
    (hseen : ∀ y ∈ done, y ∈ V ++ v :: W ∧ (c.edgeTo y = v ∨ c.edgeTo v = y))
    (hkids : ∀ x ∈ V ++ v :: W, c.edgeTo x = v → x ∈ done) :
    Heads g c₀ V A v (done ++ [w]) c' := by
  have hsplit : V ++ v :: (W ++ w :: W') = V ++ v :: W ++ w :: W' := by simp
  have hnd := List.nodup_append.mp hi'.nodup
  have hwW' : w ∉ W' := (List.nodup_cons.mp hnd.2.1).1
  have hvV : v ∈ V ++ v :: W := by simp
  -- the vertices visited before `w` keep their `_edge_to`
  have hold : ∀ y ∈ V ++ v :: W, c'.edgeTo y = c.edgeTo y := fun y hy => by
    have hyw : y ∉ w :: W' := fun h' => hnd.2.2 hy h'
    rw [hfr'.1 y fun h' => hyw (List.mem_cons_of_mem w h')]
    exact Function.update_noteq (fun h' : y = w => hyw (h' ▸ List.mem_cons_self w W')) _ _
  have hwv : c'.edgeTo w = v := by
    rw [hfr'.1 w hwW']
    exact Function.update_same _ _ _
  refine .inr ⟨W ++ w :: W', hsplit ▸ hi', ⟨fun u hu => ?_, fun x hx => ?_⟩, fun y hy => ?_,
    fun x hx hxv => ?_⟩
  · -- off the new vertices, `_edge_to` is as it was on entry
    simp only [List.mem_append, List.mem_cons, not_or] at hu
    rw [hfr'.1 u hu.2.2, ← hfr.1 u hu.1]
    exact Function.update_noteq hu.2.1 _ _
  · -- each new vertex hangs below `v` or another new vertex
    rcases List.mem_append.mp hx with hx | hx
    · obtain ⟨p, hp, hxp⟩ := hfr.2 x hx
      exact ⟨p, List.cons_subset_cons v (List.subset_append_left W _) hp,
        (hold x (by simp [hx])).trans hxp⟩
    · rcases List.mem_cons.mp hx with rfl | hx
      · exact ⟨v, List.mem_cons_self v _, hwv⟩
      · obtain ⟨p, hp, hxp⟩ := hfr'.2 x hx
        exact ⟨p, List.mem_cons_of_mem v (List.mem_append_right W hp), hxp⟩
  · -- the heads seen are joined to `v` by tree edges
    rw [hsplit]
    rcases List.mem_append.mp hy with hy | hy
    · obtain ⟨hyV, hyv⟩ := hseen y hy
      exact ⟨List.mem_append_left _ hyV, by rwa [hold y hyV, hold v hvV]⟩
    · obtain rfl := List.mem_singleton.mp hy
      exact ⟨by simp, .inl hwv⟩
  · -- the children of `v` are the heads seen: `w`, and the children met before
    rw [hsplit] at hx
    rcases List.mem_append.mp hx with hx | hx
    · exact List.mem_append_left _ (hkids x hx ((hold x hx).symm.trans hxv))
    · rcases List.mem_cons.mp hx with rfl | hx
      · exact List.mem_append_right _ (List.mem_singleton_self _)
      · obtain ⟨p, hp, hxp⟩ := hfr'.2 x hx
        obtain rfl : p = v := by exact_mod_cast hxp.symm.trans hxv
        exact absurd hp (hnd.2.2 hvV)

/-- **One head `w` of `v`.** From the state after the heads `done`, the iteration on `w`
succeeds and `w` is seen: a new `w` is searched by the recursive call, a visited `w` that is
`_edge_to[v]` is left alone, and any other visited `w` closes a cycle. -/
theorem Heads.step (hsym : ∀ u w, g.Adj u w → g.Adj w u)
    (hsimple : ∀ u w, u ≠ w → (g.adjList u).count w ≤ 1) {fuel : Nat} (ih : DfsSpec g fuel)
    {rest : List Nat} {w : Nat} (hL : (g.adjList v).reverse = done ++ w :: rest)
    (hf : g.nVertices < fuel + 1 + V.length) (h : Heads g c₀ V A v done c) :
    ∃ c', visitHead (dfs g fuel) v c w = .ok c' ∧ Heads g c₀ V A v (done ++ [w]) c' := by
  rcases h with hfound | ⟨W, hi, hfr, hseen, hkids⟩
  · exact ⟨c, by simp [visitHead, hfound.hasCycle], .inl hfound⟩
  have hvw : g.Adj v w := List.mem_reverse.mp (hL ▸ by simp)
  cases hw : c.state w with
  | false =>
    -- a new head: `_edge_to[w] = v`, and the recursive call
    obtain ⟨c', hc', hdone⟩ := ih _ (V ++ v :: W) (A ++ [v]) w (hi.setEdge (hi.not_mem hw) v) hw
      (g.adjList_lt v w hvw) (by simp [Parent, hvw])
      (by simp only [List.length_append, List.length_cons] at hf ⊢; omega)
    refine ⟨c', by simp [visitHead, hi.hasCycle, hw, hc'], ?_⟩
    rcases hdone with hfound | ⟨W', hi', hfr'⟩
    · exact .inl hfound
    · exact Heads.descend hi' hfr hfr' hseen hkids
  | true =>
    have hwV : w ∈ V ++ v :: W := (hi.visited w).mp hw
    by_cases hne : (w : Int) = c.edgeTo v
    · -- the parent of `v`
      refine ⟨c, by simp [visitHead, hi.hasCycle, hw, hne],
        .inr ⟨W, hi, hfr, fun y hy => ?_,
          fun x hx hxv => List.mem_append_left _ (hkids x hx hxv)⟩⟩
      rcases List.mem_append.mp hy with hy | hy
      · exact hseen y hy
      · obtain rfl := List.mem_singleton.mp hy
        exact ⟨hwV, .inr hne.symm⟩
    · -- any other visited head is on the stack, and closes a cycle
      obtain ⟨st, hst, hfound⟩ := hi.close hvw (hi.ancestor hsym hsimple hL hkids hwV hne) hne
      exact ⟨_, by simp [visitHead, hi.hasCycle, hw, hne, hst, bind, Except.bind], .inl hfound⟩

/-- The loop over the heads of `v`, from the state after `done` to its end. -/
theorem Heads.run (hsym : ∀ u w, g.Adj u w → g.Adj w u)
    (hsimple : ∀ u w, u ≠ w → (g.adjList u).count w ≤ 1) {fuel : Nat} (ih : DfsSpec g fuel)
    (hf : g.nVertices < fuel + 1 + V.length) :
    ∀ (rest done : List Nat) (c : GraphCycle), (g.adjList v).reverse = done ++ rest →
      Heads g c₀ V A v done c →
      ∃ c', rest.foldlM (visitHead (dfs g fuel) v) c = .ok c' ∧
        Heads g c₀ V A v (g.adjList v).reverse c'
  | [], done, c, hL, h => ⟨c, rfl, by simpa [hL] using h⟩
  | w :: rest, done, c, hL, h => by
    obtain ⟨c', hc', h'⟩ := h.step hsym hsimple ih hL hf
    obtain ⟨c'', hc'', h''⟩ :=
      Heads.run hsym hsimple ih hf rest (done ++ [w]) c' (by simp [hL]) h'
    exact ⟨c'', by rw [List.foldlM_cons, hc']; exact hc'', h''⟩

/-- **`_dfs(graph, v)`.** On a graph stored at both ends without parallel edges, `_dfs` from a
new vertex whose `_edge_to` is its parent, with fuel beyond the visited vertices, succeeds, and
either finds a cycle or visits `v` and then `W`, pops `v` and keeps the invariant. -/
theorem dfs_spec (hsym : ∀ u w, g.Adj u w → g.Adj w u)
    (hsimple : ∀ u w, u ≠ w → (g.adjList u).count w ≤ 1) : ∀ fuel, DfsSpec g fuel
  | 0 => fun c V A v h hv hvn _ hf => by
    have := length_le_of_nodup (List.nodup_cons.mpr ⟨h.not_mem hv, h.nodup⟩)
      fun u hu => (List.mem_cons.mp hu).elim (· ▸ hvn) (h.lt u)
    simp only [List.length_cons] at this
    omega
  | fuel + 1 => fun c V A v h hv hvn hpar hf => by
    have hi₁ := h.mark hv hvn hpar
    have h₀ : Heads g c V A v [] { c with state := Function.update c.state v true } :=
      .inr ⟨[], by simpa using hi₁, ⟨fun _ _ => rfl, by simp⟩, by simp,
        fun x hx hxv => absurd hxv (hi₁.no_child (h.not_mem hv) (by simpa using hx))⟩
    obtain ⟨c', hc', hend⟩ := Heads.run hsym hsimple (dfs_spec hsym hsimple fuel) hf
      (g.adjList v).reverse [] _ rfl h₀
    refine ⟨c', by simp only [dfs, if_pos (h.nVertices ▸ hvn), adj_eq hvn, bind, Except.bind, hc'],
      ?_⟩
    rcases hend with hfound | ⟨W, hi, hfr, hseen, -⟩
    · exact .inl hfound
    · exact .inr ⟨W, hi.pop fun y hy => hseen y (List.mem_reverse.mpr hy), hfr⟩

/-- Once a cycle is found, `_dfs` from any vertex leaves it. -/
theorem dfs_found (h : Found g c) (hv : v < g.nVertices) (fuel : Nat) :
    ∃ c', dfs g (fuel + 1) c v = .ok c' ∧ Found g c' := by
  -- marking `v` leaves `_cycle` as it is, and every head is skipped
  have h₁ : Found g { c with state := Function.update c.state v true } := h
  refine ⟨_, ?_, h₁⟩
  simp only [dfs, if_pos (h.1 ▸ hv), adj_eq hv, bind, Except.bind]
  exact foldlM_visitHead_found _ v h₁.hasCycle _

/-! ## The loop over the vertices -/

/-- The state of `GraphCycle(graph)` after the vertices below `k`: a cycle is found, or the
invariant holds with the stack empty, every vertex below `k` visited, and `_edge_to` still `-1`
off the visited vertices. -/
def Outer (g : DiGraph) (c : GraphCycle) (k : Nat) : Prop :=
  Found g c ∨ ∃ V, Inv g c V [] ∧ (∀ u ∉ V, c.edgeTo u = -1) ∧ ∀ u < k, u ∈ V

/-- One iteration of the loop of `__init__`, on the vertex `k`. -/
theorem Outer.step (hsym : ∀ u w, g.Adj u w → g.Adj w u)
    (hsimple : ∀ u w, u ≠ w → (g.adjList u).count w ≤ 1) {k : Nat} (h : Outer g c k)
    (hk : k < g.nVertices) :
    ∃ c', (if !c.state k then dfs g (g.nVertices + 1) c k else .ok c) = .ok c' ∧
      Outer g c' (k + 1) := by
  rcases h with hfound | ⟨V, hi, hroot, hV⟩
  · cases hs : c.state k
    · obtain ⟨c', hc', hfound'⟩ := dfs_found hfound hk g.nVertices
      exact ⟨c', by simp [hc'], .inl hfound'⟩
    · exact ⟨c, by simp, .inl hfound⟩
  have hV' : ∀ {V' : List Nat}, (∀ u ∈ V, u ∈ V') → k ∈ V' → ∀ u < k + 1, u ∈ V' :=
    fun hsub hkV' u hu => (Nat.lt_succ_iff_lt_or_eq.mp hu).elim (fun hu => hsub u (hV u hu))
      (· ▸ hkV')
  cases hs : c.state k with
  | true =>
    exact ⟨c, by simp, .inr ⟨V, hi, hroot, hV' (fun _ => id) ((hi.visited k).mp hs)⟩⟩
  | false =>
    -- a new root: `_edge_to[k]` is still `-1`
    have hkV := hi.not_mem hs
    obtain ⟨c', hc', hdone⟩ := dfs_spec hsym hsimple (g.nVertices + 1) c V [] k hi hs hk
      (hroot k hkV) (by omega)
    refine ⟨c', by simp [hc'], ?_⟩
    rcases hdone with hfound | ⟨W, hi', hfr⟩
    · exact .inl hfound
    · refine .inr ⟨V ++ k :: W, hi', fun u hu => ?_, hV' (fun u hu => by simp [hu]) (by simp)⟩
      simp only [List.mem_append, List.mem_cons, not_or] at hu
      rw [hfr.1 u hu.2.2]
      exact hroot u hu.1

/-- The loop of `__init__` over the vertices below `k` succeeds and ends `Outer`. -/
theorem outer_run (hsym : ∀ u w, g.Adj u w → g.Adj w u)
    (hsimple : ∀ u w, u ≠ w → (g.adjList u).count w ≤ 1) :
    ∀ k ≤ g.nVertices, ∃ c, (List.range k).foldlM
      (fun c s => if !c.state s then dfs g (g.nVertices + 1) c s else .ok c)
      ⟨g.nVertices, fun _ => false, fun _ => -1, Stack.init⟩ = .ok c ∧ Outer g c k
  | 0, _ => ⟨_, rfl, .inr ⟨[],
      ⟨rfl, by simp, .nil, by simp, by simp, .slnil, List.chain'_nil, by simp, rfl⟩,
      fun _ _ => rfl, by simp⟩⟩
  | k + 1, hk => by
    obtain ⟨c, hc, ho⟩ := outer_run hsym hsimple k (by omega)
    obtain ⟨c', hc', ho'⟩ := ho.step hsym hsimple (by omega : k < g.nVertices)
    refine ⟨c', ?_, ho'⟩
    rw [List.range_succ, List.foldlM_append, hc]
    simp only [List.foldlM_cons, List.foldlM_nil, bind_pure]
    exact hc'

/-- **Cycle detection.** On every undirected graph without parallel edges (each edge stored at
both ends, self-loops allowed), `GraphCycle(graph)` succeeds, so every walk back up `_edge_to`
reaches its `w`; `has_cycle()` holds exactly when the graph has a cycle; and `cycle()` then
iterates a cycle of the graph. -/
theorem graphCycle_correct (g : DiGraph) (hsym : ∀ u w, g.Adj u w → g.Adj w u)
    (hsimple : ∀ u w, u ≠ w → (g.adjList u).count w ≤ 1) :
    ∃ c, init g = .ok c ∧ (c.hasCycle = true ↔ ∃ cs, g.IsCycle cs) ∧
      ∀ r, c.cycle? = some r → ∃ cs, r.iter = cs.map (↑) ∧ g.IsCycle cs := by
  obtain ⟨c, hc, ho⟩ := outer_run hsym hsimple g.nVertices le_rfl
  refine ⟨c, hc, ?_, fun r hr => ?_⟩
  · rcases ho with hfound | ⟨V, hi, -, hV⟩
    · exact iff_of_true hfound.hasCycle (hfound.2.imp fun _ h => h.2)
    · -- every edge is a tree edge, parents visited first: a forest
      refine iff_of_false (by simp [hi.hasCycle]) fun ⟨cs, hcs⟩ =>
        not_isCycle_of_forest hsym c.edgeTo hV (fun x y hxy => ?_)
          (fun x hx p hp => (hi.tree x hx p hp).2.1) cs hcs
      exact (hi.closed x (hV x (g.adj_lt_left hxy)) (List.not_mem_nil x) y hxy).2
  · unfold cycle? at hr
    rcases ho with hfound | ⟨V, hi, -⟩
    · rw [if_pos hfound.hasCycle, Option.some_inj] at hr
      exact hr ▸ hfound.2
    · simp [hi.hasCycle] at hr

/-- The undirected triangle `0 - 1 - 2 - 0`, with the adjacency lists that `add_edge(0, 1)`,
`add_edge(1, 2)` and `add_edge(2, 0)` leave. -/
def cycleThree : DiGraph :=
  ⟨3, 3, fun v => if v = 0 then [1, 2] else if v = 1 then [0, 2] else if v = 2 then [1, 0] else [],
    fun v w hw => by dsimp only at hw; split_ifs at hw <;> simp at hw <;> omega,
    fun v hv => by
      simp only [if_neg (show v ≠ 0 by omega), if_neg (show v ≠ 1 by omega),
        if_neg (show v ≠ 2 by omega)]⟩

/-- On the triangle, which has the cycle `0, 1, 2, 0`, `has_cycle()` holds. -/
theorem graphCycle_correct_cycleThree :
    (∀ u w, cycleThree.Adj u w → cycleThree.Adj w u) ∧
    (∀ u w, u ≠ w → (cycleThree.adjList u).count w ≤ 1) ∧
    (∃ c, init cycleThree = .ok c ∧ (c.hasCycle = true ↔ ∃ cs, cycleThree.IsCycle cs) ∧
      ∀ r, c.cycle? = some r → ∃ cs, r.iter = cs.map (↑) ∧ cycleThree.IsCycle cs) ∧
    cycleThree.IsCycle [0, 1, 2, 0] := by
  have hsym : ∀ u w, cycleThree.Adj u w → cycleThree.Adj w u := fun u w h => by
    simp only [Adj, cycleThree] at h ⊢
    split_ifs at h <;> simp at h <;> rcases h with rfl | rfl <;> simp_all
  have hsimple : ∀ u w, u ≠ w → (cycleThree.adjList u).count w ≤ 1 := fun u w _ =>
    List.nodup_iff_count_le_one.mp (by simp only [cycleThree]; split_ifs <;> decide) w
  exact ⟨hsym, hsimple, graphCycle_correct _ hsym hsimple,
    ⟨by simp [Adj, cycleThree], rfl, by decide, by decide⟩⟩

end GraphCycle

end GraphAlgo
