import GraphAlgo.Algo.RecursiveDfs
import GraphAlgo.Logic.BreadthFirstPaths

/-!
# Recursive depth-first search finds paths

`DepthFirstPathsRecursive(graph, s)` visits exactly the vertices reachable from `s`, and
`path_to(v)` iterates a walk from `s` to `v` through distinct vertices
(`depthFirstPaths_correct`).

The invariant `Inv` of `_dfs` carries two ghost lists: `V`, the visited vertices in the order
they were visited, and `A`, the recursion stack. Every vertex off the stack has all its heads
visited (`closed`), and every visited vertex but the source has its `_edge_to` visited earlier,
along an edge (`tree`). So `_edge_to` is a tree rooted at the source whose parents come first in
`V`: following it, as the loop of `path_to` does, ends at the source after as many steps as the
position in `V` at most, through distinct vertices (`BreadthFirstPaths.pathToLoop_tree`).
-/

namespace GraphAlgo

open DiGraph

/-- A list of distinct vertices has at most as many entries as the graph has vertices. -/
theorem length_le_of_nodup {V : List Nat} {n : Nat} (hnd : V.Nodup) (hlt : ∀ u ∈ V, u < n) :
    V.length ≤ n := by
  simpa using (List.subperm_of_subset hnd fun u hu => List.mem_range.mpr (hlt u hu)).length_le

namespace BreadthFirstPaths

variable {g : DiGraph}

/-- **Following a tree.** When every vertex `x` of a list `V` other than the source has its
`_edge_to[x]` in `V`, earlier than `x`, along an edge, the loop of `path_to` from `x ∈ V`, on as
much fuel as the position of `x`, ends at the source and pushes a walk from it to `x` through
distinct vertices, in reverse, each no later in `V` than `x`. -/
theorem pathToLoop_tree {b : BreadthFirstPaths} {V : List Nat}
    (htree : ∀ x ∈ V, x ≠ b.source →
      b.edgeTo x ∈ V ∧ V.indexOf (b.edgeTo x) < V.indexOf x ∧ g.Adj (b.edgeTo x) x) :
    ∀ (fuel x : Nat) (r : Stack Nat), x ∈ V → V.indexOf x ≤ fuel →
      ∃ r', b.pathToLoop fuel x r = .ok r' ∧ ∃ T, r'.items = r.items ++ T ∧
        g.Walk b.source x T.reverse ∧ T.Nodup ∧ ∀ y ∈ T, V.indexOf y ≤ V.indexOf x
  | fuel, x, r, hx, hf => by
    by_cases hxs : x = b.source
    · subst hxs
      exact ⟨r.push b.source, pathToLoop_source b fuel r, [b.source], by simp, .nil,
        List.nodup_singleton _, by simp⟩
    obtain ⟨hp, hlt, hadj⟩ := htree x hx hxs
    match fuel with
    | 0 => omega
    | fuel + 1 =>
      obtain ⟨r', hr', T, hT, hw, hnd, hle⟩ :=
        pathToLoop_tree htree fuel (b.edgeTo x) (r.push x) hp (by omega)
      refine ⟨r', by rw [pathToLoop_succ b hxs]; exact hr', x :: T, by simp [hT],
        by simpa using hw.snoc hadj, ?_, ?_⟩
      · -- the walk back from `x` stays strictly before `x`
        exact List.nodup_cons.mpr ⟨fun hxT => by have := hle x hxT; omega, hnd⟩
      · intro y hy
        rcases List.mem_cons.mp hy with rfl | hy
        · exact le_rfl
        · exact (hle y hy).trans hlt.le

end BreadthFirstPaths

namespace DepthFirstPathsRecursive

variable {g : DiGraph} {s : Nat}

/-- The invariant of `_dfs` from `s`, with `V` the visited vertices in visiting order and `A` the
recursion stack: a vertex off the stack has its heads visited, and a visited vertex other than
`s` has its `_edge_to` visited before it, along an edge. -/
structure Inv (g : DiGraph) (s : Nat) (p : DepthFirstPathsRecursive) (V A : List Nat) :
    Prop where
  source : p.source = s
  nVertices : p.nVertices = g.nVertices
  visited : ∀ u, p.state u = true ↔ u ∈ V
  nodup : V.Nodup
  lt : ∀ u ∈ V, u < g.nVertices
  closed : ∀ x ∈ V, x ∉ A → ∀ y, g.Adj x y → y ∈ V
  tree : ∀ x ∈ V, x ≠ s → p.edgeTo x ∈ V ∧ V.indexOf (p.edgeTo x) < V.indexOf x ∧
    g.Adj (p.edgeTo x) x

variable {p : DepthFirstPathsRecursive} {V A : List Nat} {v : Nat}

theorem Inv.not_mem (h : Inv g s p V A) (hv : p.state v = false) : v ∉ V := fun hm => by
  simp [(h.visited v).mpr hm] at hv

/-- Setting `_edge_to` of an unvisited vertex keeps the invariant. -/
theorem Inv.setEdge (h : Inv g s p V A) {w : Nat} (hw : w ∉ V) (x : Nat) :
    Inv g s { p with edgeTo := Function.update p.edgeTo w x } V A :=
  { h with
    tree := fun y hy hys => by
      have hyw : y ≠ w := fun hyw => hw (hyw ▸ hy)
      simpa only [Function.update_noteq hyw] using h.tree y hy hys }

/-- Marking an unvisited vertex `v`, whose `_edge_to` is visited along an edge unless `v` is the
source, visits it last and puts it on the stack. -/
theorem Inv.mark (h : Inv g s p V A) (hv : p.state v = false) (hvn : v < g.nVertices)
    (hpar : v ≠ s → p.edgeTo v ∈ V ∧ g.Adj (p.edgeTo v) v) :
    Inv g s { p with state := Function.update p.state v true } (V ++ [v]) (A ++ [v]) where
  source := h.source
  nVertices := h.nVertices
  visited u := by
    by_cases hu : u = v
    · subst hu; simp
    · simp [Function.update_noteq hu, h.visited u, hu]
  nodup := List.nodup_append.mpr ⟨h.nodup, List.nodup_singleton v,
    List.disjoint_singleton.mpr (h.not_mem hv)⟩
  lt u hu := by
    rcases List.mem_append.mp hu with hu | hu
    · exact h.lt u hu
    · exact List.mem_singleton.mp hu ▸ hvn
  closed x hx hxA y hxy := by
    have hxV : x ∈ V := (List.mem_append.mp hx).resolve_right fun h' => hxA (by simp_all)
    exact List.mem_append_left _ (h.closed x hxV (fun h' => hxA (List.mem_append_left _ h')) y hxy)
  tree x hx hxs := by
    have hidx : ∀ u ∈ V, (V ++ [v]).indexOf u = V.indexOf u := fun u hu =>
      List.indexOf_append_of_mem hu
    rcases List.mem_append.mp hx with hx | hx
    · obtain ⟨hp, hlt, hadj⟩ := h.tree x hx hxs
      exact ⟨List.mem_append_left _ hp, by rw [hidx _ hp, hidx x hx]; exact hlt, hadj⟩
    · obtain rfl := List.mem_singleton.mp hx
      obtain ⟨hp, hadj⟩ := hpar hxs
      refine ⟨List.mem_append_left _ hp, ?_, hadj⟩
      rw [hidx _ hp, List.indexOf_append_of_not_mem (h.not_mem hv), List.indexOf_cons_self]
      exact (List.indexOf_lt_length.mpr hp).trans_le (Nat.le_add_right _ _)

/-- Popping `v`, the top of the stack, once all its heads are visited. -/
theorem Inv.pop (h : Inv g s p V (A ++ [v])) (hdone : ∀ y, g.Adj v y → y ∈ V) :
    Inv g s p V A :=
  { h with
    closed := fun x hx hxA y hxy => by
      by_cases hxv : x = v
      · exact hdone y (hxv ▸ hxy)
      · exact h.closed x hx (by simp [hxA, hxv]) y hxy }

/-- **`_dfs(graph, v)`.** On an unvisited vertex `v` whose `_edge_to` is visited along an edge
unless `v` is the source, with fuel beyond the visited vertices, `_dfs` succeeds, keeps `Inv`,
and visits `v` and then only more vertices. -/
theorem dfs_spec : ∀ (fuel : Nat) (p : DepthFirstPathsRecursive) (V A : List Nat) (v : Nat),
    Inv g s p V A → p.state v = false → v < g.nVertices →
    (v ≠ s → p.edgeTo v ∈ V ∧ g.Adj (p.edgeTo v) v) → g.nVertices < fuel + V.length →
    ∃ p' V', dfs g fuel p v = .ok p' ∧ Inv g s p' V' A ∧ V ++ [v] <+: V' := by
  intro fuel
  induction fuel with
  | zero =>
    intro p V A v h hv hvn _ hf
    have := length_le_of_nodup (List.nodup_cons.mpr ⟨h.not_mem hv, h.nodup⟩)
      fun u hu => (List.mem_cons.mp hu).elim (· ▸ hvn) (h.lt u)
    simp only [List.length_cons] at this
    omega
  | succ fuel ih =>
    intro p V A v h hv hvn hpar hf
    -- the loop over the heads of `v`, with a recursive call on each unvisited one
    have heads : ∀ (ws : List Nat) (p₁ : DepthFirstPathsRecursive) (V₁ : List Nat),
        Inv g s p₁ V₁ (A ++ [v]) → (∀ w ∈ ws, g.Adj v w) → V ++ [v] <+: V₁ →
        ∃ p₂ V₂, ws.foldlM (fun p w => if !p.state w then
            dfs g fuel { p with edgeTo := Function.update p.edgeTo w v } w else .ok p) p₁ =
          .ok p₂ ∧ Inv g s p₂ V₂ (A ++ [v]) ∧ V₁ <+: V₂ ∧ ∀ w ∈ ws, w ∈ V₂ := by
      intro ws
      induction ws with
      | nil => intro p₁ V₁ h₁ _ _; exact ⟨p₁, V₁, rfl, h₁, List.prefix_refl _, by simp⟩
      | cons w ws ihw =>
        intro p₁ V₁ h₁ hws hpre
        have hvw : g.Adj v w := hws w (List.mem_cons_self w ws)
        have hvV : v ∈ V₁ := hpre.subset (by simp)
        obtain ⟨p₂, V₂, h₂, hi₂, hpre₂, hw₂⟩ : ∃ p₂ V₂, (if !p₁.state w then
            dfs g fuel { p₁ with edgeTo := Function.update p₁.edgeTo w v } w else .ok p₁) =
            .ok p₂ ∧ Inv g s p₂ V₂ (A ++ [v]) ∧ V₁ <+: V₂ ∧ w ∈ V₂ := by
          cases hw : p₁.state w with
          | true => exact ⟨p₁, V₁, by simp, h₁, List.prefix_refl _, (h₁.visited w).mp hw⟩
          | false =>
            have hlen := hpre.length_le
            simp only [List.length_append, List.length_singleton] at hlen
            obtain ⟨p₂, V₂, h₂, hi₂, hpre₂⟩ := ih _ V₁ (A ++ [v]) w
              (h₁.setEdge (h₁.not_mem hw) v) hw (g.adjList_lt v w hvw)
              (fun _ => ⟨by simpa using hvV, by simpa using hvw⟩) (by omega)
            exact ⟨p₂, V₂, by simp [h₂], hi₂, (List.prefix_append _ _).trans hpre₂,
              hpre₂.subset (by simp)⟩
        obtain ⟨p₃, V₃, h₃, hi₃, hpre₃, hws₃⟩ := ihw p₂ V₂ hi₂
          (fun x hx => hws x (List.mem_cons_of_mem w hx)) (hpre.trans hpre₂)
        refine ⟨p₃, V₃, by rw [List.foldlM_cons, h₂]; exact h₃, hi₃, hpre₂.trans hpre₃, ?_⟩
        intro x hx
        rcases List.mem_cons.mp hx with rfl | hx
        · exact hpre₃.subset hw₂
        · exact hws₃ x hx
    obtain ⟨p₁, V₁, h₁, hi₁, hpre₁, hws₁⟩ := heads (g.adjList v).reverse _ _
      (h.mark hv hvn hpar) (fun w hw => List.mem_reverse.mp hw) (List.prefix_refl _)
    refine ⟨p₁, V₁, ?_, hi₁.pop fun w hw => hws₁ w (List.mem_reverse.mpr hw), hpre₁⟩
    simp only [dfs, if_pos (h.nVertices ▸ hvn), adj_eq hvn, bind, Except.bind, h₁]

/-- After `DepthFirstPathsRecursive(graph, s)` from a vertex `s`: the invariant with the stack
empty, `s` visited first. -/
theorem init_spec (hs : s < g.nVertices) :
    ∃ p V, init g s = .ok p ∧ Inv g s p V [] ∧ s ∈ V := by
  have h₀ : Inv g s ⟨s, g.nVertices, fun _ => false, fun _ => 0⟩ [] [] :=
    ⟨rfl, rfl, by simp, List.nodup_nil, by simp, by simp, by simp⟩
  obtain ⟨p, V, h, hi, hpre⟩ := dfs_spec (g.nVertices + 1) _ [] [] s h₀ rfl hs
    (fun h => absurd rfl h) (by simp)
  exact ⟨p, V, h, hi, hpre.subset (by simp)⟩

/-- With the stack empty, the visited vertices are those reachable from `s`. -/
theorem Inv.visited_iff (h : Inv g s p V []) (hsV : s ∈ V) (u : Nat) :
    u ∈ V ↔ g.Reach s u := by
  constructor
  · intro hu
    obtain ⟨-, -, T, -, hw, -⟩ := BreadthFirstPaths.pathToLoop_tree (b := p.paths)
      (fun x hx hxs => h.tree x hx (h.source ▸ hxs)) _ u Stack.init hu le_rfl
    exact h.source ▸ hw.reach
  · intro hu
    induction hu with
    | refl => exact hsV
    | tail _ hxy ih => exact h.closed _ ih (List.not_mem_nil _) _ hxy

/-- **Depth-first paths.** For every graph and every source `s`, `DepthFirstPathsRecursive(graph,
s)` succeeds; `is_visited(v)` holds exactly when `v` is reachable from `s`; and for a reachable
`v`, `path_to(v)` ends and iterates a walk from `s` to `v`, each vertex a head of the one before,
through distinct vertices, while for any other vertex it returns `None`. -/
theorem depthFirstPaths_correct (g : DiGraph) (s : Nat) (hs : s < g.nVertices) :
    ∃ p, init g s = .ok p ∧ ∀ v < g.nVertices,
      (p.isVisited v = .ok true ↔ g.Reach s v) ∧
      (g.Reach s v → ∃ r, p.pathTo v g.nVertices = .ok (some r) ∧ g.Walk s v r.iter ∧
        r.iter.Nodup) ∧
      (¬ g.Reach s v → p.pathTo v g.nVertices = .ok none) := by
  obtain ⟨p, V, hp, h, hsV⟩ := init_spec hs
  have hvis : ∀ v < g.nVertices, p.paths.isVisited v = .ok (p.state v) := fun v hv => by
    simp [paths, BreadthFirstPaths.isVisited, h.nVertices, hv]
  have hiff : ∀ u, p.state u = true ↔ g.Reach s u := fun u => (h.visited u).trans
    (h.visited_iff hsV u)
  refine ⟨p, hp, fun v hv => ⟨by rw [isVisited, hvis v hv, Except.ok.injEq, hiff], fun hr => ?_,
    fun hr => ?_⟩⟩
  · -- a reachable vertex: the loop of `path_to` follows the tree back to `s`
    have hvV : v ∈ V := (h.visited v).mp ((hiff v).mpr hr)
    obtain ⟨r, hr', T, hT, hw, hnd, -⟩ := BreadthFirstPaths.pathToLoop_tree (b := p.paths)
      (fun x hx hxs => h.tree x hx (h.source ▸ hxs)) g.nVertices v Stack.init hvV
      ((List.indexOf_lt_length.mpr hvV).le.trans (length_le_of_nodup h.nodup h.lt))
    have hiter : r.iter = T.reverse := by rw [Stack.iter_eq, hT]; simp
    refine ⟨r, ?_, by rw [hiter]; exact h.source ▸ hw, by rw [hiter]; exact List.nodup_reverse.mpr hnd⟩
    simp [pathTo, BreadthFirstPaths.pathTo, hvis v hv, (hiff v).mpr hr, hr', bind, Except.bind,
      Except.map]
  · -- any other vertex is unvisited
    have hvf : p.state v = false := Bool.eq_false_iff.mpr (mt (hiff v).mp hr)
    simp [pathTo, BreadthFirstPaths.pathTo, hvis v hv, hvf, bind, Except.bind]

open BreadthFirstPaths in
theorem depthFirstPaths_correct_oneEdge :
    0 < oneEdge.nVertices ∧ ∃ p, init oneEdge 0 = .ok p ∧ ∀ v < oneEdge.nVertices,
      (p.isVisited v = .ok true ↔ oneEdge.Reach 0 v) ∧
      (oneEdge.Reach 0 v → ∃ r, p.pathTo v oneEdge.nVertices = .ok (some r) ∧
        oneEdge.Walk 0 v r.iter ∧ r.iter.Nodup) ∧
      (¬ oneEdge.Reach 0 v → p.pathTo v oneEdge.nVertices = .ok none) :=
  ⟨by decide, depthFirstPaths_correct oneEdge 0 (by decide)⟩

end DepthFirstPathsRecursive

end GraphAlgo
