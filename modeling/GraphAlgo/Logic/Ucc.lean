import GraphAlgo.Logic.Scc

/-!
# Connected components (`depth_first_ucc.py`)

`DepthFirstUCC._dfs` is `DepthFirstSCC._dfs` line for line, so the contract of the stack search
(`DepthFirstScc.dfs_spec`) holds of both (`dfs_marks_new_reach`). On a graph whose adjacency is
stored at both ends, reachability is symmetric, so the strong components are the connected
components and every vertex order meets the condition of the loop of pass 2 (`outer_run`):
`DepthFirstUCC(graph)`, which runs that loop over the vertices in order, numbers the connected
components (`depthFirstUcc_correct`).
-/

namespace GraphAlgo

namespace DepthFirstUcc

open DiGraph DepthFirstScc

/-- **`_dfs(graph, s)` of both component classes.** From a vertex `s` that is new, the
stack-based `_dfs` of `DepthFirstSCC` and of `DepthFirstUCC` terminates with the same result: it
marks visited, and gives the id `_count`, exactly the vertices reachable from `s` along a path
whose vertices were all new when the call began, and changes no other state or id. -/
theorem dfs_marks_new_reach {g : DiGraph} {d : DepthFirstScc} {s : Nat}
    (hn : d.nVertices = g.nVertices) (hs : s < g.nVertices) (hs0 : d.state s = false) :
    ∃ d', DepthFirstScc.dfs g d s = .ok d' ∧ DepthFirstUcc.dfs g d s = .ok d' ∧
      d'.nVertices = d.nVertices ∧ d'.count = d.count ∧
      ∀ u, (d'.state u = true ↔ d.state u = true ∨ NewReach g d.state s u) ∧
        (NewReach g d.state s u → d'.ids u = some d.count) ∧
        (¬ NewReach g d.state s u → d'.ids u = d.ids u) := by
  obtain ⟨d', h, hrest⟩ := DepthFirstScc.dfs_spec hn hs hs0
  exact ⟨d', h, h, hrest⟩

/-- The undirected path `0 - 1 - 2`, each edge stored at both ends. -/
def pathThree : DiGraph :=
  ⟨3, 2, fun v => if v = 0 then [1] else if v = 1 then [0, 2] else if v = 2 then [1] else [],
    fun v w hw => by dsimp only at hw; split_ifs at hw <;> simp at hw <;> omega,
    fun v hv => by
      simp only [if_neg (show v ≠ 0 by omega), if_neg (show v ≠ 1 by omega),
        if_neg (show v ≠ 2 by omega)]⟩

/-- A search state of `pathThree` in which an earlier call visited vertex 1 alone, with id 0. -/
def visitedOne : DepthFirstScc :=
  ⟨3, fun v => decide (v = 1), fun v => if v = 1 then some 0 else none, 1⟩

/-- From vertex 0 of the path with vertex 1 already visited: vertex 2 is reachable, but only
through vertex 1, so it is not reached through new vertices and keeps its state and id. -/
theorem dfs_marks_new_reach_pathThree :
    visitedOne.nVertices = pathThree.nVertices ∧ 0 < pathThree.nVertices ∧
    visitedOne.state 0 = false ∧
    (∃ d', DepthFirstScc.dfs pathThree visitedOne 0 = .ok d' ∧
      DepthFirstUcc.dfs pathThree visitedOne 0 = .ok d' ∧
      d'.nVertices = visitedOne.nVertices ∧ d'.count = visitedOne.count ∧
      ∀ u, (d'.state u = true ↔
          visitedOne.state u = true ∨ NewReach pathThree visitedOne.state 0 u) ∧
        (NewReach pathThree visitedOne.state 0 u → d'.ids u = some visitedOne.count) ∧
        (¬ NewReach pathThree visitedOne.state 0 u → d'.ids u = visitedOne.ids u)) ∧
    pathThree.Reach 0 2 ∧ ¬ NewReach pathThree visitedOne.state 0 2 := by
  -- the only new vertex next to 0 is none: 1 is visited
  have hnew : ∀ u, NewReach pathThree visitedOne.state 0 u → u = 0 := fun u hu => by
    induction hu with
    | refl => rfl
    | tail _ hab ih =>
      subst ih
      obtain ⟨hadj, hfresh⟩ := hab
      simp only [Adj, pathThree, if_pos, List.mem_singleton] at hadj
      subst hadj
      simp [visitedOne] at hfresh
  exact ⟨rfl, by decide, rfl,
    dfs_marks_new_reach (g := pathThree) (d := visitedOne) rfl (by decide) rfl,
    .tail (.single (show pathThree.Adj 0 1 by simp [Adj, pathThree])) (by simp [Adj, pathThree]),
    fun h => absurd (hnew 2 h) (by decide)⟩

/-- The undirected graph on `0, 1, 2` with the one edge `0 - 1`, stored at both ends. -/
def oneLink : DiGraph :=
  ⟨3, 1, fun v => if v = 0 then [1] else if v = 1 then [0] else [],
    fun v w hw => by dsimp only at hw; split_ifs at hw <;> simp_all,
    fun v hv => by simp only [if_neg (show v ≠ 0 by omega), if_neg (show v ≠ 1 by omega)]⟩

theorem oneLink_adj_symm : ∀ u w, oneLink.Adj u w → oneLink.Adj w u := fun u w h => by
  simp only [Adj, oneLink] at h ⊢
  split_ifs at h <;> simp_all

/-- **Connected components.** For every graph whose adjacency is stored at both ends,
`DepthFirstUCC(graph)` succeeds; two vertices have the same `id` (and are `connected`) exactly
when a path joins them; every vertex has an id below `count()`, each such id is some vertex's,
and `count()` is the number of connected components. -/
theorem depthFirstUcc_correct (g : DiGraph) (hsym : ∀ u w, g.Adj u w → g.Adj w u) :
    ∃ d, init g = .ok d ∧
      (∀ v < g.nVertices, ∀ w < g.nVertices,
        (d.id v = d.id w ↔ g.Reach v w) ∧ (d.connected v w = .ok true ↔ g.Reach v w)) ∧
      (∀ v < g.nVertices, ∃ j < d.count, d.id v = .ok (some j)) ∧
      (∀ j < d.count, ∃ v < g.nVertices, d.id v = .ok (some j)) ∧
      d.count = Set.ncard {C : Set Nat | ∃ v < g.nVertices,
        C = {w | w < g.nVertices ∧ g.Reach v w}} := by
  have hback : ∀ u w, g.Reach u w → g.Reach w u := fun _ _ h =>
    Relation.ReflTransGen.symmetric (fun u w h => hsym u w h) h
  have hstrong : ∀ u w, g.Strong u w ↔ g.Reach u w := fun u w => and_iff_left_of_imp (hback u w)
  -- in vertex order, no vertex reaches one that does not reach back
  obtain ⟨d, hd, hi⟩ := outer_run (L := List.range g.nVertices) (fun v hv => List.mem_range.mp hv)
    (fun _ v _ _ b _ hvb hbv => absurd (hback v b hvb) hbv) _ [] _ rfl (Outer.start g)
  obtain ⟨hcomp, hlt, htaken, hcount⟩ := hi.final fun v hv => List.mem_range.mpr hv
  refine ⟨d, hd, fun v hv w hw => ?_, hlt, htaken, ?_⟩
  · rw [← hstrong]
    exact hcomp v hv w hw
  · have hiff : ∀ v w, (g.Reach v w ∧ g.Reach w v) ↔ g.Reach v w := hstrong
    simpa only [hiff] using hcount

theorem depthFirstUcc_correct_oneLink :
    (∀ u w, oneLink.Adj u w → oneLink.Adj w u) ∧
    ∃ d, init oneLink = .ok d ∧
      (∀ v < oneLink.nVertices, ∀ w < oneLink.nVertices,
        (d.id v = d.id w ↔ oneLink.Reach v w) ∧ (d.connected v w = .ok true ↔ oneLink.Reach v w)) ∧
      (∀ v < oneLink.nVertices, ∃ j < d.count, d.id v = .ok (some j)) ∧
      (∀ j < d.count, ∃ v < oneLink.nVertices, d.id v = .ok (some j)) ∧
      d.count = Set.ncard {C : Set Nat | ∃ v < oneLink.nVertices,
        C = {w | w < oneLink.nVertices ∧ oneLink.Reach v w}} :=
  ⟨oneLink_adj_symm, depthFirstUcc_correct oneLink oneLink_adj_symm⟩

end DepthFirstUcc

end GraphAlgo
