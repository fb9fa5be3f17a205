import GraphAlgo.Algo.DepthFirstScc
import Mathlib.Data.Finset.Max

/-!
# The recursive topological sort pushes a postorder

`DepthFirstTopoSortRecursive(graph)` succeeds and pushes every vertex exactly once
(`topoSort_spec`). The order it pushes them in is a DFS postorder: when a vertex `c` is pushed,
every edge out of a vertex pushed so far ends at a vertex pushed so far or at one still on the
recursion stack, and those all reach `c` (`Postorder`). The ghost list `A` of the invariant `Inv`
is that recursion stack, outermost call first; `dfs_spec` is the contract of `_dfs`, proved by
induction on its fuel.

`Postorder.later` draws the consequence pass 2 of `DepthFirstSCC` needs: if `b` reaches `r` and
`r` does not reach `b`, some vertex of the strong component of `b` is pushed after `r`.
-/

namespace GraphAlgo

namespace DepthFirstTopoSortRecursive

open DiGraph

variable {g : DiGraph}

/-- **Postorder.** For every pushed vertex `c`: every edge out of a vertex pushed no later than
`c` ends at a vertex pushed no later than `c`, or at a vertex that reaches `c`. -/
def Postorder (g : DiGraph) (P : List Nat) : Prop :=
  ∀ c ∈ P, ∀ x ∈ P, P.indexOf x ≤ P.indexOf c → ∀ y, g.Adj x y →
    (y ∈ P ∧ P.indexOf y ≤ P.indexOf c) ∨ g.Reach y c

/-- The invariant of `_dfs`, with `A` the recursion stack: a vertex is visited when pushed or on
the stack, each once; a pushed vertex's heads are visited; each vertex on the stack reaches
those above it; and the pushes so far are a postorder. -/
structure Inv (g : DiGraph) (t : DepthFirstTopoSortRecursive) (A : List Nat) : Prop where
  visited : ∀ v, t.state v = true ↔ v ∈ t.vertices.items ∨ v ∈ A
  nodup : (t.vertices.items ++ A).Nodup
  lt : ∀ v, t.state v = true → v < g.nVertices
  done : ∀ x ∈ t.vertices.items, ∀ y, g.Adj x y → t.state y = true
  gray : A.Pairwise g.Reach
  post : Postorder g t.vertices.items

/-- A run only marks vertices and only pushes. -/
def Grows (t t' : DepthFirstTopoSortRecursive) : Prop :=
  (∀ u, t.state u = true → t'.state u = true) ∧ t.vertices.items <+: t'.vertices.items

theorem Grows.refl (t : DepthFirstTopoSortRecursive) : Grows t t := ⟨fun _ h => h, List.prefix_refl _⟩

theorem Grows.trans {t₁ t₂ t₃ : DepthFirstTopoSortRecursive} (h₁ : Grows t₁ t₂) (h₂ : Grows t₂ t₃) :
    Grows t₁ t₃ :=
  ⟨fun u h => h₂.1 u (h₁.1 u h), h₁.2.trans h₂.2⟩

variable {t : DepthFirstTopoSortRecursive} {A : List Nat} {v : Nat}

/-- Pushed and stacked vertices are distinct vertices, and an unvisited vertex is one more. -/
theorem Inv.length_lt (h : Inv g t A) (hv : t.state v = false) (hvn : v < g.nVertices) :
    t.vertices.items.length + A.length < g.nVertices := by
  have hnot : v ∉ t.vertices.items ++ A := fun hm => by
    simp [(h.visited v).mpr (List.mem_append.mp hm)] at hv
  have hnd : (t.vertices.items ++ A ++ [v]).Nodup :=
    List.nodup_append.mpr ⟨h.nodup, List.nodup_singleton v, List.disjoint_singleton.mpr hnot⟩
  have := (List.subperm_of_subset hnd fun x hx => List.mem_range.mpr <| by
    rcases List.mem_append.mp hx with hx | hx
    · exact h.lt x ((h.visited x).mpr (List.mem_append.mp hx))
    · rw [List.mem_singleton.mp hx]; exact hvn).length_le
  simp at this
  omega

/-- Marking an unvisited vertex `v` that every stacked vertex reaches puts it on the stack. -/
theorem Inv.mark (h : Inv g t A) (hv : t.state v = false) (hvn : v < g.nVertices)
    (hA : ∀ a ∈ A, g.Reach a v) :
    Inv g { t with state := Function.update t.state v true } (A ++ [v]) where
  visited u := by
    by_cases hu : u = v
    · subst hu; simp
    · simp [Function.update_noteq hu, h.visited u, hu]
  nodup := by
    have hnot : v ∉ t.vertices.items ++ A := fun hm => by
      simp [(h.visited v).mpr (List.mem_append.mp hm)] at hv
    rw [← List.append_assoc]
    exact List.nodup_append.mpr ⟨h.nodup, List.nodup_singleton v, List.disjoint_singleton.mpr hnot⟩
  lt u hu := by
    by_cases huv : u = v
    · exact huv ▸ hvn
    · exact h.lt u (by simpa [Function.update_noteq huv] using hu)
  done x hx y hxy := by
    by_cases hy : y = v
    · rw [hy]; exact Function.update_same _ _ _
    · simpa [Function.update_noteq hy] using h.done x hx y hxy
  gray := List.pairwise_append.mpr ⟨h.gray, List.pairwise_singleton _ v,
    fun a ha b hb => List.mem_singleton.mp hb ▸ hA a ha⟩
  post := h.post

/-- Pushing `v`, the top of the stack, once all its heads are visited. -/
theorem Inv.push (h : Inv g t (A ++ [v])) (hdone : ∀ w, g.Adj v w → t.state w = true) :
    Inv g { t with vertices := t.vertices.push v } A where
  visited u := by
    rw [h.visited u]
    simp only [Stack.push_items, List.mem_append, List.mem_singleton, or_assoc]
    exact or_congr_right or_comm
  nodup := by
    have hperm : List.Perm (t.vertices.items ++ [v] ++ A) (t.vertices.items ++ (A ++ [v])) := by
      rw [List.append_assoc]; exact List.perm_append_comm.append_left _
    exact hperm.nodup_iff.mpr h.nodup
  lt := h.lt
  done x hx y hxy := by
    rcases List.mem_append.mp hx with hx | hx
    · exact h.done x hx y hxy
    · exact hdone y (List.mem_singleton.mp hx ▸ hxy)
  gray := (List.pairwise_append.mp h.gray).1
  post := by
    have hv : v ∉ t.vertices.items := fun hm =>
      List.disjoint_of_nodup_append h.nodup hm (List.mem_append_right A (List.mem_singleton_self v))
    intro c hc x hx hxc y hxy
    simp only [Stack.push_items] at hc hx hxc ⊢
    -- indices in `P ++ [v]`
    have hidx : ∀ u ∈ t.vertices.items,
        (t.vertices.items ++ [v]).indexOf u = t.vertices.items.indexOf u :=
      fun u hu => List.indexOf_append_of_mem hu
    have hlast : (t.vertices.items ++ [v]).indexOf v = t.vertices.items.length := by
      rw [List.indexOf_append_of_not_mem hv]; simp
    -- a visited head is pushed, or on the stack below `v`, or `v`
    have hvis : ∀ y, t.state y = true →
        (y ∈ t.vertices.items ++ [v] ∧ (t.vertices.items ++ [v]).indexOf y ≤ t.vertices.items.length)
          ∨ g.Reach y v := fun y hy => by
      rcases (h.visited y).mp hy with hy | hy
      · exact .inl ⟨List.mem_append_left _ hy, by
          rw [hidx y hy]; exact List.indexOf_lt_length.mpr hy |>.le⟩
      · rcases List.mem_append.mp hy with hy | hy
        · exact .inr ((List.pairwise_append.mp h.gray).2.2 y hy v (List.mem_singleton_self v))
        · rw [List.mem_singleton.mp hy]; exact .inr .refl
    rcases List.mem_append.mp hc with hc | hc
    · -- an earlier push: the old postorder, with the same indices
      have hxP : x ∈ t.vertices.items := by
        rcases List.mem_append.mp hx with hx | hx
        · exact hx
        · rw [List.mem_singleton.mp hx, hlast, hidx c hc] at hxc
          exact absurd hxc (not_le.mpr (List.indexOf_lt_length.mpr hc))
      rw [hidx x hxP, hidx c hc] at hxc
      rcases h.post c hc x hxP hxc y hxy with ⟨hy, hyc⟩ | hyc
      · exact .inl ⟨List.mem_append_left _ hy, by rw [hidx y hy, hidx c hc]; exact hyc⟩
      · exact .inr hyc
    · -- the push of `v` itself
      rw [List.mem_singleton.mp hc, hlast]
      rcases List.mem_append.mp hx with hx | hx
      · exact hvis y (h.done x hx y hxy)
      · exact hvis y (hdone y (List.mem_singleton.mp hx ▸ hxy))

/-- **`_dfs(graph, v)`.** On an unvisited vertex `v` that every stacked vertex reaches, with
fuel beyond the vertices not yet pushed or stacked, `_dfs` succeeds, keeps `Inv`, and marks
`v`. -/
theorem dfs_spec : ∀ (fuel : Nat) (t : DepthFirstTopoSortRecursive) (A : List Nat) (v : Nat),
    Inv g t A → t.state v = false → v < g.nVertices → (∀ a ∈ A, g.Reach a v) →
    g.nVertices < fuel + (t.vertices.items.length + A.length) →
    ∃ t', dfs g fuel t v = .ok t' ∧ Inv g t' A ∧ Grows t t' ∧ t'.state v = true := by
  intro fuel
  induction fuel with
  | zero =>
    intro t A v h hv hvn _ hf
    have := h.length_lt hv hvn
    omega
  | succ fuel ih =>
    intro t A v h hv hvn hA hf
    -- the loop over the heads of `v`, with a recursive call on each unvisited one
    have heads : ∀ (ws : List Nat) (t₁ : DepthFirstTopoSortRecursive), Inv g t₁ (A ++ [v]) →
        (∀ w ∈ ws, g.Adj v w) → t.vertices.items.length ≤ t₁.vertices.items.length →
        ∃ t₂, ws.foldlM (fun t w => if !t.state w then dfs g fuel t w else .ok t) t₁ = .ok t₂ ∧
          Inv g t₂ (A ++ [v]) ∧ Grows t₁ t₂ ∧ ∀ w ∈ ws, t₂.state w = true := by
      intro ws
      induction ws with
      | nil => intro t₁ h₁ _ _; exact ⟨t₁, rfl, h₁, Grows.refl t₁, by simp⟩
      | cons w ws ihw =>
        intro t₁ h₁ hws hlen
        have hvw : g.Adj v w := hws w (List.mem_cons_self w ws)
        obtain ⟨t₂, h₂, hi₂, hg₂, hw₂⟩ : ∃ t₂, (if !t₁.state w then dfs g fuel t₁ w else .ok t₁) =
            .ok t₂ ∧ Inv g t₂ (A ++ [v]) ∧ Grows t₁ t₂ ∧ t₂.state w = true := by
          cases hw : t₁.state w with
          | true => exact ⟨t₁, by simp, h₁, Grows.refl t₁, hw⟩
          | false =>
            obtain ⟨t₂, h₂, hi₂, hg₂, hw₂⟩ := ih t₁ (A ++ [v]) w h₁ hw (g.adjList_lt v w hvw)
              (fun a ha => by
                rcases List.mem_append.mp ha with ha | ha
                · exact (hA a ha).tail hvw
                · exact List.mem_singleton.mp ha ▸ Relation.ReflTransGen.single hvw)
              (by simp only [List.length_append, List.length_singleton]; omega)
            exact ⟨t₂, by simp [h₂], hi₂, hg₂, hw₂⟩
        obtain ⟨t₃, h₃, hi₃, hg₃, hws₃⟩ := ihw t₂ hi₂ (fun x hx => hws x (List.mem_cons_of_mem w hx))
          (hlen.trans hg₂.2.length_le)
        refine ⟨t₃, by rw [List.foldlM_cons, h₂]; exact h₃, hi₃, hg₂.trans hg₃, ?_⟩
        intro x hx
        rcases List.mem_cons.mp hx with rfl | hx
        · exact hg₃.1 _ hw₂
        · exact hws₃ x hx
    obtain ⟨t₁, h₁, hi₁, hg₁, hws₁⟩ := heads (g.adjList v).reverse _ (h.mark hv hvn hA)
      (fun w hw => List.mem_reverse.mp hw) le_rfl
    have hmark : ∀ u, t.state u = true → t₁.state u = true := fun u hu => hg₁.1 u <| by
      by_cases huv : u = v
      · rw [huv]; exact Function.update_same _ _ _
      · simpa [Function.update_noteq huv] using hu
    refine ⟨{ t₁ with vertices := t₁.vertices.push v }, ?_,
      hi₁.push fun w hw => hws₁ w (List.mem_reverse.mpr hw),
      ⟨hmark, hg₁.2.trans (List.prefix_append _ _)⟩, hg₁.1 v (Function.update_same _ _ _)⟩
    simp only [dfs, if_pos hvn, adj_eq hvn, bind, Except.bind, h₁]

/-- **Pass 1.** `DepthFirstTopoSortRecursive(graph)` succeeds and pushes every vertex exactly
once, in a postorder. -/
theorem topoSort_spec (g : DiGraph) :
    ∃ t, init g = .ok t ∧ t.vertices.items.Nodup ∧
      (∀ v, v ∈ t.vertices.items ↔ v < g.nVertices) ∧ Postorder g t.vertices.items := by
  have h₀ : Inv g ⟨fun _ => false, Stack.init⟩ [] :=
    { visited := by simp
      nodup := List.nodup_nil
      lt := by simp
      done := by simp
      gray := List.Pairwise.nil
      post := by simp [Postorder] }
  -- after the vertices below `k`, each of them is visited
  have key : ∀ k ≤ g.nVertices, ∃ t, (List.range k).foldlM
      (fun t v => if !t.state v then dfs g (g.nVertices + 1) t v else .ok t)
      ⟨fun _ => false, Stack.init⟩ = .ok t ∧ Inv g t [] ∧ ∀ v < k, t.state v = true := by
    intro k
    induction k with
    | zero => intro _; exact ⟨_, rfl, h₀, by simp⟩
    | succ k ih =>
      intro hk
      obtain ⟨t₁, h₁, hi₁, hv₁⟩ := ih (by omega)
      obtain ⟨t₂, h₂, hi₂, hg₂, hk₂⟩ : ∃ t₂, (if !t₁.state k then dfs g (g.nVertices + 1) t₁ k
          else .ok t₁) = .ok t₂ ∧ Inv g t₂ [] ∧ Grows t₁ t₂ ∧ t₂.state k = true := by
        cases hk' : t₁.state k with
        | true => exact ⟨t₁, by simp, hi₁, Grows.refl t₁, hk'⟩
        | false =>
          obtain ⟨t₂, h, hi, hg, hs⟩ :=
            dfs_spec (g.nVertices + 1) t₁ [] k hi₁ hk' (by omega) (by simp) (by simp; omega)
          exact ⟨t₂, by simp [h], hi, hg, hs⟩
      refine ⟨t₂, ?_, hi₂, fun v hv => ?_⟩
      · rw [List.range_succ, List.foldlM_append, h₁]
        simp only [bind, Except.bind, List.foldlM_cons, List.foldlM_nil, h₂]
        rfl
      · by_cases hvk : v = k
        · exact hvk ▸ hk₂
        · exact hg₂.1 v (hv₁ v (by omega))
  obtain ⟨t, h, hi, hall⟩ := key g.nVertices le_rfl
  refine ⟨t, h, by simpa using hi.nodup, fun v => ⟨fun hv => ?_, fun hv => ?_⟩, hi.post⟩
  · exact hi.lt v ((hi.visited v).mpr (.inl hv))
  · simpa using (hi.visited v).mp (hall v hv)

/-- In a list, a vertex of smaller position stands before one of larger position. -/
theorem pair_sublist_of_indexOf_lt {a b : Nat} : ∀ {P : List Nat}, b ∈ P →
    P.indexOf a < P.indexOf b → List.Sublist [a, b] P
  | [], hb, _ => absurd hb (List.not_mem_nil b)
  | x :: P, hb, h => by
    by_cases hbx : b = x
    · simp [hbx] at h
    have hbP : b ∈ P := (List.mem_cons.mp hb).resolve_left hbx
    by_cases hax : a = x
    · subst hax; exact (List.singleton_sublist.mpr hbP).cons₂ a
    · rw [List.indexOf_cons_ne _ (Ne.symm hax), List.indexOf_cons_ne _ (Ne.symm hbx)] at h
      exact (pair_sublist_of_indexOf_lt hbP (by omega)).cons x

/-- **Topological order.** Iterating `DepthFirstTopoSortRecursive(graph)` yields every vertex
exactly once, and, on a graph with no directed cycle, the tail of every edge before its head:
the postorder pushes the head first, and the stack iterates last pushed first. -/
theorem topoSort_iter_order (g : DiGraph) :
    ∃ t, init g = .ok t ∧ t.iter.Nodup ∧ (∀ v, v ∈ t.iter ↔ v < g.nVertices) ∧
      ((∀ v, ¬ Relation.TransGen g.Adj v v) → ∀ v w, g.Adj v w → List.Sublist [v, w] t.iter) := by
  obtain ⟨t, h, hnd, hall, hpost⟩ := topoSort_spec g
  refine ⟨t, h, by simpa [iter, Stack.iter_eq] using hnd,
    fun v => by simp [iter, Stack.iter_eq, hall], fun hacyc v w hvw => ?_⟩
  have hv : v ∈ t.vertices.items := (hall v).mpr (g.adj_lt_left hvw)
  have hwv : w ≠ v := fun h => hacyc v (.single (h ▸ hvw))
  rcases hpost v hv v hv le_rfl w hvw with ⟨hw, hle⟩ | hwr
  · have hlt : t.vertices.items.indexOf w < t.vertices.items.indexOf v :=
      lt_of_le_of_ne hle fun h => hwv ((List.indexOf_inj hw hv).mp h)
    simpa [iter, Stack.iter_eq] using List.reverse_sublist.mpr (pair_sublist_of_indexOf_lt hv hlt)
  · exact absurd (Relation.TransGen.head' hvw hwr) (hacyc v)

/-- **Strong components in postorder.** In a postorder of all the vertices, if `b` reaches `r`
and `r` does not reach `b`, some vertex of the strong component of `b` is pushed after `r`: the
last-pushed one. -/
theorem Postorder.later {P : List Nat} (hP : Postorder g P)
    (hall : ∀ v, v ∈ P ↔ v < g.nVertices) {b r : Nat} (hb : b < g.nVertices)
    (hbr : g.Reach b r) (hrb : ¬ g.Reach r b) :
    ∃ c, g.Reach b c ∧ g.Reach c b ∧ P.indexOf r < P.indexOf c := by
  classical
  obtain ⟨c, hc, hmax⟩ := Finset.exists_max_image
    ((Finset.range g.nVertices).filter fun x => g.Reach b x ∧ g.Reach x b) P.indexOf
    ⟨b, by simp only [Finset.mem_filter, Finset.mem_range]; exact ⟨hb, .refl, .refl⟩⟩
  simp only [Finset.mem_filter, Finset.mem_range] at hc hmax
  obtain ⟨hcn, hbc, hcb⟩ := hc
  refine ⟨c, hbc, hcb, ?_⟩
  by_contra hle
  have hcP := (hall c).mpr hcn
  have hrP := (hall r).mpr (hbr.lt hb)
  have hlt : P.indexOf c < P.indexOf r := lt_of_le_of_ne (not_lt.mp hle) fun h =>
    hrb ((List.indexOf_inj hcP hrP).mp h ▸ hcb)
  -- a walk from `c` that leaves the vertices pushed up to `c` meets one that reaches `c`
  have walk : ∀ y, g.Reach c y → (y ∈ P ∧ P.indexOf y ≤ P.indexOf c) ∨
      ∃ z, g.Reach c z ∧ g.Reach z c ∧ ¬ (z ∈ P ∧ P.indexOf z ≤ P.indexOf c) := by
    intro y hy
    induction hy with
    | refl => exact .inl ⟨hcP, le_rfl⟩
    | @tail x z hcx hxz ih =>
      rcases ih with ⟨hx, hxc⟩ | hz
      · rcases hP c hcP x hx hxc z hxz with hz | hzc
        · exact .inl hz
        · by_cases hz : z ∈ P ∧ P.indexOf z ≤ P.indexOf c
          · exact .inl hz
          · exact .inr ⟨z, hcx.tail hxz, hzc, hz⟩
      · exact .inr hz
  rcases walk r (hcb.trans hbr) with ⟨-, hr⟩ | ⟨z, hcz, hzc, hz⟩
  · omega
  · -- such a vertex is in the component of `b`, and pushed after `c`
    have hzn := hcz.lt hcn
    exact hz ⟨(hall z).mpr hzn, hmax z ⟨hzn, hbc.trans hcz, hzc.trans hcb⟩⟩

end DepthFirstTopoSortRecursive

end GraphAlgo
