import GraphAlgo.Algo.BreadthFirstPaths
import Mathlib.Data.Finset.Card

/-!
# Breadth-first search finds shortest paths

`BreadthFirstPaths(graph, s)` visits exactly the vertices reachable from `s`; `dist_to(v)` is the
fewest edges of a walk from `s` to `v`; and `path_to(v)` iterates such a walk, source first
(`breadthFirstPaths_correct`).

The invariant `Inv` of the loop of `_bfs` has the vertices still to expand as the list `gray`:
the queue, with the vertex being expanded in front. Their levels (distances) never decrease
along the list and span at most one (`sorted`); a visited vertex off the list has all its heads
visited (`closed`); each distance is the length of the `_edge_to` walk back to the source (`tree`)
and no walk is shorter (`optimal`). The lower bound that makes a new distance optimal,
`Inv.lower`, follows: a walk to an unvisited vertex leaves the visited vertices through a gray
one, whose level is at least the front's.
-/

namespace GraphAlgo

namespace DiGraph

/-- A walk `s = x₀, x₁, …, x_k = v`, each `x_(i+1)` a head of `x_i` (a vertex of `adj(x_i)`),
as its list of vertices; it has `k` edges. -/
inductive Walk (g : DiGraph) (s : Nat) : Nat → List Nat → Prop
  | nil : Walk g s s [s]
  | snoc {u w : Nat} {xs : List Nat} : Walk g s u xs → g.Adj u w → Walk g s w (xs ++ [w])

theorem Walk.length_pos {g : DiGraph} {s v : Nat} {xs : List Nat} (h : g.Walk s v xs) :
    0 < xs.length := by
  cases h <;> simp

theorem Walk.reach {g : DiGraph} {s v : Nat} {xs : List Nat} (h : g.Walk s v xs) : g.Reach s v := by
  induction h with
  | nil => exact .refl
  | snoc _ huw ih => exact ih.tail huw

end DiGraph

namespace BreadthFirstPaths

open DiGraph

variable {g : DiGraph} {s : Nat}

/-- `_dist_to[u]` as a number: the level of a visited vertex. -/
def level (b : BreadthFirstPaths) (u : Nat) : Nat := (b.dist u).getD 0

/-- The number of visited vertices. -/
def nVisited (b : BreadthFirstPaths) (n : Nat) : Nat :=
  ((Finset.range n).filter fun u => b.state u = true).card

theorem nVisited_le (b : BreadthFirstPaths) (n : Nat) : nVisited b n ≤ n :=
  (Finset.card_filter_le _ _).trans (Finset.card_range n).le

/-- The invariant of the loop of `_bfs` from `s`, with `gray` the vertices still to expand. -/
structure Inv (g : DiGraph) (s : Nat) (b : BreadthFirstPaths) (gray : List Nat) : Prop where
  source : b.source = s
  nVertices : b.nVertices = g.nVertices
  visited : ∀ u, b.state u = true ↔ (b.dist u).isSome
  lt : ∀ u, b.state u = true → u < g.nVertices
  src : b.dist s = some 0
  gray_visited : ∀ u ∈ gray, b.state u = true
  sorted : gray.Pairwise fun a c => level b a ≤ level b c ∧ level b c ≤ level b a + 1
  closed : ∀ u, b.state u = true → u ∉ gray → ∀ w, g.Adj u w → b.state w = true
  optimal : ∀ u k xs, b.dist u = some k → g.Walk s u xs → k < xs.length
  tree : ∀ u k, u ≠ s → b.dist u = some k →
    0 < k ∧ b.dist (b.edgeTo u) = some (k - 1) ∧ g.Adj (b.edgeTo u) u
  dist_lt : ∀ u k, b.dist u = some k → k < nVisited b g.nVertices

variable {b : BreadthFirstPaths} {gray : List Nat} {v : Nat}

theorem Inv.dist_of_visited (h : Inv g s b gray) {u : Nat} (hu : b.state u = true) :
    b.dist u = some (level b u) := by
  obtain ⟨k, hk⟩ := Option.isSome_iff_exists.mp ((h.visited u).mp hu)
  simp [level, hk]

/-- **The lower bound.** A walk to an unvisited vertex has more edges than the level of the
front of `gray`: it leaves the visited vertices from a gray vertex, whose level is at least the
front's and at most its walk's length. -/
theorem Inv.lower (h : Inv g s b (v :: gray)) {x : Nat} {xs : List Nat} (hw : g.Walk s x xs)
    (hx : b.state x = false) : level b v + 1 < xs.length := by
  induction hw with
  | nil => simp [(h.visited s).mpr (by simp [h.src])] at hx
  | @snoc u w xs _ huw ih =>
    rw [List.length_append, List.length_singleton]
    cases hu : b.state u with
    | false => have := ih hu; omega
    | true =>
      -- `u` has an unvisited head, so it is gray
      have hgray : u ∈ v :: gray := by
        by_contra hnot
        simp [h.closed u hu hnot w huw] at hx
      have hvu : level b v ≤ level b u := by
        rcases List.mem_cons.mp hgray with rfl | hg
        · exact le_rfl
        · exact ((List.pairwise_cons.mp h.sorted).1 u hg).1
      have := h.optimal u _ xs (h.dist_of_visited hu) ‹_›
      omega

/-! ## One head of the front vertex -/

/-- The record after `_bfs` marks a new head `w` of `v`. -/
def mark (b : BreadthFirstPaths) (v w : Nat) : BreadthFirstPaths :=
  { b with state := Function.update b.state w true
           dist := Function.update b.dist w ((b.dist v).map (· + 1))
           edgeTo := Function.update b.edgeTo w v }

theorem visitHead_new {q : Queue Nat} {w : Nat} (hw : b.state w = false) :
    visitHead v (b, q) w = (mark b v w, q.push w) := by
  simp [visitHead, hw, mark]

theorem visitHead_old {q : Queue Nat} {w : Nat} (hw : b.state w = true) :
    visitHead v (b, q) w = (b, q) := by
  simp [visitHead, hw]

section Mark

variable {w : Nat}

@[simp] theorem mark_source : (mark b v w).source = b.source := rfl

@[simp] theorem mark_nVertices : (mark b v w).nVertices = b.nVertices := rfl

@[simp] theorem mark_state_self : (mark b v w).state w = true := Function.update_same _ _ _

theorem mark_dist_self : (mark b v w).dist w = (b.dist v).map (· + 1) := Function.update_same _ _ _

@[simp] theorem mark_edgeTo_self : (mark b v w).edgeTo w = v := Function.update_same _ _ _

theorem mark_state_of_ne {u : Nat} (h : u ≠ w) : (mark b v w).state u = b.state u :=
  Function.update_noteq h _ _

theorem mark_dist_of_ne {u : Nat} (h : u ≠ w) : (mark b v w).dist u = b.dist u :=
  Function.update_noteq h _ _

theorem mark_edgeTo_of_ne {u : Nat} (h : u ≠ w) : (mark b v w).edgeTo u = b.edgeTo u :=
  Function.update_noteq h _ _

/-- Marking an unvisited vertex counts one more. -/
theorem nVisited_mark {n : Nat} (hw : b.state w = false) (hwn : w < n) :
    nVisited (mark b v w) n = nVisited b n + 1 := by
  have : (Finset.range n).filter (fun u => (mark b v w).state u = true) =
      insert w ((Finset.range n).filter fun u => b.state u = true) := by
    ext u
    by_cases hu : u = w
    · subst hu; simp [hwn]
    · simp [mark_state_of_ne hu, hu]
  rw [nVisited, nVisited, this, Finset.card_insert_of_not_mem (by simp [hw])]

end Mark

/-- **A new head.** Marking a new head `w` of the front vertex `v`, at level one more than `v`,
and queueing it keeps the invariant. -/
theorem Inv.enqueue {items : List Nat} {w : Nat} (h : Inv g s b (v :: items)) (hvw : g.Adj v w)
    (hw : b.state w = false) : Inv g s (mark b v w) (v :: (items ++ [w])) := by
  have hv : b.state v = true := h.gray_visited v (List.mem_cons_self v items)
  have hne : ∀ u, b.state u = true → u ≠ w := fun u hu huw => by simp [huw ▸ hu] at hw
  have hvd := h.dist_of_visited hv
  have hwd : (mark b v w).dist w = some (level b v + 1) := by simp [mark_dist_self, hvd]
  have hlevel : ∀ u, b.state u = true → level (mark b v w) u = level b u := fun u hu => by
    simp [level, mark_dist_of_ne (hne u hu)]
  -- the levels of the gray vertices lie between the front's and one more
  have hfront : ∀ a ∈ v :: items, level b v ≤ level b a ∧ level b a ≤ level b v + 1 := by
    intro a ha
    rcases List.mem_cons.mp ha with rfl | ha
    · omega
    · exact (List.pairwise_cons.mp h.sorted).1 a ha
  refine ⟨h.source, h.nVertices, fun u => ?_, fun u hu => ?_, ?_, fun u hu => ?_, ?_,
    fun u hu hnot y hy => ?_, fun u k xs hk hxs => ?_, fun u k hus hk => ?_, fun u k hk => ?_⟩
  · -- visited
    by_cases hu : u = w
    · subst hu; simp [hwd]
    · rw [mark_state_of_ne hu, mark_dist_of_ne hu]; exact h.visited u
  · -- lt
    by_cases huw : u = w
    · exact huw ▸ g.adjList_lt v w hvw
    · exact h.lt u (by rwa [mark_state_of_ne huw] at hu)
  · -- src
    rw [mark_dist_of_ne (hne s ((h.visited s).mpr (by simp [h.src])))]
    exact h.src
  · -- gray_visited
    by_cases huw : u = w
    · rw [huw]; exact mark_state_self
    · rw [mark_state_of_ne huw]
      refine h.gray_visited u ?_
      simpa [huw] using hu
  · -- sorted
    rw [← List.cons_append, List.pairwise_append]
    refine ⟨h.sorted.imp_of_mem fun ha hc hac => ?_, List.pairwise_singleton _ _,
      fun a ha c hc => ?_⟩
    · rwa [hlevel _ (h.gray_visited _ ha), hlevel _ (h.gray_visited _ hc)]
    · have hlw : level (mark b v w) w = level b v + 1 := by simp [level, hwd]
      rw [List.mem_singleton.mp hc, hlevel a (h.gray_visited a ha), hlw]
      have := hfront a ha
      omega
  · -- closed
    have huw : u ≠ w := fun huw => hnot (by simp [huw])
    rw [mark_state_of_ne huw] at hu
    by_cases hyw : y = w
    · rw [hyw]; exact mark_state_self
    · rw [mark_state_of_ne hyw]
      exact h.closed u hu (fun hm => hnot (List.mem_cons.mpr
        (Or.imp_right (List.mem_append_left _) (List.mem_cons.mp hm)))) y hy
  · -- optimal
    by_cases huw : u = w
    · subst huw
      rw [hwd] at hk
      cases hk
      exact h.lower hxs hw
    · rw [mark_dist_of_ne huw] at hk
      exact h.optimal u k xs hk hxs
  · -- tree
    by_cases huw : u = w
    · subst huw
      rw [hwd] at hk
      cases hk
      refine ⟨Nat.succ_pos _, ?_, ?_⟩
      · rw [mark_edgeTo_self, mark_dist_of_ne (hne v hv), hvd]; rfl
      · rw [mark_edgeTo_self]; exact hvw
    · rw [mark_dist_of_ne huw] at hk
      obtain ⟨hk0, hp, hadj⟩ := h.tree u k hus hk
      have hpw := hne _ ((h.visited (b.edgeTo u)).mpr (by simp [hp]))
      rw [mark_edgeTo_of_ne huw, mark_dist_of_ne hpw]
      exact ⟨hk0, hp, hadj⟩
  · -- dist_lt
    rw [nVisited_mark hw (g.adjList_lt v w hvw)]
    by_cases huw : u = w
    · subst huw
      rw [hwd] at hk
      cases hk
      have := h.dist_lt v _ hvd
      omega
    · rw [mark_dist_of_ne huw] at hk
      exact (h.dist_lt u k hk).trans (Nat.lt_succ_self _)

/-- **The heads of the front vertex.** Visiting heads `ws` of the front vertex `v` keeps the
invariant, visits each of them, and queues one vertex for each it marks. -/
theorem heads_spec {v : Nat} : ∀ (ws : List Nat) (b : BreadthFirstPaths) (q : Queue Nat),
    Inv g s b (v :: q.items) → (∀ w ∈ ws, g.Adj v w) →
    ∃ b' q', ws.foldl (visitHead v) (b, q) = (b', q') ∧ Inv g s b' (v :: q'.items) ∧
      (∀ w ∈ ws, b'.state w = true) ∧ (∀ u, b.state u = true → b'.state u = true) ∧
      q'.items.length + nVisited b g.nVertices = q.items.length + nVisited b' g.nVertices
  | [], b, q, h, _ => ⟨b, q, rfl, h, by simp, fun _ hu => hu, rfl⟩
  | w :: ws, b, q, h, hws => by
    have hvw := hws w (List.mem_cons_self w ws)
    obtain ⟨b₁, q₁, h₁, hi₁, hw₁, hmono₁, hc₁⟩ : ∃ b₁ q₁, visitHead v (b, q) w = (b₁, q₁) ∧
        Inv g s b₁ (v :: q₁.items) ∧ b₁.state w = true ∧
        (∀ u, b.state u = true → b₁.state u = true) ∧
        q₁.items.length + nVisited b g.nVertices = q.items.length + nVisited b₁ g.nVertices := by
      cases hw : b.state w with
      | true => exact ⟨b, q, visitHead_old hw, h, hw, fun _ hu => hu, rfl⟩
      | false =>
        refine ⟨mark b v w, q.push w, visitHead_new hw,
          by rw [Queue.push_items]; exact h.enqueue hvw hw, mark_state_self, fun u hu => ?_, ?_⟩
        · rw [mark_state_of_ne fun huw => by simp [huw ▸ hu] at hw]; exact hu
        · rw [nVisited_mark hw (g.adjList_lt v w hvw), Queue.push_items, List.length_append,
            List.length_singleton]
          omega
    obtain ⟨b', q', h', hi', hws', hmono', hc'⟩ :=
      heads_spec ws b₁ q₁ hi₁ fun x hx => hws x (List.mem_cons_of_mem w hx)
    refine ⟨b', q', by rw [List.foldl_cons, h₁, h'], hi', fun x hx => ?_,
      fun u hu => hmono' u (hmono₁ u hu), by omega⟩
    rcases List.mem_cons.mp hx with rfl | hx
    · exact hmono' _ hw₁
    · exact hws' x hx

/-- Once every head of the front vertex is visited, it leaves `gray`. -/
theorem Inv.expand {items : List Nat} (h : Inv g s b (v :: items))
    (hall : ∀ w, g.Adj v w → b.state w = true) : Inv g s b items :=
  { h with
    gray_visited := fun u hu => h.gray_visited u (List.mem_cons_of_mem v hu)
    sorted := (List.pairwise_cons.mp h.sorted).2
    closed := fun u hu hnot w huw => by
      by_cases huv : u = v
      · subst huv; exact hall w huw
      · exact h.closed u hu (by simp [huv, hnot]) w huw }

/-! ## The loop of `_bfs` -/

/-- **The loop of `_bfs`.** From the invariant with the queue as `gray`, on more fuel than the
queued and the unvisited vertices, the loop succeeds and empties the queue. -/
theorem bfsLoop_spec : ∀ (fuel : Nat) (b : BreadthFirstPaths) (q : Queue Nat),
    Inv g s b q.items → q.items.length + (g.nVertices - nVisited b g.nVertices) < fuel →
    ∃ b', bfsLoop g fuel b q = .ok b' ∧ Inv g s b' []
  | 0, _, _, _, hf => absurd hf (Nat.not_lt_zero _)
  | fuel + 1, b, q, h, hf => by
    cases hq : q.items with
    | nil => exact ⟨b, by rw [bfsLoop, if_pos ((Queue.isEmpty_iff q).mpr hq)], hq ▸ h⟩
    | cons v items =>
      rw [hq] at h hf
      obtain ⟨q₁, hpop, hq₁⟩ := Queue.pop_cons hq
      have hvn := h.lt v (h.gray_visited v (List.mem_cons_self v items))
      obtain ⟨b', q', hfold, hi', hheads, -, hc⟩ :=
        heads_spec (g.adjList v).reverse b q₁ (hq₁ ▸ h) fun w hw => List.mem_reverse.mp hw
      have := nVisited_le b g.nVertices
      have := nVisited_le b' g.nVertices
      obtain ⟨b'', hl, hi''⟩ := bfsLoop_spec fuel b' q'
        (hi'.expand fun w hw => hheads w (List.mem_reverse.mpr hw))
        (by rw [hq₁] at hc; simp only [List.length_cons] at hf; omega)
      refine ⟨b'', ?_, hi''⟩
      rw [bfsLoop, if_neg (by simp [Queue.isEmpty_iff, hq]), hpop]
      simp only [adj_eq hvn, bind, Except.bind, hfold]
      exact hl

/-- `BreadthFirstPaths(graph, s)` on a vertex `s` succeeds, and its loop ends with the
invariant and an empty queue. -/
theorem init_spec (hs : s < g.nVertices) : ∃ b, init g s = .ok b ∧ Inv g s b [] := by
  let b₀ : BreadthFirstPaths := ⟨s, g.nVertices, Function.update (fun _ => false) s true,
    fun _ => 0, Function.update (fun _ => none) s (some 0)⟩
  have hstate : ∀ u, b₀.state u = true ↔ u = s := fun u => by
    by_cases hu : u = s
    · subst hu; simp [b₀]
    · simp [b₀, hu]
  have hdist : ∀ u k, b₀.dist u = some k ↔ u = s ∧ k = 0 := fun u k => by
    by_cases hu : u = s
    · subst hu; simp [b₀, eq_comm]
    · simp [b₀, hu]
  have hcount : nVisited b₀ g.nVertices = 1 := by
    have : (Finset.range g.nVertices).filter (fun u => b₀.state u = true) = {s} := by
      ext u; simp only [Finset.mem_filter, Finset.mem_range, hstate, Finset.mem_singleton]
      constructor
      · exact And.right
      · rintro rfl; exact ⟨hs, rfl⟩
    rw [nVisited, this, Finset.card_singleton]
  have h₀ : Inv g s b₀ (Queue.init.push s).items :=
    { source := rfl
      nVertices := rfl
      visited := fun u => by
        by_cases hu : u = s
        · subst hu; simp [b₀]
        · simp [b₀, hu]
      lt := fun u hu => (hstate u).mp hu ▸ hs
      src := (hdist s 0).mpr ⟨rfl, rfl⟩
      gray_visited := fun u hu => (hstate u).mpr (by simpa using hu)
      sorted := by simp
      closed := fun u hu hnot => absurd (by simp [(hstate u).mp hu]) hnot
      optimal := fun u k xs hk hxs => ((hdist u k).mp hk).2 ▸ hxs.length_pos
      tree := fun u k hus hk => absurd ((hdist u k).mp hk).1 hus
      dist_lt := fun u k hk => by rw [hcount, ((hdist u k).mp hk).2]; exact Nat.one_pos }
  obtain ⟨b, hb, hi⟩ := bfsLoop_spec (g.nVertices + 1) b₀ _ h₀ (by simp [hcount]; omega)
  exact ⟨b, by rw [init, if_pos hs]; exact hb, hi⟩

/-! ## `path_to` and the results -/

/-- The loop of `path_to` at the source pushes it and stops. -/
theorem pathToLoop_source (b : BreadthFirstPaths) (fuel : Nat) (r : Stack Nat) :
    b.pathToLoop fuel b.source r = .ok (r.push b.source) := by
  rw [BreadthFirstPaths.pathToLoop.eq_def]; simp

/-- The loop of `path_to` away from the source pushes `x` and steps to `_edge_to[x]`. -/
theorem pathToLoop_succ (b : BreadthFirstPaths) {x : Nat} (hx : x ≠ b.source) (fuel : Nat)
    (r : Stack Nat) : b.pathToLoop (fuel + 1) x r = b.pathToLoop fuel (b.edgeTo x) (r.push x) := by
  rw [BreadthFirstPaths.pathToLoop.eq_def]; simp [hx]

/-- **The loop of `path_to`.** From a vertex at distance `k`, on at least `k` fuel, the loop
pushes the `k + 1` vertices of the `_edge_to` walk back to the source. -/
theorem Inv.pathToLoop (h : Inv g s b gray) : ∀ (fuel x k : Nat) (r : Stack Nat),
    b.dist x = some k → k ≤ fuel → ∃ r', b.pathToLoop fuel x r = .ok r' ∧
      ∃ T, r'.items = r.items ++ T ∧ g.Walk s x T.reverse ∧ T.length = k + 1
  | fuel, x, k, r, hk, hf => by
    by_cases hxs : x = s
    · subst hxs
      obtain rfl : k = 0 := by rw [h.src] at hk; exact (Option.some_injective _ hk).symm
      exact ⟨r.push x, h.source ▸ pathToLoop_source b fuel r, [x], by simp, .nil, rfl⟩
    obtain ⟨hk0, hp, hadj⟩ := h.tree x k hxs hk
    match fuel with
    | 0 => omega
    | fuel + 1 =>
      obtain ⟨r', hr', T, hT, hw, hlen⟩ := h.pathToLoop fuel (b.edgeTo x) (k - 1) (r.push x) hp
        (by omega)
      refine ⟨r', by rw [pathToLoop_succ b (h.source ▸ hxs)]; exact hr', x :: T, by simp [hT],
        ?_, by simp [hlen]; omega⟩
      rw [List.reverse_cons]
      exact hw.snoc hadj

/-- With the queue empty, the visited vertices are those reachable from `s`. -/
theorem Inv.visited_iff (h : Inv g s b []) (u : Nat) : b.state u = true ↔ g.Reach s u := by
  constructor
  · intro hu
    obtain ⟨_, -, _, -, hw, -⟩ := h.pathToLoop _ u _ Stack.init (h.dist_of_visited hu) le_rfl
    exact hw.reach
  · intro hu
    induction hu with
    | refl => exact (h.visited s).mpr (by simp [h.src])
    | tail _ hab ih => exact h.closed _ ih (List.not_mem_nil _) _ hab

/-- **Breadth-first search.** From a vertex `s`, `BreadthFirstPaths(graph, s)` succeeds, and for
every vertex `v`: `is_visited(v)` says whether `s` reaches `v`, and `dist_to(v)` is infinite
exactly when it does not; a finite `dist_to(v)` is `k` when no walk from `s` to `v` has fewer
than `k` edges and `path_to(v)` iterates one with `k`, source first; and `path_to(v)` is `None`
when `v` is unreached. -/
theorem breadthFirstPaths_correct (g : DiGraph) {s : Nat} (hs : s < g.nVertices) :
    ∃ b, init g s = .ok b ∧ ∀ v < g.nVertices,
      (b.isVisited v = .ok true ↔ g.Reach s v) ∧
      (b.distTo v = .ok none ↔ ¬ g.Reach s v) ∧
      (∀ k, b.distTo v = .ok (some k) →
        (∀ xs, g.Walk s v xs → k + 1 ≤ xs.length) ∧
        ∃ r, b.pathTo v g.nVertices = .ok (some r) ∧ g.Walk s v r.iter ∧
          r.iter.length = k + 1) ∧
      (¬ g.Reach s v → b.pathTo v g.nVertices = .ok none) := by
  obtain ⟨b, hb, h⟩ := init_spec hs
  refine ⟨b, hb, fun v hv => ?_⟩
  have hvb : v < b.nVertices := h.nVertices ▸ hv
  have hvis : b.isVisited v = .ok (b.state v) := if_pos hvb
  have hdist : b.distTo v = .ok (b.dist v) := if_pos hvb
  have hnone : b.dist v = none ↔ ¬ g.Reach s v := by
    rw [← h.visited_iff, h.visited v, Option.not_isSome_iff_eq_none]
  refine ⟨by rw [hvis, ← h.visited_iff]; simp, by rw [hdist, ← hnone]; simp,
    fun k hk => ?_, fun hr => ?_⟩
  · -- a finite distance is the fewest edges, and `path_to` walks it
    rw [hdist, Except.ok.injEq] at hk
    refine ⟨fun xs hxs => h.optimal v k xs hk hxs, ?_⟩
    have hk' : k ≤ g.nVertices :=
      ((h.dist_lt v k hk).trans_le (nVisited_le b g.nVertices)).le
    obtain ⟨r, hr, T, hT, hw, hlen⟩ := h.pathToLoop g.nVertices v k Stack.init hk hk'
    have hT' : r.iter = T.reverse := by rw [Stack.iter_eq, hT]; simp
    refine ⟨r, ?_, hT' ▸ hw, by rw [hT', List.length_reverse, hlen]⟩
    have hvisv : b.state v = true := (h.visited v).mpr (by simp [hk])
    simp [pathTo, hvis, hvisv, hr, bind, Except.bind, Except.map]
  · -- an unreached vertex has no path
    have hvisv : b.state v = false := Bool.eq_false_iff.mpr fun ht => hr ((h.visited_iff v).mp ht)
    simp [pathTo, hvis, hvisv, bind, Except.bind]

/-- The graph `0 -> 1`. -/
def oneEdge : DiGraph :=
  ⟨2, 1, fun v => if v = 0 then [1] else [],
    fun v w hw => by dsimp only at hw; split_ifs at hw <;> simp_all,
    fun v hv => if_neg (by omega)⟩

theorem breadthFirstPaths_correct_oneEdge :
    0 < oneEdge.nVertices ∧ ∃ b, init oneEdge 0 = .ok b ∧ ∀ v < oneEdge.nVertices,
      (b.isVisited v = .ok true ↔ oneEdge.Reach 0 v) ∧
      (b.distTo v = .ok none ↔ ¬ oneEdge.Reach 0 v) ∧
      (∀ k, b.distTo v = .ok (some k) →
        (∀ xs, oneEdge.Walk 0 v xs → k + 1 ≤ xs.length) ∧
        ∃ r, b.pathTo v oneEdge.nVertices = .ok (some r) ∧ oneEdge.Walk 0 v r.iter ∧
          r.iter.length = k + 1) ∧
      (¬ oneEdge.Reach 0 v → b.pathTo v oneEdge.nVertices = .ok none) :=
  ⟨by decide, breadthFirstPaths_correct oneEdge (by decide)⟩

end BreadthFirstPaths

end GraphAlgo
