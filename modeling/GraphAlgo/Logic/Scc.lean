import GraphAlgo.Logic.TopoSort
import Mathlib.Algebra.Order.BigOperators.Group.Finset
import Mathlib.Data.Set.Card

/-!
# Strong components (`depth_first_scc.py`)

The stack-based `_dfs(graph, s)` of pass 2, started from an unvisited `s`, succeeds, marks
exactly the vertices reachable from `s` through vertices unvisited when it starts, and gives
them the id `_count` (`dfs_spec`). A vertex may be pushed several times, and popped again after
it is visited; such a pop pushes nothing, because every head that its first pop pushed lies
above it and is popped first (`Lifo`). So each iteration lowers `work`, the entries on the stack
plus, for each unvisited vertex, one more than its degree, and `dfsFuel` is enough.
-/

namespace GraphAlgo

namespace DiGraph

/-- `u` and `w` are strongly connected: each reaches the other. -/
def Strong (g : DiGraph) (u w : Nat) : Prop := g.Reach u w ∧ g.Reach w u

theorem Strong.refl (g : DiGraph) (u : Nat) : g.Strong u u := ⟨.refl, .refl⟩

theorem Strong.symm {g : DiGraph} {u w : Nat} (h : g.Strong u w) : g.Strong w u := ⟨h.2, h.1⟩

theorem Strong.trans {g : DiGraph} {u v w : Nat} (h₁ : g.Strong u v) (h₂ : g.Strong v w) :
    g.Strong u w :=
  ⟨h₁.1.trans h₂.1, h₂.2.trans h₁.2⟩

/-- In a graph with the reversed edges, reachability is reversed. -/
theorem reach_of_reversed {g r : DiGraph} (hr : ∀ a b, b ∈ r.adjList a ↔ a ∈ g.adjList b)
    (a b : Nat) : r.Reach a b ↔ g.Reach b a := by
  have : r.Adj = Function.swap g.Adj := funext₂ fun a b => propext (hr a b)
  rw [Reach, this, Relation.reflTransGen_swap]
  rfl

end DiGraph

namespace DepthFirstScc

open DiGraph

variable {g : DiGraph}

/-! ## Reachability through unvisited vertices -/

/-- `u` is reachable from `s` along edges whose heads are unvisited in `state`. -/
def NewReach (g : DiGraph) (state : Nat → Bool) (s : Nat) : Nat → Prop :=
  Relation.ReflTransGen (fun a b => g.Adj a b ∧ state b = false) s

theorem NewReach.reach {state : Nat → Bool} {s u : Nat} (h : NewReach g state s u) :
    g.Reach s u :=
  Relation.ReflTransGen.mono (fun _ _ hab => hab.1) h

/-- Every vertex on such a walk from an unvisited vertex is unvisited. -/
theorem NewReach.fresh {state : Nat → Bool} {s u : Nat} (h : NewReach g state s u)
    (hs : state s = false) : state u = false := by
  induction h with
  | refl => exact hs
  | tail _ hab _ => exact hab.2

/-! ## One iteration of the loop of `_dfs` -/

/-- The state after the loop pops `x`: `x` visited, with id `_count`. -/
def visit (d : DepthFirstScc) (x : Nat) : DepthFirstScc :=
  { d with state := Function.update d.state x true, ids := Function.update d.ids x (some d.count) }

@[simp] theorem visit_nVertices (d : DepthFirstScc) (x : Nat) :
    (visit d x).nVertices = d.nVertices := rfl

@[simp] theorem visit_count (d : DepthFirstScc) (x : Nat) : (visit d x).count = d.count := rfl

theorem visit_state (d : DepthFirstScc) (x u : Nat) :
    (visit d x).state u = true ↔ u = x ∨ d.state u = true := by
  by_cases h : u = x
  · subst h; simp [visit]
  · simp [visit, Function.update_noteq h, h]

theorem visit_state_of_ne (d : DepthFirstScc) {x u : Nat} (h : u ≠ x) :
    (visit d x).state u = d.state u := Function.update_noteq h _ _

theorem visit_ids_of_ne (d : DepthFirstScc) {x u : Nat} (h : u ≠ x) :
    (visit d x).ids u = d.ids u := Function.update_noteq h _ _

/-- The heads of `x` that the loop pushes after popping it: those unvisited once `x` is. -/
def pushed (g : DiGraph) (d : DepthFirstScc) (x : Nat) : List Nat :=
  (g.adjList x).reverse.filter fun w => !(visit d x).state w

theorem mem_pushed {d : DepthFirstScc} {x w : Nat} :
    w ∈ pushed g d x ↔ g.Adj x w ∧ (visit d x).state w = false := by
  simp [pushed, Adj]

/-- The loop pops the top `x`, visits it, and pushes `pushed g d x`. -/
theorem dfsLoop_pop (fuel : Nat) {d : DepthFirstScc} {st : Stack Nat} {l : List Nat} {x : Nat}
    (hst : st.items = l ++ [x]) (hx : x < d.nVertices) (hxg : x < g.nVertices) :
    ∃ st', st'.items = l ++ pushed g d x ∧
      dfsLoop g (fuel + 1) d st = dfsLoop g fuel (visit d x) st' := by
  obtain ⟨st₁, hpop, h₁⟩ := Stack.pop_snoc hst
  refine ⟨_, by rw [Stack.foldl_push_items, h₁]; rfl, ?_⟩
  rw [dfsLoop, if_neg (by simp [Stack.isEmpty_iff, hst]), hpop]
  simp only [if_pos hx, adj_eq hxg]
  rfl

/-! ## The loop invariant -/

/-- **LIFO.** Every visited vertex on the stack has each of its unvisited heads above it. The
list is the stack's items, bottom first. -/
def Lifo (g : DiGraph) (state : Nat → Bool) : List Nat → Prop
  | [] => True
  | z :: rest => (state z = true → ∀ y, g.Adj z y → state y = false → y ∈ rest) ∧ Lifo g state rest

theorem lifo_of_unvisited {state : Nat → Bool} :
    ∀ l : List Nat, (∀ z ∈ l, state z = false) → Lifo g state l
  | [], _ => trivial
  | z :: l, h => ⟨fun hz => by simp [h z (List.mem_cons_self z l)] at hz,
      lifo_of_unvisited l fun y hy => h y (List.mem_cons_of_mem z hy)⟩

/-- The top of the stack, if visited, has no unvisited head. -/
theorem Lifo.top {state : Nat → Bool} {x : Nat} :
    ∀ {l : List Nat}, Lifo g state (l ++ [x]) → state x = true →
      ∀ y, g.Adj x y → state y = true
  | [], h, hx, y, hxy => by
    by_contra hy
    simpa using h.1 hx y hxy (by simpa using hy)
  | _ :: _, h, hx, y, hxy => Lifo.top h.2 hx y hxy

/-- Popping `x`, visiting it and pushing its unvisited heads keeps the stack `Lifo`. -/
theorem Lifo.pop {d : DepthFirstScc} {x : Nat} :
    ∀ {l : List Nat}, Lifo g d.state (l ++ [x]) → Lifo g (visit d x).state (l ++ pushed g d x)
  | [], _ => lifo_of_unvisited _ fun z hz => (mem_pushed.mp hz).2
  | z :: l, h => by
    refine ⟨fun hz y hzy hy => ?_, Lifo.pop h.2⟩
    by_cases hzx : z = x
    · subst hzx
      exact List.mem_append_right _ (mem_pushed.mpr ⟨hzy, hy⟩)
    · have hyx : y ≠ x := by rintro rfl; simp [visit] at hy
      rw [visit_state_of_ne d hzx] at hz
      rw [visit_state_of_ne d hyx] at hy
      have := h.1 hz y hzy hy
      simp only [List.append_eq, List.mem_append, List.mem_singleton, hyx, or_false] at this
      exact List.mem_append_left _ this

/-- The invariant of the loop of `_dfs(graph, s)` started in `d₀`, with the stack's items
`items`, bottom first. Vertices visited before keep their state and id; vertices visited since
are reachable from `s` through vertices unvisited in `d₀`, and carry the id `_count`; unvisited
vertices keep their id; the stack holds such vertices; a head of a vertex visited since is
visited or on the stack; the stack is `Lifo`; and `s` is visited or on the stack. -/
structure LoopInv (g : DiGraph) (d₀ : DepthFirstScc) (s : Nat) (d : DepthFirstScc)
    (items : List Nat) : Prop where
  nVertices : d.nVertices = g.nVertices
  count : d.count = d₀.count
  old : ∀ u, d₀.state u = true → d.state u = true ∧ d.ids u = d₀.ids u
  new : ∀ u, d₀.state u = false → d.state u = true →
    d.ids u = some d₀.count ∧ NewReach g d₀.state s u
  unvisited : ∀ u, d.state u = false → d.ids u = d₀.ids u
  stack : ∀ x ∈ items, d₀.state x = false ∧ NewReach g d₀.state s x
  closed : ∀ x, d₀.state x = false → d.state x = true →
    ∀ y, g.Adj x y → d.state y = true ∨ y ∈ items
  lifo : Lifo g d.state items
  src : d.state s = true ∨ s ∈ items

/-- The work left to the loop: pop every entry of the stack, and visit every unvisited vertex
and push its heads. -/
def work (g : DiGraph) (d : DepthFirstScc) (items : List Nat) : Nat :=
  items.length +
    ∑ v ∈ (Finset.range g.nVertices).filter (fun v => d.state v = false), ((g.adjList v).length + 1)

section Step

variable {d₀ d : DepthFirstScc} {s x : Nat} {l : List Nat}

/-- Visiting an unvisited vertex takes it out of the sum of `work`. -/
theorem work_visit (hx : d.state x = false) (hxn : x < g.nVertices) (items : List Nat) :
    work g (visit d x) items + ((g.adjList x).length + 1) = work g d items := by
  have hset : (Finset.range g.nVertices).filter (fun v => (visit d x).state v = false) =
      ((Finset.range g.nVertices).filter fun v => d.state v = false).erase x := by
    ext v
    by_cases hv : v = x
    · subst hv; simp [visit]
    · simp [visit_state_of_ne d hv, hv]
  rw [work, work, hset, add_assoc, Finset.sum_erase_add _ _ (by simp [hx, hxn])]

/-- Popping a visited vertex again changes no state. -/
theorem visit_state_eq (hx : d.state x = true) : (visit d x).state = d.state := by
  funext u
  by_cases hux : u = x
  · subst hux; simp [visit, hx]
  · exact visit_state_of_ne d hux

/-- **One iteration.** Popping the top `x` keeps the invariant and lowers `work`. -/
theorem LoopInv.step (h : LoopInv g d₀ s d (l ++ [x])) (hs : s < g.nVertices) :
    LoopInv g d₀ s (visit d x) (l ++ pushed g d x) ∧
      work g (visit d x) (l ++ pushed g d x) < work g d (l ++ [x]) := by
  have hxs := h.stack x (List.mem_append_right l (List.mem_singleton_self x))
  have hmem : ∀ y, y ∈ l ++ [x] → y ≠ x → y ∈ l ++ pushed g d x := fun y hy hyx => by
    simp only [List.mem_append, List.mem_singleton, hyx, or_false] at hy
    exact List.mem_append_left _ hy
  have hxd : ∀ u, d₀.state u = true → u ≠ x := fun u hu hux => by simp [hux ▸ hxs.1] at hu
  refine ⟨⟨h.nVertices, h.count, fun u hu => ?_, fun u hu0 hu => ?_, fun u hu => ?_,
      fun y hy => ?_, fun z hz0 hz y hzy => ?_, h.lifo.pop, ?_⟩, ?_⟩
  · -- old
    rw [visit_state_of_ne d (hxd u hu), visit_ids_of_ne d (hxd u hu)]
    exact h.old u hu
  · -- new
    by_cases hux : u = x
    · subst hux; simp [visit, h.count, hxs.2]
    · rw [visit_state_of_ne d hux] at hu
      rw [visit_ids_of_ne d hux]
      exact h.new u hu0 hu
  · -- unvisited
    have hux : u ≠ x := by rintro rfl; simp [visit] at hu
    rw [visit_state_of_ne d hux] at hu
    rw [visit_ids_of_ne d hux]
    exact h.unvisited u hu
  · -- stack
    rcases List.mem_append.mp hy with hy | hy
    · exact h.stack y (List.mem_append_left _ hy)
    · obtain ⟨hxy, hy⟩ := mem_pushed.mp hy
      have hy0 : d₀.state y = false := by
        by_contra hy0
        have := (h.old y (by simpa using hy0)).1
        simp [(visit_state d x y).mpr (.inr this)] at hy
      exact ⟨hy0, hxs.2.tail ⟨hxy, hy0⟩⟩
  · -- closed
    by_cases hzx : z = x
    · subst hzx
      by_cases hy : (visit d z).state y = true
      · exact .inl hy
      · exact .inr (List.mem_append_right _ (mem_pushed.mpr ⟨hzy, by simpa using hy⟩))
    · rw [visit_state_of_ne d hzx] at hz
      rcases h.closed z hz0 hz y hzy with hy | hy
      · exact .inl ((visit_state d x y).mpr (.inr hy))
      · by_cases hyx : y = x
        · exact .inl ((visit_state d x y).mpr (.inl hyx))
        · exact .inr (hmem y hy hyx)
  · -- src
    by_cases hsx : s = x
    · exact .inl ((visit_state d x s).mpr (.inl hsx))
    · rcases h.src with hs | hs
      · exact .inl ((visit_state d x s).mpr (.inr hs))
      · exact .inr (hmem s hs hsx)
  · -- work
    have hxn : x < g.nVertices := hxs.2.reach.lt hs
    have hlen : (pushed g d x).length ≤ (g.adjList x).length :=
      (List.length_filter_le _ _).trans (List.length_reverse _).le
    cases hx : d.state x with
    | false =>
      have := work_visit hx hxn (l ++ pushed g d x)
      simp only [work, List.length_append, List.length_singleton] at this ⊢
      omega
    | true =>
      -- a visited top pushes nothing
      have hnil : pushed g d x = [] := List.eq_nil_iff_forall_not_mem.mpr fun y hy => by
        have := mem_pushed.mp hy
        rw [visit_state_eq hx] at this
        simp [h.lifo.top hx y this.1] at this
      simp only [work, hnil, visit_state_eq hx, List.append_nil, List.length_append,
        List.length_singleton]
      omega

/-- With the stack empty, the vertices visited since are exactly those reachable from `s`
through vertices unvisited in `d₀`. -/
theorem LoopInv.visited (h : LoopInv g d₀ s d []) (hs0 : d₀.state s = false) (u : Nat) :
    d.state u = true ↔ d₀.state u = true ∨ NewReach g d₀.state s u := by
  constructor
  · intro hu
    cases hu0 : d₀.state u with
    | true => exact .inl rfl
    | false => exact .inr (h.new u hu0 hu).2
  · rintro (hu | hu)
    · exact (h.old u hu).1
    · induction hu with
      | refl => simpa using h.src
      | @tail a b hsa hab ih => simpa using h.closed a (NewReach.fresh hsa hs0) ih b hab.1

end Step

/-- **The loop of `_dfs`.** From the invariant, on more fuel than the work left, the loop
succeeds and empties the stack. -/
theorem dfsLoop_spec {d₀ : DepthFirstScc} {s : Nat} (hs : s < g.nVertices) :
    ∀ (fuel : Nat) (d : DepthFirstScc) (st : Stack Nat), LoopInv g d₀ s d st.items →
      work g d st.items < fuel → ∃ d', dfsLoop g fuel d st = .ok d' ∧ LoopInv g d₀ s d' []
  | 0, _, _, _, hf => absurd hf (Nat.not_lt_zero _)
  | fuel + 1, d, st, h, hf => by
    rcases List.eq_nil_or_concat st.items with hst | ⟨l, x, hst⟩
    · exact ⟨d, by rw [dfsLoop, if_pos ((Stack.isEmpty_iff st).mpr hst)], hst ▸ h⟩
    · rw [List.concat_eq_append] at hst
      rw [hst] at h hf
      have hxn : x < g.nVertices := (h.stack x (by simp)).2.reach.lt hs
      obtain ⟨h', hw⟩ := h.step hs
      obtain ⟨st', hst', heq⟩ := dfsLoop_pop fuel hst (h.nVertices ▸ hxn) hxn
      rw [heq]
      exact dfsLoop_spec hs fuel _ st' (hst' ▸ h') (by rw [hst']; omega)

/-- `dfsFuel` exceeds the work of a loop that starts with one entry on the stack. -/
theorem work_lt_dfsFuel (d : DepthFirstScc) (s : Nat) : work g d [s] < dfsFuel g := by
  have hsub := Finset.sum_le_sum_of_subset (f := fun v => (g.adjList v).length + 1)
    (Finset.filter_subset (fun v => d.state v = false) (Finset.range g.nVertices))
  have hsum : ∑ v ∈ Finset.range g.nVertices, ((g.adjList v).length + 1) =
      ((List.range g.nVertices).map fun v => (g.adjList v).length + 1).sum := by
    rw [Finset.sum, Finset.range_val, Multiset.range, Multiset.map_coe, Multiset.sum_coe]
  simp only [work, dfsFuel, List.length_singleton] at hsub ⊢
  omega

/-- **`_dfs(graph, s)`.** From an unvisited vertex `s`, the stack-based `_dfs` succeeds, visits
exactly the vertices reachable from `s` through unvisited vertices, gives them the id `_count`,
and changes no other state or id. -/
theorem dfs_spec {d : DepthFirstScc} {s : Nat} (hn : d.nVertices = g.nVertices)
    (hs : s < g.nVertices) (hs0 : d.state s = false) :
    ∃ d', dfs g d s = .ok d' ∧ d'.nVertices = d.nVertices ∧ d'.count = d.count ∧
      ∀ u, (d'.state u = true ↔ d.state u = true ∨ NewReach g d.state s u) ∧
        (NewReach g d.state s u → d'.ids u = some d.count) ∧
        (¬ NewReach g d.state s u → d'.ids u = d.ids u) := by
  have h₀ : LoopInv g d s d (Stack.init.push s).items :=
    { nVertices := hn
      count := rfl
      old := fun _ hu => ⟨hu, rfl⟩
      new := fun _ h0 h1 => by simp [h0] at h1
      unvisited := fun _ _ => rfl
      stack := fun x hx => by
        obtain rfl : x = s := by simpa using hx
        exact ⟨hs0, .refl⟩
      closed := fun _ h0 h1 => by simp [h0] at h1
      lifo := ⟨fun h => by simp [hs0] at h, trivial⟩
      src := .inr (by simp) }
  obtain ⟨d', h, hi⟩ := dfsLoop_spec hs (dfsFuel g) d _ h₀ (by simpa using work_lt_dfsFuel d s)
  refine ⟨d', h, hi.nVertices.trans hn.symm, hi.count, fun u => ⟨hi.visited hs0 u, fun hu => ?_,
    fun hu => ?_⟩⟩
  · exact (hi.new u (hu.fresh hs0) ((hi.visited hs0 u).mpr (.inr hu))).1
  · cases hu0 : d.state u with
    | true => exact (hi.old u hu0).2
    | false =>
      refine hi.unvisited u (Bool.eq_false_iff.mpr fun hu' => ?_)
      rcases (hi.visited hs0 u).mp hu' with h | h
      · simp [hu0] at h
      · exact hu h

/-! ## Pass 2 -/

/-- The invariant of the loop of pass 2 after the vertices `done` of the order: they are
visited; a vertex is visited when it has an id; the ids are below `_count`, and each is taken;
and two vertices share an id exactly when they are strongly connected. -/
structure Outer (g : DiGraph) (d : DepthFirstScc) (done : List Nat) : Prop where
  nVertices : d.nVertices = g.nVertices
  done : ∀ v ∈ done, d.state v = true
  lt : ∀ u, d.state u = true → u < g.nVertices
  visited : ∀ u, d.state u = true ↔ (d.ids u).isSome
  id_lt : ∀ u j, d.ids u = some j → j < d.count
  taken : ∀ j < d.count, ∃ u, d.ids u = some j
  comp : ∀ u w j, d.ids u = some j → (d.ids w = some j ↔ g.Strong u w)

section Outer

variable {d : DepthFirstScc} {done : List Nat} {v : Nat}

/-- Before the loop, nothing is visited and `_count` is `0`. -/
theorem Outer.start (g : DiGraph) : Outer g ⟨g.nVertices, fun _ => false, fun _ => none, 0⟩ [] :=
  ⟨rfl, by simp, by simp, by simp, by simp, by simp, by simp⟩

theorem Outer.state_of_ids (h : Outer g d done) {u j : Nat} (hj : d.ids u = some j) :
    d.state u = true :=
  (h.visited u).mpr (by simp [hj])

/-- Components are visited whole: a vertex strongly connected to an unvisited one is
unvisited. -/
theorem Outer.unvisited_of_strong (h : Outer g d done) (hv : d.state v = false) {u : Nat}
    (hvu : g.Strong v u) : d.state u = false := by
  by_contra hu
  obtain ⟨j, hj⟩ := Option.isSome_iff_exists.mp ((h.visited u).mp (by simpa using hu))
  simp [h.state_of_ids ((h.comp u v j hj).mpr hvu.symm)] at hv

/-- When every vertex that `v` reaches and that does not reach back is strongly connected to one
of `done`, the vertices reachable from an unvisited `v` through unvisited vertices are its strong
component. -/
theorem Outer.newReach_iff (h : Outer g d done) (hv : d.state v = false) (hvn : v < g.nVertices)
    (hlater : ∀ b < g.nVertices, g.Reach v b → ¬ g.Reach b v → ∃ c ∈ done, g.Strong b c)
    (u : Nat) : NewReach g d.state v u ↔ g.Strong v u := by
  constructor
  · intro hu
    refine ⟨hu.reach, ?_⟩
    by_contra huv
    obtain ⟨c, hc, huc⟩ := hlater u (hu.reach.lt hvn) hu.reach huv
    exact absurd (h.done c hc) (by simp [h.unvisited_of_strong (hu.fresh hv) huc])
  · rintro ⟨hvu, huv⟩
    -- each vertex of a walk from `v` back to `v` is in its component, so unvisited
    induction hvu with
    | refl => exact .refl
    | @tail x y hvx hxy ih =>
      exact (ih (Relation.ReflTransGen.head hxy huv)).tail
        ⟨hxy, h.unvisited_of_strong hv ⟨hvx.tail hxy, huv⟩⟩

/-- **One vertex of the order.** When every vertex that `v` reaches and that does not reach back
is strongly connected to one of `done`, the body of the loop of pass 2 on `v` keeps the
invariant and visits `v`. -/
theorem Outer.step (h : Outer g d done) (hvn : v < g.nVertices)
    (hlater : ∀ b < g.nVertices, g.Reach v b → ¬ g.Reach b v → ∃ c ∈ done, g.Strong b c) :
    ∃ d', (if !d.isVisited v then dfs g d v >>= fun d => .ok { d with count := d.count + 1 }
      else .ok d) = .ok d' ∧ Outer g d' (done ++ [v]) := by
  cases hv : d.state v with
  | true =>
    refine ⟨d, by simp [isVisited, hv], { h with done := fun w hw => ?_ }⟩
    rcases List.mem_append.mp hw with hw | hw
    · exact h.done w hw
    · rw [List.mem_singleton.mp hw]; exact hv
  | false =>
    obtain ⟨d', hd, hn', hc', hst'⟩ := dfs_spec h.nVertices hvn hv
    have key := h.newReach_iff hv hvn hlater
    -- what `_dfs` did, in terms of the component of `v`
    have hstate : ∀ u, d'.state u = true ↔ d.state u = true ∨ g.Strong v u := fun u => by
      rw [(hst' u).1, key]
    have hin : ∀ u, g.Strong v u → d'.ids u = some d.count := fun u hu =>
      (hst' u).2.1 ((key u).mpr hu)
    have hout : ∀ u, ¬ g.Strong v u → d'.ids u = d.ids u := fun u hu =>
      (hst' u).2.2 (mt (key u).mp hu)
    have hnot : ∀ u j, d.ids u = some j → ¬ g.Strong v u := fun u j hj hvu =>
      absurd (h.state_of_ids hj) (by simp [h.unvisited_of_strong hv hvu])
    refine ⟨{ d' with count := d'.count + 1 }, by simp [isVisited, hv, hd, bind, Except.bind],
      ⟨hn'.trans h.nVertices, fun w hw => ?_, fun u hu => ?_, fun u => ?_, fun u j hj => ?_,
        fun j hj => ?_, fun u w j hj => ?_⟩⟩ <;> dsimp only at * <;> rw [hc'] at *
    · -- done
      rcases List.mem_append.mp hw with hw | hw
      · exact (hstate w).mpr (.inl (h.done w hw))
      · exact (hstate w).mpr (.inr (List.mem_singleton.mp hw ▸ Strong.refl g v))
    · -- lt
      rcases (hstate u).mp hu with hu | hu
      · exact h.lt u hu
      · exact hu.1.lt hvn
    · -- visited
      by_cases hu : g.Strong v u
      · simp [(hstate u).mpr (.inr hu), hin u hu]
      · rw [hout u hu, ← h.visited u]
        simp [hstate u, hu]
    · -- id_lt
      by_cases hu : g.Strong v u
      · rw [hin u hu] at hj
        cases hj; omega
      · rw [hout u hu] at hj
        exact (h.id_lt u j hj).trans (Nat.lt_succ_self _)
    · -- taken
      rcases Nat.lt_succ_iff_lt_or_eq.mp hj with hj | rfl
      · obtain ⟨u, hu⟩ := h.taken j hj
        exact ⟨u, (hout u (hnot u j hu)).trans hu⟩
      · exact ⟨v, hin v (Strong.refl g v)⟩
    · -- comp
      by_cases hu : g.Strong v u
      · rw [hin u hu] at hj
        cases hj
        by_cases hw : g.Strong v w
        · simp [hin w hw, hu.symm.trans hw]
        · rw [hout w hw]
          exact iff_of_false (fun h' => absurd (h.id_lt w _ h') (lt_irrefl _))
            fun huw => hw (hu.trans huw)
      · rw [hout u hu] at hj
        by_cases hw : g.Strong v w
        · rw [hin w hw]
          exact iff_of_false (fun h' => absurd (Option.some_injective _ h' ▸ h.id_lt u j hj)
            (lt_irrefl _)) fun huw => hu (hw.trans huw.symm)
        · rw [hout w hw]
          exact h.comp u w j hj

/-- A vertex after `v` in `A ++ v :: B`, with `v` not in `A`, lies in `B`. -/
theorem mem_of_indexOf_lt {A B : List Nat} {v c : Nat} (hv : v ∉ A) (hc : c ∈ A ++ v :: B)
    (h : (A ++ v :: B).indexOf v < (A ++ v :: B).indexOf c) : c ∈ B := by
  rw [List.indexOf_append_of_not_mem hv, List.indexOf_cons_self] at h
  rcases List.mem_append.mp hc with hc | hc
  · rw [List.indexOf_append_of_mem hc] at h
    exact absurd (List.indexOf_lt_length.mpr hc) (by omega)
  · rcases List.mem_cons.mp hc with rfl | hc
    · rw [List.indexOf_append_of_not_mem hv, List.indexOf_cons_self] at h
      omega
    · exact hc

/-- **The loop of pass 2.** Over an order `L` of vertices in which, for each vertex `v`, every
vertex that `v` reaches and that does not reach back is strongly connected to one before `v`,
the loop of pass 2 succeeds and keeps `Outer` to the end. -/
theorem outer_run {L : List Nat} (hL : ∀ v ∈ L, v < g.nVertices)
    (hord : ∀ done v rest, L = done ++ v :: rest →
      ∀ b < g.nVertices, g.Reach v b → ¬ g.Reach b v → ∃ c ∈ done, g.Strong b c) :
    ∀ (rest done : List Nat) (d : DepthFirstScc), L = done ++ rest → Outer g d done →
      ∃ d', rest.foldlM (fun d v => if !d.isVisited v then
          dfs g d v >>= fun d => .ok { d with count := d.count + 1 } else .ok d) d = .ok d' ∧
        Outer g d' L
  | [], done, d, hL', h => ⟨d, rfl, by rw [hL', List.append_nil]; exact h⟩
  | v :: rest, done, d, hL', h => by
    obtain ⟨d₁, h₁, hi₁⟩ := h.step (hL v (by simp [hL'])) (hord done v rest hL')
    obtain ⟨d₂, h₂, hi₂⟩ := outer_run hL hord rest (done ++ [v]) d₁ (by simp [hL']) hi₁
    exact ⟨d₂, by rw [List.foldlM_cons, h₁]; exact h₂, hi₂⟩

end Outer

/-- **Pass 1 orders the vertices as pass 2 needs.** In the reverse of a postorder of all the
vertices of the reverse graph, every vertex that `v` reaches and that does not reach back is
strongly connected to a vertex before `v`. -/
theorem order_of_postorder {r : DiGraph} (hrn : r.nVertices = g.nVertices)
    (hradj : ∀ a b, b ∈ r.adjList a ↔ a ∈ g.adjList b) {P : List Nat} (hnd : P.Nodup)
    (hmem : ∀ v, v ∈ P ↔ v < r.nVertices) (hpost : DepthFirstTopoSortRecursive.Postorder r P)
    (done : List Nat) (v : Nat) (rest : List Nat) (hL : P.reverse = done ++ v :: rest)
    (b : Nat) (hb : b < g.nVertices) (hvb : g.Reach v b) (hbv : ¬ g.Reach b v) :
    ∃ c ∈ done, g.Strong b c := by
  have hrev := reach_of_reversed hradj
  obtain ⟨c, hbc, hcb, hlt⟩ := hpost.later hmem (hrn ▸ hb) ((hrev b v).mpr hvb)
    (mt (hrev v b).mp hbv)
  have hP : P = rest.reverse ++ v :: done.reverse := by
    rw [← List.reverse_reverse P, hL]; simp
  have hv : v ∉ rest.reverse := fun hv =>
    List.disjoint_of_nodup_append (hP ▸ hnd) hv (List.mem_cons_self v _)
  rw [hP] at hlt
  have hc := mem_of_indexOf_lt hv (hP ▸ (hmem c).mpr (hbc.lt (hrn ▸ hb))) hlt
  exact ⟨c, List.mem_reverse.mp hc, (hrev c b).mp hcb, (hrev b c).mp hbc⟩

section Final

variable {d : DepthFirstScc} {L : List Nat}

/-- At the end of pass 2, with every vertex given an id, `_count` is the number of strong
components: the components are the sets of vertices that share an id, one per id. -/
theorem Outer.count_eq (h : Outer g d L) (hid : ∀ v < g.nVertices, ∃ j, d.ids v = some j) :
    d.count = Set.ncard {C : Set Nat | ∃ v < g.nVertices,
      C = {w | w < g.nVertices ∧ g.Reach v w ∧ g.Reach w v}} := by
  have hcls : {C : Set Nat | ∃ v < g.nVertices,
      C = {w | w < g.nVertices ∧ g.Reach v w ∧ g.Reach w v}} =
      (fun j => {w | w < g.nVertices ∧ d.ids w = some j}) '' Set.Iio d.count := by
    ext C
    constructor
    · rintro ⟨v, hv, rfl⟩
      obtain ⟨j, hj⟩ := hid v hv
      refine ⟨j, h.id_lt v j hj, Set.ext fun w => ?_⟩
      simp only [Set.mem_setOf_eq, h.comp v w j hj]
      rfl
    · rintro ⟨j, hj, rfl⟩
      obtain ⟨u, hu⟩ := h.taken j hj
      refine ⟨u, h.lt u (h.state_of_ids hu), Set.ext fun w => ?_⟩
      simp only [Set.mem_setOf_eq, h.comp u w j hu]
      rfl
  rw [hcls, Set.ncard_image_of_injOn, ← Finset.coe_range, Set.ncard_coe_Finset,
    Finset.card_range]
  -- distinct ids give distinct sets
  intro j hj j' _ hjj'
  dsimp only at hjj'
  obtain ⟨u, hu⟩ := h.taken j hj
  have : u ∈ {w | w < g.nVertices ∧ d.ids w = some j'} :=
    hjj' ▸ ⟨h.lt u (h.state_of_ids hu), hu⟩
  exact Option.some_injective _ (hu.symm.trans this.2)

theorem id_eq {v : Nat} (hv : v < d.nVertices) : d.id v = .ok (d.ids v) :=
  if_pos hv

theorem connected_eq {v w : Nat} (hv : v < d.nVertices) (hw : w < d.nVertices) :
    d.connected v w = .ok (d.ids v == d.ids w) :=
  if_pos ⟨hv, hw⟩

/-- **The end of the loop.** With every vertex done, `id` and `connected` decide strong
connection, each vertex has an id below `count()`, each such id is taken, and `count()` is the
number of strong components. -/
theorem Outer.final (h : Outer g d L) (hL : ∀ v < g.nVertices, v ∈ L) :
    (∀ v < g.nVertices, ∀ w < g.nVertices,
      (d.id v = d.id w ↔ g.Strong v w) ∧ (d.connected v w = .ok true ↔ g.Strong v w)) ∧
    (∀ v < g.nVertices, ∃ j < d.count, d.id v = .ok (some j)) ∧
    (∀ j < d.count, ∃ v < g.nVertices, d.id v = .ok (some j)) ∧
    d.count = Set.ncard {C : Set Nat | ∃ v < g.nVertices,
      C = {w | w < g.nVertices ∧ g.Reach v w ∧ g.Reach w v}} := by
  have hid : ∀ v < g.nVertices, ∃ j, d.ids v = some j := fun v hv =>
    Option.isSome_iff_exists.mp <| (h.visited v).mp <| h.done v (hL v hv)
  have hn := h.nVertices
  refine ⟨fun v hv w hw => ?_, fun v hv => ?_, fun j hj => ?_, h.count_eq hid⟩
  · -- ids and `connected`
    obtain ⟨j, hj⟩ := hid v hv
    rw [id_eq (hn ▸ hv), id_eq (hn ▸ hw), connected_eq (hn ▸ hv) (hn ▸ hw), hj]
    simp only [Except.ok.injEq, beq_iff_eq, eq_comm (a := some j)]
    exact ⟨h.comp v w j hj, h.comp v w j hj⟩
  · -- every vertex has an id below `count()`
    obtain ⟨j, hj⟩ := hid v hv
    exact ⟨j, h.id_lt v j hj, by rw [id_eq (hn ▸ hv), hj]⟩
  · -- every id below `count()` is taken
    obtain ⟨u, hu⟩ := h.taken j hj
    have hun := h.lt u (h.state_of_ids hu)
    exact ⟨u, hun, by rw [id_eq (hn ▸ hun), hu]⟩

end Final

/-- **Kosaraju's algorithm.** For every digraph, `DepthFirstSCC(graph)` succeeds; two vertices
have the same `id` (and are `connected`) exactly when each reaches the other; every vertex has
an id below `count()`, each such id is some vertex's, and `count()` is the number of strong
components. -/
theorem depthFirstScc_correct (g : DiGraph) :
    ∃ d, init g = .ok d ∧
      (∀ v < g.nVertices, ∀ w < g.nVertices,
        (d.id v = d.id w ↔ g.Reach v w ∧ g.Reach w v) ∧
        (d.connected v w = .ok true ↔ g.Reach v w ∧ g.Reach w v)) ∧
      (∀ v < g.nVertices, ∃ j < d.count, d.id v = .ok (some j)) ∧
      (∀ j < d.count, ∃ v < g.nVertices, d.id v = .ok (some j)) ∧
      d.count = Set.ncard {C : Set Nat | ∃ v < g.nVertices,
        C = {w | w < g.nVertices ∧ g.Reach v w ∧ g.Reach w v}} := by
  obtain ⟨r, hr, hrn, hradj⟩ := g.reverse_spec
  obtain ⟨t, ht, hnd, hmem, hpost⟩ := DepthFirstTopoSortRecursive.topoSort_spec r
  obtain ⟨d, hd, hi⟩ := outer_run (fun v hv => hrn ▸ (hmem v).mp (List.mem_reverse.mp hv))
    (order_of_postorder hrn hradj hnd hmem hpost) _ [] _ rfl (Outer.start g)
  refine ⟨d, ?_, hi.final fun v hv => List.mem_reverse.mpr ((hmem v).mpr (hrn.symm ▸ hv))⟩
  simp only [init, hr, ht, bind, Except.bind, DepthFirstTopoSortRecursive.iter, Stack.iter_eq]
  exact hd

end DepthFirstScc

end GraphAlgo
