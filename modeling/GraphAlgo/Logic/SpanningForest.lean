import GraphAlgo.Logic.Mst
import Mathlib.Algebra.BigOperators.Group.Finset

/-!
# Spanning forests

What the three MST constructors return is stated with three predicates on lists of `Edge`s,
over `Connected` of `Logic/Mst.lean` (the equivalence closure of the edges' endpoint pairs):

* `Acyclic K`: `K` is a forest grown one edge at a time, each edge joining two vertices that
  the edges before it leave apart;
* `atLeast t K`: the edges of `K` of weight at least `t`;
* a forest `R` *covers* the edges of `F` when it connects the ends of each.

A forest on the vertices `0 .. n - 1` is counted with the union-find of `ds/union_find.py`:
`join`ing its edges in order merges two sets each time (`Acyclic.unionFind`). So it has at
most `n - 1` edges, with `n - 1` it connects every vertex, and it has at most as many edges as
any forest that covers it (`Acyclic.length_le_of_cover`). Counted at every threshold, the
last gives the weight bound behind maximality (`weight_le_of_cover`): if the edges of `R` of
weight at least `w` cover each edge of `F` of weight `w`, then `F` weighs no more than `R`.
Two forests that cover each other so have as many edges at every threshold, hence the same
weights, each as often (`weights_perm_of_count`).

The graphs are those `add_edge` builds: `EdgeWeightedGraph.WF` says what it keeps of the
adjacency lists (`build_wf`).
-/

namespace GraphAlgo

/-! ## Connectivity -/

namespace Connected

variable {K L : List Edge} {a b c : Nat}

theorem of_mem {e : Edge} (he : e ∈ K) : Connected K e.first e.second :=
  .rel _ _ ⟨e, he, rfl, rfl⟩

theorem symm (h : Connected K a b) : Connected K b a := Relation.EqvGen.symm _ _ h

theorem trans (h : Connected K a b) (h' : Connected K b c) : Connected K a c :=
  Relation.EqvGen.trans _ _ _ h h'

/-- What the edges of `L` connect, `K` connects, when `K` connects the ends of each of them. -/
theorem of_cover (hL : ∀ e ∈ L, Connected K e.first e.second) (h : Connected L a b) :
    Connected K a b := by
  induction h with
  | rel x y hxy => obtain ⟨e, he, rfl, rfl⟩ := hxy; exact hL e he
  | refl x => exact .refl x
  | symm x y _ ih => exact ih.symm
  | trans x y z _ _ ih₁ ih₂ => exact ih₁.trans ih₂

theorem mono (hKL : K ⊆ L) (h : Connected K a b) : Connected L a b :=
  h.of_cover fun _ he => of_mem (hKL he)

/-- An edge connects its ends, in either order. -/
theorem of_ends {e : Edge} (he : e ∈ K)
    (hab : e.first = a ∧ e.second = b ∨ e.first = b ∧ e.second = a) : Connected K a b := by
  rcases hab with ⟨rfl, rfl⟩ | ⟨rfl, rfl⟩
  exacts [of_mem he, (of_mem he).symm]

/-- A map that agrees on the ends of every edge agrees on connected vertices. -/
theorem eq_of_ends {β : Type} {f : Nat → β} (hf : ∀ e ∈ K, f e.first = f e.second)
    (h : Connected K a b) : f a = f b := by
  induction h with
  | rel x y hxy => obtain ⟨e, he, rfl, rfl⟩ := hxy; exact hf e he
  | refl => rfl
  | symm _ _ _ ih => exact ih.symm
  | trans _ _ _ _ _ ih₁ ih₂ => exact ih₁.trans ih₂

end Connected

/-! ## Forests and heavy edges -/

/-- `K` is a forest grown one edge at a time: each edge joins two vertices that the edges
before it do not connect. -/
inductive Acyclic : List Edge → Prop
  | nil : Acyclic []
  | snoc {K : List Edge} {e : Edge} : Acyclic K → ¬ Connected K e.first e.second →
      Acyclic (K ++ [e])

/-- The edges of `K` of weight at least `t`. -/
def atLeast (t : ℚ) (K : List Edge) : List Edge := K.filter fun e => decide (t ≤ e.weight)

section AtLeast

variable {t : ℚ} {K L : List Edge} {e : Edge}

@[simp] theorem mem_atLeast : e ∈ atLeast t K ↔ e ∈ K ∧ t ≤ e.weight := by
  simp [atLeast]

theorem atLeast_subset : atLeast t K ⊆ K := fun _ he => (mem_atLeast.mp he).1

theorem atLeast_anti {t' : ℚ} (h : t ≤ t') : atLeast t' K ⊆ atLeast t K := fun _ he =>
  mem_atLeast.mpr ⟨(mem_atLeast.mp he).1, h.trans (mem_atLeast.mp he).2⟩

theorem atLeast_mono (h : K ⊆ L) : atLeast t K ⊆ atLeast t L := fun _ he =>
  mem_atLeast.mpr ⟨h (mem_atLeast.mp he).1, (mem_atLeast.mp he).2⟩

theorem atLeast_append : atLeast t (K ++ L) = atLeast t K ++ atLeast t L := List.filter_append _ _

theorem atLeast_cons : atLeast t (e :: K) = if t ≤ e.weight then e :: atLeast t K else atLeast t K := by
  by_cases h : t ≤ e.weight <;> simp [atLeast, List.filter_cons, h]

/-- Erasing one edge of `K` drops one heavy edge, or none. -/
theorem length_atLeast_erase (he : e ∈ K) :
    (atLeast t K).length = (atLeast t (K.erase e)).length + if t ≤ e.weight then 1 else 0 := by
  unfold atLeast
  rw [((List.perm_cons_erase he).filter _).length_eq, List.filter_cons]
  by_cases h : t ≤ e.weight <;> simp [h]

theorem Acyclic.atLeast (hK : Acyclic K) (t : ℚ) : Acyclic (atLeast t K) := by
  induction hK with
  | nil => exact .nil
  | @snoc K e _ hc ih =>
    rw [atLeast_append, atLeast_cons]
    by_cases he : t ≤ e.weight
    · rw [if_pos he]; exact ih.snoc fun h => hc (h.mono atLeast_subset)
    · rw [if_neg he]; exact (List.append_nil _).symm ▸ ih

end AtLeast

/-! ## Counting with the union-find -/

section Count

variable {n : Nat} {F R : List Edge}

/-- A forest is one the edge before its last edge grows, without a cycle. -/
theorem Acyclic.snoc_iff {F : List Edge} {e : Edge} :
    Acyclic (F ++ [e]) ↔ Acyclic F ∧ ¬ Connected F e.first e.second := by
  refine ⟨fun h => ?_, fun h => h.1.snoc h.2⟩
  generalize hL : F ++ [e] = L at h
  cases h with
  | nil => exact absurd hL (List.append_ne_nil_of_right_ne_nil _ (List.cons_ne_nil _ _))
  | snoc hK hc =>
    obtain ⟨rfl, he⟩ := List.append_inj' hL rfl
    obtain rfl := List.singleton_inj.mp he
    exact ⟨hK, hc⟩

/-- `join`ing the edges of a list with ends in `0 .. n - 1` in order, from `UnionFind(n)`,
merges two sets at each edge whose ends are apart and none at the others: at least
`n - |L|` sets are left, exactly `n - |L|` when `L` is a forest. -/
theorem exists_unionFind (hn : 0 < n) (L : List Edge)
    (hends : ∀ e ∈ L, e.first < n ∧ e.second < n) :
    ∃ s J, UnionFind.WF s ∧ UnionFind.Tracks s J ∧ JoinsPairs J L ∧ s.nKeys = n ∧
      n ≤ s.nSets + L.length ∧ (s.nSets + L.length = n ↔ Acyclic L) := by
  induction L using List.reverseRecOn with
  | nil =>
    obtain ⟨hw, ht, hk⟩ := UnionFind.init_spec (n := n) (s := ⟨n, n, fun i => i, fun _ => 1⟩)
      (by simp [UnionFind.init, hn])
    exact ⟨_, [], hw, ht, fun a b => by simp [Joins], hk, le_refl _, iff_of_true rfl .nil⟩
  | append_singleton F e ih =>
    obtain ⟨s, J, hs, ht, hJ, hk, hle, hiff⟩ :=
      ih fun f hf => hends f (List.mem_append_left _ hf)
    obtain ⟨ha, hb⟩ := hends e (List.mem_append_right _ (List.mem_singleton_self e))
    obtain ⟨t, -, hw, ht', hk', hsame, hsets⟩ := UnionFind.join_spec hs ht (hk ▸ ha) (hk ▸ hb)
    have hroot := (ht.root_iff _ _ (hk ▸ ha) (hk ▸ hb)).trans hJ.connected
    simp only [List.length_append, List.length_singleton]
    by_cases hc : s.root e.first = s.root e.second
    · -- the ends were connected: no set is merged, and the edge closes a cycle
      have := hsame hc
      exact ⟨t, _, hw, ht', hJ.snoc e, hk'.trans hk, by omega,
        iff_of_false (by omega) fun h => (Acyclic.snoc_iff.mp h).2 (hroot.mp hc)⟩
    · have := hsets hc
      refine ⟨t, _, hw, ht', hJ.snoc e, hk'.trans hk, by omega, ?_⟩
      rw [Acyclic.snoc_iff, ← hiff, ← hroot]
      exact ⟨fun h => ⟨by omega, hc⟩, fun h => by omega⟩

/-- `join`ing the edges of a forest on `0 .. n - 1` in order, from `UnionFind(n)`, merges two
sets at every edge: `n - |F|` sets are left. -/
theorem Acyclic.unionFind (hn : 0 < n) (hF : Acyclic F)
    (hends : ∀ e ∈ F, e.first < n ∧ e.second < n) :
    ∃ s J, UnionFind.WF s ∧ UnionFind.Tracks s J ∧ JoinsPairs J F ∧ s.nKeys = n ∧
      s.nSets + F.length = n :=
  let ⟨s, J, hs, ht, hJ, hk, _, hiff⟩ := exists_unionFind hn F hends
  ⟨s, J, hs, ht, hJ, hk, hiff.mpr hF⟩

/-- A forest on `0 .. n - 1` has at most `n - 1` edges. -/
theorem Acyclic.length_le (hn : 0 < n) (hF : Acyclic F)
    (hends : ∀ e ∈ F, e.first < n ∧ e.second < n) : F.length ≤ n - 1 := by
  obtain ⟨s, -, hs, -, -, hk, hcount⟩ := hF.unionFind hn hends
  have := hs.nSets_pos (hk ▸ hn)
  omega

/-- A forest on `0 .. n - 1` with `n - 1` edges connects every two vertices. -/
theorem Acyclic.connected_of_length (hn : 0 < n) (hF : Acyclic F)
    (hends : ∀ e ∈ F, e.first < n ∧ e.second < n) (hlen : n - 1 ≤ F.length) {a b : Nat}
    (ha : a < n) (hb : b < n) : Connected F a b := by
  obtain ⟨s, J, hs, ht, hJ, hk, hcount⟩ := hF.unionFind hn hends
  have hone : s.nSets = 1 := by have := hs.nSets_pos (hk ▸ hn); omega
  exact hJ.connected.mp ((ht.root_iff a b (hk ▸ ha) (hk ▸ hb)).mp
    (hs.root_eq_of_nSets_eq_one hone (hk ▸ ha) (hk ▸ hb)))

/-- A forest on `0 .. n - 1` has at most as many edges as a forest that covers it. -/
theorem Acyclic.length_le_of_cover (hn : 0 < n) (hF : Acyclic F) (hR : Acyclic R)
    (hFn : ∀ e ∈ F, e.first < n ∧ e.second < n) (hRn : ∀ e ∈ R, e.first < n ∧ e.second < n)
    (hcov : ∀ e ∈ F, Connected R e.first e.second) : F.length ≤ R.length := by
  obtain ⟨s, J, hs, hJ, hJF, hk, hc⟩ := hF.unionFind hn hFn
  obtain ⟨t, J', ht, hJ', hJR, hk', hc'⟩ := hR.unionFind hn hRn
  have := hs.nSets_le ht hJ hJ' (hk.trans hk'.symm) fun a b h =>
    hJR.connected.mpr ((hJF.connected.mp h).of_cover hcov)
  omega

/-- Being a forest does not depend on the order of the edges. -/
theorem Acyclic.perm (hn : 0 < n) (hF : Acyclic F) (hFn : ∀ e ∈ F, e.first < n ∧ e.second < n)
    (hp : F.Perm R) : Acyclic R := by
  obtain ⟨s, J, hs, hJ, hJF, hk, hc⟩ := hF.unionFind hn hFn
  obtain ⟨t, J', ht, hJ', hJR, hk', hle, hiff⟩ :=
    exists_unionFind hn R fun e he => hFn e (hp.symm.subset he)
  have := hs.nSets_le ht hJ hJ' (hk.trans hk'.symm) fun a b h =>
    hJR.connected.mpr ((hJF.connected.mp h).mono hp.subset)
  exact hiff.mp (by have := hp.length_eq; omega)

/-- A forest lists no edge twice: the second copy would join two connected vertices. -/
theorem Acyclic.nodup (hF : Acyclic F) : F.Nodup := by
  induction hF with
  | nil => exact List.nodup_nil
  | @snoc K e _ hc ih =>
    exact List.nodup_append.mpr ⟨ih, List.nodup_singleton e, fun a ha hb =>
      hc (List.mem_singleton.mp hb ▸ Connected.of_mem ha)⟩

/-- Removing an edge of a forest on `0 .. n - 1` leaves its ends apart. -/
theorem Acyclic.not_connected_erase (hn : 0 < n) (hF : Acyclic F)
    (hFn : ∀ e ∈ F, e.first < n ∧ e.second < n) {e : Edge} (he : e ∈ F) :
    ¬ Connected (F.erase e) e.first e.second :=
  (Acyclic.snoc_iff.mp (hF.perm hn hFn ((List.perm_cons_erase he).trans
    (List.perm_append_singleton e (F.erase e)).symm))).2

end Count

/-! ## Weight -/

section Weight

variable {K : List Edge} {e : Edge}

theorem weight_eq_sum (K : List Edge) : weight K = (K.map Edge.weight).sum := by
  suffices h : ∀ a, K.foldl (fun w edge => w + edge.weight) a = a + (K.map Edge.weight).sum from
    (h 0).trans (zero_add _)
  induction K with
  | nil => intro a; simp
  | cons e K ih => intro a; simp [ih, add_assoc]

theorem weight_erase (he : e ∈ K) : weight K = e.weight + weight (K.erase e) := by
  rw [weight_eq_sum, weight_eq_sum, ((List.perm_cons_erase he).map _).sum_eq, List.map_cons,
    List.sum_cons]

theorem exists_heaviest (hK : K ≠ []) : ∃ e ∈ K, ∀ f ∈ K, f.weight ≤ e.weight := by
  obtain ⟨e, he, hmax⟩ := K.toFinset.exists_max_image Edge.weight
    (List.toFinset_nonempty_iff K |>.mpr hK)
  exact ⟨e, List.mem_toFinset.mp he, fun f hf => hmax f (List.mem_toFinset.mpr hf)⟩

/-- Where `R` has as many edges of weight `≥ x.weight` as `F` has, an edge `x` of `F` weighs
at most a heaviest edge `y` of `R`. -/
theorem weight_le_heaviest {F R : List Edge} {x y : Edge} (hx : x ∈ F)
    (hymax : ∀ f ∈ R, f.weight ≤ y.weight)
    (hcount : (atLeast x.weight F).length ≤ (atLeast x.weight R).length) : x.weight ≤ y.weight := by
  obtain ⟨z, hz⟩ := List.exists_mem_of_length_pos
    (lt_of_lt_of_le (List.length_pos_of_mem (mem_atLeast.mpr ⟨hx, le_rfl⟩)) hcount)
  exact (mem_atLeast.mp hz).2.trans (hymax z (mem_atLeast.mp hz).1)

/-- Of two edge lists of one length, the one with at least as many edges of weight `≥ t`, at
every `t`, weighs at least as much: match the heaviest edges of both and recurse. -/
theorem weight_le_of_count : ∀ (m : Nat) (F R : List Edge), F.length = m → R.length = m →
    (∀ t, (atLeast t F).length ≤ (atLeast t R).length) → weight F ≤ weight R
  | 0, F, R, hF, hR, _ => by rw [List.length_eq_zero.mp hF, List.length_eq_zero.mp hR]
  | m + 1, F, R, hF, hR, hcount => by
    obtain ⟨x, hx, hxmax⟩ := exists_heaviest (List.ne_nil_of_length_eq_add_one hF)
    obtain ⟨y, hy, hymax⟩ := exists_heaviest (List.ne_nil_of_length_eq_add_one hR)
    -- the heaviest edge of `R` is at least the heaviest of `F`
    have hxy : x.weight ≤ y.weight := weight_le_heaviest hx hymax (hcount x.weight)
    -- erasing both keeps the counts in order
    have hcount' : ∀ t, (atLeast t (F.erase x)).length ≤ (atLeast t (R.erase y)).length := by
      intro t
      have hFt := length_atLeast_erase (t := t) hx
      have hRt := length_atLeast_erase (t := t) hy
      have := hcount t
      by_cases ht : t ≤ x.weight
      · rw [if_pos ht] at hFt
        rw [if_pos (ht.trans hxy)] at hRt
        omega
      · have hnone : atLeast t (F.erase x) = [] := List.eq_nil_iff_forall_not_mem.mpr fun f hf =>
          ht ((mem_atLeast.mp hf).2.trans (hxmax f (List.mem_of_mem_erase (mem_atLeast.mp hf).1)))
        rw [hnone]
        exact Nat.zero_le _
    have ih := weight_le_of_count m (F.erase x) (R.erase y)
      (by rw [List.length_erase_of_mem hx, hF]; rfl) (by rw [List.length_erase_of_mem hy, hR]; rfl)
      hcount'
    rw [weight_erase hx, weight_erase hy]
    exact add_le_add hxy ih

/-- Two edge lists with as many edges of weight `≥ t` as each other, at every `t`, list the
same weights, each as often: match the heaviest edges of both and recurse. -/
theorem weights_perm_of_count : ∀ (m : Nat) (F R : List Edge), F.length = m → R.length = m →
    (∀ t, (atLeast t F).length = (atLeast t R).length) →
      (F.map Edge.weight).Perm (R.map Edge.weight)
  | 0, F, R, hF, hR, _ => by rw [List.length_eq_zero.mp hF, List.length_eq_zero.mp hR]
  | m + 1, F, R, hF, hR, hcount => by
    obtain ⟨x, hx, hxmax⟩ := exists_heaviest (List.ne_nil_of_length_eq_add_one hF)
    obtain ⟨y, hy, hymax⟩ := exists_heaviest (List.ne_nil_of_length_eq_add_one hR)
    -- the heaviest edges of both weigh the same
    have hxy : x.weight = y.weight := le_antisymm (weight_le_heaviest hx hymax (hcount _).le)
      (weight_le_heaviest hy hxmax (hcount _).ge)
    -- erasing both keeps the counts equal
    have hcount' : ∀ t, (atLeast t (F.erase x)).length = (atLeast t (R.erase y)).length := by
      intro t
      have hFt := length_atLeast_erase (t := t) hx
      have hRt := length_atLeast_erase (t := t) hy
      rw [← hxy] at hRt
      have := hcount t
      split_ifs at hFt hRt <;> omega
    have ih := weights_perm_of_count m (F.erase x) (R.erase y)
      (by rw [List.length_erase_of_mem hx, hF]; rfl) (by rw [List.length_erase_of_mem hy, hR]; rfl)
      hcount'
    refine ((List.perm_cons_erase hx).map _).trans (List.Perm.trans ?_
      ((List.perm_cons_erase hy).map _).symm)
    rw [List.map_cons, List.map_cons, hxy]
    exact ih.cons _

/-- Where the edges of the forest `R` at least as heavy as each edge of the forest `F` connect
its ends, `F` has at most as many edges of weight `≥ t` as `R`, at every `t`. -/
theorem length_atLeast_le_of_cover {n : Nat} {F R : List Edge} (hn : 0 < n) (hF : Acyclic F)
    (hR : Acyclic R) (hFn : ∀ e ∈ F, e.first < n ∧ e.second < n)
    (hRn : ∀ e ∈ R, e.first < n ∧ e.second < n)
    (hcov : ∀ e ∈ F, Connected (atLeast e.weight R) e.first e.second) (t : ℚ) :
    (atLeast t F).length ≤ (atLeast t R).length :=
  (hF.atLeast t).length_le_of_cover hn (hR.atLeast t) (fun e he => hFn e (atLeast_subset he))
    (fun e he => hRn e (atLeast_subset he)) fun e he =>
      (hcov e (atLeast_subset he)).mono (atLeast_anti (mem_atLeast.mp he).2)

/-- **Maximality by cover.** Of two forests on `0 .. n - 1` with as many edges, where the edges
of `R` of weight at least `w` connect the ends of each edge of `F` of weight `w`, `F` weighs
at most what `R` weighs. -/
theorem weight_le_of_cover {n : Nat} {F R : List Edge} (hn : 0 < n) (hF : Acyclic F)
    (hR : Acyclic R) (hFn : ∀ e ∈ F, e.first < n ∧ e.second < n)
    (hRn : ∀ e ∈ R, e.first < n ∧ e.second < n) (hlen : F.length = R.length)
    (hcov : ∀ e ∈ F, Connected (atLeast e.weight R) e.first e.second) : weight F ≤ weight R :=
  weight_le_of_count _ F R rfl hlen.symm (length_atLeast_le_of_cover hn hF hR hFn hRn hcov)

/-- **Maximality by the cycle condition.** Among the edges `E` (a predicate), with ends in
`0 .. n - 1`: a forest `r` of edges of `E` whose edges at least as heavy as `e` connect the ends
of every `e` of `E` weighs at least as much as any forest of edges of `E` that connects the ends
of every edge of `E`. -/
theorem weight_le_of_cycle {n : Nat} {E : Edge → Prop} {F r : List Edge} (hn : 0 < n)
    (hends : ∀ e, E e → e.first < n ∧ e.second < n) (hr : Acyclic r) (hrE : ∀ e ∈ r, E e)
    (hcycle : ∀ e, E e → Connected (atLeast e.weight r) e.first e.second) (hF : Acyclic F)
    (hFE : ∀ e ∈ F, E e) (hspan : ∀ e, E e → Connected F e.first e.second) :
    weight F ≤ weight r := by
  have hFn : ∀ e ∈ F, e.first < n ∧ e.second < n := fun e he => hends e (hFE e he)
  have hrn : ∀ e ∈ r, e.first < n ∧ e.second < n := fun e he => hends e (hrE e he)
  -- each forest covers the other's edges, so they have as many edges
  have hlen : F.length = r.length := le_antisymm
    (hF.length_le_of_cover hn hr hFn hrn fun e he => (hcycle e (hFE e he)).mono atLeast_subset)
    (hr.length_le_of_cover hn hF hrn hFn fun e he => hspan e (hrE e he))
  exact weight_le_of_cover hn hF hr hFn hrn hlen fun e he => hcycle e (hFE e he)

/-- **Which edges a maximum spanning forest keeps.** With pairwise distinct weights on the edges
`E`, a forest of edges of `E` that meets the cycle condition keeps exactly the edges of `E`
whose ends the strictly heavier edges of `E` leave apart; so it is the only such forest. -/
theorem mem_iff_of_cycle {n : Nat} {E T : List Edge} (hn : 0 < n)
    (hends : ∀ e ∈ E, e.first < n ∧ e.second < n) (hT : Acyclic T) (hTE : T ⊆ E)
    (hcycle : ∀ e ∈ E, Connected (atLeast e.weight T) e.first e.second)
    (hdist : ∀ e ∈ E, ∀ f ∈ E, e.weight = f.weight → e = f) (e : Edge) :
    e ∈ T ↔
      e ∈ E ∧ ¬ Connected (E.filter fun f => decide (e.weight < f.weight)) e.first e.second := by
  constructor
  · -- a kept edge: heavier edges joining its ends would close a cycle through it
    refine fun heT => ⟨hTE heT, fun hc => hT.not_connected_erase hn (fun f hf => hends f (hTE hf))
      heT (hc.of_cover fun f hf => ?_)⟩
    obtain ⟨hfE, hlt⟩ : f ∈ E ∧ e.weight < f.weight := by simpa using hf
    refine (hcycle f hfE).of_cover fun x hx => Connected.of_mem ((List.mem_erase_of_ne ?_).mpr
      (mem_atLeast.mp hx).1)
    rintro rfl
    exact absurd (mem_atLeast.mp hx).2 (not_le.mpr hlt)
  · -- a skipped edge: the cycle condition joins its ends by heavier forest edges
    rintro ⟨he, hnot⟩
    by_contra heT
    refine hnot ((hcycle e he).of_cover fun x hx => ?_)
    obtain ⟨hxT, hex⟩ := mem_atLeast.mp hx
    have hlt : e.weight < x.weight := lt_of_le_of_ne hex fun h =>
      heT (hdist e he x (hTE hxT) h ▸ hxT)
    exact Connected.of_mem (List.mem_filter.mpr ⟨hTE hxT, decide_eq_true hlt⟩)

end Weight

/-! ## Graphs built by `add_edge` -/

namespace EdgeWeightedGraph

variable {g g' : EdgeWeightedGraph} {e : Edge}

/-- What `add_edge` keeps of the adjacency lists: each entry is an edge between vertices of the
graph, incident to the vertex whose list holds it, and held by the lists of both its ends. -/
structure WF (g : EdgeWeightedGraph) : Prop where
  lt : ∀ v, ∀ e ∈ g.adjList v, e.first < g.nVertices ∧ e.second < g.nVertices
  incident : ∀ v, ∀ e ∈ g.adjList v, e.first = v ∨ e.second = v
  both : ∀ v, ∀ e ∈ g.adjList v, e ∈ g.adjList e.first ∧ e ∈ g.adjList e.second

/-- `add_edge(e)` on valid ends adds `e` to the lists of its two ends. -/
theorem addEdge_eq (h : g.addEdge e = .ok g') :
    g'.nVertices = g.nVertices ∧ e.first < g.nVertices ∧ e.second < g.nVertices ∧
      ∀ v x, x ∈ g'.adjList v ↔ x ∈ g.adjList v ∨ (x = e ∧ (v = e.first ∨ v = e.second)) := by
  unfold addEdge at h
  split_ifs at h with hv
  obtain rfl := (Except.ok.inj h).symm
  refine ⟨rfl, by simpa [isValid] using hv.1, by simpa [isValid] using hv.2, fun v x => ?_⟩
  simp only [Function.update_apply, Edge.first, Edge.second]
  by_cases hw : v = e.w <;> by_cases hv' : v = e.v <;> by_cases hvw : e.w = e.v <;>
    simp_all [or_comm]

theorem WF.addEdge (hg : g.WF) (h : g.addEdge e = .ok g') : g'.WF := by
  obtain ⟨hn, ha, hb, hmem⟩ := addEdge_eq h
  refine ⟨fun v x hx => ?_, fun v x hx => ?_, fun v x hx => ?_⟩ <;>
    rcases (hmem v x).mp hx with hx | ⟨rfl, hv⟩
  · exact hn ▸ hg.lt v x hx
  · exact hn ▸ ⟨ha, hb⟩
  · exact hg.incident v x hx
  · exact hv.imp Eq.symm Eq.symm
  · exact ⟨(hmem _ _).mpr (.inl (hg.both v x hx).1), (hmem _ _).mpr (.inl (hg.both v x hx).2)⟩
  · exact ⟨(hmem _ _).mpr (.inr ⟨rfl, .inl rfl⟩), (hmem _ _).mpr (.inr ⟨rfl, .inr rfl⟩)⟩

theorem WF.foldlM_addEdge : ∀ (es : List Edge) (g : EdgeWeightedGraph), g.WF →
    es.foldlM EdgeWeightedGraph.addEdge g = .ok g' → g'.WF
  | [], _, hg, h => (Except.ok.inj h) ▸ hg
  | e :: es, g, hg, h => by
    rw [List.foldlM_cons] at h
    cases he : g.addEdge e with
    | error msg => rw [he] at h; cases h
    | ok g₁ => rw [he] at h; exact WF.foldlM_addEdge es g₁ (hg.addEdge he) h

/-- Every graph that `add_edge` builds is `WF`. -/
theorem build_wf {n : Nat} {es : List Edge} (h : build n es = .ok g) : g.WF :=
  WF.foldlM_addEdge es _ ⟨fun _ _ h => absurd h (List.not_mem_nil _),
    fun _ _ h => absurd h (List.not_mem_nil _), fun _ _ h => absurd h (List.not_mem_nil _)⟩ h

@[simp] theorem mem_adj {v : Nat} : e ∈ g.adj v ↔ e ∈ g.adjList v := List.mem_reverse

theorem mem_edges : e ∈ g.edges ↔ ∃ v, v < g.nVertices ∧ e ∈ g.adjList v := by
  simp [edges]

theorem mem_edges_of_adj {v : Nat} (hv : v < g.nVertices) (he : e ∈ g.adj v) : e ∈ g.edges :=
  mem_edges.mpr ⟨v, hv, mem_adj.mp he⟩

theorem WF.edges_lt (hg : g.WF) (he : e ∈ g.edges) : e.first < g.nVertices ∧ e.second < g.nVertices :=
  let ⟨v, _, hv⟩ := mem_edges.mp he
  hg.lt v e hv

/-- A graph edge is in the lists of both its ends. -/
theorem WF.mem_adj_ends (hg : g.WF) (he : e ∈ g.edges) : e ∈ g.adj e.first ∧ e ∈ g.adj e.second :=
  let ⟨v, _, hv⟩ := mem_edges.mp he
  ⟨mem_adj.mpr (hg.both v e hv).1, mem_adj.mpr (hg.both v e hv).2⟩

theorem WF.incident_adj (hg : g.WF) {v : Nat} (he : e ∈ g.adj v) : e.first = v ∨ e.second = v :=
  hg.incident v e (mem_adj.mp he)

end EdgeWeightedGraph

end GraphAlgo
