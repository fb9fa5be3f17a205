import GraphAlgo.Ds.UnionFind
import Mathlib.Logic.Relation
import Mathlib.Data.Set.Card
import Mathlib.Data.Nat.Defs
import Mathlib.Data.List.Sort

/-!
# `UnionFind` invariants

`PathTo parent x r d` says that `x` reaches the root `r` in `d` parent steps. The invariant
`Forest` is the one union by size maintains: a key that is not a root has at most half the
recorded size of its parent,

  `2 * _size[x] ≤ _size[_parent[x]]`,

so recorded sizes at least double along every parent chain. A key of depth `d` under root `r`
then has `2 ^ d ≤ _size[r] ≤ n_keys` (`Forest.pathTo_pow`): chains are shorter than `n_keys`,
the fuel of both loops of `find`, and depths are at most `log2(_size[r])`. `WF` adds that
`_size` of a root counts its tree and that `_n_sets` counts the roots.

Path compression (`compress_repoints`) only re-points non-roots at their own root, so it keeps
every root and shortens every path (`Compresses`); started at a key of depth `d`, it exits at
the root after `d` iterations with every key of that path re-pointed (`compress_path`). `link`
puts one root under another.
`Tracks s J` relates the trees to the equivalence closure of the joined pairs `J`.
-/

namespace GraphAlgo.UnionFind

/-! ## Parent paths -/

/-- `x` reaches the root `r` of its tree in `d` parent steps. -/
inductive PathTo (parent : Nat → Nat) : Nat → Nat → Nat → Prop
  | root {r : Nat} : parent r = r → PathTo parent r r 0
  | step {x r d : Nat} : parent x ≠ x → PathTo parent (parent x) r d → PathTo parent x r (d + 1)

section Paths

variable {parent : Nat → Nat} {x r d : Nat}

theorem PathTo.isRoot (h : PathTo parent x r d) : parent r = r := by
  induction h with
  | root h => exact h
  | step _ _ ih => exact ih

theorem PathTo.unique (h : PathTo parent x r d) {r' d' : Nat} (h' : PathTo parent x r' d') :
    r' = r ∧ d' = d := by
  induction h generalizing d' with
  | root hr =>
    cases h' with
    | root _ => exact ⟨rfl, rfl⟩
    | step hx _ => exact absurd hr hx
  | step hx _ ih =>
    cases h' with
    | root hr => exact absurd hr hx
    | step _ h' => obtain ⟨rfl, rfl⟩ := ih h'; exact ⟨rfl, rfl⟩

/-- A key that is not a root has a path from its parent. -/
theorem PathTo.of_parent (h : PathTo parent x r d) (hx : parent x ≠ x) :
    PathTo parent (parent x) r (d - 1) := by
  cases h with
  | root hr => exact absurd hr hx
  | step _ h => exact h

theorem PathTo.ne_root (h : PathTo parent x r d) (hx : parent x ≠ x) : x ≠ r :=
  fun he => hx (he ▸ h.isRoot)

/-- The root loop of `find` stops at the root when its fuel covers the depth. -/
theorem findRoot_eq (h : PathTo parent x r d) {fuel : Nat} (hd : d ≤ fuel) :
    findRoot parent fuel x = r := by
  induction h generalizing fuel with
  | root hr =>
    cases fuel with
    | zero => rfl
    | succ fuel => rw [findRoot, if_pos hr.symm]
  | step hx _ ih =>
    cases fuel with
    | zero => omega
    | succ fuel => rw [findRoot, if_neg (Ne.symm hx)]; exact ih (by omega)

/-- Every write of the compression loop writes `root`. -/
theorem compress_eq_or (root : Nat) : ∀ fuel (q : Nat → Nat) key y,
    compress root fuel q key y = q y ∨ compress root fuel q key y = root := by
  intro fuel
  induction fuel with
  | zero => intro q key y; exact .inl rfl
  | succ fuel ih =>
    intro q key y
    simp only [compress]
    split
    · exact .inl rfl
    · rcases ih (Function.update q key root) (q key) y with h | h
      · rw [h]
        by_cases hy : y = key
        · subst hy; exact .inr (Function.update_same _ _ _)
        · exact .inl (Function.update_noteq hy _ _)
      · exact .inr h

/-- A parent function `q` obtained from `parent` by re-pointing some non-roots of the tree of
`r` at `r`. -/
def Repoints (parent q : Nat → Nat) (r : Nat) : Prop :=
  ∀ y, q y = parent y ∨ (q y = r ∧ parent y ≠ y ∧ ∃ e, PathTo parent y r e)

/-- The compression loop, started anywhere on a path to `r`, only re-points non-roots of the
tree of `r` at `r`. -/
theorem compress_repoints (hr : parent r = r) : ∀ fuel (q : Nat → Nat) key,
    (∃ e, PathTo parent key r e) → Repoints parent q r → Repoints parent (compress r fuel q key) r := by
  intro fuel
  induction fuel with
  | zero => intro q key _ hq; exact hq
  | succ fuel ih =>
    intro q key ⟨e, he⟩ hq
    simp only [compress]
    split
    · exact hq
    · rename_i hkey
      have hpk : parent key ≠ key := by
        rcases hq key with h | ⟨-, h, -⟩
        · rw [← h]; exact Ne.symm hkey
        · exact h
      refine ih _ _ ?_ fun y => ?_
      · rcases hq key with h | ⟨h, -⟩
        · rw [h]; exact ⟨_, he.of_parent hpk⟩
        · rw [h]; exact ⟨0, .root hr⟩
      · by_cases hy : y = key
        · subst hy; exact .inr ⟨Function.update_same _ _ _, hpk, e, he⟩
        · rw [Function.update_noteq hy]; exact hq y

/-- Re-pointing keeps every root and every key's root, and no path gets longer. -/
theorem Repoints.pathTo {q : Nat → Nat} {r₀ : Nat} (hq : Repoints parent q r₀)
    (h : PathTo parent x r d) : ∃ d', d' ≤ d ∧ PathTo q x r d' := by
  induction h with
  | root hr =>
    refine ⟨0, le_rfl, .root ?_⟩
    rcases hq _ with h | ⟨-, h, -⟩
    · rw [h, hr]
    · exact absurd hr h
  | @step y r d hy hp ih =>
    obtain ⟨d', hd', hp'⟩ := ih
    rcases hq y with h | ⟨h, -, e, he⟩
    · exact ⟨d' + 1, by omega, .step (by rw [h]; exact hy) (h ▸ hp')⟩
    · -- `y` now points straight at its root
      have hr : r₀ = r := ((PathTo.step hy hp).unique he).1
      subst hr
      have hroot : q r₀ = r₀ := by
        rcases hq r₀ with h' | ⟨-, h', -⟩
        · rw [h', he.isRoot]
        · exact absurd he.isRoot h'
      exact ⟨1, by omega, .step (by rw [h]; exact (he.ne_root hy).symm)
        (by rw [h]; exact .root hroot)⟩

/-- Linking the root `a` under the root `b`: the tree of `a` joins the tree of `b`, one step
deeper, and every other path is unchanged. -/
theorem PathTo.link {a b : Nat} (ha : parent a = a) (hb : parent b = b) (hab : a ≠ b)
    (h : PathTo parent x r d) :
    (r = a → PathTo (Function.update parent a b) x b (d + 1)) ∧
      (r ≠ a → PathTo (Function.update parent a b) x r d) := by
  have hbb : PathTo (Function.update parent a b) b b 0 :=
    .root (by rw [Function.update_noteq (Ne.symm hab), hb])
  induction h with
  | root hr =>
    refine ⟨fun he => ?_, fun hne => .root (by rw [Function.update_noteq hne, hr])⟩
    subst he
    exact .step (by rw [Function.update_same]; exact Ne.symm hab) (by rw [Function.update_same]; exact hbb)
  | @step y r d hy _ ih =>
    have hya : y ≠ a := fun he => hy (he ▸ ha)
    have hq : Function.update parent a b y = parent y := Function.update_noteq hya _ _
    exact ⟨fun he => .step (by rw [hq]; exact hy) (hq ▸ ih.1 he),
      fun hne => .step (by rw [hq]; exact hy) (hq ▸ ih.2 hne)⟩

/-- The key `k ≤ d` steps up the path from `x` reaches `r` in the remaining `d - k` steps. -/
theorem PathTo.iterate (h : PathTo parent x r d) :
    ∀ k, k ≤ d → PathTo parent (parent^[k] x) r (d - k) := by
  induction h with
  | root hr =>
    intro k hk
    obtain rfl : k = 0 := by omega
    exact .root hr
  | @step y r d hy hp ih =>
    intro k hk
    cases k with
    | zero => exact .step hy hp
    | succ k =>
      rw [Function.iterate_succ_apply, Nat.add_sub_add_right]
      exact ih k (by omega)

/-- A path visits no key twice: `k` steps up from `x`, for `0 < k ≤ d`, is not `x`. -/
theorem PathTo.iterate_ne (h : PathTo parent x r d) {k : Nat} (hk0 : 0 < k) (hkd : k ≤ d) :
    parent^[k] x ≠ x := fun he => by
  have hx : PathTo parent x r (d - k) := he ▸ h.iterate k hkd
  have := (h.unique hx).2
  omega

/-- **The compression loop.** Started at a key `x` that reaches the root `r` in `d` steps, on a
parent function `q` that agrees with `parent` along that path, the loop exits at `r` after `d`
iterations, whatever the fuel beyond them, having re-pointed every key of the path at `r` and
written no other key. -/
theorem compress_path (h : PathTo parent x r d) : ∀ q : Nat → Nat,
    (∀ k, k ≤ d → q (parent^[k] x) = parent (parent^[k] x)) →
    ∃ q', (∀ fuel, d ≤ fuel → compress r fuel q x = q') ∧
      (∀ k, k ≤ d → q' (parent^[k] x) = r) ∧
      ∀ y, (∀ k, k ≤ d → parent^[k] x ≠ y) → q' y = q y := by
  induction h with
  | @root r hr =>
    intro q hq
    have hqr : q r = r := (hq 0 le_rfl).trans hr
    refine ⟨q, fun fuel _ => ?_, fun k hk => ?_, fun _ _ => rfl⟩
    · cases fuel with
      | zero => rfl
      | succ fuel => rw [compress, if_pos hqr.symm]
    · obtain rfl : k = 0 := by omega
      exact hqr
  | @step y r d hy hp ih =>
    intro q hq
    -- the rest of the path never returns to `y`, so re-pointing `y` first changes nothing on it
    have hne : ∀ k, k ≤ d → parent^[k] (parent y) ≠ y := fun k hk => by
      rw [← Function.iterate_succ_apply]
      exact (PathTo.step hy hp).iterate_ne (Nat.succ_pos k) (by omega)
    obtain ⟨q', hfuel, hpath, hframe⟩ := ih (Function.update q y r) fun k hk => by
      rw [Function.update_noteq (hne k hk), ← Function.iterate_succ_apply]
      exact hq (k + 1) (by omega)
    have hqy : q y = parent y := hq 0 (Nat.zero_le _)
    refine ⟨q', fun fuel hf => ?_, fun k hk => ?_, fun z hz => ?_⟩
    · cases fuel with
      | zero => omega
      | succ fuel =>
        rw [compress, if_neg (by rw [hqy]; exact Ne.symm hy), hqy]
        exact hfuel fuel (by omega)
    · cases k with
      | zero => exact (hframe y hne).trans (Function.update_same _ _ _)
      | succ k =>
        rw [Function.iterate_succ_apply]
        exact hpath k (by omega)
    · have hzy : z ≠ y := fun h' => hz 0 (Nat.zero_le _) h'.symm
      rw [hframe z fun k hk => by rw [← Function.iterate_succ_apply]; exact hz (k + 1) (by omega),
        Function.update_noteq hzy]

end Paths

/-! ## The forest invariant -/

/-- The root `find` reports for `x`. -/
def root (s : UnionFind) (x : Nat) : Nat := findRoot s.parent s.nKeys x

/-- The keys of the tree of `r`. -/
def members (s : UnionFind) (r : Nat) : Finset Nat :=
  (Finset.range s.nKeys).filter fun x => s.root x = r

/-- The roots among the keys. -/
def roots (s : UnionFind) : Finset Nat := (Finset.range s.nKeys).filter fun r => s.parent r = r

@[simp] theorem mem_members {s : UnionFind} {r x : Nat} :
    x ∈ s.members r ↔ x < s.nKeys ∧ s.root x = r := by
  simp [members]

@[simp] theorem mem_roots {s : UnionFind} {x : Nat} :
    x ∈ s.roots ↔ x < s.nKeys ∧ s.parent x = x := by
  simp [roots]

/-- Parents are keys, recorded sizes lie in `1..n_keys`, and a non-root has at most half the
recorded size of its parent. -/
structure Forest (s : UnionFind) : Prop where
  parent_lt : ∀ x, x < s.nKeys → s.parent x < s.nKeys
  size_pos : ∀ x, x < s.nKeys → 0 < s.size x
  size_le : ∀ x, x < s.nKeys → s.size x ≤ s.nKeys
  doubling : ∀ x, x < s.nKeys → s.parent x ≠ x → 2 * s.size x ≤ s.size (s.parent x)

/-- What every reachable state satisfies: a forest whose roots record the sizes of their trees,
with `_n_sets` roots. -/
structure WF (s : UnionFind) extends Forest s : Prop where
  size_root : ∀ r, r < s.nKeys → s.parent r = r → s.size r = (s.members r).card
  nSets_eq : s.nSets = s.roots.card

variable {s : UnionFind}

/-- Every key has a path to a root whose recorded size is at least `2 ^ depth` times its own. -/
theorem Forest.exists_pathTo (hs : Forest s) : ∀ m x, s.nKeys - s.size x = m → x < s.nKeys →
    ∃ r d, PathTo s.parent x r d ∧ r < s.nKeys ∧ 2 ^ d * s.size x ≤ s.size r := by
  intro m
  induction m using Nat.strong_induction_on with
  | _ m ih =>
    intro x hm hx
    by_cases hpx : s.parent x = x
    · exact ⟨x, 0, .root hpx, hx, by simp⟩
    · have hpn := hs.parent_lt x hx
      have hd := hs.doubling x hx hpx
      have := hs.size_pos x hx
      have := hs.size_le _ hpn
      obtain ⟨r, d, hp, hr, hsz⟩ := ih _ (by omega) (s.parent x) rfl hpn
      refine ⟨r, d + 1, .step hpx hp, hr, ?_⟩
      calc 2 ^ (d + 1) * s.size x = 2 ^ d * (2 * s.size x) := by rw [pow_succ, Nat.mul_assoc]
        _ ≤ 2 ^ d * s.size (s.parent x) := Nat.mul_le_mul_left _ hd
        _ ≤ s.size r := hsz

/-- Every key lies at depth `d` under `root s x`, with `2 ^ d ≤ _size[root] ≤ n_keys`. -/
theorem Forest.pathTo_pow (hs : Forest s) {x : Nat} (hx : x < s.nKeys) :
    ∃ d, PathTo s.parent x (s.root x) d ∧ s.root x < s.nKeys ∧ 2 ^ d ≤ s.size (s.root x) := by
  obtain ⟨r, d, hp, hr, hsz⟩ := hs.exists_pathTo _ x rfl hx
  have h1 := hs.size_pos x hx
  have h2 := hs.size_le r hr
  have hpow : 2 ^ d ≤ s.size r := le_trans (Nat.le_mul_of_pos_right _ h1) hsz
  have hd : d ≤ s.nKeys := le_of_lt (lt_of_lt_of_le (Nat.lt_two_pow d) (hpow.trans h2))
  rw [root, findRoot_eq hp hd]
  exact ⟨d, hp, hr, hpow⟩

theorem Forest.root_pathTo (hs : Forest s) {x : Nat} (hx : x < s.nKeys) :
    ∃ d, PathTo s.parent x (s.root x) d :=
  (hs.pathTo_pow hx).imp fun _ h => h.1

theorem Forest.root_lt (hs : Forest s) {x : Nat} (hx : x < s.nKeys) : s.root x < s.nKeys :=
  (hs.pathTo_pow hx).elim fun _ h => h.2.1

/-- A key is its own root exactly when it is a root. -/
theorem Forest.root_eq_self (hs : Forest s) {x : Nat} (hx : x < s.nKeys) :
    s.root x = x ↔ s.parent x = x := by
  obtain ⟨d, hp⟩ := hs.root_pathTo hx
  exact ⟨fun h => h ▸ hp.isRoot, fun h => ((PathTo.root h).unique hp).1⟩

theorem Forest.root_root (hs : Forest s) {x : Nat} (hx : x < s.nKeys) :
    s.root (s.root x) = s.root x := by
  obtain ⟨d, hp⟩ := hs.root_pathTo hx
  exact (hs.root_eq_self (hs.root_lt hx)).mpr hp.isRoot

/-- The root of a key is determined by any path it has. -/
theorem Forest.root_of_pathTo (hs : Forest s) {x r d : Nat} (hx : x < s.nKeys)
    (h : PathTo s.parent x r d) : s.root x = r := by
  obtain ⟨e, he⟩ := hs.root_pathTo hx
  exact (h.unique he).1

/-- A path in a forest bounds the size ratio between a key and its root. -/
theorem Forest.pow_le_of_pathTo (hs : Forest s) {x r d : Nat} (hx : x < s.nKeys)
    (h : PathTo s.parent x r d) : 2 ^ d * s.size x ≤ s.size r := by
  obtain ⟨r', d', hp, -, hsz⟩ := hs.exists_pathTo _ x rfl hx
  obtain ⟨rfl, rfl⟩ := h.unique hp
  exact hsz

/-! ## Path compression -/

/-- `t` is `s` after path compression: the same keys, sizes and set count, the same roots, the
same root for every key, and no path longer than before. -/
structure Compresses (s t : UnionFind) : Prop where
  nKeys : t.nKeys = s.nKeys
  nSets : t.nSets = s.nSets
  size : t.size = s.size
  isRoot : ∀ x, t.parent x = x ↔ s.parent x = x
  root : ∀ x, x < s.nKeys → t.root x = s.root x
  shorter : ∀ x r d, PathTo s.parent x r d → ∃ d', d' ≤ d ∧ PathTo t.parent x r d'

theorem Compresses.refl (s : UnionFind) : Compresses s s :=
  ⟨rfl, rfl, rfl, fun _ => Iff.rfl, fun _ _ => rfl, fun _ _ d h => ⟨d, le_rfl, h⟩⟩

theorem Compresses.trans {t u : UnionFind} (h₁ : Compresses s t) (h₂ : Compresses t u) :
    Compresses s u :=
  ⟨h₂.nKeys.trans h₁.nKeys, h₂.nSets.trans h₁.nSets, h₂.size.trans h₁.size,
    fun x => (h₂.isRoot x).trans (h₁.isRoot x),
    fun x hx => (h₂.root x (h₁.nKeys ▸ hx)).trans (h₁.root x hx),
    fun x r d h => by
      obtain ⟨d₁, hd₁, h₁'⟩ := h₁.shorter x r d h
      obtain ⟨d₂, hd₂, h₂'⟩ := h₂.shorter x r d₁ h₁'
      exact ⟨d₂, hd₂.trans hd₁, h₂'⟩⟩

/-- Compression keeps the tree sizes and the roots, so a compressed forest is `WF`. -/
theorem Compresses.wf {t : UnionFind} (h : Compresses s t) (hs : WF s) (ht : Forest t) :
    WF t := by
  have hmem : ∀ r, t.members r = s.members r := fun r => by
    ext x
    simp only [members, Finset.mem_filter, Finset.mem_range, h.nKeys]
    exact ⟨fun ⟨hx, hr⟩ => ⟨hx, h.root x hx ▸ hr⟩, fun ⟨hx, hr⟩ => ⟨hx, (h.root x hx).trans hr⟩⟩
  have hroots : t.roots = s.roots := by
    ext x; simp only [roots, Finset.mem_filter, Finset.mem_range, h.nKeys, h.isRoot]
  exact ⟨ht, fun r hr hpr => by
      rw [h.size, hmem]; exact hs.size_root r (h.nKeys ▸ hr) ((h.isRoot r).mp hpr),
    by rw [h.nSets, hroots]; exact hs.nSets_eq⟩

/-- The first step of the compression loop re-points its starting key at the root, and no
later step writes anything else. -/
theorem compress_start {parent : Nat → Nat} {p r fuel : Nat} (hp : parent p ≠ p) :
    compress r (fuel + 1) parent p p = r := by
  simp only [compress, if_neg (Ne.symm hp)]
  rcases compress_eq_or r fuel (Function.update parent p r) (parent p) p with h | h
  · rw [h, Function.update_same]
  · exact h

/-- `find(p)` on a key: the root loop's result, with the parent function the compression loop
leaves. -/
theorem find_eq {p : Nat} (hp : p < s.nKeys) :
    s.find p = .ok ({ s with parent := compress (s.root p) s.nKeys s.parent p }, s.root p) := by
  rw [find, if_pos (by simpa [contains] using hp)]; rfl

/-- `find(p)` returns the root of `p`, compresses, keeps `WF`, and leaves `p` at depth at most
one. -/
theorem find_spec (hs : WF s) {p : Nat} (hp : p < s.nKeys) :
    ∃ t, s.find p = .ok (t, s.root p) ∧ WF t ∧ Compresses s t ∧
      ∃ d, d ≤ 1 ∧ PathTo t.parent p (s.root p) d := by
  obtain ⟨d, hpath, hr, -⟩ := hs.pathTo_pow hp
  let t : UnionFind := { s with parent := compress (s.root p) s.nKeys s.parent p }
  have hrep : Repoints s.parent t.parent (s.root p) :=
    compress_repoints hpath.isRoot _ _ _ ⟨d, hpath⟩ fun _ => .inl rfl
  have hroot : ∀ y, t.parent y = y ↔ s.parent y = y := fun y => by
    rcases hrep y with h | ⟨h, hy, e, he⟩
    · rw [h]
    · rw [h]; exact iff_of_false (fun h' => he.ne_root hy h'.symm) hy
  have hforest : Forest t := by
    refine ⟨fun y hy => ?_, hs.size_pos, hs.size_le, fun y hy hty => ?_⟩
    · rcases hrep y with h | ⟨h, -⟩
      · rw [h]; exact hs.parent_lt y hy
      · rw [h]; exact hr
    · rcases hrep y with h | ⟨h, hyr, e, he⟩
      · rw [h] at hty ⊢; exact hs.doubling y hy hty
      · -- a re-pointed key had depth `e ≥ 1` under its new parent
        rw [h]
        have hpow := hs.pow_le_of_pathTo hy he
        have he1 : 1 ≤ e := by
          cases he with
          | root h' => exact absurd h' hyr
          | step _ _ => omega
        calc 2 * s.size y = 2 ^ 1 * s.size y := by rw [pow_one]
          _ ≤ 2 ^ e * s.size y := Nat.mul_le_mul_right _ (Nat.pow_le_pow_right (by omega) he1)
          _ ≤ s.size (s.root p) := hpow
  have hcomp : Compresses s t :=
    ⟨rfl, rfl, rfl, hroot, fun x hx => by
      obtain ⟨e, he⟩ := hs.root_pathTo hx
      obtain ⟨e', -, he'⟩ := hrep.pathTo he
      exact hforest.root_of_pathTo hx he', fun _ _ _ h => hrep.pathTo h⟩
  refine ⟨t, find_eq hp, hcomp.wf hs hforest, hcomp, ?_⟩
  by_cases hpp : s.parent p = p
  · have hrp : s.root p = p := (hs.root_eq_self hp).mpr hpp
    exact ⟨0, by omega, by rw [hrp]; exact .root ((hroot p).mpr hpp)⟩
  · obtain ⟨n, hn⟩ : ∃ n, s.nKeys = n + 1 := ⟨s.nKeys - 1, by omega⟩
    have htp : t.parent p = s.root p := by
      show compress (s.root p) s.nKeys s.parent p p = s.root p
      rw [hn]; exact compress_start hpp
    exact ⟨1, le_rfl, .step (by rw [htp]; exact (hpath.ne_root hpp).symm)
      (by rw [htp]; exact .root ((hroot _).mpr hpath.isRoot))⟩

/-- `connected(p, q)` compares the roots of `p` and `q`. -/
theorem connected_spec (hs : WF s) {p q : Nat} (hp : p < s.nKeys) (hq : q < s.nKeys) :
    ∃ t, s.connected p q = .ok (t, s.root p == s.root q) ∧ WF t ∧ Compresses s t := by
  obtain ⟨t₁, h₁, hw₁, hc₁, -⟩ := find_spec hs hp
  obtain ⟨t₂, h₂, hw₂, hc₂, -⟩ := find_spec hw₁ (hc₁.nKeys ▸ hq)
  refine ⟨t₂, ?_, hw₂, hc₁.trans hc₂⟩
  simp only [connected, h₁, h₂, bind, Except.bind, hc₁.root q hq]

/-- `size(p)` reads the size of the tree of `p`. -/
theorem setSize_spec (hs : WF s) {p : Nat} (hp : p < s.nKeys) :
    ∃ t, s.setSize p = .ok (t, (s.members (s.root p)).card) ∧ WF t ∧ Compresses s t := by
  obtain ⟨t, h, hw, hc, -⟩ := find_spec hs hp
  refine ⟨t, ?_, hw, hc⟩
  have hsz : t.size (s.root p) = (s.members (s.root p)).card := by
    obtain ⟨d, hpath⟩ := hs.root_pathTo hp
    rw [hc.size]; exact hs.size_root _ (hs.root_lt hp) hpath.isRoot
  simp [setSize, contains, hp, h, bind, Except.bind, hsz]

/-! ## `sets()` -/

/-- `addTo` on a dictionary with distinct keys `K` and values `g`: the value of `r` grows by
`p`, and `r` joins the keys at the end if it is new. -/
theorem addTo_map {K : List Nat} (hK : K.Nodup) {g : Nat → List Nat} {r : Nat} (p : Nat)
    (hg : r ∉ K → g r = []) :
    addTo (K.map fun k => (k, g k)) r p =
      (if r ∈ K then K else K ++ [r]).map fun k => (k, Function.update g r (g r ++ [p]) k) := by
  induction K with
  | nil => simp [addTo, hg]
  | cons k K ih =>
    obtain ⟨hkK, hK⟩ := List.nodup_cons.mp hK
    by_cases hkr : k = r
    · subst hkr
      simp only [List.map_cons, addTo, if_true, List.mem_cons, true_or, Function.update_same,
        List.cons.injEq, true_and]
      exact List.map_congr_left fun k' hk' => by
        rw [Function.update_noteq (fun (h : k' = k) => hkK (h ▸ hk'))]
    · simp only [List.map_cons, addTo, if_neg hkr, ih hK (fun h => hg (by simp [Ne.symm hkr, h]))]
      by_cases hr : r ∈ K
      · simp [hr, Function.update_noteq hkr]
      · simp [hr, Function.update_noteq hkr, Ne.symm hkr]

/-- The dictionary `sets()` builds from `components[f(p)].append(p)` over `0 .. m - 1`: one
entry per value of `f`, in order of first appearance, holding the keys with that value in
increasing order. -/
theorem foldl_addTo_range (f : Nat → Nat) (m : Nat) :
    ∃ K : List Nat, K.Nodup ∧ (∀ k, k ∈ K ↔ ∃ x, x < m ∧ f x = k) ∧
      (List.range m).foldl (fun c p => addTo c (f p) p) [] =
        K.map fun k => (k, (List.range m).filter fun x => f x = k) := by
  induction m with
  | zero => exact ⟨[], List.nodup_nil, by simp, rfl⟩
  | succ m ih =>
    obtain ⟨K, hK, hmem, heq⟩ := ih
    refine ⟨if f m ∈ K then K else K ++ [f m], ?_, fun k => ?_, ?_⟩
    · split
      · exact hK
      · exact hK.append (List.nodup_singleton _) (by simpa [List.disjoint_singleton] using ‹_›)
    · have hstep : (∃ x, x < m + 1 ∧ f x = k) ↔ k ∈ K ∨ f m = k := by
        rw [hmem]
        constructor
        · rintro ⟨x, hx, rfl⟩
          by_cases hxm : x = m
          · exact .inr (by rw [hxm])
          · exact .inl ⟨x, by omega, rfl⟩
        · rintro (⟨x, hx, rfl⟩ | rfl)
          · exact ⟨x, by omega, rfl⟩
          · exact ⟨m, by omega, rfl⟩
      rw [hstep]
      split_ifs with hfm
      · exact ⟨.inl, fun h => h.elim id fun h => h ▸ hfm⟩
      · simp [eq_comm]
    · rw [List.range_succ, List.foldl_append, heq, List.foldl_cons, List.foldl_nil,
        addTo_map hK m (fun h => by
          rw [List.filter_eq_nil_iff]
          intro x hx
          simpa using fun he => h ((hmem _).mpr ⟨x, List.mem_range.mp hx, he⟩))]
      refine List.map_congr_left fun k _ => ?_
      rw [List.filter_append]
      by_cases hk : k = f m
      · subst hk; simp
      · rw [Function.update_noteq hk]; simp [Ne.symm hk]

/-- The loop of `sets()` reads the roots of `s`: compression never changes one. -/
theorem setsLoop_spec : ∀ (ps : List Nat) (s : UnionFind) (comps : List (Nat × List Nat)),
    WF s → (∀ p ∈ ps, p < s.nKeys) →
    ∃ t, setsLoop s ps comps = .ok (t, ps.foldl (fun c p => addTo c (s.root p) p) comps) ∧
      WF t ∧ Compresses s t := by
  intro ps
  induction ps with
  | nil => intro s comps hs _; exact ⟨s, rfl, hs, .refl s⟩
  | cons p ps ih =>
    intro s comps hs hps
    obtain ⟨t₁, h₁, hw₁, hc₁, -⟩ := find_spec hs (hps p (List.mem_cons_self p ps))
    obtain ⟨t, h, hw, hc⟩ := ih t₁ (addTo comps (s.root p) p) hw₁
      fun x hx => hc₁.nKeys ▸ hps x (List.mem_cons_of_mem p hx)
    refine ⟨t, ?_, hw, hc₁.trans hc⟩
    rw [setsLoop, h₁]
    show setsLoop t₁ ps (addTo comps (s.root p) p) = _
    rw [h, List.foldl_cons, List.foldl_ext _ _ _ fun c x hx =>
      by rw [hc₁.root x (hps x (List.mem_cons_of_mem p hx))]]

/-- `sets()` returns one entry per root, in order of first appearance, holding the members of
its tree in increasing order. -/
theorem sets_spec (hs : WF s) :
    ∃ (t : UnionFind) (K : List Nat),
      s.sets = .ok (t, K.map fun r => (r, (List.range s.nKeys).filter fun x => s.root x = r)) ∧
      K.Nodup ∧ (∀ r, r ∈ K ↔ ∃ x, x < s.nKeys ∧ s.root x = r) ∧ WF t ∧ Compresses s t := by
  obtain ⟨t, h, hw, hc⟩ := setsLoop_spec (List.range s.nKeys) s [] hs
    fun x hx => List.mem_range.mp hx
  obtain ⟨K, hK, hmem, heq⟩ := foldl_addTo_range s.root s.nKeys
  exact ⟨t, K, by rw [sets, h, heq], hK, hmem, hw, hc⟩

/-! ## `join` -/

/-- The two trees `join` merges, `a` and `b`, are disjoint. -/
theorem members_disjoint {a b : Nat} (hab : a ≠ b) : Disjoint (s.members a) (s.members b) :=
  Finset.disjoint_left.mpr fun _ hxa hxb => hab ((mem_members.mp hxa).2.symm.trans (mem_members.mp hxb).2)

section Link

variable {a b : Nat}

/-- Linking the root `a` of a tree no larger than that of the root `b` keeps a forest: `b`
records the sum of the sizes, at least twice `a`'s. -/
theorem WF.link_forest (hs : WF s) (ha : a < s.nKeys) (hb : b < s.nKeys)
    (hpa : s.parent a = a) (hpb : s.parent b = b) (hab : a ≠ b) (hsz : s.size a ≤ s.size b) :
    Forest (s.link a b) := by
  have hunion : (s.members b ∪ s.members a).card = s.size b + s.size a := by
    rw [Finset.card_union_of_disjoint (members_disjoint (Ne.symm hab)), hs.size_root a ha hpa,
      hs.size_root b hb hpb]
  have hsizeb : (s.link a b).size b = s.size b + s.size a := by simp
  have hsize : ∀ x, x ≠ b → (s.link a b).size x = s.size x := fun x hx => by simp [hx]
  have hgrow : ∀ x, s.size x ≤ (s.link a b).size x := fun x => by
    by_cases hx : x = b
    · rw [hx, hsizeb]; omega
    · rw [hsize x hx]
  have hparent : ∀ x, x ≠ a → (s.link a b).parent x = s.parent x := fun x hx => by simp [hx]
  refine ⟨fun x hx => ?_, fun x hx => ?_, fun x hx => ?_, fun x hx hpx => ?_⟩
  · rw [link_nKeys] at hx ⊢
    by_cases hxa : x = a
    · subst hxa; simpa using hb
    · rw [hparent x hxa]; exact hs.parent_lt x hx
  · exact lt_of_lt_of_le (hs.size_pos x hx) (hgrow x)
  · rw [link_nKeys] at hx ⊢
    by_cases hxb : x = b
    · rw [hxb, hsizeb, ← hunion]
      exact le_trans (Finset.card_le_card (Finset.union_subset (Finset.filter_subset _ _)
        (Finset.filter_subset _ _))) (Finset.card_range _).le
    · rw [hsize x hxb]; exact hs.size_le x hx
  · by_cases hxa : x = a
    · -- the linked root: at most half the merged size
      subst hxa
      simp only [link_parent, Function.update_same, hsizeb, hsize x hab]
      omega
    · have hpx' : s.parent x ≠ x := by rwa [hparent x hxa] at hpx
      have hxb : x ≠ b := fun h => hpx' (h ▸ hpb)
      rw [hparent x hxa, hsize x hxb]
      exact le_trans (hs.doubling x hx hpx') (hgrow _)

/-- After the link, the keys of the tree of `a` have the root `b`; the others keep theirs. -/
theorem WF.link_root (hs : WF s) (hpa : s.parent a = a) (hpb : s.parent b = b) (hab : a ≠ b)
    (hforest : Forest (s.link a b)) {x : Nat} (hx : x < s.nKeys) :
    (s.link a b).root x = if s.root x = a then b else s.root x := by
  obtain ⟨d, hp⟩ := hs.root_pathTo hx
  have hl := hp.link hpa hpb hab
  split_ifs with hxa
  · exact hforest.root_of_pathTo hx (hl.1 hxa)
  · exact hforest.root_of_pathTo hx (hl.2 hxa)

/-- After the link, the tree of `b` is the union of the two trees, and every other tree but
that of `a` is unchanged. -/
theorem link_members (hab : a ≠ b)
    (hroot : ∀ x, x < s.nKeys → (s.link a b).root x = if s.root x = a then b else s.root x)
    {r : Nat} (hra : r ≠ a) :
    (s.link a b).members r = if r = b then s.members b ∪ s.members a else s.members r := by
  ext x
  simp only [mem_members, link_nKeys]
  split_ifs with hrb
  · subst hrb
    rw [Finset.mem_union, mem_members, mem_members]
    constructor
    · rintro ⟨hx, h⟩
      rw [hroot x hx] at h
      split_ifs at h with hxa
      · exact .inr ⟨hx, hxa⟩
      · exact .inl ⟨hx, h⟩
    · rintro (⟨hx, h⟩ | ⟨hx, h⟩)
      · exact ⟨hx, by rw [hroot x hx, if_neg (by rw [h]; exact Ne.symm hab), h]⟩
      · exact ⟨hx, by rw [hroot x hx, if_pos h]⟩
  · rw [mem_members]
    constructor
    · rintro ⟨hx, h⟩
      rw [hroot x hx] at h
      split_ifs at h with hxa
      · exact absurd h.symm hrb
      · exact ⟨hx, h⟩
    · rintro ⟨hx, h⟩
      exact ⟨hx, by rw [hroot x hx, if_neg (by rw [h]; exact hra), h]⟩

/-- The link takes `a` out of the roots. -/
theorem link_roots (hab : a ≠ b) : (s.link a b).roots = s.roots.erase a := by
  ext x
  simp only [mem_roots, Finset.mem_erase, link_nKeys]
  by_cases hxa : x = a
  · subst hxa
    simp only [link_parent, Function.update_same]
    exact ⟨fun h => absurd h.2 (Ne.symm hab), fun h => absurd rfl h.1⟩
  · simp only [link_parent, Function.update_noteq hxa]
    exact ⟨fun h => ⟨hxa, h⟩, fun h => h.2⟩

/-- The link `join` makes: the root `a` of the smaller (or equal) tree goes under the root `b`,
whose recorded size becomes the sum. The result is `WF` and the tree of `a` moves to `b`. -/
theorem WF.link (hs : WF s) (ha : a < s.nKeys) (hb : b < s.nKeys)
    (hpa : s.parent a = a) (hpb : s.parent b = b) (hab : a ≠ b) (hsz : s.size a ≤ s.size b) :
    WF (s.link a b) ∧
      ∀ x, x < s.nKeys → (s.link a b).root x = if s.root x = a then b else s.root x := by
  have hforest := hs.link_forest ha hb hpa hpb hab hsz
  have hroot := fun x (hx : x < s.nKeys) => hs.link_root hpa hpb hab hforest hx
  refine ⟨⟨hforest, fun r hr hpr => ?_, ?_⟩, hroot⟩
  · -- each root records the size of its tree
    have hra : r ≠ a := fun h => by
      subst h
      simp only [link_parent, Function.update_same] at hpr
      exact hab hpr.symm
    simp only [link_parent, Function.update_noteq hra] at hpr
    rw [link_members hab hroot hra]
    split_ifs with hrb
    · rw [hrb, Finset.card_union_of_disjoint (members_disjoint (Ne.symm hab)),
        ← hs.size_root a ha hpa, ← hs.size_root b hb hpb]
      simp
    · simpa [hrb] using hs.size_root r hr hpr
  · -- one root fewer
    rw [link_roots hab, Finset.card_erase_of_mem (mem_roots.mpr ⟨ha, hpa⟩), ← hs.nSets_eq,
      link_nSets]

end Link

/-! ## Joined pairs -/

/-- `Joined J a b`: the pair `(a, b)` was joined. -/
def Joined (J : List (Nat × Nat)) (a b : Nat) : Prop := (a, b) ∈ J

/-- A relation that only relates keys with equal `f`-values generates no more. -/
theorem eqvGen_kernel {f : Nat → Nat} {R : Nat → Nat → Prop} (hR : ∀ a b, R a b → f a = f b)
    {x y : Nat} (h : Relation.EqvGen R x y) : f x = f y :=
  have heq : Equivalence fun a b : Nat => f a = f b := ⟨fun _ => rfl, Eq.symm, Eq.trans⟩
  heq.eqvGen_iff.mp (h.mono hR)

/-- The trees of `s` are the classes, among the keys, of the equivalence closure of the joined
pairs `J`. -/
structure Tracks (s : UnionFind) (J : List (Nat × Nat)) : Prop where
  valid : ∀ a b, (a, b) ∈ J → a < s.nKeys ∧ b < s.nKeys
  root_iff : ∀ x y, x < s.nKeys → y < s.nKeys →
    (s.root x = s.root y ↔ Relation.EqvGen (Joined J) x y)

theorem Tracks.compresses {t : UnionFind} {J : List (Nat × Nat)} (h : Tracks s J)
    (hc : Compresses s t) : Tracks t J :=
  ⟨fun a b hab => hc.nKeys ▸ h.valid a b hab, fun x y hx hy => by
    rw [hc.nKeys] at hx hy
    rw [hc.root x hx, hc.root y hy]; exact h.root_iff x y hx hy⟩

/-- Re-pointing `a` at `b` identifies exactly `a` with `b`. -/
theorem redirect_eq {a b u v : Nat} (h : (if u = a then b else u) = (if v = a then b else v)) :
    u = v ∨ (u = a ∧ v = b) ∨ (u = b ∧ v = a) := by
  split_ifs at h with hu hv hv
  · exact .inl (hu.trans hv.symm)
  · exact .inr (.inl ⟨hu, h.symm⟩)
  · exact .inr (.inr ⟨h, hv⟩)
  · exact .inl h

/-- After `join(p, q)`: when every key's new root is `g` of its old root, and `g` identifies
exactly the roots of `p` and `q`, the trees track the closure with `(p, q)` added. -/
theorem Tracks.join {t : UnionFind} {J : List (Nat × Nat)} (h : Tracks s J) {p q : Nat}
    (hp : p < s.nKeys) (hq : q < s.nKeys) (hn : t.nKeys = s.nKeys) {g : Nat → Nat}
    (hg : ∀ x, x < s.nKeys → t.root x = g (s.root x)) (hpq : g (s.root p) = g (s.root q))
    (hgi : ∀ u v, g u = g v → u = v ∨ (u = s.root p ∧ v = s.root q) ∨
      (u = s.root q ∧ v = s.root p)) : Tracks t ((p, q) :: J) := by
  have hvalid : ∀ a b, (a, b) ∈ (p, q) :: J → a < s.nKeys ∧ b < s.nKeys := by
    intro a b hab
    rcases List.mem_cons.mp hab with h' | h'
    · obtain ⟨rfl, rfl⟩ := Prod.mk.inj h'
      exact ⟨hp, hq⟩
    · exact h.valid a b h'
  have hJ : ∀ {x y}, Relation.EqvGen (Joined J) x y → Relation.EqvGen (Joined ((p, q) :: J)) x y :=
    fun hxy => hxy.mono fun a b hab => List.mem_cons_of_mem _ hab
  have hpq' : Relation.EqvGen (Joined ((p, q) :: J)) p q := .rel _ _ (List.mem_cons_self _ _)
  refine ⟨fun a b hab => hn ▸ hvalid a b hab, fun x y hx hy => ?_⟩
  rw [hn] at hx hy
  constructor
  · intro hxy
    rw [hg x hx, hg y hy] at hxy
    rcases hgi _ _ hxy with h' | ⟨h₁, h₂⟩ | ⟨h₁, h₂⟩
    · exact hJ ((h.root_iff x y hx hy).mp h')
    · exact .trans _ _ _ (hJ ((h.root_iff x p hx hp).mp h₁))
        (.trans _ _ _ hpq' (hJ ((h.root_iff q y hq hy).mp h₂.symm)))
    · exact .trans _ _ _ (hJ ((h.root_iff x q hx hq).mp h₁))
        (.trans _ _ _ (.symm _ _ hpq') (hJ ((h.root_iff p y hp hy).mp h₂.symm)))
  · intro hxy
    refine eqvGen_kernel (f := fun z => if z < s.nKeys then t.root z else z) (fun a b hab => ?_) hxy
      |> fun h' => by simpa [hx, hy] using h'
    obtain ⟨ha, hb⟩ := hvalid a b hab
    simp only [ha, hb, if_true, hg a ha, hg b hb]
    rcases List.mem_cons.mp hab with h' | h'
    · obtain ⟨rfl, rfl⟩ := Prod.mk.inj h'
      exact hpq
    · rw [(h.root_iff a b ha hb).mpr (.rel _ _ h')]

/-- `join(p, q)` keeps `WF`, tracks the closure with `(p, q)` added, and lowers `_n_sets` by
one exactly when the roots of `p` and `q` differ. -/
theorem join_spec (hs : WF s) {J : List (Nat × Nat)} (ht : Tracks s J) {p q : Nat}
    (hp : p < s.nKeys) (hq : q < s.nKeys) :
    ∃ t, s.join p q = .ok t ∧ WF t ∧ Tracks t ((p, q) :: J) ∧ t.nKeys = s.nKeys ∧
      (s.root p = s.root q → t.nSets = s.nSets) ∧ (s.root p ≠ s.root q → t.nSets + 1 = s.nSets) := by
  obtain ⟨t₁, h₁, hw₁, hc₁, -⟩ := find_spec hs hp
  obtain ⟨t₂, h₂, hw₂, hc₂, -⟩ := find_spec hw₁ (hc₁.nKeys ▸ hq)
  have hc := hc₁.trans hc₂
  have hq₁ : t₁.root q = s.root q := hc₁.root q hq
  have hjoin : s.join p q = if s.root p = s.root q then .ok t₂
      else if t₂.size (s.root p) < t₂.size (s.root q) then .ok (t₂.link (s.root p) (s.root q))
      else .ok (t₂.link (s.root q) (s.root p)) := by
    simp only [join, h₁, h₂, bind, Except.bind, hq₁]
  have hrt : ∀ x, x < s.nKeys → t₂.root x = s.root x := hc.root
  have hroot : ∀ x, x < s.nKeys → s.parent (s.root x) = s.root x := fun x hx =>
    (hs.root_pathTo hx).elim fun _ h => h.isRoot
  have hroot₂ : ∀ x, x < s.nKeys → t₂.parent (s.root x) = s.root x := fun x hx =>
    (hc.isRoot _).mpr (hroot x hx)
  have hn₂ : t₂.nKeys = s.nKeys := hc.nKeys
  have ht₂ : Tracks t₂ J := ht.compresses hc
  by_cases hpq : s.root p = s.root q
  · refine ⟨t₂, by rw [hjoin, if_pos hpq], hw₂, ht.join hp hq hn₂ (g := id) hrt hpq
      fun u v h => .inl h, hn₂, fun _ => hc.nSets, fun h => absurd hpq h⟩
  · rw [hjoin, if_neg hpq]
    have hpn := hs.root_lt hp
    have hqn := hs.root_lt hq
    split_ifs with hlt
    · -- the tree of `p` is smaller: its root goes under the root of `q`
      obtain ⟨hw, hr⟩ := hw₂.link (hn₂ ▸ hpn) (hn₂ ▸ hqn) (hroot₂ p hp) (hroot₂ q hq) hpq hlt.le
      refine ⟨_, rfl, hw, ht.join hp hq hn₂ (g := fun r => if r = s.root p then s.root q else r)
        (fun x hx => by rw [hr x (hn₂ ▸ hx), hrt x hx]) (by simp [hpq]) ?_, hn₂,
        fun h => absurd h hpq, fun _ => ?_⟩
      · exact fun u v h => redirect_eq h
      · show t₂.nSets - 1 + 1 = s.nSets
        have := (hw₂.nSets_eq ▸ Finset.card_pos.mpr ⟨s.root p, Finset.mem_filter.mpr
          ⟨Finset.mem_range.mpr (hn₂ ▸ hpn), hroot₂ p hp⟩⟩ : 0 < t₂.nSets)
        rw [← hc.nSets]; omega
    · -- otherwise the root of `q` goes under the root of `p`
      obtain ⟨hw, hr⟩ := hw₂.link (hn₂ ▸ hqn) (hn₂ ▸ hpn) (hroot₂ q hq) (hroot₂ p hp)
        (Ne.symm hpq) (Nat.le_of_not_lt hlt)
      refine ⟨_, rfl, hw, ht.join hp hq hn₂ (g := fun r => if r = s.root q then s.root p else r)
        (fun x hx => by rw [hr x (hn₂ ▸ hx), hrt x hx]) (by simp [hpq]) ?_, hn₂,
        fun h => absurd h hpq, fun _ => ?_⟩
      · exact fun u v h => (redirect_eq h).imp_right Or.symm
      · show t₂.nSets - 1 + 1 = s.nSets
        have := (hw₂.nSets_eq ▸ Finset.card_pos.mpr ⟨s.root q, Finset.mem_filter.mpr
          ⟨Finset.mem_range.mpr (hn₂ ▸ hqn), hroot₂ q hq⟩⟩ : 0 < t₂.nSets)
        rw [← hc.nSets]; omega

/-! ## Classes -/

/-- The class of `p` among the keys `0 .. n - 1` under the closure of the joined pairs. -/
def classOf (J : List (Nat × Nat)) (n p : Nat) : Set Nat :=
  {x | x < n ∧ Relation.EqvGen (Joined J) p x}

/-- The classes of the keys `0 .. n - 1`. -/
def classes (J : List (Nat × Nat)) (n : Nat) : Set (Set Nat) :=
  {c | ∃ p, p < n ∧ c = classOf J n p}

variable {J : List (Nat × Nat)}

/-- The class of a key is the tree of its root. -/
theorem Tracks.classOf_eq (ht : Tracks s J) {p : Nat} (hp : p < s.nKeys) :
    classOf J s.nKeys p = ↑(s.members (s.root p)) := by
  ext x
  simp only [classOf, Set.mem_setOf_eq, Finset.mem_coe, mem_members]
  exact ⟨fun ⟨hx, h⟩ => ⟨hx, ((ht.root_iff p x hp hx).mpr h).symm⟩,
    fun ⟨hx, h⟩ => ⟨hx, (ht.root_iff p x hp hx).mp h.symm⟩⟩

/-- There are as many classes as roots. -/
theorem Tracks.ncard_classes (hs : WF s) (ht : Tracks s J) :
    (classes J s.nKeys).ncard = s.roots.card := by
  have himage : classes J s.nKeys = (fun r => (↑(s.members r) : Set Nat)) '' ↑s.roots := by
    ext c
    simp only [classes, Set.mem_setOf_eq, Set.mem_image, Finset.mem_coe, mem_roots]
    constructor
    · rintro ⟨p, hp, rfl⟩
      obtain ⟨d, hpath⟩ := hs.root_pathTo hp
      exact ⟨s.root p, ⟨hs.root_lt hp, hpath.isRoot⟩, (ht.classOf_eq hp).symm⟩
    · rintro ⟨r, ⟨hr, hpr⟩, rfl⟩
      exact ⟨r, hr, by rw [ht.classOf_eq hr, (hs.root_eq_self hr).mpr hpr]⟩
  rw [himage, Set.ncard_image_of_injOn, Set.ncard_coe_Finset]
  intro r hr r' hr' h
  obtain ⟨hrn, hpr⟩ := mem_roots.mp hr
  have h' : (↑(s.members r) : Set Nat) = ↑(s.members r') := h
  have hmem : r ∈ (↑(s.members r') : Set Nat) :=
    h' ▸ Finset.mem_coe.mpr (mem_members.mpr ⟨hrn, (hs.root_eq_self hrn).mpr hpr⟩)
  exact ((hs.root_eq_self hrn).mpr hpr).symm.trans (mem_members.mp hmem).2

theorem Forest.root_mem_roots (hs : Forest s) {x : Nat} (hx : x < s.nKeys) :
    s.root x ∈ s.roots :=
  mem_roots.mpr ⟨hs.root_lt hx, (hs.root_eq_self (hs.root_lt hx)).mp (hs.root_root hx)⟩

/-- A structure with a key has a set. -/
theorem WF.nSets_pos (hs : WF s) (hn : 0 < s.nKeys) : 0 < s.nSets :=
  hs.nSets_eq ▸ Finset.card_pos.mpr ⟨_, hs.root_mem_roots hn⟩

/-- With one set left, all keys share one root. -/
theorem WF.root_eq_of_nSets_eq_one (hs : WF s) (h : s.nSets = 1) {x y : Nat}
    (hx : x < s.nKeys) (hy : y < s.nKeys) : s.root x = s.root y := by
  obtain ⟨r, hr⟩ := Finset.card_eq_one.mp (hs.nSets_eq ▸ h)
  have hroot : ∀ z, z < s.nKeys → s.root z = r := fun z hz =>
    Finset.mem_singleton.mp (hr ▸ hs.root_mem_roots hz)
  rw [hroot x hx, hroot y hy]

/-- Over the same keys, a structure whose joins connect everything another's joins connect
has at most as many sets. -/
theorem WF.nSets_le {t : UnionFind} {J' : List (Nat × Nat)} (hs : WF s) (ht : WF t)
    (hJ : Tracks s J) (hJ' : Tracks t J') (hk : s.nKeys = t.nKeys)
    (hcov : ∀ a b, Relation.EqvGen (Joined J) a b → Relation.EqvGen (Joined J') a b) :
    t.nSets ≤ s.nSets := by
  rw [hs.nSets_eq, ht.nSets_eq]
  refine Finset.card_le_card_of_surjOn t.root fun r hr => ?_
  obtain ⟨hrn, hpr⟩ := mem_roots.mp (Finset.mem_coe.mp hr)
  have hrs : r < s.nKeys := hk ▸ hrn
  refine ⟨s.root r, hs.root_mem_roots hrs, ?_⟩
  have hsame := (hJ.root_iff _ _ (hs.root_lt hrs) hrs).mp (hs.root_root hrs)
  exact ((hJ'.root_iff _ _ (hk ▸ hs.root_lt hrs) hrn).mpr (hcov _ _ hsame)).trans
    ((ht.root_eq_self hrn).mpr hpr)

/-! ## Runs -/

/-- The keys a call names. -/
def Op.keys : Op → List Nat
  | .join p q => [p, q]
  | .find p => [p]
  | .connected p q => [p, q]
  | .setSize p => [p]
  | .sets => []

/-- The joined pairs after a call. -/
def Op.joins : Op → List (Nat × Nat) → List (Nat × Nat)
  | .join p q, J => (p, q) :: J
  | _, J => J

/-- `__init__(n_keys)` builds `n_keys` singleton trees and has joined nothing. -/
theorem init_spec {n : Nat} (h : init n = .ok s) : WF s ∧ Tracks s [] ∧ s.nKeys = n := by
  unfold init at h
  split at h
  · cases h
    rename_i hn
    obtain ⟨m, rfl⟩ : ∃ m, n = m + 1 := ⟨n - 1, by omega⟩
    have hroot : ∀ x, root ⟨m + 1, m + 1, fun i => i, fun _ => 1⟩ x = x := fun x => by
      simp [root, findRoot]
    refine ⟨⟨⟨fun x hx => hx, fun _ _ => Nat.one_pos, fun _ _ => hn, fun x _ h => absurd rfl h⟩,
      fun r hr _ => ?_, ?_⟩, ⟨fun _ _ h => absurd h (List.not_mem_nil _), fun x y _ _ => ?_⟩, rfl⟩
    · refine (Finset.card_eq_one.mpr ⟨r, Finset.ext fun x => ?_⟩).symm
      rw [mem_members, hroot, Finset.mem_singleton]
      exact ⟨fun h => h.2, fun h => ⟨h ▸ hr, h⟩⟩
    · show m + 1 = _
      rw [show roots ⟨m + 1, m + 1, fun i => i, fun _ => 1⟩ = Finset.range (m + 1) from
        Finset.ext fun x => by simp, Finset.card_range]
    · rw [hroot, hroot]
      exact ⟨fun h => h ▸ .refl _, eqvGen_kernel (f := id) fun a b hab => absurd hab (List.not_mem_nil _)⟩
  · cases h

/-- One call on keys of the structure succeeds, keeps `WF`, and tracks the joined pairs. -/
theorem exec_spec (hs : WF s) (ht : Tracks s J) {op : Op} (hop : ∀ k ∈ op.keys, k < s.nKeys) :
    ∃ t, s.exec op = .ok t ∧ WF t ∧ Tracks t (op.joins J) ∧ t.nKeys = s.nKeys := by
  cases op with
  | join p q =>
    obtain ⟨t, h, hw, ht', hn, -⟩ := join_spec hs ht (hop p (by simp [Op.keys]))
      (hop q (by simp [Op.keys]))
    exact ⟨t, h, hw, ht', hn⟩
  | find p =>
    obtain ⟨t, h, hw, hc, -⟩ := find_spec hs (hop p (by simp [Op.keys]))
    exact ⟨t, by simp [exec, h, Except.map], hw, ht.compresses hc, hc.nKeys⟩
  | connected p q =>
    obtain ⟨t, h, hw, hc⟩ := connected_spec hs (hop p (by simp [Op.keys]))
      (hop q (by simp [Op.keys]))
    exact ⟨t, by simp [exec, h, Except.map], hw, ht.compresses hc, hc.nKeys⟩
  | setSize p =>
    obtain ⟨t, h, hw, hc⟩ := setSize_spec hs (hop p (by simp [Op.keys]))
    exact ⟨t, by simp [exec, h, Except.map], hw, ht.compresses hc, hc.nKeys⟩
  | sets =>
    obtain ⟨t, K, h, -, -, hw, hc⟩ := sets_spec hs
    exact ⟨t, by simp [exec, h, Except.map], hw, ht.compresses hc, hc.nKeys⟩

/-- The states, with the pairs joined so far, that a client reaches from `__init__(n)` by calls
on keys in `0 .. n - 1`. -/
inductive Reachable (n : Nat) : UnionFind → List (Nat × Nat) → Prop
  | init {s : UnionFind} : UnionFind.init n = .ok s → Reachable n s []
  | step {s t : UnionFind} {J : List (Nat × Nat)} {op : Op} : Reachable n s J →
      (∀ k ∈ op.keys, k < n) → s.exec op = .ok t → Reachable n t (op.joins J)

theorem Reachable.wf {n : Nat} (hr : Reachable n s J) : WF s ∧ Tracks s J ∧ s.nKeys = n := by
  induction hr with
  | init h => exact init_spec h
  | step _ hop hexec ih =>
    obtain ⟨hs, ht, rfl⟩ := ih
    obtain ⟨t, h, hw, ht', hn⟩ := exec_spec hs ht hop
    cases hexec.symm.trans h
    exact ⟨hw, ht', hn⟩

/-- **`UnionFind` decides the closure of the joined pairs.** In every state reached from
`__init__(n_keys)` by calls on keys in `0 .. n_keys - 1`, with `J` the pairs joined so far:
`find(p)` returns a member of the class of `p`; `connected(p, q)` holds exactly when `p` and
`q` are related by the equivalence closure of `J`; `n_sets()` is the number of classes, and
`join(p, q)` keeps it when `p` and `q` are already related and lowers it by one otherwise;
`size(p)` is the size of the class of `p`; and `sets()` lists every class once, in increasing
order, keyed by the value `find` returns for its members. -/
theorem unionFind_closure {n : Nat} (hr : Reachable n s J) :
    (∀ p, p < n → ∃ t r, s.find p = .ok (t, r) ∧ r ∈ classOf J n p) ∧
    (∀ p q, p < n → q < n → ∃ t b, s.connected p q = .ok (t, b) ∧
      (b = true ↔ Relation.EqvGen (Joined J) p q)) ∧
    s.nSets = (classes J n).ncard ∧
    (∀ p q, p < n → q < n → ∃ t, s.join p q = .ok t ∧
      (Relation.EqvGen (Joined J) p q → t.nSets = s.nSets) ∧
      (¬ Relation.EqvGen (Joined J) p q → t.nSets + 1 = s.nSets)) ∧
    (∀ p, p < n → ∃ t k, s.setSize p = .ok (t, k) ∧ k = (classOf J n p).ncard) ∧
    (∃ t L, s.sets = .ok (t, L) ∧ (L.map Prod.fst).Nodup ∧
      (∀ r ks, (r, ks) ∈ L → ks.Sorted (· < ·) ∧ (∀ x, x ∈ ks ↔ x ∈ classOf J n r) ∧
        ∀ x ∈ ks, ∃ t', s.find x = .ok (t', r)) ∧
      ∀ x, x < n → ∃ r ks, (r, ks) ∈ L ∧ x ∈ ks) := by
  obtain ⟨hs, ht, rfl⟩ := hr.wf
  have hcls : ∀ p, p < s.nKeys → ∀ x, x ∈ classOf J s.nKeys p ↔ x < s.nKeys ∧ s.root x = s.root p :=
    fun p hp x => by rw [ht.classOf_eq hp, Finset.mem_coe, mem_members]
  refine ⟨fun p hp => ?_, fun p q hp hq => ?_, by rw [ht.ncard_classes hs, hs.nSets_eq],
    fun p q hp hq => ?_, fun p hp => ?_, ?_⟩
  · obtain ⟨t, h, -⟩ := find_spec hs hp
    exact ⟨t, s.root p, h, (hcls p hp _).mpr ⟨hs.root_lt hp, hs.root_root hp⟩⟩
  · obtain ⟨t, h, -⟩ := connected_spec hs hp hq
    exact ⟨t, _, h, by rw [beq_iff_eq]; exact ht.root_iff p q hp hq⟩
  · obtain ⟨t, h, -, -, -, hsame, hdiff⟩ := join_spec hs ht hp hq
    exact ⟨t, h, fun hpq => hsame ((ht.root_iff p q hp hq).mpr hpq),
      fun hpq => hdiff fun h' => hpq ((ht.root_iff p q hp hq).mp h')⟩
  · obtain ⟨t, h, -⟩ := setSize_spec hs hp
    exact ⟨t, _, h, by rw [ht.classOf_eq hp, Set.ncard_coe_Finset]⟩
  · obtain ⟨t, K, h, hK, hmem, -⟩ := sets_spec hs
    refine ⟨t, _, h, by simpa [List.map_map, Function.comp_def] using hK, fun r ks hrks => ?_,
      fun x hx => ?_⟩
    · obtain ⟨r', hr', hrr⟩ := List.mem_map.mp hrks
      obtain ⟨rfl, rfl⟩ := Prod.mk.inj hrr
      obtain ⟨x₀, hx₀, rfl⟩ := (hmem _).mp hr'
      have hrn := hs.root_lt hx₀
      refine ⟨(List.sorted_lt_range _).filter _, fun x => ?_, fun x hx => ?_⟩
      · rw [hcls _ hrn, hs.root_root hx₀, List.mem_filter, List.mem_range, decide_eq_true_iff]
      · obtain ⟨hxn, hxr⟩ := List.mem_filter.mp hx
        obtain ⟨t', h', -⟩ := find_spec hs (List.mem_range.mp hxn)
        exact ⟨t', by rw [h', of_decide_eq_true hxr]⟩
    · exact ⟨s.root x, _, List.mem_map.mpr ⟨s.root x, (hmem _).mpr ⟨x, hx, rfl⟩, rfl⟩,
        List.mem_filter.mpr ⟨List.mem_range.mpr hx, decide_eq_true rfl⟩⟩

/-- **Union by size keeps the trees logarithmic.** In every state reached from
`__init__(n_keys)` by calls on keys in `0 .. n_keys - 1`, every key reaches its root `r` in at
most `log2(_size[r])` parent steps, hence at most `log2(n_keys)`; and `find` keeps the root of
every key and makes no key deeper. -/
theorem unionFind_depth_le_log {n : Nat} (hr : Reachable n s J) :
    (∀ x, x < n → ∃ r d, PathTo s.parent x r d ∧ d ≤ Nat.log2 (s.size r) ∧ d ≤ Nat.log2 n) ∧
    ∀ p, p < n → ∃ t r, s.find p = .ok (t, r) ∧ (∀ x, x < n → t.root x = s.root x) ∧
      ∀ x r' d d', PathTo s.parent x r' d → PathTo t.parent x r' d' → d' ≤ d := by
  obtain ⟨hs, -, rfl⟩ := hr.wf
  refine ⟨fun x hx => ?_, fun p hp => ?_⟩
  · obtain ⟨d, hpath, hr, hpow⟩ := hs.pathTo_pow hx
    have hle := hs.size_le _ hr
    have := Nat.two_pow_pos d
    exact ⟨s.root x, d, hpath, (Nat.le_log2 (by omega)).mpr hpow,
      (Nat.le_log2 (by omega)).mpr (hpow.trans hle)⟩
  · obtain ⟨t, h, -, hc, -⟩ := find_spec hs hp
    refine ⟨t, _, h, hc.root, fun x r' d d' hd hd' => ?_⟩
    obtain ⟨e, he, hpath⟩ := hc.shorter x r' d hd
    rw [(hpath.unique hd').2]
    exact he

/-- **`find` on the forest.** In every state reached from `__init__(n_keys)` (so `n_keys ≥ 1`)
by calls on keys in `0 .. n_keys - 1`, every key reaches a key `r` with `_parent[r] == r` in
fewer than `n_keys` parent steps. For a key `p` at depth `d` under `r`, both `while` loops of
`find(p)` exit within `d` iterations, giving the same result on any fuel from `d` on; `find(p)`
returns `r`, keeps the root of every key, the roots and every `_size`, and leaves every key of
the original path `p, _parent[p], …, r` with `_parent` equal to `r`. -/
theorem unionFind_find_compresses_path {n : Nat} (hr : Reachable n s J) :
    (∀ x, x < n → ∃ r d, PathTo s.parent x r d ∧ d < n) ∧
    ∀ p, p < n → ∃ r d, PathTo s.parent p r d ∧
      (∀ fuel, d ≤ fuel → findRoot s.parent fuel p = r) ∧
      (∃ q, ∀ fuel, d ≤ fuel → compress r fuel s.parent p = q) ∧
      ∃ t, s.find p = .ok (t, r) ∧ (∀ x, x < n → t.root x = s.root x) ∧
        (∀ x, t.parent x = x ↔ s.parent x = x) ∧ t.size = s.size ∧
        ∀ k, k ≤ d → t.parent (s.parent^[k] p) = r := by
  obtain ⟨hs, -, rfl⟩ := hr.wf
  -- depths are below `n_keys`, since `2 ^ d ≤ _size[r] ≤ n_keys`
  have hdepth : ∀ x, x < s.nKeys → ∃ d, PathTo s.parent x (s.root x) d ∧ d < s.nKeys :=
    fun x hx => by
      obtain ⟨d, hpath, hr, hpow⟩ := hs.pathTo_pow hx
      exact ⟨d, hpath, (Nat.lt_two_pow d).trans_le (hpow.trans (hs.size_le _ hr))⟩
  refine ⟨fun x hx => ⟨s.root x, hdepth x hx⟩, fun p hp => ?_⟩
  obtain ⟨d, hpath, hd⟩ := hdepth p hp
  obtain ⟨q, hq, hqpath, -⟩ := compress_path hpath s.parent fun _ _ => rfl
  obtain ⟨t, h, -, hc, -⟩ := find_spec hs hp
  obtain rfl : { s with parent := compress (s.root p) s.nKeys s.parent p } = t :=
    congrArg Prod.fst (Except.ok.inj ((find_eq hp).symm.trans h))
  refine ⟨s.root p, d, hpath, fun fuel hf => findRoot_eq hpath hf, ⟨q, hq⟩, _, h, hc.root,
    hc.isRoot, hc.size, fun k hk => ?_⟩
  show compress (s.root p) s.nKeys s.parent p (s.parent^[k] p) = s.root p
  rw [hq _ hd.le]
  exact hqpath k hk

end GraphAlgo.UnionFind

namespace GraphAlgo.UnionFind

/-- Three keys after `join(0, 1)`. -/
theorem unionFind_closure_three :
    ∃ s J, Reachable 3 s J ∧ J = [(0, 1)] ∧
    (∀ p, p < 3 → ∃ t r, s.find p = .ok (t, r) ∧ r ∈ classOf J 3 p) ∧
    (∀ p q, p < 3 → q < 3 → ∃ t b, s.connected p q = .ok (t, b) ∧
      (b = true ↔ Relation.EqvGen (Joined J) p q)) ∧
    s.nSets = (classes J 3).ncard ∧
    (∀ p q, p < 3 → q < 3 → ∃ t, s.join p q = .ok t ∧
      (Relation.EqvGen (Joined J) p q → t.nSets = s.nSets) ∧
      (¬ Relation.EqvGen (Joined J) p q → t.nSets + 1 = s.nSets)) ∧
    (∀ p, p < 3 → ∃ t k, s.setSize p = .ok (t, k) ∧ k = (classOf J 3 p).ncard) ∧
    (∃ t L, s.sets = .ok (t, L) ∧ (L.map Prod.fst).Nodup ∧
      (∀ r ks, (r, ks) ∈ L → ks.Sorted (· < ·) ∧ (∀ x, x ∈ ks ↔ x ∈ classOf J 3 r) ∧
        ∀ x ∈ ks, ∃ t', s.find x = .ok (t', r)) ∧
      ∀ x, x < 3 → ∃ r ks, (r, ks) ∈ L ∧ x ∈ ks) :=
  have h₀ : Reachable 3 _ [] := .init rfl
  have h₁ := h₀.step (show ∀ k ∈ (Op.join 0 1).keys, k < 3 by decide) (by rfl)
  ⟨_, _, h₁, rfl, unionFind_closure h₁⟩

/-- Three keys after `join(0, 1)` and `join(2, 1)`. -/
theorem unionFind_depth_le_log_three :
    ∃ s J, Reachable 3 s J ∧ J = [(2, 1), (0, 1)] ∧
    (∀ x, x < 3 → ∃ r d, PathTo s.parent x r d ∧ d ≤ Nat.log2 (s.size r) ∧ d ≤ Nat.log2 3) ∧
    ∀ p, p < 3 → ∃ t r, s.find p = .ok (t, r) ∧ (∀ x, x < 3 → t.root x = s.root x) ∧
      ∀ x r' d d', PathTo s.parent x r' d → PathTo t.parent x r' d' → d' ≤ d :=
  have h₀ : Reachable 3 _ [] := .init rfl
  have h₁ := h₀.step (show ∀ k ∈ (Op.join 0 1).keys, k < 3 by decide) (by rfl)
  have h₂ := h₁.step (show ∀ k ∈ (Op.join 2 1).keys, k < 3 by decide) (by rfl)
  ⟨_, _, h₂, rfl, unionFind_depth_le_log h₂⟩

/-- Three keys after `join(0, 1)` and `join(2, 1)`. -/
theorem unionFind_find_compresses_path_three :
    ∃ s J, Reachable 3 s J ∧ J = [(2, 1), (0, 1)] ∧
    (∀ x, x < 3 → ∃ r d, PathTo s.parent x r d ∧ d < 3) ∧
    ∀ p, p < 3 → ∃ r d, PathTo s.parent p r d ∧
      (∀ fuel, d ≤ fuel → findRoot s.parent fuel p = r) ∧
      (∃ q, ∀ fuel, d ≤ fuel → compress r fuel s.parent p = q) ∧
      ∃ t, s.find p = .ok (t, r) ∧ (∀ x, x < 3 → t.root x = s.root x) ∧
        (∀ x, t.parent x = x ↔ s.parent x = x) ∧ t.size = s.size ∧
        ∀ k, k ≤ d → t.parent (s.parent^[k] p) = r :=
  have h₀ : Reachable 3 _ [] := .init rfl
  have h₁ := h₀.step (show ∀ k ∈ (Op.join 0 1).keys, k < 3 by decide) (by rfl)
  have h₂ := h₁.step (show ∀ k ∈ (Op.join 2 1).keys, k < 3 by decide) (by rfl)
  ⟨_, _, h₂, rfl, unionFind_find_compresses_path h₂⟩

end GraphAlgo.UnionFind
