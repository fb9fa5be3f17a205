import GraphAlgo.Ds.PriorityIndexQueue

/-!
# `PriorityIndexQueue` invariants

`Indexed s n` says that `pq[1..n]` and `qp` are inverse: `qp[x] = k` exactly when index `x`
sits in slot `k` of `1..n`. Every `_swap` inside `1..n` keeps it (`Indexed.swap`), so both heap
loops do. `WF` adds heap order on the keys, and `Tracks s m` relates the queue to the abstract
map `m` of bindings that `push` and `change` make and `pop`, `delete` and `clear` undo.

One spec lemma per operation (`push_spec`, `pop_spec`, `change_spec`, `delete_spec`) says that the
guarded call succeeds and keeps `WF` and `Tracks`; `priorityIndexQueue_invariants` collects
them over every reachable state.
-/

namespace GraphAlgo.PriorityIndexQueue

variable {α : Type} (compare : α → α → Bool)

/-! ## The slot/index bijection -/

/-- `pq[1..n]` and `qp` are inverse on the valid indices. -/
structure Indexed (s : PriorityIndexQueue α) (n : Nat) : Prop where
  pq_le : ∀ k, 1 ≤ k → k ≤ n → s.pq k ≤ s.capacity
  qp_iff : ∀ x, x ≤ s.capacity → ∀ k : Nat, s.qp x = k ↔ 1 ≤ k ∧ k ≤ n ∧ s.pq k = x
  qp_cases : ∀ x, x ≤ s.capacity → s.qp x = -1 ∨ 0 ≤ s.qp x

variable {compare} {s : PriorityIndexQueue α} {n : Nat}

theorem Indexed.qp_pq (h : Indexed s n) {k : Nat} (hk1 : 1 ≤ k) (hkn : k ≤ n) :
    s.qp (s.pq k) = k :=
  (h.qp_iff _ (h.pq_le k hk1 hkn) k).mpr ⟨hk1, hkn, rfl⟩

theorem Indexed.pq_inj (h : Indexed s n) {k₁ k₂ : Nat} (h₁ : 1 ≤ k₁) (h₁n : k₁ ≤ n)
    (h₂ : 1 ≤ k₂) (h₂n : k₂ ≤ n) (heq : s.pq k₁ = s.pq k₂) : k₁ = k₂ := by
  have e₁ := h.qp_pq h₁ h₁n
  have e₂ := h.qp_pq h₂ h₂n
  rw [heq, e₂] at e₁
  exact_mod_cast e₁.symm

/-- A contained index sits in the slot `qp` names. -/
theorem Indexed.slot_of_ne (h : Indexed s n) {x : Nat} (hx : x ≤ s.capacity)
    (hne : s.qp x ≠ -1) : ∃ k : Nat, s.qp x = k ∧ 1 ≤ k ∧ k ≤ n ∧ s.pq k = x := by
  rcases h.qp_cases x hx with h' | h'
  · exact absurd h' hne
  · obtain ⟨k, hk⟩ := Int.eq_ofNat_of_zero_le h'
    exact ⟨k, hk, (h.qp_iff x hx k).mp hk⟩

/-- A swap inside `1..n` keeps the bijection. -/
theorem Indexed.swap (h : Indexed s n) {a b : Nat} (ha1 : 1 ≤ a) (han : a ≤ n) (hb1 : 1 ≤ b)
    (hbn : b ≤ n) : Indexed (s.swap a b) n := by
  have hsw : ∀ k, 1 ≤ k → k ≤ n → 1 ≤ Equiv.swap a b k ∧ Equiv.swap a b k ≤ n :=
    fun k hk1 hkn => Heap.swap_apply_bounds ha1 han hb1 hbn hk1 hkn
  refine ⟨fun k hk1 hkn => ?_, fun x hx k => ?_, fun x hx => ?_⟩
  · rw [swap_pq]
    exact h.pq_le _ (hsw k hk1 hkn).1 (hsw k hk1 hkn).2
  · simp only [swap_capacity] at hx
    rw [swap_qp, swap_pq]
    by_cases hxa : x = s.pq a
    · -- the index from slot `a` now sits in slot `b`
      rw [if_pos hxa, hxa]
      constructor
      · intro hk
        have : k = b := by exact_mod_cast hk.symm
        subst this
        exact ⟨hb1, hbn, by rw [Equiv.swap_apply_right]⟩
      · rintro ⟨hk1, hkn, hk⟩
        have := h.pq_inj (hsw k hk1 hkn).1 (hsw k hk1 hkn).2 ha1 han hk
        rw [Equiv.swap_apply_eq_iff, Equiv.swap_apply_left] at this
        rw [this]
    · rw [if_neg hxa]
      by_cases hxb : x = s.pq b
      · -- the index from slot `b` now sits in slot `a`
        rw [if_pos hxb, hxb]
        constructor
        · intro hk
          have : k = a := by exact_mod_cast hk.symm
          subst this
          exact ⟨ha1, han, by rw [Equiv.swap_apply_left]⟩
        · rintro ⟨hk1, hkn, hk⟩
          have := h.pq_inj (hsw k hk1 hkn).1 (hsw k hk1 hkn).2 hb1 hbn hk
          rw [Equiv.swap_apply_eq_iff, Equiv.swap_apply_right] at this
          rw [this]
      · -- every other index stays where it was
        rw [if_neg hxb, h.qp_iff x hx k]
        by_cases hka : k = a
        · subst hka
          rw [Equiv.swap_apply_left]
          exact ⟨fun h' => absurd h'.2.2.symm hxa, fun h' => absurd h'.2.2.symm hxb⟩
        · by_cases hkb : k = b
          · subst hkb
            rw [Equiv.swap_apply_right]
            exact ⟨fun h' => absurd h'.2.2.symm hxb, fun h' => absurd h'.2.2.symm hxa⟩
          · rw [Equiv.swap_apply_of_ne_of_ne hka hkb]
  · simp only [swap_capacity] at hx
    rw [swap_qp]
    split_ifs <;> first | exact .inr (Int.natCast_nonneg _) | exact h.qp_cases x hx

/-- A swap inside `1..n` changes no index's membership. -/
theorem Indexed.swap_qp_eq_neg_one (h : Indexed s n) {a b : Nat} (ha1 : 1 ≤ a) (han : a ≤ n)
    (hb1 : 1 ≤ b) (hbn : b ≤ n) {x : Nat} :
    (s.swap a b).qp x = -1 ↔ s.qp x = -1 := by
  rw [swap_qp]
  split_ifs with hxa hxb
  · rw [hxa, h.qp_pq ha1 han]; exact ⟨False.elim, fun h' => by omega⟩
  · rw [hxb, h.qp_pq hb1 hbn]; exact ⟨False.elim, fun h' => by omega⟩
  · exact Iff.rfl

/-- Dropping the index `j` that sits in the last slot `N`: `qp[j] = -1` and slots `1..N - 1`
unchanged leave a bijection over `1..N - 1`. -/
theorem Indexed.drop_last {t : PriorityIndexQueue α} (h : Indexed s n) (hn : 1 ≤ n) {j : Nat}
    (hj : s.pq n = j) (hcap : t.capacity = s.capacity)
    (hqp : t.qp = Function.update s.qp j (-1)) (hpq : ∀ k, k < n → t.pq k = s.pq k) :
    Indexed t (n - 1) := by
  have hjc : j ≤ s.capacity := hj ▸ h.pq_le n hn le_rfl
  refine ⟨fun k hk1 hkn => ?_, fun x hx k => ?_, fun x hx => ?_⟩
  · rw [hcap, hpq k (by omega)]; exact h.pq_le k hk1 (by omega)
  · rw [hcap] at hx
    rw [hqp]
    by_cases hxj : x = j
    · -- the dropped index is absent
      subst hxj
      rw [Function.update_same]
      refine ⟨fun h' => by omega, fun ⟨hk1, hkn, hk⟩ => ?_⟩
      rw [hpq k (by omega), ← hj] at hk
      exact absurd (h.pq_inj hk1 (by omega) hn le_rfl hk) (by omega)
    · rw [Function.update_noteq hxj, h.qp_iff x hx k]
      constructor
      · rintro ⟨hk1, hkn, hk⟩
        have hkn' : k ≠ n := fun e => hxj (by rw [← hk, e, hj])
        exact ⟨hk1, by omega, by rw [hpq k (by omega), hk]⟩
      · rintro ⟨hk1, hkn, hk⟩
        exact ⟨hk1, by omega, by rw [← hpq k (by omega), hk]⟩
  · rw [hcap] at hx
    rw [hqp]
    by_cases hxj : x = j
    · subst hxj; rw [Function.update_same]; exact .inl rfl
    · rw [Function.update_noteq hxj]; exact h.qp_cases x hx

/-! ## States that differ by swaps -/

/-- `t` is `s` after swaps inside `1..n ⊆ 1..N`: the bijection over `1..N` still holds, keys,
count, capacity and memberships are those of `s`, and the slots past `n` are untouched. -/
structure Keeps (s t : PriorityIndexQueue α) (n N : Nat) : Prop where
  indexed : Indexed t N
  capacity : t.capacity = s.capacity
  keys : t.keys = s.keys
  count : t.count = s.count
  member : ∀ x, t.qp x = -1 ↔ s.qp x = -1
  frame : ∀ k, n < k → t.pq k = s.pq k

theorem Keeps.refl (h : Indexed s N) (n : Nat) : Keeps s s n N :=
  ⟨h, rfl, rfl, rfl, fun _ => Iff.rfl, fun _ _ => rfl⟩

theorem Keeps.swap {t : PriorityIndexQueue α} {N : Nat} (h : Keeps s t n N) (hnN : n ≤ N)
    {a b : Nat} (ha1 : 1 ≤ a) (han : a ≤ n) (hb1 : 1 ≤ b) (hbn : b ≤ n) :
    Keeps s (t.swap a b) n N :=
  ⟨h.indexed.swap ha1 (by omega) hb1 (by omega), h.capacity, h.keys, h.count,
    fun x => (h.indexed.swap_qp_eq_neg_one ha1 (by omega) hb1 (by omega)).trans (h.member x),
    fun k hk => by
      rw [swap_pq, Equiv.swap_apply_of_ne_of_ne (by omega) (by omega)]
      exact h.frame k hk⟩

variable (compare)

theorem swim_keeps {N : Nat} (h : Indexed s N) {n k : Nat} (hnN : n ≤ N) (hkn : k ≤ n) :
    Keeps s (swim compare s k) n N :=
  Heap.swim_preserves (comp compare) swap n (fun t => Keeps s t n N)
    (fun _ _ _ ht ha1 han hb1 hbn => ht.swap hnN ha1 han hb1 hbn) s k (.refl h n) hkn

theorem sink_keeps {N : Nat} (h : Indexed s N) (hN : s.count ≤ N) {k : Nat} (hk : 1 ≤ k) :
    Keeps s (sink compare s k) s.count N :=
  Heap.sink_preserves (comp compare) swap s.count (fun t => Keeps s t s.count N)
    (fun _ _ _ ht ha1 han hb1 hbn => ht.swap hN ha1 han hb1 hbn) s k (.refl h _) hk

variable {compare}

theorem Keeps.trans {t u : PriorityIndexQueue α} {N : Nat} (h₁ : Keeps s t n N)
    (h₂ : Keeps t u n N) : Keeps s u n N :=
  ⟨h₂.indexed, h₂.capacity.trans h₁.capacity, h₂.keys.trans h₁.keys, h₂.count.trans h₁.count,
    fun x => (h₂.member x).trans (h₁.member x), fun k hk => (h₂.frame k hk).trans (h₁.frame k hk)⟩

/-! ## The invariant -/

variable (compare) in
/-- What every reachable queue satisfies. -/
structure WF (s : PriorityIndexQueue α) : Prop where
  count_le : s.count ≤ s.capacity
  indexed : Indexed s s.count
  live : Heap.Live (view s) s.count
  ordered : Heap.Ordered compare (view s) s.count

/-- `m` is the abstract map of bindings: an index is contained exactly when `m` binds it, and
then `keys[x]` is the key `m` binds it to. -/
structure Tracks (s : PriorityIndexQueue α) (m : Nat → Option α) : Prop where
  contained : ∀ x, x ≤ s.capacity → (s.qp x ≠ -1 ↔ ∃ y, m x = some y)
  key : ∀ x y, m x = some y → s.keys x = some y
  bound : ∀ x, s.capacity < x → m x = none

theorem contains_eq {x : Nat} (hx : x ≤ s.capacity) : s.contains x = .ok (s.qp x != -1) := by
  simp [contains, isValid, hx]

theorem clear_wf : WF compare s.clear :=
  ⟨Nat.zero_le _, ⟨fun _ _ h => by simp [clear] at h; omega, fun _ _ k => by
    simp only [clear]; exact ⟨fun h => by omega, fun h => by omega⟩,
    fun _ _ => .inl rfl⟩, fun _ _ h => by simp [clear] at h; omega,
    fun _ _ h => by simp [clear] at h; omega⟩

theorem clear_tracks : Tracks s.clear fun _ => none :=
  ⟨fun _ _ => by simp [clear], fun _ _ h => by simp at h, fun _ _ => rfl⟩

/-- `contains(i)` answered `False`: `i` is valid and absent. -/
theorem valid_absent {i : Nat} (hi : s.contains i = .ok false) : i ≤ s.capacity ∧ s.qp i = -1 := by
  by_cases hiC : i ≤ s.capacity
  · rw [contains_eq hiC] at hi
    exact ⟨hiC, by simpa using hi⟩
  · simp [contains, isValid, hiC] at hi

/-- `contains(i)` answered `True`: `i` is valid and sits in a slot. -/
theorem valid_present (hs : Indexed s n) {i : Nat} (hi : s.contains i = .ok true) :
    i ≤ s.capacity ∧ ∃ k : Nat, s.qp i = k ∧ 1 ≤ k ∧ k ≤ n ∧ s.pq k = i := by
  by_cases hiC : i ≤ s.capacity
  · rw [contains_eq hiC] at hi
    exact ⟨hiC, hs.slot_of_ne hiC (by simpa using hi)⟩
  · simp [contains, isValid, hiC] at hi

/-- The slots of a heap hold only contained indices. -/
theorem Indexed.pq_ne_of_absent (h : Indexed s n) {i : Nat} (hqi : s.qp i = -1) {k : Nat}
    (hk1 : 1 ≤ k) (hkn : k ≤ n) : s.pq k ≠ i := fun he => by
  have := h.qp_pq hk1 hkn
  rw [he, hqi] at this
  omega

/-- The index written to the fresh slot `n + 1` joins the bijection. -/
theorem Indexed.push {t : PriorityIndexQueue α} (h : Indexed s n) {i : Nat} (hiC : i ≤ s.capacity)
    (hqi : s.qp i = -1) (hcap : t.capacity = s.capacity)
    (hqp : t.qp = Function.update s.qp i (n + 1)) (hpq : t.pq = Function.update s.pq (n + 1) i) :
    Indexed t (n + 1) := by
  refine ⟨fun k hk1 hkn => ?_, fun x hx k => ?_, fun x hx => ?_⟩
  · rw [hcap, hpq]
    by_cases hk : k = n + 1
    · rw [hk, Function.update_same]; exact hiC
    · rw [Function.update_noteq hk]; exact h.pq_le k hk1 (by omega)
  · rw [hcap] at hx
    rw [hqp, hpq]
    by_cases hxi : x = i
    · -- the new index sits in the new slot
      subst hxi
      rw [Function.update_same]
      constructor
      · intro he
        have : k = n + 1 := by exact_mod_cast he.symm
        subst this
        exact ⟨by omega, le_rfl, Function.update_same _ _ _⟩
      · rintro ⟨hk1, hkn, hk⟩
        by_cases hkn' : k = n + 1
        · rw [hkn']; push_cast; rfl
        · rw [Function.update_noteq hkn'] at hk
          exact absurd hk (h.pq_ne_of_absent hqi hk1 (by omega))
    · rw [Function.update_noteq hxi, h.qp_iff x hx k]
      by_cases hkn' : k = n + 1
      · subst hkn'
        rw [Function.update_same]
        exact ⟨fun h' => by omega, fun h' => absurd h'.2.2.symm hxi⟩
      · rw [Function.update_noteq hkn']
        exact ⟨fun ⟨a, b, c⟩ => ⟨a, by omega, c⟩, fun ⟨a, b, c⟩ => ⟨a, by omega, c⟩⟩
  · rw [hcap] at hx
    rw [hqp]
    by_cases hxi : x = i
    · subst hxi; rw [Function.update_same]; exact .inr (Int.natCast_nonneg _)
    · rw [Function.update_noteq hxi]; exact h.qp_cases x hx

/-- Rebinding one valid index `i` (to a key, or to nothing) while every other index keeps its
membership and its key. -/
theorem Tracks.update {t : PriorityIndexQueue α} {m : Nat → Option α} (ht : Tracks s m)
    (hcap : t.capacity = s.capacity) {i : Nat} (hi : i ≤ s.capacity) {o : Option α}
    (hqi : t.qp i ≠ -1 ↔ ∃ y, o = some y) (hki : ∀ y, o = some y → t.keys i = some y)
    (hmem : ∀ x, x ≠ i → (t.qp x = -1 ↔ s.qp x = -1))
    (hkeys : ∀ x, x ≠ i → t.keys x = s.keys x) : Tracks t (Function.update m i o) := by
  refine ⟨fun x hx => ?_, fun x y hxy => ?_, fun x hx => ?_⟩
  · by_cases hxi : x = i
    · subst hxi; rw [Function.update_same]; exact hqi
    · rw [Function.update_noteq hxi, ne_eq, hmem x hxi]; exact ht.contained x (hcap ▸ hx)
  · by_cases hxi : x = i
    · subst hxi; rw [Function.update_same] at hxy; exact hki y hxy
    · rw [Function.update_noteq hxi] at hxy; rw [hkeys x hxi]; exact ht.key x y hxy
  · rw [hcap] at hx
    rw [Function.update_noteq (by omega)]
    exact ht.bound x hx

/-- The last step of `pop` and `delete`: with `count` already `N - 1`, unbinding the index `j`
left in slot `N` leaves a bijection over `1..N - 1` whose slots read as before. -/
theorem Indexed.drop_view {w t : PriorityIndexQueue α} {N : Nat} (hw : Indexed w N) (hN : 1 ≤ N)
    {j : Nat} (hj : w.pq N = j) (hcap : t.capacity = w.capacity)
    (hqp : t.qp = Function.update w.qp j (-1)) (hkeys : t.keys = Function.update w.keys j none)
    (hpq : ∀ k, k < N → t.pq k = w.pq k) :
    Indexed t (N - 1) ∧ ∀ k, 1 ≤ k → k ≤ N - 1 → view w k = view t k := by
  refine ⟨hw.drop_last hN hj hcap hqp hpq, fun k hk1 hkn => ?_⟩
  have hkj : w.pq k ≠ j := fun he =>
    absurd (hw.pq_inj hk1 (by omega) hN le_rfl (he.trans hj.symm)) (by omega)
  simp only [view, hkeys, hpq k (by omega), Function.update_noteq hkj]

/-- `key_of(i)` reads the key `m` binds `i` to. -/
theorem keyOf_eq {m : Nat → Option α} (ht : Tracks s m) {i : Nat} {y : α}
    (hy : m i = some y) : s.keyOf i = .ok (some y) := by
  have hiC : i ≤ s.capacity := by
    by_contra h
    rw [ht.bound i (by omega)] at hy
    exact Option.noConfusion hy
  have hc : s.contains i = .ok true := by
    rw [contains_eq hiC]; simpa using (ht.contained i hiC).mpr ⟨y, hy⟩
  simp [keyOf, hc, bind, Except.bind, ht.key i y hy]

/-- `__init__(C)` builds a `WF` queue that binds nothing. -/
theorem init_spec {C : Nat} (h : init C = .ok s) :
    WF compare s ∧ Tracks s (fun _ => none) ∧ s.capacity = C := by
  unfold init at h
  split at h
  · cases h
    exact ⟨clear_wf (s := ⟨C, 0, fun _ => none, fun _ => 0, fun _ => -1⟩),
      clear_tracks (s := ⟨C, 0, fun _ => none, fun _ => 0, fun _ => -1⟩), rfl⟩
  · cases h

variable [IsStrictWeakOrder α (fun x y => compare x y = true)]

/-- `push(i, key)` of an absent index into a queue with a free slot succeeds, keeps `WF`, and
binds `i` to `key`. -/
theorem push_spec {m : Nat → Option α} (hs : WF compare s) (ht : Tracks s m) {i : Nat}
    (hi : s.contains i = .ok false) (hc : s.count < s.capacity) (key : α) :
    ∃ s', s.push compare i key = .ok s' ∧ WF compare s' ∧
      Tracks s' (Function.update m i (some key)) ∧ s'.capacity = s.capacity := by
  obtain ⟨hiC, hqi⟩ := valid_absent hi
  let t : PriorityIndexQueue α :=
    { s with count := s.count + 1, qp := Function.update s.qp i (s.count + 1),
             pq := Function.update s.pq (s.count + 1) i,
             keys := Function.update s.keys i (some key) }
  have htc : t.count = s.count + 1 := rfl
  have htv : ∀ k, 1 ≤ k → k ≤ s.count → view t k = view s k := fun k hk1 hkn => by
    show Function.update s.keys i (some key) (Function.update s.pq (s.count + 1) i k) =
      s.keys (s.pq k)
    rw [Function.update_noteq (show k ≠ s.count + 1 by omega),
      Function.update_noteq (hs.indexed.pq_ne_of_absent hqi hk1 hkn)]
  have hidx : Indexed t t.count := hs.indexed.push hiC hqi rfl rfl rfl
  have hup : Heap.UpOrder compare (view t) t.count t.count :=
    ⟨fun c hc2 hcn hck => by
      rw [htv c (by omega) (by omega), htv (c / 2) (by omega) (by omega)]
      exact hs.ordered c hc2 (by omega),
     fun _ c hcn hcp => by omega⟩
  have hlive : Heap.Live (view t) t.count := fun k hk1 hkn => by
    by_cases hk : k = t.count
    · refine ⟨key, ?_⟩
      rw [hk]; simp only [view, t]
      rw [Function.update_same, Function.update_same]
    · rw [htv k hk1 (by omega)]; exact hs.live k hk1 (by omega)
  have hk := swim_keeps compare hidx (n := t.count) le_rfl le_rfl
  refine ⟨swim compare t t.count, ?_, ⟨?_, ?_, ?_, ?_⟩, ht.update hk.capacity hiC ?_ ?_ ?_ ?_,
    hk.capacity⟩
  · simp [push, hi, bind, Except.bind, show s.count + 1 ≤ s.capacity by omega, t]
  · rw [hk.count, hk.capacity]; exact hc
  · rw [hk.count]; exact hk.indexed
  · rw [hk.count]; exact Heap.swim_live compare (exposes compare) t le_rfl hlive
  · rw [hk.count]; exact Heap.swim_ordered compare (exposes compare) t (by omega) le_rfl hup
  · rw [ne_eq, hk.member]; simp [t]; omega
  · intro y hy; rw [hk.keys, ← Option.some_inj.mp hy]; exact Function.update_same _ _ _
  · intro x hxi; rw [hk.member]; exact iff_of_eq (congrArg (· = -1) (Function.update_noteq hxi _ _))
  · intro x hxi; rw [hk.keys]; exact Function.update_noteq hxi _ _

/-- `pop()` on a non-empty queue succeeds, keeps `WF`, and unbinds the index in slot 1, the one
`top_ix()` names. -/
theorem pop_spec {m : Nat → Option α} (hs : WF compare s) (ht : Tracks s m) (hne : 0 < s.count) :
    ∃ s', s.pop compare = .ok s' ∧ WF compare s' ∧ Tracks s' (Function.update m (s.pq 1) none) ∧
      s'.capacity = s.capacity ∧ s'.count = s.count - 1 := by
  let u : PriorityIndexQueue α := { s.swap 1 s.count with count := s.count - 1 }
  have hu : Indexed u s.count :=
    have h := hs.indexed.swap le_rfl hne hne le_rfl
    ⟨h.1, h.2, h.3⟩
  have huv : view u = fun m => view s (Equiv.swap 1 s.count m) :=
    Heap.Exposes.view_swap_eq compare (exposes compare) s 1 s.count
  let w := sink compare u 1
  have hk : Keeps u w (s.count - 1) s.count := sink_keeps compare hu (Nat.sub_le _ _) le_rfl
  have hwc : w.count = s.count - 1 := hk.count
  have hwj : w.pq s.count = s.pq 1 := by
    rw [hk.frame s.count (by omega)]
    show (s.swap 1 s.count).pq s.count = s.pq 1
    rw [swap_pq, Equiv.swap_apply_right]
  let s' : PriorityIndexQueue α := { w with
    qp := Function.update w.qp (s.pq 1) (-1), keys := Function.update w.keys (s.pq 1) none,
    pq := Function.update w.pq (w.count + 1) 0 }
  obtain ⟨hidx, hview⟩ := hk.indexed.drop_view (t := s') hne hwj rfl rfl rfl
    fun k hk' => Function.update_noteq (by omega) _ _
  have hjC : s.pq 1 ≤ s.capacity := hs.indexed.pq_le 1 le_rfl hne
  have hsc : s'.count = s.count - 1 := hwc
  refine ⟨s', by rw [pop, if_neg (by omega)], ⟨?_, ?_, ?_, ?_⟩,
    ht.update (t := s') hk.capacity hjC ?_ ?_ ?_ ?_, hk.capacity, hwc⟩
  · rw [hsc, show s'.capacity = s.capacity from hk.capacity]
    exact le_trans (Nat.sub_le _ _) hs.count_le
  · rw [hsc]; exact hidx
  · rw [hsc]
    exact (Heap.sink_live compare (exposes compare) u le_rfl (huv ▸ hs.live.pop hne)).congr hview
  · rw [hsc]
    exact (Heap.sink_ordered compare (exposes compare) u le_rfl
      (huv ▸ hs.ordered.pop_down)).congr compare hview
  · simp [s']
  · simp
  · intro x hx
    show Function.update w.qp (s.pq 1) (-1) x = -1 ↔ _
    rw [Function.update_noteq hx]
    exact (hk.member x).trans (hs.indexed.swap_qp_eq_neg_one le_rfl hne hne le_rfl)
  · intro x hx
    show Function.update w.keys (s.pq 1) none x = _
    rw [Function.update_noteq hx, hk.keys]
    rfl

/-- `change(i, key)` of a contained index succeeds, keeps `WF`, and rebinds `i` to `key`. -/
theorem change_spec {m : Nat → Option α} (hs : WF compare s) (ht : Tracks s m) {i : Nat}
    (hi : s.contains i = .ok true) (key : α) :
    ∃ s', s.change compare i key = .ok s' ∧ WF compare s' ∧
      Tracks s' (Function.update m i (some key)) ∧ s'.capacity = s.capacity ∧
      s'.count = s.count := by
  obtain ⟨hiC, k, hqk, hk1, hkn, hpk⟩ := valid_present hs.indexed hi
  have hik : (s.qp i).toNat = k := by rw [hqk]; rfl
  let t : PriorityIndexQueue α := { s with keys := Function.update s.keys i (some key) }
  have htv : ∀ j, 1 ≤ j → j ≤ s.count → j ≠ k → view s j = view t j := fun j hj1 hjn hjk => by
    show s.keys (s.pq j) = Function.update s.keys i (some key) (s.pq j)
    rw [Function.update_noteq fun he => hjk (hs.indexed.pq_inj hj1 hjn hk1 hkn (he.trans hpk.symm))]
  have hlive : Heap.Live (view t) s.count := fun j hj1 hjn => by
    by_cases hjk : j = k
    · refine ⟨key, ?_⟩
      show Function.update s.keys i (some key) (s.pq j) = some key
      rw [hjk, hpk, Function.update_same]
    · rw [← htv j hj1 hjn hjk]; exact hs.live j hj1 hjn
  have hole : Heap.HoleAt compare (view t) s.count k :=
    (hs.ordered.holeAt compare hs.live k).congr compare htv
  have hidx : Indexed t s.count := ⟨hs.indexed.1, hs.indexed.2, hs.indexed.3⟩
  let u := swim compare t k
  have hku : Keeps t u s.count s.count := swim_keeps compare hidx le_rfl hkn
  obtain ⟨p, hqp, hp1, hpn, -⟩ := hku.indexed.slot_of_ne (x := i) (hku.capacity ▸ hiC)
    (by rw [ne_eq, hku.member]; show ¬ s.qp i = -1; rw [hqk]; omega)
  have hup : (u.qp i).toNat = p := by rw [hqp]; rfl
  let s' := sink compare u p
  have hks : Keeps u s' u.count s.count := sink_keeps compare hku.indexed hku.count.le hp1
  have hsink : s' = Heap.sink (comp compare) swap s.count u p := by
    show Heap.sink _ _ u.count u p = _
    rw [hku.count]
  have hsc : s'.count = s.count := hks.count.trans hku.count
  have hcap : s'.capacity = s.capacity := hks.capacity.trans hku.capacity
  refine ⟨s', ?_, ⟨?_, ?_, ?_, ?_⟩, ht.update (t := s') hcap hiC ?_ ?_ ?_ ?_, hcap, hsc⟩
  · rw [change, hi]
    show Except.ok (sink compare (swim compare t (s.qp i).toNat)
      ((swim compare t (s.qp i).toNat).qp i).toNat) = _
    rw [hik, hup]
  · rw [hsc, hcap]; exact hs.count_le
  · rw [hsc]; exact hks.indexed
  · rw [hsc, hsink]
    exact Heap.sink_live compare (exposes compare) u hp1
      (Heap.swim_live compare (exposes compare) t hkn hlive)
  · rw [hsc, hsink]
    refine Heap.swim_sink_ordered compare (exposes compare) t hk1 hkn hole hlive hp1 fun he => ?_
    have he : swim compare t k = t := he
    rw [← hup, ← hik]
    show ((swim compare t k).qp i).toNat = (t.qp i).toNat
    rw [he]
  · rw [ne_eq, hks.member, hku.member]
    show ¬ s.qp i = -1 ↔ _
    rw [hqk]
    exact ⟨fun _ => ⟨key, rfl⟩, fun _ => by omega⟩
  · intro y hy
    rw [hks.keys, hku.keys, ← Option.some_inj.mp hy]
    exact Function.update_same _ _ _
  · intro x _; exact (hks.member x).trans (hku.member x)
  · intro x hx; rw [hks.keys, hku.keys]; exact Function.update_noteq hx _ _

/-- `delete(i)` of a contained index succeeds, keeps `WF`, and unbinds `i`. When `i` sits in the
last slot, neither loop moves anything: `_swim` runs on the dropped slot and stops. -/
theorem delete_spec {m : Nat → Option α} (hs : WF compare s) (ht : Tracks s m) {i : Nat}
    (hi : s.contains i = .ok true) :
    ∃ s', s.delete compare i = .ok s' ∧ WF compare s' ∧ Tracks s' (Function.update m i none) ∧
      s'.capacity = s.capacity ∧ s'.count = s.count - 1 := by
  obtain ⟨hiC, k, hqk, hk1, hkn, hpk⟩ := valid_present hs.indexed hi
  have hik : (s.qp i).toNat = k := by rw [hqk]; rfl
  have hN : 1 ≤ s.count := by omega
  let u : PriorityIndexQueue α := { s.swap k s.count with count := s.count - 1 }
  have hu : Indexed u s.count :=
    have h := hs.indexed.swap hk1 hkn hN le_rfl
    ⟨h.1, h.2, h.3⟩
  have huv : view u = fun m => view s (Equiv.swap k s.count m) :=
    Heap.Exposes.view_swap_eq compare (exposes compare) s k s.count
  have hul : Heap.Live (view u) (s.count - 1) :=
    huv ▸ (hs.live.swap hk1 hkn hN le_rfl).mono (Nat.sub_le _ _)
  let w := sink compare (swim compare u k) k
  have hw : Keeps u w (s.count - 1) s.count ∧ Heap.Ordered compare (view w) (s.count - 1) ∧
      Heap.Live (view w) (s.count - 1) := by
    by_cases hkN : k = s.count
    · -- `i` sat in the last slot: the swap is trivial and neither loop moves
      have hview : view u = view s := by rw [huv, hkN, Equiv.swap_self]; rfl
      have hswim : swim compare u k = u := Heap.swim_of_stop u fun ⟨_, hc⟩ => by
        rw [(exposes compare).comp_eq, hview, hkN, hs.ordered s.count (by omega) le_rfl] at hc
        exact Bool.false_ne_true hc
      have hwu : w = u := by
        show sink compare (swim compare u k) k = u
        rw [hswim]
        exact Heap.sink_of_leaf (comp compare) swap u (show s.count - 1 < 2 * k by omega)
      rw [hwu, hview]
      exact ⟨.refl hu _, hs.ordered.mono compare (Nat.sub_le _ _),
        hs.live.mono (Nat.sub_le _ _)⟩
    · -- the last key fills the slot of `i`, swims up, then sinks from that slot
      have hkn' : k ≤ s.count - 1 := by omega
      have hku : Keeps u (swim compare u k) (s.count - 1) s.count :=
        swim_keeps compare hu (Nat.sub_le _ _) hkn'
      have hsc : (swim compare u k).count = s.count - 1 := hku.count
      have hks := sink_keeps compare hku.indexed (hsc ▸ Nat.sub_le _ _) hk1
      rw [hsc] at hks
      have hsink : w = Heap.sink (comp compare) swap (s.count - 1) (swim compare u k) k := by
        show Heap.sink _ _ (swim compare u k).count _ _ = _
        rw [hsc]
      have hole : Heap.HoleAt compare (view u) (s.count - 1) k :=
        ((hs.ordered.mono compare (Nat.sub_le _ _)).holeAt compare (hs.live.mono (Nat.sub_le _ _))
          k).congr compare fun j _ hjn hjk => by
            simp only [huv, Equiv.swap_apply_of_ne_of_ne hjk (show j ≠ s.count by omega)]
      rw [hsink]
      exact ⟨hsink ▸ hku.trans hks,
        Heap.swim_sink_ordered compare (exposes compare) u hk1 hkn' hole hul hk1 fun _ => rfl,
        Heap.sink_live compare (exposes compare) _ hk1
          (Heap.swim_live compare (exposes compare) u hkn' hul)⟩
  obtain ⟨hk, hwo, hwl⟩ := hw
  have hwj : w.pq s.count = i := by
    rw [hk.frame s.count (by omega)]
    show (s.swap k s.count).pq s.count = i
    rw [swap_pq, Equiv.swap_apply_right, hpk]
  let s' : PriorityIndexQueue α :=
    { w with keys := Function.update w.keys i none, qp := Function.update w.qp i (-1) }
  obtain ⟨hidx, hview⟩ := hk.indexed.drop_view (t := s') hN hwj rfl rfl rfl fun _ _ => rfl
  have hsc : s'.count = s.count - 1 := hk.count
  have hcap : s'.capacity = s.capacity := hk.capacity
  refine ⟨s', ?_, ⟨?_, ?_, ?_, ?_⟩, ht.update (t := s') hcap hiC ?_ ?_ ?_ ?_, hcap, hsc⟩
  · simp only [delete, hi, hik, bind, Except.bind, if_true]
  · rw [hsc, hcap]; exact le_trans (Nat.sub_le _ _) hs.count_le
  · rw [hsc]; exact hidx
  · rw [hsc]; exact hwl.congr hview
  · rw [hsc]; exact hwo.congr compare hview
  · simp [s']
  · simp
  · intro x hx
    show Function.update w.qp i (-1) x = -1 ↔ _
    rw [Function.update_noteq hx]
    exact (hk.member x).trans (hs.indexed.swap_qp_eq_neg_one hk1 hkn hN le_rfl)
  · intro x hx
    show Function.update w.keys i none x = _
    rw [Function.update_noteq hx, hk.keys]
    rfl

/-- `top_ix()` and `top()` on a non-empty queue: slot 1 holds a contained index, bound in `m` to
the key `top()` reads, and no bound key beats it. -/
theorem top_spec {m : Nat → Option α} (hs : WF compare s) (ht : Tracks s m) (hne : 0 < s.count) :
    ∃ x, s.topIx = .ok (s.pq 1) ∧ s.top = .ok (some x) ∧ s.contains (s.pq 1) = .ok true ∧
      s.keyOf (s.pq 1) = .ok (some x) ∧ m (s.pq 1) = some x ∧
      ∀ i y, m i = some y → compare x y = false := by
  obtain ⟨x, hx⟩ := hs.live 1 le_rfl hne
  have hjC := hs.indexed.pq_le 1 le_rfl hne
  have hc : s.contains (s.pq 1) = .ok true := by
    rw [contains_eq hjC, hs.indexed.qp_pq le_rfl hne]; rfl
  obtain ⟨y, hy⟩ := (ht.contained _ hjC).mp (by rw [hs.indexed.qp_pq le_rfl hne]; omega)
  have hyx : y = x := Option.some_inj.mp ((ht.key _ _ hy).symm.trans hx)
  refine ⟨x, by simp [topIx, show s.count ≠ 0 by omega], by simp [top, show s.count ≠ 0 by omega, ← hx, view],
    hc, by simp [keyOf, hc, bind, Except.bind, ← hx, view], hyx ▸ hy, fun i z hz => ?_⟩
  have hiC : i ≤ s.capacity := by
    by_contra h
    rw [ht.bound i (by omega)] at hz
    exact Option.noConfusion hz
  obtain ⟨k, -, hk1, hkn, hpk⟩ := hs.indexed.slot_of_ne hiC ((ht.contained i hiC).mpr ⟨z, hz⟩)
  have h := hs.ordered.top_not_below compare hs.live k hk1 hkn
  rwa [hx, show view s k = some z by rw [view, hpk]; exact ht.key i z hz] at h

/-! ## Runs -/

/-- The precondition a client meets before each call. -/
def Allowed (s : PriorityIndexQueue α) : Op α → Prop
  | .push i _ => s.contains i = .ok false ∧ s.count < s.capacity
  | .pop => 0 < s.count
  | .change i _ => s.contains i = .ok true
  | .delete i => s.contains i = .ok true
  | .clear => True

/-- The abstract map after a call: `push` and `change` bind their index, `pop` unbinds the index
in slot 1, `delete` unbinds its index and `clear` unbinds all. -/
def bindings (s : PriorityIndexQueue α) (m : Nat → Option α) : Op α → Nat → Option α
  | .push i key => Function.update m i (some key)
  | .pop => Function.update m (s.pq 1) none
  | .change i key => Function.update m i (some key)
  | .delete i => Function.update m i none
  | .clear => fun _ => none

/-- One call that meets its precondition succeeds and keeps `WF`, and the queue follows the
abstract map. -/
theorem exec_spec {m : Nat → Option α} (hs : WF compare s) (ht : Tracks s m) {op : Op α}
    (hop : Allowed s op) :
    ∃ s', s.exec compare op = .ok s' ∧ WF compare s' ∧ Tracks s' (bindings s m op) ∧
      s'.capacity = s.capacity := by
  cases op with
  | push i key =>
    obtain ⟨s', h, hw, ht', hc⟩ := push_spec hs ht hop.1 hop.2 key
    exact ⟨s', h, hw, ht', hc⟩
  | pop =>
    obtain ⟨s', h, hw, ht', hc, -⟩ := pop_spec hs ht hop
    exact ⟨s', h, hw, ht', hc⟩
  | change i key =>
    obtain ⟨s', h, hw, ht', hc, -⟩ := change_spec hs ht hop key
    exact ⟨s', h, hw, ht', hc⟩
  | delete i =>
    obtain ⟨s', h, hw, ht', hc, -⟩ := delete_spec hs ht hop
    exact ⟨s', h, hw, ht', hc⟩
  | clear => exact ⟨s.clear, rfl, clear_wf, clear_tracks, rfl⟩

variable (compare) in
/-- The states, with their abstract maps, that a client reaches from `__init__(C)` by calls that
meet their preconditions. -/
inductive Reachable (C : Nat) : PriorityIndexQueue α → (Nat → Option α) → Prop
  | init {s : PriorityIndexQueue α} : PriorityIndexQueue.init C = .ok s →
      Reachable C s fun _ => none
  | step {s s' : PriorityIndexQueue α} {m : Nat → Option α} {op : Op α} : Reachable C s m →
      Allowed s op → s.exec compare op = .ok s' → Reachable C s' (bindings s m op)

/-- Every reachable state is `WF`, follows its abstract map, and keeps the capacity `C`. -/
theorem Reachable.wf {C : Nat} {m : Nat → Option α} (hr : Reachable compare C s m) :
    WF compare s ∧ Tracks s m ∧ s.capacity = C := by
  induction hr with
  | init h => exact init_spec h
  | step _ hop hexec ih =>
    obtain ⟨s', h, hw, ht, hc⟩ := exec_spec ih.1 ih.2.1 hop
    cases hexec.symm.trans h
    exact ⟨hw, ht, hc.trans ih.2.2⟩

/-- **The indexed queue's invariants.** In every state a client reaches from `__init__(C)` by
calls that meet their preconditions: each such call succeeds; `pq[1..count]` holds valid indices
that `qp` maps back to their slots, so it lists each contained index exactly once; a valid index
in no slot has `qp = -1`; the keys are in heap order; an index is contained exactly when the
abstract map binds it, and `key_of` reads the key that the last `push` or `change` of it gave;
and `top_ix()` is a contained index whose key no contained key beats, with
`top() == key_of(top_ix())`. -/
theorem priorityIndexQueue_invariants {C : Nat} {m : Nat → Option α}
    (hr : Reachable compare C s m) :
    (∀ op, Allowed s op → ∃ s', s.exec compare op = .ok s') ∧
    s.capacity = C ∧ s.count ≤ C ∧
    (∀ k, 1 ≤ k → k ≤ s.count → s.pq k ≤ C ∧ s.qp (s.pq k) = k) ∧
    (∀ k₁ k₂, 1 ≤ k₁ → k₁ ≤ s.count → 1 ≤ k₂ → k₂ ≤ s.count → s.pq k₁ = s.pq k₂ → k₁ = k₂) ∧
    (∀ i, i ≤ C → (s.contains i = .ok true ↔ ∃ k, 1 ≤ k ∧ k ≤ s.count ∧ s.pq k = i)) ∧
    (∀ i, i ≤ C → (∀ k, 1 ≤ k → k ≤ s.count → s.pq k ≠ i) → s.qp i = -1) ∧
    Heap.Live (view s) s.count ∧ Heap.Ordered compare (view s) s.count ∧
    (∀ i, i ≤ C → (s.contains i = .ok true ↔ ∃ y, m i = some y)) ∧
    (∀ i y, m i = some y → s.keyOf i = .ok (some y)) ∧
    (0 < s.count → ∃ j x, s.topIx = .ok j ∧ s.contains j = .ok true ∧ s.top = .ok (some x) ∧
      s.keyOf j = .ok (some x) ∧ ∀ i y, m i = some y → compare x y = false) := by
  obtain ⟨hs, ht, rfl⟩ := hr.wf
  have hcont : ∀ i, i ≤ s.capacity → (s.contains i = .ok true ↔ s.qp i ≠ -1) := fun i hi => by
    rw [contains_eq hi]; simp
  refine ⟨fun op hop => ?_, rfl, hs.count_le, fun k hk1 hkn =>
    ⟨hs.indexed.pq_le k hk1 hkn, hs.indexed.qp_pq hk1 hkn⟩,
    fun _ _ h₁ h₁n h₂ h₂n => hs.indexed.pq_inj h₁ h₁n h₂ h₂n, fun i hi => ?_, fun i hi hno => ?_,
    hs.live, hs.ordered, fun i hi => (hcont i hi).trans (ht.contained i hi),
    fun i y hy => keyOf_eq ht hy, fun hne => ?_⟩
  · obtain ⟨s', h, -⟩ := exec_spec hs ht hop
    exact ⟨s', h⟩
  · rw [hcont i hi]
    constructor
    · intro hne
      obtain ⟨k, -, hk⟩ := hs.indexed.slot_of_ne hi hne
      exact ⟨k, hk⟩
    · rintro ⟨k, hk1, hkn, rfl⟩
      rw [hs.indexed.qp_pq hk1 hkn]
      omega
  · by_contra hne
    obtain ⟨k, -, hk1, hkn, hk⟩ := hs.indexed.slot_of_ne hi hne
    exact hno k hk1 hkn hk
  · obtain ⟨x, htopIx, htop, hc, hkey, -, hmax⟩ := top_spec hs ht hne
    exact ⟨s.pq 1, x, htopIx, hc, htop, hkey, hmax⟩

end PriorityIndexQueue

end GraphAlgo

namespace GraphAlgo.PriorityIndexQueue

/-- The test client's `x < y` queue of capacity 2 after `push(0, 5)`, `push(1, 7)` and
`change(0, 9)`: index 0 is back on top. -/
theorem priorityIndexQueue_invariants_natLt :
    ∃ (s : PriorityIndexQueue ℕ) (m : Nat → Option ℕ),
      Reachable (fun x y => decide (x < y)) 2 s m ∧ s.count = 2 ∧ s.pq 1 = 0 ∧
      (∀ op, Allowed s op → ∃ s', s.exec (fun x y => decide (x < y)) op = .ok s') ∧
      s.capacity = 2 ∧ s.count ≤ 2 ∧
      (∀ k, 1 ≤ k → k ≤ s.count → s.pq k ≤ 2 ∧ s.qp (s.pq k) = k) ∧
      (∀ k₁ k₂, 1 ≤ k₁ → k₁ ≤ s.count → 1 ≤ k₂ → k₂ ≤ s.count → s.pq k₁ = s.pq k₂ → k₁ = k₂) ∧
      (∀ i, i ≤ 2 → (s.contains i = .ok true ↔ ∃ k, 1 ≤ k ∧ k ≤ s.count ∧ s.pq k = i)) ∧
      (∀ i, i ≤ 2 → (∀ k, 1 ≤ k → k ≤ s.count → s.pq k ≠ i) → s.qp i = -1) ∧
      Heap.Live (view s) s.count ∧ Heap.Ordered (fun x y => decide (x < y)) (view s) s.count ∧
      (∀ i, i ≤ 2 → (s.contains i = .ok true ↔ ∃ y, m i = some y)) ∧
      (∀ i y, m i = some y → s.keyOf i = .ok (some y)) ∧
      (0 < s.count → ∃ j x, s.topIx = .ok j ∧ s.contains j = .ok true ∧ s.top = .ok (some x) ∧
        s.keyOf j = .ok (some x) ∧ ∀ i y, m i = some y → decide (x < y) = false) :=
  have := Heap.natLt_isStrictWeakOrder
  have h₀ : Reachable (fun x y => decide (x < y)) 2 _ _ := .init rfl
  have h₁ := h₀.step (show Allowed _ (Op.push 0 5) from ⟨by rfl, by decide⟩) (by rfl)
  have h₂ := h₁.step (show Allowed _ (Op.push 1 7) from ⟨by rfl, by decide⟩) (by rfl)
  have h₃ := h₂.step (show Allowed _ (Op.change 0 9) from by rfl) (by rfl)
  ⟨_, _, h₃, rfl, rfl, priorityIndexQueue_invariants h₃⟩

/-- In the reachable queue of capacity `1` holding index `0`, index `1` passes `is_valid` and is
not contained, yet `push(1, 7)` writes `pq[2]`, past the end of `pq`, once `count` and `qp[1]`
are updated. -/
theorem push_valid_absent_overflows :
    ∃ (s : PriorityIndexQueue ℕ) (m : Nat → Option ℕ),
      Reachable (fun x y => decide (x < y)) 1 s m ∧ s.isValid 1 = true ∧ s.contains 1 = .ok false ∧
      s.push (fun x y => decide (x < y)) 1 7 = .error "list assignment index out of range" :=
  have h₀ : Reachable (fun x y => decide (x < y)) 1 _ _ := .init rfl
  have h₁ := h₀.step (show Allowed _ (Op.push 0 5) from ⟨by rfl, by decide⟩) (by rfl)
  ⟨_, _, h₁, by rfl, by rfl, by rfl⟩

/-- In the reachable queue of capacity `1` holding only index `1`, `__iter__` asks `key_of(0)`
and fails its assertion. -/
theorem iter_keyOf_absent_index :
    ∃ (s : PriorityIndexQueue ℕ) (m : Nat → Option ℕ),
      Reachable (fun x y => decide (x < y)) 1 s m ∧ s.contains 1 = .ok true ∧
      s.iter = .error "index is not in the priority queue" :=
  have h₀ : Reachable (fun x y => decide (x < y)) 1 _ _ := .init rfl
  have h₁ := h₀.step (show Allowed _ (Op.push 1 5) from ⟨by rfl, by decide⟩) (by rfl)
  ⟨_, _, h₁, by rfl, by rfl⟩

end GraphAlgo.PriorityIndexQueue
