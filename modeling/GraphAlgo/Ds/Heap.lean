import Mathlib.Order.RelClasses
import Mathlib.Logic.Equiv.Basic
import Mathlib.Data.Finset.Image
import Mathlib.Order.Interval.Finset.Nat

/-!
# The heap repair loops `_swim` and `_sink`

`PriorityQueue` and `PriorityIndexQueue` carry the same two loops; they differ only in what
`_comp(i, j)` reads and in what `_swap(i, j)` writes. The loops are written here once, over an
abstract queue state `σ` with its `comp` and `swap`, and each queue instantiates them.

A queue state exposes a *slot view* `view : σ → Nat → Option α` (the key stored in heap slot
`k`, `None` for a slot that holds none). `Exposes` says that `comp` compares the keys of two
slots with the caller's comparator and that `swap` transposes two slots of the view. Over it:

* `swim_ordered` — from `UpOrder` (heap order everywhere except between the hole and its
  parent), `swim` restores heap order;
* `sink_ordered` — from `DownOrder` (heap order everywhere except between the hole and its
  children), `sink` restores heap order;
* `swim_preserves`, `sink_preserves` — any property that swaps inside `1..n` keep, the loops
  keep: the multiset of stored keys (`contents_swap`), the frame outside `1..n`;
* `Ordered.top_not_below` — in an ordered heap with no empty slot, slot 1 holds a key that
  compares below no stored key.

The comparator is a strict weak order, as the source's docstring demands; the equivalent keys
it permits are swapped by `_sink` (its `comp(j, k)` is false on ties) and need no special case.
-/

namespace GraphAlgo.Heap

/-! ## The comparator on slots -/

section Order

variable {α : Type} (compare : α → α → Bool)

/-- `_comp` on two slots: the caller's comparator on the keys they hold. A slot holding `None`
is never compared in a reachable state (see `Live`); such a comparison is taken as `false`. -/
def slotCompare : Option α → Option α → Bool
  | some x, some y => compare x y
  | _, _ => false

@[simp] theorem slotCompare_some (x y : α) : slotCompare compare (some x) (some y) = compare x y :=
  rfl

@[simp] theorem slotCompare_none_left (b : Option α) : slotCompare compare none b = false := rfl

@[simp] theorem slotCompare_none_right (a : Option α) : slotCompare compare a none = false := by
  cases a <;> rfl

/-- A true slot comparison reads two stored keys. -/
theorem slotCompare_eq_true {a b : Option α} (h : slotCompare compare a b = true) :
    ∃ x y, a = some x ∧ b = some y ∧ compare x y = true := by
  cases a <;> cases b <;> simp_all

variable [IsStrictWeakOrder α (fun x y => compare x y = true)]

theorem compare_irrefl (x : α) : compare x x = false := by
  simpa using irrefl (r := fun x y => compare x y = true) x

theorem compare_trans {x y z : α} (hxy : compare x y = true) (hyz : compare y z = true) :
    compare x z = true :=
  IsTrans.trans (r := fun x y => compare x y = true) x y z hxy hyz

theorem compare_asymm {x y : α} (h : compare x y = true) : compare y x = false := by
  cases hyx : compare y x
  · rfl
  · have := compare_trans compare h hyx
    rw [compare_irrefl compare] at this
    exact absurd this (by simp)

/-- Not comparing below is transitive: the strict weak order's incomparability is. -/
theorem compare_false_trans {x y z : α} (hxy : compare x y = false) (hyz : compare y z = false) :
    compare x z = false := by
  cases hxz : compare x z
  · rfl
  · cases hyx : compare y x
    · cases hzy : compare z y
      · have := (@IsStrictWeakOrder.incomp_trans α (fun x y => compare x y = true) _ x y z
          ⟨by simp [hxy], by simp [hyx]⟩ ⟨by simp [hyz], by simp [hzy]⟩).1
        simp [hxz] at this
      · have := compare_trans compare hxz hzy
        rw [hxy] at this
        exact absurd this (by simp)
    · have := compare_trans compare hyx hxz
      rw [hyz] at this
      exact absurd this (by simp)

theorem slotCompare_asymm {a b : Option α} (h : slotCompare compare a b = true) :
    slotCompare compare b a = false := by
  obtain ⟨x, y, rfl, rfl, hxy⟩ := slotCompare_eq_true compare h
  exact compare_asymm compare hxy

theorem slotCompare_trans {a b c : Option α} (hab : slotCompare compare a b = true)
    (hbc : slotCompare compare b c = true) : slotCompare compare a c = true := by
  obtain ⟨x, y, rfl, rfl, hxy⟩ := slotCompare_eq_true compare hab
  obtain ⟨_, z, hy, rfl, hyz⟩ := slotCompare_eq_true compare hbc
  cases hy
  exact compare_trans compare hxy hyz

/-- Not comparing below passes through a middle slot that holds a key. -/
theorem slotCompare_false_trans {a c : Option α} {y : α} (hab : slotCompare compare a (some y) = false)
    (hbc : slotCompare compare (some y) c = false) : slotCompare compare a c = false := by
  cases a <;> cases c <;> simp only [slotCompare_some, slotCompare_none_left,
    slotCompare_none_right] at *
  exact compare_false_trans compare hab hbc

theorem slotCompare_self (a : Option α) : slotCompare compare a a = false := by
  cases a
  · rfl
  · exact compare_irrefl compare _

/-- A slot that `a` compares below compares below nothing that `a` does not. -/
theorem slotCompare_false_of_true {a b c : Option α} (hab : slotCompare compare a b = true)
    (hac : slotCompare compare a c = false) : slotCompare compare b c = false := by
  cases hbc : slotCompare compare b c
  · rfl
  · rw [slotCompare_trans compare hab hbc] at hac
    exact absurd hac (by simp)

end Order

/-- `x < y` on naturals, the comparator of the source's test clients, is a strict weak order. -/
theorem natLt_isStrictWeakOrder : IsStrictWeakOrder ℕ (fun x y => decide (x < y) = true) := by
  simpa using (inferInstance : IsStrictWeakOrder ℕ (· < ·))

/-! ## The loops -/

section Loops

variable {σ : Type} (comp : σ → Nat → Nat → Bool) (swap : σ → Nat → Nat → σ)

/-- `_swim(k)`: `while k > 1 and comp(k // 2, k): swap(k // 2, k); k = k // 2`.
The loop runs at most `k` times, the fuel `swim` gives it. -/
def swimLoop : Nat → σ → Nat → σ
  | 0, s, _ => s
  | fuel + 1, s, k =>
    if 1 < k ∧ comp s (k / 2) k = true then swimLoop fuel (swap s (k / 2) k) (k / 2) else s

def swim (s : σ) (k : Nat) : σ := swimLoop comp swap k s k

/-- The child `_sink` descends to: `j = 2 * k`, then `j += 1` if `j < count and comp(j, j + 1)`. -/
def sinkChild (n : Nat) (s : σ) (k : Nat) : Nat :=
  if 2 * k < n ∧ comp s (2 * k) (2 * k + 1) = true then 2 * k + 1 else 2 * k

/-- `_sink(k)` over `count = n` keys: `while 2 * k <= count`, break if `comp(j, k)`, else
`swap(j, k); k = j`. From `k ≥ 1` the loop runs fewer than `n + 1` times, the fuel `sink`
gives it. -/
def sinkLoop (n : Nat) : Nat → σ → Nat → σ
  | 0, s, _ => s
  | fuel + 1, s, k =>
    if 2 * k ≤ n then
      if comp s (sinkChild comp n s k) k = true then s
      else sinkLoop n fuel (swap s (sinkChild comp n s k) k) (sinkChild comp n s k)
    else s

def sink (n : Nat) (s : σ) (k : Nat) : σ := sinkLoop comp swap n n s k

theorem sinkChild_bounds (n : Nat) (s : σ) (k : Nat) (hk : 2 * k ≤ n) :
    2 * k ≤ sinkChild comp n s k ∧ sinkChild comp n s k ≤ 2 * k + 1 ∧ sinkChild comp n s k ≤ n := by
  unfold sinkChild; split <;> omega

/-- Whatever every swap of two slots of `1..n` keeps, `swim` from a slot of `1..n` keeps. -/
theorem swimLoop_preserves (n : Nat) (P : σ → Prop)
    (hP : ∀ s a b, P s → 1 ≤ a → a ≤ n → 1 ≤ b → b ≤ n → P (swap s a b)) :
    ∀ fuel s k, P s → k ≤ n → P (swimLoop comp swap fuel s k) := by
  intro fuel
  induction fuel with
  | zero => intro s k hs _; exact hs
  | succ fuel ih =>
    intro s k hs hk
    simp only [swimLoop]
    split
    · exact ih _ _ (hP s _ _ hs (by omega) (by omega) (by omega) hk) (by omega)
    · exact hs

theorem swim_preserves (n : Nat) (P : σ → Prop)
    (hP : ∀ s a b, P s → 1 ≤ a → a ≤ n → 1 ≤ b → b ≤ n → P (swap s a b))
    (s : σ) (k : Nat) (hs : P s) (hk : k ≤ n) : P (swim comp swap s k) :=
  swimLoop_preserves comp swap n P hP k s k hs hk

/-- Whatever every swap of two slots of `1..n` keeps, `sink` from a slot `k ≥ 1` keeps. -/
theorem sinkLoop_preserves (n : Nat) (P : σ → Prop)
    (hP : ∀ s a b, P s → 1 ≤ a → a ≤ n → 1 ≤ b → b ≤ n → P (swap s a b)) :
    ∀ fuel s k, P s → 1 ≤ k → P (sinkLoop comp swap n fuel s k) := by
  intro fuel
  induction fuel with
  | zero => intro s k hs _; exact hs
  | succ fuel ih =>
    intro s k hs hk
    simp only [sinkLoop]
    split
    · have hj := sinkChild_bounds comp n s k ‹_›
      split
      · exact hs
      · exact ih _ _ (hP s _ _ hs (by omega) hj.2.2 hk (by omega)) (by omega)
    · exact hs

theorem sink_preserves (n : Nat) (P : σ → Prop)
    (hP : ∀ s a b, P s → 1 ≤ a → a ≤ n → 1 ≤ b → b ≤ n → P (swap s a b))
    (s : σ) (k : Nat) (hs : P s) (hk : 1 ≤ k) : P (sink comp swap n s k) :=
  sinkLoop_preserves comp swap n P hP n s k hs hk

/-- `_sink` from a slot with no child in `1..n` does nothing. -/
theorem sink_of_leaf {n : Nat} (s : σ) {k : Nat} (h : n < 2 * k) : sink comp swap n s k = s := by
  cases n with
  | zero => rfl
  | succ n => simp only [sink, sinkLoop, if_neg (show ¬ 2 * k ≤ n + 1 by omega)]

/-- What every swap keeps, both loops keep, from any slot. -/
theorem swimLoop_preserves_all (P : σ → Prop) (hP : ∀ s a b, P s → P (swap s a b)) :
    ∀ fuel s k, P s → P (swimLoop comp swap fuel s k) := by
  intro fuel
  induction fuel with
  | zero => intro s k hs; exact hs
  | succ fuel ih =>
    intro s k hs
    simp only [swimLoop]
    split
    · exact ih _ _ (hP s _ _ hs)
    · exact hs

theorem sinkLoop_preserves_all (n : Nat) (P : σ → Prop) (hP : ∀ s a b, P s → P (swap s a b)) :
    ∀ fuel s k, P s → P (sinkLoop comp swap n fuel s k) := by
  intro fuel
  induction fuel with
  | zero => intro s k hs; exact hs
  | succ fuel ih =>
    intro s k hs
    simp only [sinkLoop]
    split
    · split
      · exact hs
      · exact ih _ _ (hP s _ _ hs)
    · exact hs

end Loops

/-! ## Heap order and the hole invariants -/

section Shape

variable {α : Type} (compare : α → α → Bool)

/-- Heap order on slots `1..n`: `not compare(pq[k // 2], pq[k])` for every `2 ≤ k ≤ n`. -/
def Ordered (v : Nat → Option α) (n : Nat) : Prop :=
  ∀ c, 2 ≤ c → c ≤ n → slotCompare compare (v (c / 2)) (v c) = false

/-- Every slot of `1..n` holds a key. -/
def Live (v : Nat → Option α) (n : Nat) : Prop :=
  ∀ k, 1 ≤ k → k ≤ n → ∃ x, v k = some x

/-- What `_swim` needs at hole `k`: heap order except between `k` and its parent, and the
parent of `k` in order with the children of `k`. -/
structure UpOrder (v : Nat → Option α) (n k : Nat) : Prop where
  except : ∀ c, 2 ≤ c → c ≤ n → c ≠ k → slotCompare compare (v (c / 2)) (v c) = false
  grand : 1 < k → ∀ c, c ≤ n → c / 2 = k → slotCompare compare (v (k / 2)) (v c) = false

/-- What `_sink` needs at hole `k`: heap order except between `k` and its children, and the
parent of `k` in order with the children of `k`. -/
structure DownOrder (v : Nat → Option α) (n k : Nat) : Prop where
  except : ∀ c, 2 ≤ c → c ≤ n → c / 2 ≠ k → slotCompare compare (v (c / 2)) (v c) = false
  grand : 1 < k → ∀ c, c ≤ n → c / 2 = k → slotCompare compare (v (k / 2)) (v c) = false

/-- What a key changed or moved into slot `k` leaves: heap order on every pair not touching `k`,
and the parent of `k` in order with the children of `k`. -/
structure HoleAt (v : Nat → Option α) (n k : Nat) : Prop where
  except : ∀ c, 2 ≤ c → c ≤ n → c ≠ k → c / 2 ≠ k →
    slotCompare compare (v (c / 2)) (v c) = false
  grand : 1 < k → ∀ c, c ≤ n → c / 2 = k → slotCompare compare (v (k / 2)) (v c) = false

variable {v : Nat → Option α} {n k : Nat}

/-- A hole whose parent is in order with it only needs to sink. -/
theorem HoleAt.down (h : HoleAt compare v n k)
    (hstop : k ≤ 1 ∨ slotCompare compare (v (k / 2)) (v k) = false) : DownOrder compare v n k :=
  ⟨fun c hc2 hcn hck => by
    by_cases hc : c = k
    · subst hc
      rcases hstop with h1 | h1
      · omega
      · exact h1
    · exact h.except c hc2 hcn hc hck, h.grand⟩

theorem swap_apply_bounds {n a b : Nat} (ha1 : 1 ≤ a) (han : a ≤ n) (hb1 : 1 ≤ b) (hbn : b ≤ n)
    {k : Nat} (hk1 : 1 ≤ k) (hkn : k ≤ n) : 1 ≤ Equiv.swap a b k ∧ Equiv.swap a b k ≤ n := by
  rw [Equiv.swap_apply_def]; split_ifs <;> omega

theorem Live.swap (hl : Live v n) {a b : Nat} (ha1 : 1 ≤ a) (han : a ≤ n) (hb1 : 1 ≤ b)
    (hbn : b ≤ n) : Live (fun m => v (Equiv.swap a b m)) n := fun _ hk1 hkn =>
  hl _ (swap_apply_bounds ha1 han hb1 hbn hk1 hkn).1 (swap_apply_bounds ha1 han hb1 hbn hk1 hkn).2

theorem Live.mono (hl : Live v n) {m : Nat} (hmn : m ≤ n) : Live v m :=
  fun k hk1 hkm => hl k hk1 (by omega)

theorem Ordered.mono (ho : Ordered compare v n) {m : Nat} (hmn : m ≤ n) : Ordered compare v m :=
  fun c hc2 hcm => ho c hc2 (by omega)

theorem Live.congr {w : Nat → Option α} (hl : Live v n) (h : ∀ k, 1 ≤ k → k ≤ n → v k = w k) :
    Live w n := fun k hk1 hkn => (h k hk1 hkn) ▸ hl k hk1 hkn

theorem Ordered.congr {w : Nat → Option α} (ho : Ordered compare v n)
    (h : ∀ k, 1 ≤ k → k ≤ n → v k = w k) : Ordered compare w n := fun c hc2 hcn => by
  rw [← h c (by omega) hcn, ← h (c / 2) (by omega) (by omega)]
  exact ho c hc2 hcn

/-- Giving slot `k` alone a new key leaves a hole at `k`. -/
theorem HoleAt.congr {w : Nat → Option α} (h : HoleAt compare v n k)
    (hvw : ∀ j, 1 ≤ j → j ≤ n → j ≠ k → v j = w j) : HoleAt compare w n k :=
  ⟨fun c hc2 hcn hck hpk => by
    rw [← hvw c (by omega) hcn hck, ← hvw (c / 2) (by omega) (by omega) hpk]
    exact h.except c hc2 hcn hck hpk,
   fun hk c hcn hck => by
    rw [← hvw c (by omega) hcn (by omega), ← hvw (k / 2) (by omega) (by omega) (by omega)]
    exact h.grand hk c hcn hck⟩

/-- `pop` moves the last key to the root and drops the last slot: only the root can be out of
order. -/
theorem Ordered.pop_down (ho : Ordered compare v n) :
    DownOrder compare (fun m => v (Equiv.swap 1 n m)) (n - 1) 1 :=
  ⟨fun c hc2 hcn hc1 => by
    rw [Equiv.swap_apply_of_ne_of_ne (by omega) (by omega),
      Equiv.swap_apply_of_ne_of_ne (by omega) (by omega)]
    exact ho c hc2 (by omega), fun h => absurd h (lt_irrefl 1)⟩

theorem Live.pop (hl : Live v n) (hn : 1 ≤ n) : Live (fun m => v (Equiv.swap 1 n m)) (n - 1) :=
  (hl.swap le_rfl hn hn le_rfl).mono (Nat.sub_le n 1)

/-- `_swim` stops at the root or below a parent that does not compare below it. -/
theorem UpOrder.finish (o : UpOrder compare v n k)
    (hstop : k ≤ 1 ∨ slotCompare compare (v (k / 2)) (v k) = false) : Ordered compare v n := by
  intro c hc2 hcn
  by_cases hck : c = k
  · subst hck
    rcases hstop with h | h
    · omega
    · exact h
  · exact o.except c hc2 hcn hck

/-- One iteration of `_sink`: swapping the hole with the child `j` it chose moves the hole
down, when `j` does not compare below the hole. -/
theorem DownOrder.move {j : Nat} (o : DownOrder compare v n k) (hj : j / 2 = k)
    (hjn : j ≤ n) (hchoice : ∀ c, c ≤ n → c / 2 = k → slotCompare compare (v j) (v c) = false)
    (hb : slotCompare compare (v j) (v k) = false) :
    DownOrder compare (fun m => v (Equiv.swap j k m)) n j := by
  have sw_j : Equiv.swap j k j = k := Equiv.swap_apply_left _ _
  have sw_k : Equiv.swap j k k = j := Equiv.swap_apply_right _ _
  have sw : ∀ m, m ≠ j → m ≠ k → Equiv.swap j k m = m :=
    fun m h1 h2 => Equiv.swap_apply_of_ne_of_ne h1 h2
  constructor
  · intro c hc2 hcn hcj
    by_cases hcj' : c = j
    · -- the swapped pair
      rw [hcj', hj, sw_k, sw_j]
      exact hb
    · by_cases hck : c = k
      · -- the hole's old slot, now holding the child's key
        rw [hck, sw _ (by omega) (by omega), sw_k]
        exact o.grand (by omega) j hjn hj
      · rw [sw c hcj' hck]
        by_cases hpk : c / 2 = k
        · -- the other child now sits under the chosen child's key
          rw [hpk, sw_k]
          exact hchoice c hcn hpk
        · rw [sw _ hcj hpk]
          exact o.except c hc2 hcn hpk
  · intro _ c hcn hcp
    rw [hj, sw_k, sw c (by omega) (by omega)]
    have h := o.except c (by omega) hcn (by omega)
    rwa [hcp] at h

/-- `_sink` ends at a slot with no child in `1..n`. -/
theorem DownOrder.finish_leaf (o : DownOrder compare v n k) (h : n < 2 * k) :
    Ordered compare v n :=
  fun c hc2 hcn => o.except c hc2 hcn (by omega)

variable [IsStrictWeakOrder α (fun x y => compare x y = true)]

/-- One iteration of `_swim`: swapping the hole with a parent it beats moves the hole up. -/
theorem UpOrder.move (o : UpOrder compare v n k) (hk : 2 ≤ k) (hkn : k ≤ n)
    (hb : slotCompare compare (v (k / 2)) (v k) = true) :
    UpOrder compare (fun m => v (Equiv.swap (k / 2) k m)) n (k / 2) := by
  have sw_p : Equiv.swap (k / 2) k (k / 2) = k := Equiv.swap_apply_left _ _
  have sw_k : Equiv.swap (k / 2) k k = k / 2 := Equiv.swap_apply_right _ _
  have sw : ∀ m, m ≠ k / 2 → m ≠ k → Equiv.swap (k / 2) k m = m :=
    fun m h1 h2 => Equiv.swap_apply_of_ne_of_ne h1 h2
  constructor
  · intro c hc2 hcn hcp
    by_cases hck : c = k
    · -- the swapped pair
      rw [hck, sw_p, sw_k]
      exact slotCompare_asymm compare hb
    · rw [sw c hcp hck]
      by_cases hpk : c / 2 = k
      · -- a child of the hole now sits under the old parent
        rw [hpk, sw_k]
        exact o.grand (by omega) c hcn hpk
      · by_cases hpp : c / 2 = k / 2
        · -- the sibling of the hole: the hole's key beats the old parent
          rw [hpp, sw_p]
          have h := o.except c hc2 hcn hck
          rw [hpp] at h
          exact slotCompare_false_of_true compare hb h
        · rw [sw _ hpp hpk]
          exact o.except c hc2 hcn hck
  · intro hp1 c hcn hcp
    rw [sw _ (by omega) (by omega)]
    have hG := o.except (k / 2) (by omega) (by omega) (by omega)
    by_cases hck : c = k
    · rw [hck, sw_k]
      exact hG
    · rw [sw c (by omega) hck]
      obtain ⟨y, -, hy, -⟩ := slotCompare_eq_true compare hb
      have hs := o.except c (by omega) hcn hck
      rw [hcp, hy] at hs
      rw [hy] at hG
      exact slotCompare_false_trans compare hG hs

/-- `_sink` breaks when the chosen child compares below the hole. -/
theorem DownOrder.finish {j : Nat} (o : DownOrder compare v n k)
    (hchoice : ∀ c, c ≤ n → c / 2 = k → slotCompare compare (v j) (v c) = false)
    (hb : slotCompare compare (v j) (v k) = true) : Ordered compare v n := by
  intro c hc2 hcn
  by_cases hpk : c / 2 = k
  · rw [hpk]
    exact slotCompare_false_of_true compare hb (hchoice c hcn hpk)
  · exact o.except c hc2 hcn hpk

/-- A hole that beats its parent beats the parent's other descendants too: it only needs to
swim. -/
theorem HoleAt.up (h : HoleAt compare v n k) (hk : 1 < k)
    (hb : slotCompare compare (v (k / 2)) (v k) = true) : UpOrder compare v n k :=
  ⟨fun c hc2 hcn hck => by
    by_cases hp : c / 2 = k
    · rw [hp]; exact slotCompare_false_of_true compare hb (h.grand hk c hcn hp)
    · exact h.except c hc2 hcn hck hp, h.grand⟩

/-- An ordered heap with no empty slot is a hole at any slot. -/
theorem Ordered.holeAt (ho : Ordered compare v n) (hl : Live v n) (k : Nat) :
    HoleAt compare v n k :=
  ⟨fun c hc2 hcn _ _ => ho c hc2 hcn, fun hk c hcn hck => by
    obtain ⟨y, hy⟩ := hl k (by omega) (by omega)
    have h1 := ho k hk (by omega)
    have h2 := ho c (by omega) hcn
    rw [hck, hy] at h2
    rw [hy] at h1
    exact slotCompare_false_trans compare h1 h2⟩

/-- `_sink` may start anywhere in an ordered heap with no empty slot. -/
theorem Ordered.down (ho : Ordered compare v n) (hl : Live v n) (k : Nat) :
    DownOrder compare v n k :=
  ⟨fun c hc2 hcn _ => ho c hc2 hcn, (ho.holeAt compare hl k).grand⟩

/-- In an ordered heap with no empty slot, no stored key beats slot 1. -/
theorem Ordered.top_not_below (ho : Ordered compare v n) (hl : Live v n) :
    ∀ m, 1 ≤ m → m ≤ n → slotCompare compare (v 1) (v m) = false := by
  intro m
  induction m using Nat.strong_induction_on with
  | _ m ih =>
    intro h1 hmn
    by_cases hm : m = 1
    · rw [hm]
      exact slotCompare_self compare _
    · obtain ⟨y, hy⟩ := hl (m / 2) (by omega) (by omega)
      have hup := ih (m / 2) (by omega) (by omega) (by omega)
      have hstep := ho m (by omega) hmn
      rw [hy] at hup hstep
      exact slotCompare_false_trans compare hup hstep

end Shape

/-! ## The loops restore heap order -/

section Repair

variable {α σ : Type} (compare : α → α → Bool)

/-- `view` reads the heap slots of a queue state whose `_comp` is `comp` and whose `_swap` is
`swap`. -/
structure Exposes (comp : σ → Nat → Nat → Bool) (swap : σ → Nat → Nat → σ)
    (view : σ → Nat → Option α) : Prop where
  comp_eq : ∀ s i j, comp s i j = slotCompare compare (view s i) (view s j)
  view_swap : ∀ s i j k, view (swap s i j) k = view s (Equiv.swap i j k)

variable {comp : σ → Nat → Nat → Bool} {swap : σ → Nat → Nat → σ} {view : σ → Nat → Option α}

theorem Exposes.view_swap_eq (hv : Exposes compare comp swap view) (s : σ) (a b : Nat) :
    view (swap s a b) = fun m => view s (Equiv.swap a b m) :=
  funext (hv.view_swap s a b)

theorem swim_live (hv : Exposes compare comp swap view) {n k : Nat} (s : σ) (hkn : k ≤ n)
    (hl : Live (view s) n) : Live (view (swim comp swap s k)) n :=
  swim_preserves comp swap n (fun t => Live (view t) n) (fun t _ _ ht ha1 han hb1 hbn => by
    dsimp only; rw [hv.view_swap_eq]; exact ht.swap ha1 han hb1 hbn) s k hl hkn

theorem sink_live (hv : Exposes compare comp swap view) {n k : Nat} (s : σ) (h1 : 1 ≤ k)
    (hl : Live (view s) n) : Live (view (sink comp swap n s k)) n :=
  sink_preserves comp swap n (fun t => Live (view t) n) (fun t _ _ ht ha1 han hb1 hbn => by
    dsimp only; rw [hv.view_swap_eq]; exact ht.swap ha1 han hb1 hbn) s k hl h1

variable [IsStrictWeakOrder α (fun x y => compare x y = true)]

theorem swimLoop_ordered (hv : Exposes compare comp swap view) (n : Nat) :
    ∀ fuel s k, k ≤ fuel → 1 ≤ k → k ≤ n → UpOrder compare (view s) n k →
      Ordered compare (view (swimLoop comp swap fuel s k)) n := by
  intro fuel
  induction fuel with
  | zero => intro s k hk h1; omega
  | succ fuel ih =>
    intro s k hk h1 hkn o
    simp only [swimLoop]
    split
    · rename_i hc
      apply ih _ _ (by omega) (by omega) (by omega)
      have hview : view (swap s (k / 2) k) = fun m => view s (Equiv.swap (k / 2) k m) :=
        funext (hv.view_swap s _ _)
      rw [hview]
      exact o.move compare hc.1 hkn (by rw [← hv.comp_eq]; exact hc.2)
    · rename_i hc
      apply o.finish compare
      rw [← hv.comp_eq]
      by_cases h : 1 < k
      · exact .inr (by simpa [h] using hc)
      · exact .inl (by omega)

/-- `_swim` from a hole in `1..n` restores heap order. -/
theorem swim_ordered (hv : Exposes compare comp swap view) {n k : Nat} (s : σ) (h1 : 1 ≤ k)
    (hkn : k ≤ n) (o : UpOrder compare (view s) n k) :
    Ordered compare (view (swim comp swap s k)) n :=
  swimLoop_ordered compare hv n k s k le_rfl h1 hkn o

/-- The child `_sink` chooses does not compare below either child. -/
theorem sinkChild_not_below (hv : Exposes compare comp swap view) (n : Nat) (s : σ) (k : Nat) :
    ∀ c, c ≤ n → c / 2 = k →
      slotCompare compare (view s (sinkChild comp n s k)) (view s c) = false := by
  intro c hcn hck
  unfold sinkChild
  split
  · rename_i h
    rw [hv.comp_eq] at h
    by_cases hc : c = 2 * k + 1
    · rw [hc]; exact slotCompare_self compare _
    · rw [show c = 2 * k by omega]; exact slotCompare_asymm compare h.2
  · rename_i h
    by_cases hc : c = 2 * k
    · rw [hc]; exact slotCompare_self compare _
    · rw [show c = 2 * k + 1 by omega]
      rw [hv.comp_eq] at h
      simpa [show 2 * k < n by omega] using h

theorem sinkLoop_ordered (hv : Exposes compare comp swap view) (n : Nat) :
    ∀ fuel s k, n < k + fuel → 1 ≤ k → DownOrder compare (view s) n k →
      Ordered compare (view (sinkLoop comp swap n fuel s k)) n := by
  intro fuel
  induction fuel with
  | zero => intro s k hk _ o; exact o.finish_leaf compare (by omega)
  | succ fuel ih =>
    intro s k hk h1 o
    simp only [sinkLoop]
    split
    · rename_i h2k
      have hj := sinkChild_bounds comp n s k h2k
      have hchoice := sinkChild_not_below compare hv n s k
      split
      · rename_i hb
        rw [hv.comp_eq] at hb
        exact o.finish compare hchoice hb
      · rename_i hb
        rw [hv.comp_eq] at hb
        apply ih _ _ (by omega) (by omega)
        have hview : view (swap s (sinkChild comp n s k) k) =
            fun m => view s (Equiv.swap (sinkChild comp n s k) k m) :=
          funext (hv.view_swap s _ _)
        rw [hview]
        exact o.move compare (by omega) hj.2.2 hchoice (by simpa using hb)
    · exact o.finish_leaf compare (by omega)

/-- `_sink` from a hole `k ≥ 1` restores heap order. -/
theorem sink_ordered (hv : Exposes compare comp swap view) {n k : Nat} (s : σ) (h1 : 1 ≤ k)
    (o : DownOrder compare (view s) n k) : Ordered compare (view (sink comp swap n s k)) n :=
  sinkLoop_ordered compare hv n n s k (by omega) h1 o

/-- `_swim` that does not move leaves the state as it was. -/
theorem swim_of_stop (s : σ) {k : Nat} (h : ¬ (1 < k ∧ comp s (k / 2) k = true)) :
    swim comp swap s k = s := by
  cases k with
  | zero => rfl
  | succ k => simp only [swim, swimLoop, if_neg h]

/-- `change` and `delete` repair a hole with `_swim` then `_sink`: either the swim moves and
leaves an ordered heap, which the sink keeps from any slot, or it does not move and the sink
starts at the hole. -/
theorem swim_sink_ordered (hv : Exposes compare comp swap view) {n k : Nat} (s : σ) (h1 : 1 ≤ k)
    (hkn : k ≤ n) (hole : HoleAt compare (view s) n k) (hl : Live (view s) n) {p : Nat}
    (hp1 : 1 ≤ p) (hp : swim comp swap s k = s → p = k) :
    Ordered compare (view (sink comp swap n (swim comp swap s k) p)) n := by
  by_cases hm : 1 < k ∧ comp s (k / 2) k = true
  · have hup := hole.up compare hm.1 (by rw [← hv.comp_eq]; exact hm.2)
    have ho := swim_ordered compare hv s h1 hkn hup
    exact sink_ordered compare hv _ hp1 (ho.down compare (swim_live compare hv s hkn hl) p)
  · rw [swim_of_stop s hm, hp (swim_of_stop s hm)]
    refine sink_ordered compare hv s h1 (hole.down compare ?_)
    by_cases hk : 1 < k
    · exact .inr (by rw [← hv.comp_eq]; simpa [hk] using hm)
    · exact .inl (by omega)

end Repair

/-! ## The stored keys -/

section Contents

variable {α : Type}

/-- The multiset of keys stored in slots `1..n`. -/
def contents (v : Nat → Option α) (n : Nat) : Multiset α :=
  (Finset.Icc 1 n).val.filterMap v

theorem contents_congr {v w : Nat → Option α} {n : Nat} (h : ∀ k, 1 ≤ k → k ≤ n → v k = w k) :
    contents v n = contents w n := by
  unfold contents
  have key : ∀ s : Multiset Nat, (∀ k ∈ s, v k = w k) → s.filterMap v = s.filterMap w := by
    intro s
    induction s using Multiset.induction_on with
    | empty => intro _; rfl
    | cons a s ih =>
      intro hs
      have ha := hs a (Multiset.mem_cons_self a s)
      have hrest := ih (fun k hk => hs k (Multiset.mem_cons_of_mem hk))
      cases hva : v a with
      | none =>
        rw [Multiset.filterMap_cons_none _ _ hva, Multiset.filterMap_cons_none _ _ (ha ▸ hva), hrest]
      | some x =>
        rw [Multiset.filterMap_cons_some _ _ _ hva, Multiset.filterMap_cons_some _ _ _ (ha ▸ hva),
          hrest]
  exact key _ fun k hk => by
    have := Finset.mem_Icc.mp hk
    exact h k this.1 this.2

/-- Swapping two slots of `1..n` permutes the stored keys. -/
theorem contents_swap (v : Nat → Option α) {n a b : Nat} (ha1 : 1 ≤ a) (han : a ≤ n) (hb1 : 1 ≤ b)
    (hbn : b ≤ n) : contents (fun m => v (Equiv.swap a b m)) n = contents v n := by
  unfold contents
  have hperm : (Finset.Icc 1 n).map (Equiv.swap a b).toEmbedding = Finset.Icc 1 n := by
    apply Finset.map_perm
    intro x hx
    rcases (Equiv.swap_apply_ne_self_iff.mp hx).2 with rfl | rfl <;> simp [*]
  have := congrArg (fun s : Finset Nat => s.val.filterMap v) hperm
  simp only [Finset.map_val, Multiset.filterMap_map] at this
  exact this

/-- A key written to slot `n + 1` joins the keys of `1..n`. -/
theorem contents_succ {v : Nat → Option α} {n : Nat} {x : α} (hx : v (n + 1) = some x) :
    contents v (n + 1) = x ::ₘ contents v n := by
  unfold contents
  rw [← Nat.Icc_insert_succ_right (by omega), Finset.insert_val_of_not_mem (by simp),
    Multiset.filterMap_cons_some _ _ _ hx]

theorem mem_contents {v : Nat → Option α} {n : Nat} {x : α} :
    x ∈ contents v n ↔ ∃ k, 1 ≤ k ∧ k ≤ n ∧ v k = some x := by
  simp [contents, Multiset.mem_filterMap, and_assoc]

variable {σ : Type} (compare : α → α → Bool) {comp : σ → Nat → Nat → Bool}
  {swap : σ → Nat → Nat → σ} {view : σ → Nat → Option α}

theorem swim_contents (hv : Exposes compare comp swap view) {n k : Nat} (s : σ) (hkn : k ≤ n) :
    contents (view (swim comp swap s k)) n = contents (view s) n :=
  swim_preserves comp swap n (fun t => contents (view t) n = contents (view s) n)
    (fun t _ _ ht ha1 han hb1 hbn => by
      dsimp only; rw [hv.view_swap_eq, contents_swap _ ha1 han hb1 hbn, ht])
    s k rfl hkn

theorem sink_contents (hv : Exposes compare comp swap view) {n k : Nat} (s : σ) (h1 : 1 ≤ k) :
    contents (view (sink comp swap n s k)) n = contents (view s) n :=
  sink_preserves comp swap n (fun t => contents (view t) n = contents (view s) n)
    (fun t _ _ ht ha1 han hb1 hbn => by
      dsimp only; rw [hv.view_swap_eq, contents_swap _ ha1 han hb1 hbn, ht])
    s k rfl h1

end Contents

end GraphAlgo.Heap
