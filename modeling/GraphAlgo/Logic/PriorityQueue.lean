import GraphAlgo.Ds.PriorityQueue

/-!
# `PriorityQueue` refines a multiset priority queue

`WF` is what every reachable queue satisfies: `count < capacity ≤ len(pq)`, and slots
`1..count` hold keys in heap order. One spec lemma per operation (`push_spec`, `pop_spec`,
`clear_wf`) says that the operation succeeds on a `WF` queue, keeps `WF`, and acts on the stored
keys as the abstract multiset queue `MultisetStep` does, `pop` removing the key `top()` read.
`run_refines` chains them over any client run, and `priorityQueue_refines_multiset` starts it
from `__init__`.

`Bounds`, the size part of `WF`, needs nothing of the comparator: `push_eq` and `pop_eq` say
once what the grow and shrink steps do to `count`, `capacity` and `len(pq)`, and
`priorityQueue_bounds` carries `Bounds` over every run whatever the comparator.
-/

namespace GraphAlgo.PriorityQueue

variable {α : Type} (compare : α → α → Bool)

/-- The keys stored in slots `1..count`. -/
def contents (s : PriorityQueue α) : Multiset α := Heap.contents s.pq s.count

/-- What every reachable queue satisfies. -/
structure WF (s : PriorityQueue α) : Prop where
  capacity_pos : 0 < s.capacity
  count_lt : s.count < s.capacity
  capacity_le : s.capacity ≤ s.length
  live : Heap.Live s.pq s.count
  ordered : Heap.Ordered compare s.pq s.count

/-! ## The abstract priority queue -/

/-- One call on the abstract queue, a multiset of keys: `pop` hands out a stored key that no
stored key beats, and removes one copy of it. -/
inductive MultisetStep : Multiset α → Op α → Option α → Multiset α → Prop
  | push (m : Multiset α) (key : α) : MultisetStep m (.push key) none (key ::ₘ m)
  | pop (m : Multiset α) (t : α) : (∀ x ∈ t ::ₘ m, compare t x = false) →
      MultisetStep (t ::ₘ m) .pop (some t) m
  | clear (m : Multiset α) : MultisetStep m .clear none 0

/-- A sequence of abstract calls, with the keys its `pop`s hand out. -/
inductive MultisetRun : Multiset α → List (Op α) → List (Option α) → Multiset α → Prop
  | nil (m : Multiset α) : MultisetRun m [] [] m
  | cons {m m' m'' : Multiset α} {op : Op α} {o : Option α} {ops : List (Op α)}
      {os : List (Option α)} :
      MultisetStep compare m op o m' → MultisetRun m' ops os m'' →
      MultisetRun m (op :: ops) (o :: os) m''

/-- Calls whose every `pop` finds a non-empty queue, starting from `n` stored keys. -/
def PopsValid : Nat → List (Op α) → Prop
  | _, [] => True
  | n, .push _ :: ops => PopsValid (n + 1) ops
  | n, .pop :: ops => 0 < n ∧ PopsValid (n - 1) ops
  | _, .clear :: ops => PopsValid 0 ops

/-- The count after one call: `push` adds a key, `pop` removes one, `clear` empties. -/
def countAfter (n : Nat) : Op α → Nat
  | .push _ => n + 1
  | .pop => n - 1
  | .clear => 0

/-- The calls left after one call keep their `pop`s on a non-empty queue. -/
theorem PopsValid.tail {n : Nat} {op : Op α} {ops : List (Op α)} (hv : PopsValid n (op :: ops)) :
    PopsValid (countAfter n op) ops := by
  cases op <;> simp only [PopsValid, countAfter] at hv ⊢
  all_goals first | exact hv | exact hv.2

theorem popsValid_replicate {k n : Nat} (h : k ≤ n) :
    PopsValid n (List.replicate k (.pop : Op α)) := by
  induction k generalizing n with
  | zero => trivial
  | succ k ih => exact ⟨by omega, ih (by omega)⟩

/-- The keys a run of `pop`s hands out are stored keys. -/
theorem MultisetRun.pops_mem {m m' : Multiset α} {outs : List (Option α)} :
    ∀ {k : Nat}, MultisetRun compare m (List.replicate k .pop) outs m' →
      ∀ o ∈ outs, ∃ x, o = some x ∧ x ∈ m := by
  intro k
  induction k generalizing m outs with
  | zero => intro h; cases h; simp
  | succ k ih =>
    intro h o ho
    cases h with
    | cons hstep hrest =>
      cases hstep with
      | pop _ t _ =>
        rcases List.mem_cons.mp ho with rfl | ho
        · exact ⟨t, rfl, Multiset.mem_cons_self t _⟩
        · obtain ⟨x, rfl, hx⟩ := ih hrest o ho
          exact ⟨x, rfl, Multiset.mem_cons_of_mem hx⟩

/-- Successive `pop`s of the abstract queue hand out keys in non-increasing order: no key
handed out compares below one handed out later. -/
theorem MultisetRun.pops_sorted {m m' : Multiset α} {outs : List (Option α)} :
    ∀ {k : Nat}, MultisetRun compare m (List.replicate k .pop) outs m' →
      outs.Pairwise fun a b => ∀ x y, a = some x → b = some y → compare x y = false := by
  intro k
  induction k generalizing m outs with
  | zero => intro h; cases h; simp
  | succ k ih =>
    intro h
    cases h with
    | cons hstep hrest =>
      cases hstep with
      | pop _ t hmax =>
        refine List.pairwise_cons.mpr ⟨fun o ho x y hx hy => ?_, ih hrest⟩
        obtain ⟨z, rfl, hz⟩ := hrest.pops_mem compare o ho
        cases hx
        cases hy
        exact hmax y (Multiset.mem_cons_of_mem hz)

/-! ## The operations -/

theorem init_ok {C : Nat} (hC : 0 < C) : init C = .ok (⟨C, 0, fun _ => none, C + 1⟩ : PriorityQueue α) := by
  simp [init, hC]

theorem init_wf (C : Nat) (hC : 0 < C) : WF compare (⟨C, 0, fun _ => none, C + 1⟩ : PriorityQueue α) :=
  ⟨hC, hC, by simp, fun _ _ h => by simp at h; omega, fun _ _ h => by simp at h; omega⟩

@[simp] theorem clear_count (s : PriorityQueue α) : s.clear.count = 0 := rfl

@[simp] theorem contents_clear (s : PriorityQueue α) : contents s.clear = 0 := by
  simp [contents, clear, Heap.contents]

theorem clear_wf {s : PriorityQueue α} (hs : WF compare s) : WF compare s.clear :=
  ⟨hs.capacity_pos, hs.capacity_pos, by simp [clear], fun _ _ h => by simp at h; omega,
    fun _ _ h => by simp at h; omega⟩

/-- `_resize` to a capacity above `count` keeps slots `1..count`. -/
theorem resize_spec {s : PriorityQueue α} {c : Nat} (h : s.count < c) :
    ∃ r, s.resize c = .ok r ∧ r.count = s.count ∧ r.capacity = c ∧ r.length = c ∧
      ∀ k, 1 ≤ k → k ≤ s.count → r.pq k = s.pq k :=
  ⟨⟨c, s.count, fun i => if 1 ≤ i ∧ i ≤ s.count then s.pq i else none, c⟩,
    by simp [resize, show ¬ c ≤ s.count by omega], rfl, rfl, rfl,
    fun k hk1 hkn => by simp [hk1, hkn]⟩

/-- The size part of `WF`, which holds whatever the comparator: `count < capacity`, that is
`count ≤ capacity - 1`, and `capacity ≤ len(pq)`. -/
structure Bounds (s : PriorityQueue α) : Prop where
  capacity_pos : 0 < s.capacity
  count_lt : s.count < s.capacity
  capacity_le : s.capacity ≤ s.length

theorem WF.bounds {s : PriorityQueue α} (hs : WF compare s) : Bounds s :=
  ⟨hs.capacity_pos, hs.count_lt, hs.capacity_le⟩

theorem clear_bounds {s : PriorityQueue α} (hb : Bounds s) : Bounds s.clear :=
  ⟨hb.capacity_pos, hb.capacity_pos, by simp [clear]⟩

/-- `push(key)` within `Bounds`: the grow step (a doubling when `count == capacity - 1`) keeps
slots `1..count` and leaves room, and `key` is written in slot `count + 1` and swum up. -/
theorem push_eq {s : PriorityQueue α} (hb : Bounds s) (key : α) :
    ∃ r : PriorityQueue α, s.push compare key = .ok (swim compare
        { r with count := r.count + 1, pq := Function.update r.pq (r.count + 1) (some key) }
        (r.count + 1)) ∧
      r.count = s.count ∧ r.count + 1 < r.capacity ∧ r.capacity ≤ r.length ∧
      ∀ k, 1 ≤ k → k ≤ s.count → r.pq k = s.pq k := by
  have := hb.count_lt
  obtain ⟨r, hr, hrc, hrcap, hrlen, hrpq⟩ : ∃ r, (if s.count = s.capacity - 1 then
      s.resize (2 * s.capacity) else pure s) = .ok r ∧ r.count = s.count ∧
      r.count + 1 < r.capacity ∧ r.capacity ≤ r.length ∧
      ∀ k, 1 ≤ k → k ≤ s.count → r.pq k = s.pq k := by
    split
    · obtain ⟨r, hr, hc, hcap, hlen, hpq⟩ := resize_spec (s := s) (c := 2 * s.capacity) (by omega)
      exact ⟨r, hr, hc, by omega, by omega, hpq⟩
    · exact ⟨s, rfl, rfl, by omega, hb.capacity_le, fun _ _ _ => rfl⟩
  refine ⟨r, ?_, hrc, hrcap, hrlen, hrpq⟩
  rw [push, hr]
  simp only [bind, Except.bind, if_pos (show r.count + 1 < r.length by omega)]
  rfl

theorem push_bounds {s : PriorityQueue α} (hb : Bounds s) (key : α) :
    ∃ s', s.push compare key = .ok s' ∧ Bounds s' ∧ s'.count = s.count + 1 := by
  obtain ⟨r, h, hrc, hrcap, hrlen, -⟩ := push_eq compare hb key
  obtain ⟨hfc, hfcap, hflen⟩ := swim_fields compare
    { r with count := r.count + 1, pq := Function.update r.pq (r.count + 1) (some key) } (r.count + 1)
  dsimp only at hfc hfcap hflen
  exact ⟨_, h, ⟨by omega, by omega, by omega⟩, by omega⟩

/-- `pop()` on a non-empty queue within `Bounds`: the sunk queue, halved when it is a quarter
full (`count == (capacity - 1) // 4`), within `Bounds` either way and with the sunk queue's keys
in slots `1..count`. -/
theorem pop_eq {s : PriorityQueue α} (hb : Bounds s) (hne : 0 < s.count) :
    ∃ s', s.pop compare = .ok s' ∧ Bounds s' ∧ s'.count = s.count - 1 ∧
      ∀ k, 1 ≤ k → k ≤ s'.count →
        (sink compare { s.swap 1 s.count with count := s.count - 1 } 1).pq k = s'.pq k := by
  set w := sink compare { s.swap 1 s.count with count := s.count - 1 } 1
  have hwc : w.count = s.count - 1 := (sink_fields compare _ 1).1
  have hwcap : w.capacity = s.capacity := (sink_fields compare _ 1).2.1
  have hwlen : w.length = s.length := (sink_fields compare _ 1).2.2
  obtain ⟨hpos, hlt, hle⟩ := hb
  have hbw : Bounds w := ⟨hwcap ▸ hpos, by omega, hwcap ▸ hwlen ▸ hle⟩
  have hpop : s.pop compare =
      if 0 < w.count ∧ w.count = (w.capacity - 1) / 4 then w.resize (w.capacity / 2) else .ok w := by
    rw [pop, if_neg (Nat.pos_iff_ne_zero.mp hne)]
  by_cases hshrink : 0 < w.count ∧ w.count = (w.capacity - 1) / 4
  · -- the shrink: a quarter-full queue halves its list, which still has room
    have hhalf : w.count < w.capacity / 2 := by omega
    obtain ⟨r, hr, hrc, hrcap, hrlen, hrpq⟩ := resize_spec (s := w) hhalf
    have hbr : Bounds r := ⟨by rw [hrcap]; exact Nat.zero_lt_of_lt hhalf,
      by rw [hrc, hrcap]; exact hhalf, by rw [hrcap, hrlen]⟩
    exact ⟨r, by rw [hpop, if_pos hshrink, hr], hbr, hrc.trans hwc,
      fun k hk1 hkn => (hrpq k hk1 (hrc ▸ hkn)).symm⟩
  · exact ⟨w, by rw [hpop, if_neg hshrink], hbw, hwc, fun _ _ _ => rfl⟩

/-- One client call within `Bounds` (a `pop` on a non-empty queue) succeeds and keeps `Bounds`,
whatever the comparator. -/
theorem exec_bounds {s : PriorityQueue α} (hb : Bounds s) (op : Op α)
    (hop : op = .pop → 0 < s.count) :
    ∃ s' o, s.exec compare op = .ok (s', o) ∧ Bounds s' ∧
      s'.count = countAfter s.count op := by
  cases op with
  | push key =>
    obtain ⟨s', h, hb', hc⟩ := push_bounds compare hb key
    exact ⟨s', none, by simp [exec, h, Except.map], hb', hc⟩
  | pop =>
    have hne := hop rfl
    obtain ⟨s', h, hb', hc, -⟩ := pop_eq compare hb hne
    exact ⟨s', s.pq 1, by simp [exec, top, h, show s.count ≠ 0 by omega, bind, Except.bind,
      Except.map], hb', hc⟩
  | clear => exact ⟨s.clear, none, rfl, clear_bounds hb, rfl⟩

theorem run_bounds : ∀ (ops : List (Op α)) (s : PriorityQueue α), Bounds s →
    PopsValid s.count ops → ∃ s' outs, s.run compare ops = .ok (s', outs) ∧ Bounds s' := by
  intro ops
  induction ops with
  | nil => intro s hb _; exact ⟨s, [], rfl, hb⟩
  | cons op ops ih =>
    intro s hb hv
    obtain ⟨s₁, o, hexec, hb₁, hc₁⟩ := exec_bounds compare hb op (by rintro rfl; exact hv.1)
    obtain ⟨s', outs, hrun, hb'⟩ := ih s₁ hb₁ (hc₁ ▸ hv.tail)
    exact ⟨s', o :: outs, by simp [run, hexec, hrun, bind, Except.bind, Except.map], hb'⟩

/-- **The queue never writes past its list.** From `__init__(C)` with `C ≥ 1`, whatever the
comparator, every sequence of `push`, `pop` on a non-empty queue and `clear` runs without error,
across any mix of doublings and halvings, and every state it reaches has
`count ≤ capacity - 1` and `len(pq) ≥ capacity`. -/
theorem priorityQueue_bounds {C : Nat} (hC : 0 < C) (ops : List (Op α))
    (hops : PopsValid 0 ops) :
    ∃ q s outs, init C = .ok q ∧ q.run compare ops = .ok (s, outs) ∧
      s.count ≤ s.capacity - 1 ∧ s.capacity ≤ s.length := by
  obtain ⟨s, outs, hrun, hb⟩ := run_bounds compare ops _ (init_wf compare C hC).bounds hops
  exact ⟨_, s, outs, init_ok hC, hrun, by have := hb.count_lt; omega, hb.capacity_le⟩

/-- Capacity `1` doubled to `8`, halved back to `4` when one key is left, then cleared. -/
theorem priorityQueue_bounds_grow_shrink :
    0 < 1 ∧ PopsValid 0 [Op.push 1, .push 2, .push 3, .push 4, .pop, .pop, .pop, .clear, .push 5] ∧
    ∃ q s outs, init 1 = .ok q ∧
      q.run (fun x y => decide (x < y))
        [Op.push 1, .push 2, .push 3, .push 4, .pop, .pop, .pop, .clear, .push 5] = .ok (s, outs) ∧
      s.count ≤ s.capacity - 1 ∧ s.capacity ≤ s.length :=
  ⟨by decide, by simp [PopsValid],
    priorityQueue_bounds _ (by decide) _ (by simp [PopsValid])⟩

variable [IsStrictWeakOrder α (fun x y => compare x y = true)]

/-- `push(key)` succeeds on a `WF` queue and adds `key` to the stored keys. -/
theorem push_spec {s : PriorityQueue α} (hs : WF compare s) (key : α) :
    ∃ s', s.push compare key = .ok s' ∧ WF compare s' ∧ s'.count = s.count + 1 ∧
      contents s' = key ::ₘ contents s := by
  obtain ⟨r, hpush, hrc, hrcap, hrlen, hrpq⟩ := push_eq compare hs.bounds key
  let t : PriorityQueue α :=
    { r with count := r.count + 1, pq := Function.update r.pq (r.count + 1) (some key) }
  have htc : t.count = s.count + 1 := by rw [← hrc]
  have ht : ∀ k, 1 ≤ k → k ≤ s.count → t.pq k = s.pq k := fun k hk1 hkn => by
    simp [t, show k ≠ r.count + 1 by omega, hrpq k hk1 hkn]
  have hup : Heap.UpOrder compare t.pq t.count t.count :=
    ⟨fun c hc2 hcn hck => by
      rw [ht c (by omega) (by omega), ht (c / 2) (by omega) (by omega)]
      exact hs.ordered c hc2 (by omega),
     fun _ c hcn hcp => by omega⟩
  have hlive : Heap.Live t.pq t.count := fun k hk1 hkn => by
    by_cases hk : k = t.count
    · exact ⟨key, by rw [hk]; exact Function.update_same _ _ _⟩
    · rw [ht k hk1 (by omega)]
      exact hs.live k hk1 (by omega)
  obtain ⟨hfc, hfcap, hflen⟩ := swim_fields compare t t.count
  refine ⟨swim compare t t.count, hpush, ⟨?_, ?_, ?_, ?_, ?_⟩, ?_, ?_⟩
  · rw [hfcap]; show 0 < r.capacity; omega
  · rw [hfc, hfcap]; show r.count + 1 < r.capacity; omega
  · rw [hfcap, hflen]; exact hrlen
  · rw [hfc]; exact Heap.swim_live compare (exposes compare) t le_rfl hlive
  · rw [hfc]; exact Heap.swim_ordered compare (exposes compare) t (by omega) le_rfl hup
  · rw [hfc, htc]
  · unfold contents
    rw [hfc]
    unfold swim
    rw [Heap.swim_contents compare (exposes compare) t le_rfl, htc,
      Heap.contents_succ (v := t.pq) (x := key) (by rw [← hrc]; exact Function.update_same _ _ _)]
    exact congrArg _ (Heap.contents_congr ht)

/-- The state `pop` builds before its shrink check: slot 1 swapped to `count`, `count`
decremented, slot 1 sunk. -/
theorem pop_sunk {s : PriorityQueue α} (hs : WF compare s) (hne : 0 < s.count) {t : α}
    (ht : s.pq 1 = some t) :
    let w := sink compare { s.swap 1 s.count with count := s.count - 1 } 1
    w.count = s.count - 1 ∧ w.capacity = s.capacity ∧ w.length = s.length ∧
      Heap.Live w.pq w.count ∧ Heap.Ordered compare w.pq w.count ∧
      contents s = t ::ₘ contents w := by
  intro w
  let u : PriorityQueue α := { s.swap 1 s.count with count := s.count - 1 }
  have hupq : u.pq = fun m => s.pq (Equiv.swap 1 s.count m) := funext (swap_pq s 1 s.count)
  have hdown : Heap.DownOrder compare u.pq u.count 1 := by
    refine ⟨fun c hc2 hcn hc1 => ?_, fun h => absurd h (lt_irrefl 1)⟩
    have hcn : c < s.count := by simp [u] at hcn; omega
    rw [hupq]
    dsimp only
    rw [Equiv.swap_apply_of_ne_of_ne (by omega) (by omega),
      Equiv.swap_apply_of_ne_of_ne (by omega) (by omega)]
    exact hs.ordered c hc2 (by omega)
  have hlive : Heap.Live u.pq u.count := by
    rw [hupq]
    exact (hs.live.swap le_rfl hne hne le_rfl).mono (by simp [u])
  have hv : (fun m => s.pq (Equiv.swap 1 s.count m)) (s.count - 1 + 1) = some t := by
    simp only [Nat.sub_add_cancel hne, Equiv.swap_apply_right, ht]
  have hsucc := Heap.contents_succ (v := fun m => s.pq (Equiv.swap 1 s.count m)) hv
  rw [Nat.sub_add_cancel hne] at hsucc
  obtain ⟨hwc, hwcap, hwlen⟩ := sink_fields compare u 1
  refine ⟨hwc, hwcap, hwlen, ?_, ?_, ?_⟩
  · rw [hwc]; exact Heap.sink_live compare (exposes compare) u le_rfl hlive
  · rw [hwc]; exact Heap.sink_ordered compare (exposes compare) u le_rfl hdown
  · have hwu : Heap.contents w.pq u.count = Heap.contents u.pq u.count :=
      Heap.sink_contents compare (exposes compare) u le_rfl
    unfold contents
    rw [hwc, hwu, hupq,
      ← Heap.contents_swap s.pq le_rfl hne hne le_rfl]
    exact hsucc

/-- `top()` then `pop()` on a non-empty `WF` queue: `top` reads a stored key that no stored key
beats, and `pop` removes exactly one copy of it. -/
theorem pop_spec {s : PriorityQueue α} (hs : WF compare s) (hne : 0 < s.count) :
    ∃ t s', s.top = .ok (some t) ∧ s.pop compare = .ok s' ∧ WF compare s' ∧
      s'.count = s.count - 1 ∧ (∀ x ∈ contents s, compare t x = false) ∧
      contents s = t ::ₘ contents s' := by
  obtain ⟨t, ht⟩ := hs.live 1 le_rfl hne
  obtain ⟨hwc, -, -, hwlive, hword, hcont⟩ := pop_sunk compare hs hne ht
  obtain ⟨s', hpop, hb', hc', hpq⟩ := pop_eq compare hs.bounds hne
  have hwc' := hwc.trans hc'.symm
  rw [hwc'] at hwlive hword
  refine ⟨t, s', by simp [top, show s.count ≠ 0 by omega, ht], hpop,
    ⟨hb'.capacity_pos, hb'.count_lt, hb'.capacity_le, hwlive.congr hpq, hword.congr compare hpq⟩,
    hc', fun x hx => ?_, ?_⟩
  · obtain ⟨m, hm1, hmn, hm⟩ := Heap.mem_contents.mp hx
    have := Heap.Ordered.top_not_below compare hs.ordered hs.live m hm1 hmn
    rwa [ht, hm] at this
  · rw [hcont]; unfold contents; rw [hwc', Heap.contents_congr hpq]

/-- A `WF` queue stores nothing exactly when its count is zero. -/
theorem contents_eq_zero {s : PriorityQueue α} (hs : WF compare s) :
    contents s = 0 ↔ s.count = 0 := by
  constructor
  · intro h
    by_contra hne
    obtain ⟨t, s', -, -, -, -, -, hc⟩ := pop_spec compare hs (Nat.pos_of_ne_zero hne)
    rw [h] at hc
    exact Multiset.cons_ne_zero hc.symm
  · intro h
    simp [contents, Heap.contents, h]

/-- Pushing a list of keys, one `push` after another. -/
theorem pushAll_spec : ∀ (es : List α) (s : PriorityQueue α), WF compare s →
    ∃ s', es.foldlM (fun s e => s.push compare e) s = .ok s' ∧ WF compare s' ∧
      s'.count = s.count + es.length ∧ contents s' = contents s + ↑es := by
  intro es
  induction es with
  | nil => intro s hs; exact ⟨s, rfl, hs, rfl, by simp⟩
  | cons e es ih =>
    intro s hs
    obtain ⟨s₁, h₁, hw₁, hc₁, hm₁⟩ := push_spec compare hs e
    obtain ⟨s', h', hw', hc', hm'⟩ := ih s₁ hw₁
    refine ⟨s', by simp [List.foldlM_cons, h₁, h', bind, Except.bind], hw', by simp [hc', hc₁]; omega, ?_⟩
    rw [hm', hm₁, ← Multiset.cons_coe, Multiset.add_cons, Multiset.cons_add]

/-- One client call on a `WF` queue (a `pop` on a non-empty one) succeeds, keeps `WF`, and
moves the stored keys as the abstract queue does. -/
theorem exec_spec {s : PriorityQueue α} (hs : WF compare s) (op : Op α)
    (hop : op = .pop → 0 < s.count) :
    ∃ s' o, s.exec compare op = .ok (s', o) ∧ WF compare s' ∧
      MultisetStep compare (contents s) op o (contents s') ∧
      s'.count = countAfter s.count op := by
  cases op with
  | push key =>
    obtain ⟨s', hpush, hwf, hc, hcont⟩ := push_spec compare hs key
    refine ⟨s', none, by simp [exec, hpush, Except.map], hwf, ?_, hc⟩
    rw [hcont]; exact .push _ key
  | pop =>
    obtain ⟨t, s', htop, hpop, hwf, hc, hmax, hcont⟩ := pop_spec compare hs (hop rfl)
    refine ⟨s', some t, by simp [exec, htop, hpop, bind, Except.bind, Except.map], hwf, ?_, hc⟩
    rw [hcont] at hmax ⊢
    exact .pop _ t hmax
  | clear =>
    exact ⟨s.clear, none, rfl, clear_wf compare hs, by rw [contents_clear]; exact .clear _, rfl⟩

/-- **Run refinement.** Every sequence of calls whose `pop`s find a non-empty queue runs without
error from a `WF` queue, ends in a `WF` queue, and is matched by a run of the abstract queue
that hands out the same keys. -/
theorem run_refines : ∀ (ops : List (Op α)) (s : PriorityQueue α), WF compare s →
    PopsValid s.count ops → ∃ s' outs, s.run compare ops = .ok (s', outs) ∧ WF compare s' ∧
      MultisetRun compare (contents s) ops outs (contents s') := by
  intro ops
  induction ops with
  | nil => intro s hs _; exact ⟨s, [], rfl, hs, .nil _⟩
  | cons op ops ih =>
    intro s hs hv
    have hop : op = .pop → 0 < s.count := by rintro rfl; exact hv.1
    obtain ⟨s₁, o, hexec, hwf₁, hstep, hc₁⟩ := exec_spec compare hs op hop
    obtain ⟨s', outs, hrun, hwf', hrest⟩ := ih s₁ hwf₁ (hc₁ ▸ hv.tail)
    exact ⟨s', o :: outs, by simp [run, hexec, hrun, bind, Except.bind, Except.map], hwf',
      .cons hstep hrest⟩

/-- **The priority queue refines a multiset priority queue.** From `__init__(C)` with `C ≥ 1`,
every sequence of `push`, `top`-then-`pop` on a non-empty queue, and `clear` runs without error;
the keys in slots `1..count` follow the abstract queue call by call, each `pop` handing out a key
that no stored key beats; the heap is ordered; `top()` reads a key that no stored key beats; and
successive `pop`s hand out keys in non-increasing order. -/
theorem priorityQueue_refines_multiset {C : Nat} (hC : 0 < C) (ops : List (Op α))
    (hops : PopsValid 0 ops) :
    ∃ q s outs, init C = .ok q ∧ q.run compare ops = .ok (s, outs) ∧
      MultisetRun compare 0 ops outs (contents s) ∧
      Heap.Live s.pq s.count ∧ Heap.Ordered compare s.pq s.count ∧
      (0 < s.count → ∃ t, s.top = .ok (some t) ∧ t ∈ contents s ∧
        ∀ x ∈ contents s, compare t x = false) ∧
      ∀ k ≤ s.count, ∃ s' outs', s.run compare (List.replicate k .pop) = .ok (s', outs') ∧
        outs'.Pairwise fun a b => ∀ x y, a = some x → b = some y → compare x y = false := by
  obtain ⟨s, outs, hrun, hs, habs⟩ := run_refines compare ops _ (init_wf compare C hC) hops
  refine ⟨_, s, outs, init_ok hC, hrun, habs, hs.live, hs.ordered, fun hne => ?_, fun k hk => ?_⟩
  · obtain ⟨t, s', htop, -, -, -, hmax, hcont⟩ := pop_spec compare hs hne
    exact ⟨t, htop, by rw [hcont]; exact Multiset.mem_cons_self t _, hmax⟩
  · obtain ⟨s', outs', hrun', -, habs'⟩ := run_refines compare _ s hs (popsValid_replicate hk)
    exact ⟨s', outs', hrun', habs'.pops_sorted compare⟩

/-- The refinement at the test client's `x < y` queue of capacity 2: three pushes (crossing a
grow) and a pop. -/
theorem priorityQueue_refines_multiset_natLt :
    0 < 2 ∧ PopsValid 0 [Op.push 3, .push 5, .push 4, .pop] ∧
    ∃ q s outs, init 2 = .ok q ∧
      q.run (fun x y => decide (x < y)) [Op.push 3, .push 5, .push 4, .pop] = .ok (s, outs) ∧
      MultisetRun (fun x y => decide (x < y)) 0 [Op.push 3, .push 5, .push 4, .pop] outs
        (contents s) ∧
      Heap.Live s.pq s.count ∧ Heap.Ordered (fun x y => decide (x < y)) s.pq s.count ∧
      (0 < s.count → ∃ t, s.top = .ok (some t) ∧ t ∈ contents s ∧
        ∀ x ∈ contents s, decide (t < x) = false) ∧
      ∀ k ≤ s.count, ∃ s' outs',
        s.run (fun x y => decide (x < y)) (List.replicate k .pop) = .ok (s', outs') ∧
        outs'.Pairwise fun a b => ∀ x y, a = some x → b = some y → decide (x < y) = false :=
  have := Heap.natLt_isStrictWeakOrder
  ⟨by decide, by simp [PopsValid],
    priorityQueue_refines_multiset _ (by decide) _ (by simp [PopsValid])⟩

end PriorityQueue

end GraphAlgo
