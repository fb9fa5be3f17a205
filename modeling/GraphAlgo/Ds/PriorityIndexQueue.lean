import GraphAlgo.Ds.Heap

/-!
# `PriorityIndexQueue` (`ds/priority_index_queue.py`)

The heap `pq` holds external indices; `qp` maps an index back to its heap slot, `-1` when the
index is absent, and `keys` holds each index's key. The three lists have `capacity + 1`
entries, and `is_valid(i)` admits `0 ≤ i ≤ capacity`. Indices are natural numbers here: a
negative index fails `is_valid`, as an index past `capacity` does.

The `pq` slots past `count` hold `None` or stale indices in the source and are never read before
being written; they start at `0`, the value `pop` itself writes there. `_resize` is never called
and is not modelled.
-/

namespace GraphAlgo

/-- The fields of a `PriorityIndexQueue`: `_capacity`, `_count`, `_keys`, `_pq` and `_qp`. -/
structure PriorityIndexQueue (α : Type) where
  capacity : Nat
  count : Nat
  keys : Nat → Option α
  pq : Nat → Nat
  qp : Nat → Int

namespace PriorityIndexQueue

variable {α : Type} (compare : α → α → Bool)

/-- `__init__(capacity, compare)`. -/
def init (capacity : Nat) : Except String (PriorityIndexQueue α) :=
  if 0 < capacity then .ok ⟨capacity, 0, fun _ => none, fun _ => 0, fun _ => -1⟩
  else .error "invalid priority queue capacity"

/-- `clear()`. -/
def clear (s : PriorityIndexQueue α) : PriorityIndexQueue α :=
  { s with count := 0, keys := fun _ => none, pq := fun _ => 0, qp := fun _ => -1 }

def isValid (s : PriorityIndexQueue α) (i : Nat) : Bool := i ≤ s.capacity

/-- `contains(i)`: asserts `is_valid(i)`, then `qp[i] != -1`. -/
def contains (s : PriorityIndexQueue α) (i : Nat) : Except String Bool :=
  if s.isValid i then .ok (s.qp i != -1) else .error "index is outside priority queue range"

/-- `_comp(i, j)`: `compare(keys[pq[i]], keys[pq[j]])`. -/
def comp (s : PriorityIndexQueue α) (i j : Nat) : Bool :=
  Heap.slotCompare compare (s.keys (s.pq i)) (s.keys (s.pq j))

/-- `_swap(i, j)`: `pq[i], pq[j] = pq[j], pq[i]`, then `qp[pq[i]] = i` and `qp[pq[j]] = j`. -/
def swap (s : PriorityIndexQueue α) (i j : Nat) : PriorityIndexQueue α :=
  let pq := Function.update (Function.update s.pq i (s.pq j)) j (s.pq i)
  { s with pq, qp := Function.update (Function.update s.qp (pq i) i) (pq j) j }

def swim (s : PriorityIndexQueue α) (k : Nat) : PriorityIndexQueue α :=
  Heap.swim (comp compare) swap s k

def sink (s : PriorityIndexQueue α) (k : Nat) : PriorityIndexQueue α :=
  Heap.sink (comp compare) swap s.count s k

/-- `push(i, key)`: bind the absent index `i` to `key` in slot `count + 1` and swim it up; the
write `pq[count + 1]` is past the end of `pq` when `count = capacity`. -/
def push (s : PriorityIndexQueue α) (i : Nat) (key : α) : Except String (PriorityIndexQueue α) :=
  s.contains i >>= fun c =>
    if c then .error "index is already in the priority queue"
    else if s.count + 1 ≤ s.capacity then
      .ok (swim compare
        { s with count := s.count + 1, qp := Function.update s.qp i (s.count + 1),
                 pq := Function.update s.pq (s.count + 1) i,
                 keys := Function.update s.keys i (some key) }
        (s.count + 1))
    else .error "list assignment index out of range"

/-- `pop()`: remove the index in slot 1 and its key. -/
def pop (s : PriorityIndexQueue α) : Except String (PriorityIndexQueue α) :=
  if s.count = 0 then .error "priority queue underflow"
  else
    let min := s.pq 1
    let s := sink compare { s.swap 1 s.count with count := s.count - 1 } 1
    .ok { s with qp := Function.update s.qp min (-1), keys := Function.update s.keys min none,
                 pq := Function.update s.pq (s.count + 1) 0 }

/-- `top()`: the key of the index in slot 1. -/
def top (s : PriorityIndexQueue α) : Except String (Option α) :=
  if s.count = 0 then .error "priority queue underflow" else .ok (s.keys (s.pq 1))

/-- `top_ix()`: the index in slot 1. -/
def topIx (s : PriorityIndexQueue α) : Except String Nat :=
  if s.count = 0 then .error "priority queue underflow" else .ok (s.pq 1)

/-- `key_of(i)`. -/
def keyOf (s : PriorityIndexQueue α) (i : Nat) : Except String (Option α) :=
  s.contains i >>= fun c => if c then .ok (s.keys i) else .error "index is not in the priority queue"

/-- `__iter__`: `key_of(ix)` for `ix` from `0` below `count`, external indices rather than heap
slots. -/
def iter (s : PriorityIndexQueue α) : Except String (List (Option α)) :=
  (List.range s.count).mapM s.keyOf

/-- `change(i, key)`: rebind `i`, swim from its slot, then sink from its slot as it is after the
swim. -/
def change (s : PriorityIndexQueue α) (i : Nat) (key : α) :
    Except String (PriorityIndexQueue α) :=
  s.contains i >>= fun c =>
    if c then
      let s := { s with keys := Function.update s.keys i (some key) }
      let s := swim compare s (s.qp i).toNat
      .ok (sink compare s (s.qp i).toNat)
    else .error "index is not in the priority queue"

/-- `delete(i)`: swap the slot of `i` with the last slot, drop it, swim then sink from the
saved slot, and unbind `i`. -/
def delete (s : PriorityIndexQueue α) (i : Nat) : Except String (PriorityIndexQueue α) :=
  s.contains i >>= fun c =>
    if c then
      let index := (s.qp i).toNat
      let s := { s.swap index s.count with count := s.count - 1 }
      let s := sink compare (swim compare s index) index
      .ok { s with keys := Function.update s.keys i none, qp := Function.update s.qp i (-1) }
    else .error "index is not in the priority queue"

/-- A client call: `push(i, key)`, `pop()`, `change(i, key)`, `delete(i)` or `clear()`. -/
inductive Op (α : Type) where
  | push (i : Nat) (key : α)
  | pop
  | change (i : Nat) (key : α)
  | delete (i : Nat)
  | clear

def exec (s : PriorityIndexQueue α) : Op α → Except String (PriorityIndexQueue α)
  | .push i key => s.push compare i key
  | .pop => s.pop compare
  | .change i key => s.change compare i key
  | .delete i => s.delete compare i
  | .clear => .ok s.clear

/-! ## Field lemmas -/

@[simp] theorem swap_count (s : PriorityIndexQueue α) (i j : Nat) :
    (s.swap i j).count = s.count := rfl

@[simp] theorem swap_capacity (s : PriorityIndexQueue α) (i j : Nat) :
    (s.swap i j).capacity = s.capacity := rfl

@[simp] theorem swap_keys (s : PriorityIndexQueue α) (i j : Nat) :
    (s.swap i j).keys = s.keys := rfl

theorem swap_pq (s : PriorityIndexQueue α) (i j k : Nat) :
    (s.swap i j).pq k = s.pq (Equiv.swap i j k) := by
  simp only [swap, Function.update, Equiv.swap_apply_def, eq_rec_constant, dite_eq_ite]
  split_ifs <;> simp_all

/-- After `_swap(i, j)`, the index that was in slot `i` points to `j` and the one that was in
`j` points to `i`. -/
theorem swap_qp (s : PriorityIndexQueue α) (i j x : Nat) :
    (s.swap i j).qp x =
      if x = s.pq i then (j : Int) else if x = s.pq j then (i : Int) else s.qp x := by
  have h1 : (s.swap i j).pq i = s.pq j := by rw [swap_pq, Equiv.swap_apply_left]
  have h2 : (s.swap i j).pq j = s.pq i := by rw [swap_pq, Equiv.swap_apply_right]
  simp only [swap] at h1 h2 ⊢
  rw [h1, h2]
  simp only [Function.update]
  split_ifs <;> simp_all

/-- The heap slots as keys: slot `k` holds `keys[pq[k]]`. -/
def view (s : PriorityIndexQueue α) (k : Nat) : Option α := s.keys (s.pq k)

theorem exposes : Heap.Exposes compare (comp compare) swap (view (α := α)) :=
  ⟨fun _ _ _ => rfl, fun s i j k => by simp only [view, swap_keys, swap_pq]⟩

/-- `_swim` and `_sink` change `pq` and `qp` only. -/
theorem swim_fields (s : PriorityIndexQueue α) (k : Nat) :
    (swim compare s k).count = s.count ∧ (swim compare s k).capacity = s.capacity ∧
      (swim compare s k).keys = s.keys :=
  Heap.swimLoop_preserves_all (comp compare) swap (fun t => t.count = s.count ∧
    t.capacity = s.capacity ∧ t.keys = s.keys) (fun _ _ _ h => h) k s k ⟨rfl, rfl, rfl⟩

theorem sink_fields (s : PriorityIndexQueue α) (k : Nat) :
    (sink compare s k).count = s.count ∧ (sink compare s k).capacity = s.capacity ∧
      (sink compare s k).keys = s.keys :=
  Heap.sinkLoop_preserves_all (comp compare) swap s.count (fun t => t.count = s.count ∧
    t.capacity = s.capacity ∧ t.keys = s.keys) (fun _ _ _ h => h) s.count s k ⟨rfl, rfl, rfl⟩

end PriorityIndexQueue

end GraphAlgo
