import GraphAlgo.Ds.Heap

/-!
# `PriorityQueue` (`ds/priority_queue.py`)

A 1-indexed binary heap in a Python list `_pq` whose length the model keeps as `length`, so
that the writes of `push` and `_resize` can be checked against it. Slot `0` and the slots past
`count` hold `None` or stale keys; no operation reads them before writing them.

The comparator `_compare` is fixed by `__init__` and never reassigned; it is a parameter of the
operations. Operations that can raise return `Except String`, with the source's assertion
message or the `IndexError` text of a write past the end of the list.
-/

namespace GraphAlgo

/-- The fields of a `PriorityQueue`: `_capacity`, `_count`, `_pq` and `len(_pq)`. -/
structure PriorityQueue (α : Type) where
  capacity : Nat
  count : Nat
  pq : Nat → Option α
  length : Nat

namespace PriorityQueue

variable {α : Type} (compare : α → α → Bool)

/-- `__init__(capacity, compare)`. -/
def init (capacity : Nat) : Except String (PriorityQueue α) :=
  if 0 < capacity then .ok ⟨capacity, 0, fun _ => none, capacity + 1⟩
  else .error "invalid priority queue capacity"

def isEmpty (s : PriorityQueue α) : Bool := s.count == 0

/-- `clear()`: a fresh list of `capacity + 1` empty slots. -/
def clear (s : PriorityQueue α) : PriorityQueue α :=
  { s with count := 0, pq := fun _ => none, length := s.capacity + 1 }

/-- `_comp(i, j)`: `compare(pq[i], pq[j])`. -/
def comp (s : PriorityQueue α) (i j : Nat) : Bool :=
  Heap.slotCompare compare (s.pq i) (s.pq j)

/-- `_swap(i, j)`: `pq[j], pq[i] = pq[i], pq[j]`. -/
def swap (s : PriorityQueue α) (i j : Nat) : PriorityQueue α :=
  { s with pq := Function.update (Function.update s.pq j (s.pq i)) i (s.pq j) }

def swim (s : PriorityQueue α) (k : Nat) : PriorityQueue α :=
  Heap.swim (comp compare) swap s k

def sink (s : PriorityQueue α) (k : Nat) : PriorityQueue α :=
  Heap.sink (comp compare) swap s.count s k

/-- `_resize(capacity)`: a new list of `capacity` slots receives slots `1..count`; with
`count ≥ capacity` the copy writes past its end. -/
def resize (s : PriorityQueue α) (capacity : Nat) : Except String (PriorityQueue α) :=
  if 0 < s.count ∧ capacity ≤ s.count then .error "list assignment index out of range"
  else .ok { s with capacity, length := capacity,
                    pq := fun i => if 1 ≤ i ∧ i ≤ s.count then s.pq i else none }

/-- `push(key)`: grow when `count == capacity - 1`, write the key at `count + 1`, swim it up. -/
def push (s : PriorityQueue α) (key : α) : Except String (PriorityQueue α) :=
  (if s.count = s.capacity - 1 then s.resize (2 * s.capacity) else pure s) >>= fun s =>
    if s.count + 1 < s.length then
      pure (swim compare
        { s with count := s.count + 1, pq := Function.update s.pq (s.count + 1) (some key) }
        (s.count + 1))
    else throw "list assignment index out of range"

/-- `pop()`: swap the top to the last slot, drop it, sink the new top; shrink when a quarter
full. -/
def pop (s : PriorityQueue α) : Except String (PriorityQueue α) :=
  if s.count = 0 then .error "priority queue underflow"
  else
    let s := sink compare { swap s 1 s.count with count := s.count - 1 } 1
    if 0 < s.count ∧ s.count = (s.capacity - 1) / 4 then s.resize (s.capacity / 2) else .ok s

/-- `top()`: the key in slot 1. -/
def top (s : PriorityQueue α) : Except String (Option α) :=
  if s.count = 0 then .error "priority queue underflow" else .ok (s.pq 1)

/-- A client call: `push(key)`, `top()` followed by `pop()` (how every client in the source
removes a key), or `clear()`. -/
inductive Op (α : Type) where
  | push (key : α)
  | pop
  | clear

/-- One call; a `pop` reports the key its `top()` read. -/
def exec (s : PriorityQueue α) : Op α → Except String (PriorityQueue α × Option α)
  | .push key => (s.push compare key).map fun s' => (s', none)
  | .pop => s.top >>= fun t => (s.pop compare).map fun s' => (s', t)
  | .clear => .ok (s.clear, none)

/-- A sequence of calls, with the keys its `pop`s report. -/
def run (s : PriorityQueue α) : List (Op α) → Except String (PriorityQueue α × List (Option α))
  | [] => .ok (s, [])
  | op :: ops => s.exec compare op >>= fun r =>
      (r.1.run ops).map fun r' => (r'.1, r.2 :: r'.2)

/-! ## Field lemmas -/

@[simp] theorem swap_count (s : PriorityQueue α) (i j : Nat) : (s.swap i j).count = s.count := rfl

@[simp] theorem swap_capacity (s : PriorityQueue α) (i j : Nat) :
    (s.swap i j).capacity = s.capacity := rfl

@[simp] theorem swap_length (s : PriorityQueue α) (i j : Nat) :
    (s.swap i j).length = s.length := rfl

theorem swap_pq (s : PriorityQueue α) (i j k : Nat) :
    (s.swap i j).pq k = s.pq (Equiv.swap i j k) := by
  simp only [swap, Function.update, Equiv.swap_apply_def, eq_rec_constant, dite_eq_ite]
  split_ifs <;> simp_all

/-- The queue exposes `pq` as its slot view. -/
theorem exposes : Heap.Exposes compare (comp compare) swap (pq (α := α)) :=
  ⟨fun _ _ _ => rfl, swap_pq⟩

/-- `_swim` and `_sink` change `pq` only. -/
theorem swim_fields (s : PriorityQueue α) (k : Nat) :
    (swim compare s k).count = s.count ∧ (swim compare s k).capacity = s.capacity ∧
      (swim compare s k).length = s.length :=
  Heap.swimLoop_preserves_all (comp compare) swap (fun t => t.count = s.count ∧ t.capacity = s.capacity ∧
    t.length = s.length) (fun _ _ _ h => h) k s k ⟨rfl, rfl, rfl⟩

theorem sink_fields (s : PriorityQueue α) (k : Nat) :
    (sink compare s k).count = s.count ∧ (sink compare s k).capacity = s.capacity ∧
      (sink compare s k).length = s.length :=
  Heap.sinkLoop_preserves_all (comp compare) swap s.count (fun t => t.count = s.count ∧ t.capacity = s.capacity ∧
    t.length = s.length) (fun _ _ _ h => h) s.count s k ⟨rfl, rfl, rfl⟩

end PriorityQueue

end GraphAlgo
