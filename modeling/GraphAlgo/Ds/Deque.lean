import Mathlib.Data.List.FinRange

/-!
# `Stack` and `Queue` (`ds/stack.py`, `ds/queue.py`)

Both classes keep a count `_n_items` beside a `collections.deque` `_items` of the items in
insertion order. A `Stack` pushes and pops at the end and iterates from the end; a `Queue`
pushes at the end, pops at the front and iterates from the front. Every method keeps
`_n_items` equal to the deque's length, a field of both structures here, so the index loops of
`__iter__` never leave the deque: `Stack.iter_eq` and `Queue.iter_eq` read them as the reversed
and the plain list of items.
-/

namespace GraphAlgo

/-- The fields of a `Stack`: `_n_items` and the deque `_items`, oldest item first. -/
structure Stack (α : Type) where
  nItems : Nat
  items : List α
  nItems_eq : nItems = items.length

namespace Stack

variable {α : Type}

/-- `Stack()`. -/
def init : Stack α := ⟨0, [], rfl⟩

def isEmpty (s : Stack α) : Bool := s.nItems == 0

def size (s : Stack α) : Nat := s.nItems

/-- `push(item)`: append at the end. -/
def push (s : Stack α) (item : α) : Stack α :=
  ⟨s.nItems + 1, s.items ++ [item], by simp [s.nItems_eq]⟩

/-- `pop()`: the last item and the stack without it, or `None` on an empty stack. -/
def pop (s : Stack α) : Option α × Stack α :=
  if s.isEmpty then (none, s)
  else (s.items.getLast?, ⟨s.nItems - 1, s.items.dropLast, by simp [s.nItems_eq]⟩)

/-- `top()`: the last item, or `None` on an empty stack. -/
def top (s : Stack α) : Option α := if s.isEmpty then none else s.items.getLast?

/-- `__iter__`: `_items[ix]` for `ix` from `_n_items - 1` down to `0`. -/
def iter (s : Stack α) : List α :=
  (List.finRange s.nItems).reverse.map fun ix => s.items.get (ix.cast s.nItems_eq)

@[simp] theorem init_items : (init : Stack α).items = [] := rfl

@[simp] theorem push_items (s : Stack α) (item : α) : (s.push item).items = s.items ++ [item] :=
  rfl

theorem isEmpty_iff (s : Stack α) : s.isEmpty = true ↔ s.items = [] := by
  simp [isEmpty, s.nItems_eq]

/-- A stack whose items end in `x` pops `x`, and keeps the items before it. -/
theorem pop_snoc {s : Stack α} {l : List α} {x : α} (h : s.items = l ++ [x]) :
    ∃ s', s.pop = (some x, s') ∧ s'.items = l := by
  have hne : s.isEmpty = false := by simp [isEmpty, s.nItems_eq, h]
  rw [pop, if_neg (by simp [hne])]
  exact ⟨_, Prod.ext (by simp [h]) rfl, by simp [h]⟩

/-- Pushing the items of `ws` that pass `p`, in order. -/
theorem foldl_push_items (p : α → Bool) :
    ∀ (ws : List α) (s : Stack α),
      (ws.foldl (fun s w => if p w then s.push w else s) s).items = s.items ++ ws.filter p
  | [], s => by simp
  | w :: ws, s => by
    rw [List.foldl_cons, foldl_push_items p ws, List.filter_cons]
    split_ifs <;> simp

/-- A stack iterates its items last-pushed-first. -/
theorem iter_eq (s : Stack α) : s.iter = s.items.reverse := by
  obtain ⟨n, items, rfl⟩ := s
  rw [iter, List.map_reverse]
  exact congrArg List.reverse (List.finRange_map_get items)

end Stack

/-- The fields of a `Queue`: `_n_items` and the deque `_items`, oldest item first. -/
structure Queue (α : Type) where
  nItems : Nat
  items : List α
  nItems_eq : nItems = items.length

namespace Queue

variable {α : Type}

/-- `Queue()`. -/
def init : Queue α := ⟨0, [], rfl⟩

def isEmpty (q : Queue α) : Bool := q.nItems == 0

def size (q : Queue α) : Nat := q.nItems

/-- `push(item)`: append at the end. -/
def push (q : Queue α) (item : α) : Queue α :=
  ⟨q.nItems + 1, q.items ++ [item], by simp [q.nItems_eq]⟩

/-- `pop()`: the first item and the queue without it (`popleft`), or `None` on an empty
queue. -/
def pop (q : Queue α) : Option α × Queue α :=
  if q.isEmpty then (none, q)
  else (q.items.head?, ⟨q.nItems - 1, q.items.tail, by simp [q.nItems_eq]⟩)

/-- `top()`: the first item, or `None` on an empty queue. -/
def top (q : Queue α) : Option α := if q.isEmpty then none else q.items.head?

/-- `__iter__`: `_items[ix]` for `ix` from `0` up to `_n_items - 1`. -/
def iter (q : Queue α) : List α :=
  (List.finRange q.nItems).map fun ix => q.items.get (ix.cast q.nItems_eq)

@[simp] theorem init_items : (init : Queue α).items = [] := rfl

@[simp] theorem push_items (q : Queue α) (item : α) : (q.push item).items = q.items ++ [item] :=
  rfl

/-- A queue whose items start with `x` pops `x`, and keeps the items after it. -/
theorem pop_cons {q : Queue α} {x : α} {l : List α} (h : q.items = x :: l) :
    ∃ q', q.pop = (some x, q') ∧ q'.items = l := by
  have hne : q.isEmpty = false := by simp [isEmpty, q.nItems_eq, h]
  rw [pop, if_neg (by simp [hne])]
  exact ⟨_, Prod.ext (by simp [h]) rfl, by simp [h]⟩

theorem isEmpty_iff (q : Queue α) : q.isEmpty = true ↔ q.items = [] := by
  simp [isEmpty, q.nItems_eq]

/-- A queue iterates its items first-pushed-first. -/
theorem iter_eq (q : Queue α) : q.iter = q.items := by
  obtain ⟨n, items, rfl⟩ := q
  exact List.finRange_map_get items

end Queue

end GraphAlgo
