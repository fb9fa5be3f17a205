import Mathlib.Logic.Function.Basic

/-!
# `UnionFind` (`ds/union_find.py`)

Weighted union by size with two-pass path compression in `find`. The lists `_parent` and
`_size` are functions on keys; only the keys `0 .. n_keys - 1` are ever read or written, since
every public operation reaches them through `find`, which asserts `contains`. Keys are natural
numbers: a negative key fails `contains` as a key past `n_keys` does.

Both loops of `find` are `while` loops over parent pointers. They run on `n_keys` fuel here;
`Logic/UnionFind.lean` shows that no reachable state exhausts it, since every parent chain is
shorter than `log2(n_keys) + 1`.

`sets()` returns a `collections.defaultdict(list)`; a Python `dict` keeps its keys in insertion
order, so it is an association list here, with `addTo` as `components[r].append(p)`.
`__repr__`, `__len__` and `__iter__` are not modelled.
-/

namespace GraphAlgo

/-- The fields of a `UnionFind`: `_n_keys`, `_n_sets`, `_parent` and `_size`. -/
structure UnionFind where
  nKeys : Nat
  nSets : Nat
  parent : Nat → Nat
  size : Nat → Nat

namespace UnionFind

/-- `__init__(n_keys)`: every key its own parent, in a set of size 1. -/
def init (nKeys : Nat) : Except String UnionFind :=
  if 0 < nKeys then .ok ⟨nKeys, nKeys, fun i => i, fun _ => 1⟩
  else .error "invalid number of keys"

/-- `contains(p)`: `p >= 0 and p < n_keys`. -/
def contains (s : UnionFind) (p : Nat) : Bool := p < s.nKeys

/-- The first loop of `find`: `while root != parent[root]: root = parent[root]`. -/
def findRoot (parent : Nat → Nat) : Nat → Nat → Nat
  | 0, root => root
  | fuel + 1, root => if root = parent root then root else findRoot parent fuel (parent root)

/-- The second loop of `find`: `while key != parent[key]: current = key;
key = parent[key]; parent[current] = root`. -/
def compress (root : Nat) : Nat → (Nat → Nat) → Nat → (Nat → Nat)
  | 0, parent, _ => parent
  | fuel + 1, parent, key =>
    if key = parent key then parent
    else compress root fuel (Function.update parent key root) (parent key)

/-- `find(p)`: the root of `p`, with the path from `p` compressed onto it. -/
def find (s : UnionFind) (p : Nat) : Except String (UnionFind × Nat) :=
  if s.contains p then
    let root := findRoot s.parent s.nKeys p
    .ok ({ s with parent := compress root s.nKeys s.parent p }, root)
  else .error "non existent key"

/-- `connected(p, q)`: `find(p) == find(q)`, the two calls in that order. -/
def connected (s : UnionFind) (p q : Nat) : Except String (UnionFind × Bool) :=
  s.find p >>= fun (s, rp) => s.find q >>= fun (s, rq) => .ok (s, rp == rq)

/-- `size(p)`: `_size[find(p)]`, the size of the set of `p`. (The field `size` is `_size`.) -/
def setSize (s : UnionFind) (p : Nat) : Except String (UnionFind × Nat) :=
  if s.contains p then s.find p >>= fun (s, r) => .ok (s, s.size r)
  else .error "non existent key"

/-- The link in `join`: `_parent[a] = b`, `_size[b] += _size[a]`, `_n_sets -= 1`. -/
def link (s : UnionFind) (a b : Nat) : UnionFind :=
  { s with parent := Function.update s.parent a b,
           size := Function.update s.size b (s.size b + s.size a),
           nSets := s.nSets - 1 }

/-- `join(p, q)`: link the root of the smaller set under the other root; on equal sizes the
root of `q` goes under the root of `p`. -/
def join (s : UnionFind) (p q : Nat) : Except String UnionFind :=
  s.find p >>= fun (s, rootP) => s.find q >>= fun (s, rootQ) =>
    if rootP = rootQ then .ok s
    else if s.size rootP < s.size rootQ then .ok (s.link rootP rootQ)
    else .ok (s.link rootQ rootP)

/-- `components[r].append(p)` on a `defaultdict(list)` kept in insertion order. -/
def addTo : List (Nat × List Nat) → Nat → Nat → List (Nat × List Nat)
  | [], r, p => [(r, [p])]
  | (k, v) :: rest, r, p => if k = r then (k, v ++ [p]) :: rest else (k, v) :: addTo rest r p

/-- The loop of `sets()` over the keys still to visit. -/
def setsLoop : UnionFind → List Nat → List (Nat × List Nat) →
    Except String (UnionFind × List (Nat × List Nat))
  | s, [], comps => .ok (s, comps)
  | s, p :: ps, comps => s.find p >>= fun (s, r) => setsLoop s ps (addTo comps r p)

/-- `sets()`: `for p in range(n_keys): components[find(p)].append(p)`. -/
def sets (s : UnionFind) : Except String (UnionFind × List (Nat × List Nat)) :=
  setsLoop s (List.range s.nKeys) []

/-- A client call: `join(p, q)`, `find(p)`, `connected(p, q)`, `size(p)` or `sets()`. -/
inductive Op where
  | join (p q : Nat)
  | find (p : Nat)
  | connected (p q : Nat)
  | setSize (p : Nat)
  | sets

/-- The state a call leaves; every call but `join` changes only `_parent`, by compression. -/
def exec (s : UnionFind) : Op → Except String UnionFind
  | .join p q => s.join p q
  | .find p => (s.find p).map Prod.fst
  | .connected p q => (s.connected p q).map Prod.fst
  | .setSize p => (s.setSize p).map Prod.fst
  | .sets => s.sets.map Prod.fst

@[simp] theorem link_nKeys (s : UnionFind) (a b : Nat) : (s.link a b).nKeys = s.nKeys := rfl

@[simp] theorem link_nSets (s : UnionFind) (a b : Nat) : (s.link a b).nSets = s.nSets - 1 := rfl

@[simp] theorem link_parent (s : UnionFind) (a b : Nat) :
    (s.link a b).parent = Function.update s.parent a b := rfl

@[simp] theorem link_size (s : UnionFind) (a b : Nat) :
    (s.link a b).size = Function.update s.size b (s.size b + s.size a) := rfl

end UnionFind

end GraphAlgo
