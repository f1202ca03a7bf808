import Mathlib.Data.List.AList
import Mathlib.Data.List.Sort
import Mathlib.Data.List.InsertIdx

/-!
# The B+ tree of the restore engine (`restore/restore_engine.h`)

`BPlusTree<K, V, ORDER>` indexes chunk paths by hash for `ChunkStore`. Leaves hold sorted keys
with their values and are chained by `next`; an internal node holds separator `keys` and one
more child than keys, and a search goes to the child after the separators `<=` the key. An
insert that leaves a node with more than `MAX_KEYS = ORDER - 1` keys splits it and hands a
separator up, and a split root grows the tree. An erase removes the key from its leaf and never
merges: leaves may empty, and separators go stale.

The model:
* a leaf's address stands for its pointer: `next` is the address of the next leaf, and the tree
  holds the next address its allocator hands out;
* a leaf's `keys` and `values` vectors, which every operation keeps in step, are one list of
  pairs;
* `ORDER` is a parameter `order` of the operations; `size_` is a `Nat` (a `size_t` wraps only
  after `2^64` entries).

* `upperBoundIdx` (`upper_bound_idx`, a binary search), `lowerBound` (`std::lower_bound`);
* `Node.descend` (the loop down to a leaf of `find` and `range`), `Node.leftmost`, `walk` (the
  loop along `next`);
* `splitLeaf`, `splitInternal`, `insertLeaf`, `insertInternal`, `eraseInternal`;
* `insert`, `erase`, `find`, `contains`, `forEach`, `range`; `Call`, `run`.
-/

namespace FileBackup

namespace BPlusTree

/-- A `LeafNode` at address `addr`: its keys with their values, and `next`. -/
structure Leaf (K V : Type) where
  addr : Nat
  entries : List (K × V)
  next : Option Nat

/-- A `Node`: a `LeafNode`, or an `InternalNode` with separator `keys` and `children`. -/
inductive Node (K V : Type)
  | leaf (l : Leaf K V)
  | internal (keys : List K) (children : List (Node K V))

/-- What `insert_internal` leaves: the node, the `SplitResult` when it split (the separator
and the new right sibling), and whether the key was there (its `--size_`). -/
structure Inserted (K V : Type) where
  node : Node K V
  split : Option (K × Node K V)
  found : Bool

end BPlusTree

/-- `BPlusTree<K, V, ORDER>`: `root_`, `size_`, and the next address of the allocator. -/
structure BPlusTree (K V : Type) where
  root : BPlusTree.Node K V
  size : Nat
  nextAddr : Nat

namespace BPlusTree

variable {K V : Type} [LinearOrder K]

/-- `MAX_KEYS = ORDER - 1`, an `int`. -/
def maxKeys (order : Nat) : Int := order - 1

/-- The `while (lo < hi)` loop of `upper_bound_idx(keys, key)` on `[lo, hi)`, for at most
`fuel` rounds; each round shrinks the interval, so `keys.size()` rounds finish it. -/
def upperBoundLoop (keys : List K) (key : K) : Nat → Nat → Nat → Nat
  | 0, lo, _ => lo
  | fuel + 1, lo, hi =>
    if lo < hi then
      let mid := (lo + hi) / 2
      match keys[mid]? with
      | some k =>
        if k ≤ key then upperBoundLoop keys key fuel (mid + 1) hi
        else upperBoundLoop keys key fuel lo mid
      | none => lo
    else lo

/-- `upper_bound_idx(keys, key)`: the index of the first separator above `key`. -/
def upperBoundIdx (keys : List K) (key : K) : Nat :=
  upperBoundLoop keys key keys.length 0 keys.length

/-- `std::lower_bound` on a leaf's keys: the number of leading keys below `key`. -/
def lowerBound (entries : List (K × V)) (key : K) : Nat :=
  (entries.takeWhile fun e => e.1 < key).length

/-- The leaves below a node, left to right. -/
def Node.leaves : Node K V → List (Leaf K V)
  | .leaf l => [l]
  | .internal _ cs => go cs
where
  go : List (Node K V) → List (Leaf K V)
  | [] => []
  | c :: cs => c.leaves ++ go cs

/-- The loop of `find` and `range` down to a leaf: `children[upper_bound_idx(keys, key)]`. -/
def Node.descend (key : K) : Node K V → Option (Leaf K V)
  | .leaf l => some l
  | .internal ks cs => go (upperBoundIdx ks key) cs
where
  go : Nat → List (Node K V) → Option (Leaf K V)
  | _, [] => none
  | 0, c :: _ => c.descend key
  | i + 1, _ :: cs => go i cs

/-- The loop of `for_each` down `children[0]` to the leftmost leaf. -/
def Node.leftmost : Node K V → Option (Leaf K V)
  | .leaf l => some l
  | .internal _ [] => none
  | .internal _ (c :: _) => c.leftmost

/-- `split_leaf(leaf)`: the entries from `mid = size / 2` on move to a new leaf at `addr`, which
takes over `next`; the leaf keeps the others and points to the new one, whose first key is the
separator. `none` for an empty leaf, which never overfills. -/
def splitLeaf (l : Leaf K V) (addr : Nat) : Option (Leaf K V × K × Leaf K V) :=
  let mid := l.entries.length / 2
  match l.entries.drop mid with
  | [] => none
  | e :: es => some (⟨l.addr, l.entries.take mid, some addr⟩, e.1, ⟨addr, e :: es, l.next⟩)

/-- `split_internal(node)`: `keys[mid]` goes up, and the keys after it with the children from
`mid + 1` on move to a new node. `none` for a node without keys, which never overfills. -/
def splitInternal (ks : List K) (cs : List (Node K V)) : Option (Node K V × K × Node K V) :=
  let mid := ks.length / 2
  match ks[mid]? with
  | none => none
  | some k =>
    some (.internal (ks.take mid) (cs.take (mid + 1)), k,
      .internal (ks.drop (mid + 1)) (cs.drop (mid + 1)))

/-- The leaf case of `insert_internal`: at `pos = lower_bound(key)`, overwrite the value of an
existing `key`; otherwise insert the entry there, and split the leaf when it holds more than
`MAX_KEYS` keys. -/
def insertLeaf (order : Nat) (key : K) (value : V) (addr : Nat) (l : Leaf K V) : Inserted K V :=
  let pos := lowerBound l.entries key
  if l.entries[pos]?.map Prod.fst = some key then
    ⟨.leaf { l with entries := l.entries.set pos (key, value) }, none, true⟩
  else
    let l := { l with entries := l.entries.insertIdx pos (key, value) }
    if maxKeys order < l.entries.length then
      match splitLeaf l addr with
      | some (left, s, right) => ⟨.leaf left, some (s, .leaf right), false⟩
      | none => ⟨.leaf l, none, false⟩
    else ⟨.leaf l, none, false⟩

/-- `insert_internal(node, key, value)`, `addr` being the address a split leaf would take. In an
internal node, insert into `children[idx]` for `idx = upper_bound_idx(keys, key)`; when that
child split, put its separator at `idx` and its new sibling at `idx + 1`, and split this node
when it holds more than `MAX_KEYS` keys. -/
def insertInternal (order : Nat) (key : K) (value : V) (addr : Nat) : Node K V → Inserted K V
  | .leaf l => insertLeaf order key value addr l
  | .internal ks cs =>
    let idx := upperBoundIdx ks key
    match go idx cs with
    | none => ⟨.internal ks cs, none, false⟩
    | some r =>
      match r.split with
      | none => ⟨.internal ks (cs.set idx r.node), none, r.found⟩
      | some (s, n) =>
        let ks := ks.insertIdx idx s
        let cs := (cs.set idx r.node).insertIdx (idx + 1) n
        if maxKeys order < ks.length then
          match splitInternal ks cs with
          | some (left, k, right) => ⟨left, some (k, right), r.found⟩
          | none => ⟨.internal ks cs, none, r.found⟩
        else ⟨.internal ks cs, none, r.found⟩
where
  go : Nat → List (Node K V) → Option (Inserted K V)
  | _, [] => none
  | 0, c :: _ => some (insertInternal order key value addr c)
  | i + 1, _ :: cs => go i cs

/-- `erase_internal(node, key)`: in a leaf, remove the entry at `lower_bound(key)` when it is
`key`; in an internal node, erase from `children[upper_bound_idx(keys, key)]`. Nothing is merged
or rebalanced. -/
def eraseInternal (key : K) : Node K V → Node K V × Bool
  | .leaf l =>
    let pos := lowerBound l.entries key
    if l.entries[pos]?.map Prod.fst = some key then
      (.leaf { l with entries := l.entries.eraseIdx pos }, true)
    else (.leaf l, false)
  | .internal ks cs =>
    let idx := upperBoundIdx ks key
    match go idx cs with
    | none => (.internal ks cs, false)
    | some r => (.internal ks (cs.set idx r.1), r.2)
where
  go : Nat → List (Node K V) → Option (Node K V × Bool)
  | _, [] => none
  | 0, c :: _ => some (eraseInternal key c)
  | i + 1, _ :: cs => go i cs

/-- The leaves the loops of `for_each` and `range` visit from `l` along `next`, an address
naming the tree's leaf at it, for at most `fuel` leaves. -/
def walk (leaves : List (Leaf K V)) : Nat → Leaf K V → List (Leaf K V)
  | 0, _ => []
  | fuel + 1, l => l :: match l.next with
    | none => []
    | some a => match leaves.find? (·.addr = a) with
      | some l' => walk leaves fuel l'
      | none => []

/-- `BPlusTree()`: an empty leaf as the root. -/
def empty : BPlusTree K V := ⟨.leaf ⟨0, [], none⟩, 0, 1⟩

/-- `insert(key, value)`: a split root becomes the first child of a new root holding the
separator; `size_` grows unless the key was there. A leaf the insert splits off takes the
address `nextAddr`. -/
def insert (order : Nat) (t : BPlusTree K V) (key : K) (value : V) : BPlusTree K V :=
  let r := insertInternal order key value t.nextAddr t.root
  { root := match r.split with
      | some (s, n) => .internal [s] [r.node, n]
      | none => r.node
    size := if r.found then t.size else t.size + 1
    nextAddr := t.nextAddr + 1 }

/-- `erase(key)`: whether the key was there; a root left with one child is replaced by it. -/
def erase (t : BPlusTree K V) (key : K) : Bool × BPlusTree K V :=
  let r := eraseInternal key t.root
  (r.2, { t with
    root := match r.1 with
      | .internal _ [c] => c
      | n => n
    size := if r.2 then t.size - 1 else t.size })

/-- `find(key)`: the value of `key` in the leaf the search reaches, by a scan of its keys. -/
def find (t : BPlusTree K V) (key : K) : Option V :=
  (t.root.descend key).bind fun l => l.entries.lookup key

/-- `contains(key)`. -/
def contains (t : BPlusTree K V) (key : K) : Bool := (t.find key).isSome

/-- `for_each(fn)`: the entries `fn` is called on, from the leftmost leaf along `next`. -/
def forEach (t : BPlusTree K V) : List (K × V) :=
  match t.root.leftmost with
  | none => []
  | some l => (walk t.root.leaves t.root.leaves.length l).flatMap Leaf.entries

/-- The entry loop of `range(lo, hi)`: return at the first key above `hi`, and keep the keys
from `lo` on. -/
def scan (lo hi : K) : List (K × V) → List (K × V)
  | [] => []
  | e :: es => if hi < e.1 then [] else if lo ≤ e.1 then e :: scan lo hi es else scan lo hi es

/-- `range(lo, hi)`: the scan of the entries from the leaf the search for `lo` reaches, along
`next`. -/
def range (t : BPlusTree K V) (lo hi : K) : List (K × V) :=
  match t.root.descend lo with
  | none => []
  | some l => scan lo hi ((walk t.root.leaves t.root.leaves.length l).flatMap Leaf.entries)

/-- A call on the tree. -/
inductive Call (K V : Type)
  | insert (key : K) (value : V)
  | erase (key : K)

/-- One call, for the tree's `ORDER`. -/
def Call.apply (order : Nat) (t : BPlusTree K V) : Call K V → BPlusTree K V
  | .insert k v => t.insert order k v
  | .erase k => (t.erase k).2

/-- The tree after `calls` from the empty tree. -/
def run (order : Nat) (calls : List (Call K V)) : BPlusTree K V :=
  calls.foldl (Call.apply order) empty

/-! ### The loops over children -/

section Children

variable {K V : Type}

theorem leaves_go (cs : List (Node K V)) : Node.leaves.go cs = cs.flatMap Node.leaves := by
  induction cs with
  | nil => rfl
  | cons c cs ih => rw [Node.leaves.go, ih, List.flatMap_cons]

@[simp] theorem leaves_leaf (l : Leaf K V) : (Node.leaf l).leaves = [l] := rfl

@[simp] theorem leaves_internal (ks : List K) (cs : List (Node K V)) :
    (Node.internal ks cs).leaves = cs.flatMap Node.leaves := by
  rw [Node.leaves, leaves_go]

end Children

section Order

variable {K V : Type} [LinearOrder K]

theorem descend_go (key : K) : ∀ (i : Nat) (cs : List (Node K V)),
    Node.descend.go key i cs = cs[i]?.bind (Node.descend key)
  | _, [] => by simp [Node.descend.go]
  | 0, _ :: _ => by simp [Node.descend.go]
  | i + 1, _ :: cs => by simp [Node.descend.go, descend_go key i cs]

theorem insertInternal_go (order : Nat) (key : K) (value : V) (addr : Nat) :
    ∀ (i : Nat) (cs : List (Node K V)), insertInternal.go order key value addr i cs =
      cs[i]?.map (insertInternal order key value addr)
  | _, [] => by simp [insertInternal.go]
  | 0, _ :: _ => by simp [insertInternal.go]
  | i + 1, _ :: cs => by simp [insertInternal.go, insertInternal_go order key value addr i cs]

theorem eraseInternal_go (key : K) : ∀ (i : Nat) (cs : List (Node K V)),
    eraseInternal.go key i cs = cs[i]?.map (eraseInternal key)
  | _, [] => by simp [eraseInternal.go]
  | 0, _ :: _ => by simp [eraseInternal.go]
  | i + 1, _ :: cs => by simp [eraseInternal.go, eraseInternal_go key i cs]

end Order

/-! ### Positions in a sorted list -/

section Position

variable {α : Type}

/-- The prefix of a list where `p` holds has length `n` when `p` holds below `n` and fails at
`n`. -/
theorem length_takeWhile_eq {p : α → Bool} : ∀ {l : List α} {n : Nat}, n ≤ l.length →
    (∀ i (hi : i < l.length), i < n → p l[i] = true) →
    (∀ hn : n < l.length, p l[n] = false) → (l.takeWhile p).length = n
  | [], _, hn, _, _ => by simp_all
  | a :: l, 0, _, _, h₂ => by
    have ha : p a = false := h₂ (by simp)
    simp [List.takeWhile_cons, ha]
  | a :: l, n + 1, hn, h₁, h₂ => by
    have ha : p a = true := by simpa using h₁ 0 (by simp) (by omega)
    rw [List.takeWhile_cons, if_pos ha, List.length_cons,
      length_takeWhile_eq (n := n) (by simpa using hn)
        (fun i hi hin => by simpa using h₁ (i + 1) (by simp; omega) (by omega))
        (fun hn' => by simpa using h₂ (by simp; omega))]

theorem getElem?_length_append (A B : List α) : (A ++ B)[A.length]? = B.head? := by
  rw [List.getElem?_append_right le_rfl, Nat.sub_self, List.head?_eq_getElem?]

theorem insertIdx_length_append (A B : List α) (x : α) :
    (A ++ B).insertIdx A.length x = A ++ x :: B := by
  induction A with
  | nil => rfl
  | cons a A ih => rw [List.cons_append, List.length_cons, List.insertIdx_succ_cons, ih]; rfl

theorem set_length_append (A B : List α) (e x : α) :
    (A ++ e :: B).set A.length x = A ++ x :: B := by
  simp

theorem eraseIdx_length_append (A B : List α) (e : α) :
    (A ++ e :: B).eraseIdx A.length = A ++ B := by
  rw [List.eraseIdx_append_of_length_le le_rfl, Nat.sub_self, List.eraseIdx_cons_zero]

theorem insertIdx_eq_take_drop (l : List α) (x : α) {i : Nat} (hi : i ≤ l.length) :
    l.insertIdx i x = l.take i ++ x :: l.drop i := by
  have h := insertIdx_length_append (l.take i) (l.drop i) x
  rwa [List.take_append_drop, List.length_take, min_eq_left hi] at h

theorem set_eq_take_drop (l : List α) (x : α) {i : Nat} (hi : i < l.length) :
    l.set i x = l.take i ++ x :: l.drop (i + 1) := by
  conv_lhs => rw [← List.take_append_drop i l, List.drop_eq_getElem_cons hi]
  rw [List.set_append_right _ _ (by simp), List.length_take, min_eq_left hi.le, Nat.sub_self,
    List.set_cons_zero]

theorem insertIdx_set (l : List α) (x y : α) {i : Nat} (hi : i < l.length) :
    (l.set i x).insertIdx (i + 1) y = l.take i ++ x :: y :: l.drop (i + 1) := by
  have h := insertIdx_length_append (l.take i ++ [x]) (l.drop (i + 1)) y
  rw [List.length_append, List.length_take, min_eq_left hi.le, List.length_singleton] at h
  rw [set_eq_take_drop l x hi, ← List.singleton_append, ← List.append_assoc, h]
  simp

end Position

/-! ### `upper_bound_idx` -/

section UpperBound

variable {K : Type} [LinearOrder K]

theorem sorted_getElem_le {l : List K} (hs : l.Sorted (· ≤ ·)) {i j : Nat} (hij : i ≤ j)
    (hi : i < l.length) (hj : j < l.length) : l[i] ≤ l[j] :=
  hs.rel_get_of_le (show (⟨i, hi⟩ : Fin l.length) ≤ ⟨j, hj⟩ from hij)

/-- The binary search keeps `keys[j] <= key` below `lo` and `key < keys[j]` from `hi` on, so on a
sorted list it stops at the length of the prefix of keys `<= key`. -/
theorem upperBoundLoop_eq {ks : List K} {key : K} (hs : ks.Sorted (· ≤ ·)) :
    ∀ (fuel lo hi : Nat), lo ≤ hi → hi ≤ ks.length → hi - lo ≤ fuel →
      (∀ j (hj : j < ks.length), j < lo → ks[j] ≤ key) →
      (∀ j (hj : j < ks.length), hi ≤ j → key < ks[j]) →
      upperBoundLoop ks key fuel lo hi = (ks.takeWhile (· ≤ key)).length := by
  have finish : ∀ lo, lo ≤ ks.length → (∀ j (hj : j < ks.length), j < lo → ks[j] ≤ key) →
      (∀ j (hj : j < ks.length), lo ≤ j → key < ks[j]) →
      lo = (ks.takeWhile (· ≤ key)).length := fun lo hlen h₁ h₂ =>
    (length_takeWhile_eq hlen (fun i hi hil => by simpa using h₁ i hi hil)
      (fun hn => by simpa using h₂ lo hn le_rfl)).symm
  intro fuel
  induction fuel with
  | zero =>
    intro lo hi hle hhi hf h₁ h₂
    exact finish lo (by omega) h₁ fun j hj hj' => h₂ j hj (by omega)
  | succ fuel ih =>
    intro lo hi hle hhi hf h₁ h₂
    rw [upperBoundLoop]
    split
    · rename_i hlt
      have hmid : (lo + hi) / 2 < ks.length := by omega
      simp only [List.getElem?_eq_getElem hmid]
      split
      · rename_i hk
        exact ih _ _ (by omega) hhi (by omega)
          (fun j hj hj' => (sorted_getElem_le hs (by omega) hj hmid).trans hk) h₂
      · rename_i hk
        exact ih _ _ (by omega) (by omega) (by omega) h₁
          (fun j hj hj' => lt_of_lt_of_le (not_le.1 hk) (sorted_getElem_le hs hj' hmid hj))
    · exact finish lo (by omega) h₁ fun j hj hj' => h₂ j hj (by omega)

theorem upperBoundLoop_le (ks : List K) (key : K) :
    ∀ (fuel lo hi : Nat), lo ≤ hi → upperBoundLoop ks key fuel lo hi ≤ hi
  | 0, _, _, h => h
  | fuel + 1, lo, hi, h => by
    rw [upperBoundLoop]
    split
    · dsimp only
      split
      · split
        · exact upperBoundLoop_le ks key fuel _ _ (by omega)
        · exact (upperBoundLoop_le ks key fuel _ _ (by omega)).trans (by omega)
      · exact h
    · exact h

theorem upperBoundIdx_le (ks : List K) (key : K) : upperBoundIdx ks key ≤ ks.length :=
  upperBoundLoop_le ks key _ _ _ (Nat.zero_le _)

/-- On sorted separators, `upper_bound_idx` counts the leading separators `<= key`. -/
theorem upperBoundIdx_eq {ks : List K} (hs : ks.Sorted (· ≤ ·)) (key : K) :
    upperBoundIdx ks key = (ks.takeWhile (· ≤ key)).length :=
  upperBoundLoop_eq hs _ _ _ (Nat.zero_le _) le_rfl (by omega) (fun _ _ h => absurd h (by omega))
    (fun _ _ h => absurd h (by omega))

end UpperBound

end BPlusTree

end FileBackup
