import FileBackup.Basic
import Mathlib.Data.List.GetD

/-!
# `HashMap<K, V>` (`priority_queue.h`)

An open-addressing table with linear probing and tombstones that doubles through `rehash` when
its load factor passes `0.7`. It refines a finite map:

* `Slot`: a slot's `State` with its bucket; the code reads a bucket only where the state is
  `OCCUPIED`, so `states_` and `buckets_` are one list of slots here;
* `probe` and `findIdx` (the probing loops), `place` (the write half of `insert`), `insertAux`
  (`insert` with the `rehash` it may start), `find`, `contains`, `erase`, `clear`, `forEach`;
* `Inv`: the slots fill the capacity, a power of two; `size_` counts the occupied slots; no key
  is stored twice; and every stored key is reached from its hash without crossing an `EMPTY`
  slot (`Reaches`);
* `hashMap_refines`: from any initial capacity and after any sequence of `insert`, `erase` and
  `clear`, `find` is the lookup of the `AList` built by the same calls, `contains` agrees with
  it, `size()` is its number of entries, and `for_each` visits each of its entries once.

`load_factor() > 0.7` divides `size_` by a power-of-two `capacity_`, exactly for capacities up
to `2^53`, and no such quotient lies between `0.7` and the double nearest it, which is below it:
the check is `10 * size_ > 7 * capacity_`. A `rehash` starts from twice the capacity, so its own
`insert`s never rehash (`insertAux_depth`). `std::hash<K>` is any function `hash : K → Nat`.
-/

namespace FileBackup

/-- A slot: its `State`, with its bucket when `OCCUPIED`. -/
inductive Slot (K V : Type)
  | empty
  | occupied (key : K) (value : V)
  | deleted
  deriving DecidableEq

namespace Slot

variable {K V : Type}

/-- `states_[i] == State::OCCUPIED`. -/
def isOccupied : Slot K V → Bool
  | occupied _ _ => true
  | _ => false

/-- The entry an occupied slot holds. -/
def entry : Slot K V → Option (K × V)
  | occupied k v => some (k, v)
  | _ => none

@[simp] theorem entry_eq_some {s : Slot K V} {k : K} {v : V} :
    s.entry = some (k, v) ↔ s = occupied k v := by
  cases s <;> simp [entry]

theorem isSome_entry (s : Slot K V) : s.entry.isSome = s.isOccupied := by
  cases s <;> rfl

end Slot

/-- `HashMap<K, V>`: `size_`, `capacity_`, and `states_` with `buckets_`. -/
structure HashMap (K V : Type) where
  size : Nat
  capacity : Nat
  slots : List (Slot K V)

namespace HashMap

variable {K V : Type} [DecidableEq K] (hash : K → Nat)

/-- `states_[i]` with `buckets_[i]`. -/
def slot (m : HashMap K V) (i : Nat) : Slot K V := m.slots.getD i .empty

/-- `next_pow2(n)`: `p <<= 1` from `1` while `p < n`, the loop of `Nat.nextPowerOfTwo`. -/
def nextPow2 (n : Nat) : Nat := n.nextPowerOfTwo

/-- A table of `cap` empty slots: the constructor's, and the one `rehash(new_cap)` refills. -/
def fresh (cap : Nat) : HashMap K V := ⟨0, cap, List.replicate cap .empty⟩

/-- The constructor `HashMap(initial_cap)`. -/
def new (initialCap : Nat) : HashMap K V := fresh (nextPow2 initialCap)

/-- `hash_key(key)`. -/
def hashKey (m : HashMap K V) (k : K) : Nat := hash k &&& (m.capacity - 1)

/-- `load_factor() > 0.7`. -/
def overloaded (m : HashMap K V) : Bool := 10 * m.size > 7 * m.capacity

/-- The loop of `probe(key)` from round `i` with `n` rounds left and `first_deleted` so far,
probing from `idx`. -/
def probeLoop (m : HashMap K V) (k : K) (idx : Nat) : Nat → Nat → Nat → Nat
  | firstDeleted, _, 0 => if firstDeleted ≠ m.capacity then firstDeleted else 0
  | firstDeleted, i, n + 1 =>
    let pos := (idx + i) &&& (m.capacity - 1)
    match m.slot pos with
    | .empty => if firstDeleted ≠ m.capacity then firstDeleted else pos
    | .deleted =>
      probeLoop m k idx (if firstDeleted = m.capacity then pos else firstDeleted) (i + 1) n
    | .occupied key _ => if key = k then pos else probeLoop m k idx firstDeleted (i + 1) n

/-- `probe(key)`: the slot `insert` writes. -/
def probe (m : HashMap K V) (k : K) : Nat := probeLoop m k (hashKey hash m k) m.capacity 0 m.capacity

/-- The loop of `find_idx(key)` from round `i` with `n` rounds left, probing from `idx`. -/
def findIdxLoop (m : HashMap K V) (k : K) (idx : Nat) : Nat → Nat → Nat
  | _, 0 => m.capacity
  | i, n + 1 =>
    let pos := (idx + i) &&& (m.capacity - 1)
    match m.slot pos with
    | .empty => m.capacity
    | .deleted => findIdxLoop m k idx (i + 1) n
    | .occupied key _ => if key = k then pos else findIdxLoop m k idx (i + 1) n

/-- `find_idx(key)`: the slot holding `key`, or `capacity_`. -/
def findIdx (m : HashMap K V) (k : K) : Nat := findIdxLoop m k (hashKey hash m k) 0 m.capacity

/-- `find(key)`. -/
def find (m : HashMap K V) (k : K) : Option V :=
  if findIdx hash m k = m.capacity then none
  else match m.slot (findIdx hash m k) with
    | .occupied _ v => some v
    | _ => none

/-- `contains(key)`. -/
def contains (m : HashMap K V) (k : K) : Bool := findIdx hash m k ≠ m.capacity

/-- `insert` after its load check: write `{key, value}` at `probe(key)`, counting a new key. -/
def place (m : HashMap K V) (k : K) (v : V) : HashMap K V :=
  let idx := probe hash m k
  match m.slot idx with
  | .occupied key _ =>
    if key = k then { m with slots := m.slots.set idx (.occupied k v) }
    else { m with slots := m.slots.set idx (.occupied k v), size := m.size + 1 }
  | _ => { m with slots := m.slots.set idx (.occupied k v), size := m.size + 1 }

/-- `for_each(fn)`: the entries of the occupied slots, in slot order. -/
def forEach (m : HashMap K V) : List (K × V) := m.slots.filterMap Slot.entry

/-- `rehash(new_cap)`: the old entries, in slot order, put by `ins` into `new_cap` empty
slots. -/
def rehash (ins : HashMap K V → K → V → HashMap K V) (m : HashMap K V) (newCap : Nat) :
    HashMap K V :=
  m.forEach.foldl (fun acc e => ins acc e.1 e.2) (fresh newCap)

/-- `insert(key, value)` made `d` calls deep inside `rehash`: the load check, the
`rehash(capacity_ * 2)` it may start, whose own `insert`s are one level deeper, then `place`.
At depth `0` the check is left out. -/
def insertAux : Nat → HashMap K V → K → V → HashMap K V
  | 0, m, k, v => place hash m k v
  | d + 1, m, k, v =>
    place hash (if overloaded m then rehash (insertAux d) m (m.capacity * 2) else m) k v

/-- `insert(key, value)`. -/
def insert (m : HashMap K V) (k : K) (v : V) : HashMap K V := insertAux hash 1 m k v

/-- `erase(key)`: mark the key's slot `DELETED`. -/
def erase (m : HashMap K V) (k : K) : Bool × HashMap K V :=
  let idx := findIdx hash m k
  if idx = m.capacity then (false, m)
  else (true, { m with slots := m.slots.set idx .deleted, size := m.size - 1 })

/-- `clear()`: every slot `EMPTY`, `size_ = 0`. -/
def clear (m : HashMap K V) : HashMap K V :=
  { m with slots := m.slots.map fun _ => .empty, size := 0 }

/-- A call that changes the map. -/
inductive Call (K V : Type)
  | insert (k : K) (v : V)
  | erase (k : K)
  | clear

/-- One call on the table. -/
def Call.apply (m : HashMap K V) : Call K V → HashMap K V
  | .insert k v => HashMap.insert hash m k v
  | .erase k => (HashMap.erase hash m k).2
  | .clear => HashMap.clear m

/-- The same call on the finite map. -/
def Call.model (s : AList fun _ : K => V) : Call K V → AList fun _ : K => V
  | .insert k v => s.insert k v
  | .erase k => s.erase k
  | .clear => ∅

/-- The table after a sequence of calls. -/
def run (m : HashMap K V) (calls : List (Call K V)) : HashMap K V := calls.foldl (Call.apply hash) m

/-! ### The invariant -/

/-- `k` is stored with value `v`. -/
def Stored (m : HashMap K V) (k : K) (v : V) : Prop :=
  ∃ p : Nat, m.slots[p]? = some (Slot.occupied k v)

/-- Probing for `k` from its hash reaches slot `p` without crossing an `EMPTY` slot. -/
def Reaches (m : HashMap K V) (k : K) (p : Nat) : Prop :=
  ∃ d < m.capacity, (hash k + d) % m.capacity = p ∧
    ∀ j < d, m.slot ((hash k + j) % m.capacity) ≠ .empty

/-- The representation invariant. -/
structure Inv (m : HashMap K V) : Prop where
  length_slots : m.slots.length = m.capacity
  pow2 : m.capacity.isPowerOfTwo
  size_eq : m.size = m.slots.countP Slot.isOccupied
  unique : ∀ (p p' : Nat) (k : K) (v v' : V), m.slots[p]? = some (Slot.occupied k v) →
    m.slots[p']? = some (Slot.occupied k v') → p = p'
  reaches : ∀ (p : Nat) (k : K) (v : V), m.slots[p]? = some (Slot.occupied k v) →
    Reaches hash m k p

/-- The rounds of a probe for `k` before round `d` meet no `EMPTY` slot and no `k`. -/
def Clear (m : HashMap K V) (k : K) (d : Nat) : Prop :=
  ∀ j < d, m.slot ((hash k + j) % m.capacity) ≠ .empty ∧
    ∀ v, m.slot ((hash k + j) % m.capacity) ≠ .occupied k v

/-- What the rounds of `probe` before `i` have seen: only `OCCUPIED` slots, or a `DELETED`
`first_deleted` that probing for `k` reaches. -/
def ProbeSeen (m : HashMap K V) (k : K) (i fd : Nat) : Prop :=
  (fd = m.capacity ∧ ∀ j < i, (m.slot ((hash k + j) % m.capacity)).isOccupied = true) ∨
    (m.slot fd = .deleted ∧ Reaches hash m k fd)

variable {hash}

omit [DecidableEq K] in
theorem Inv.capacity_pos {m : HashMap K V} (hm : Inv hash m) : 0 < m.capacity :=
  Nat.pos_of_isPowerOfTwo hm.pow2

omit [DecidableEq K] in
/-- Round `i` of either loop looks at slot `(hash k + i) % capacity_`. -/
theorem Inv.pos_eq {m : HashMap K V} (hm : Inv hash m) (k : K) (i : Nat) :
    (hashKey hash m k + i) &&& (m.capacity - 1) = (hash k + i) % m.capacity := by
  obtain ⟨e, he⟩ := hm.pow2
  rw [hashKey, he, Nat.and_pow_two_sub_one_eq_mod, Nat.and_pow_two_sub_one_eq_mod, Nat.mod_add_mod]

omit [DecidableEq K] in
theorem slot_eq {m : HashMap K V} {p : Nat} {s : Slot K V} (h : m.slots[p]? = some s) :
    m.slot p = s := by
  simp [slot, h]

omit [DecidableEq K] in
theorem getElem?_eq_of_slot {m : HashMap K V} {p : Nat} {s : Slot K V} (hp : p < m.slots.length)
    (h : m.slot p = s) : m.slots[p]? = some s := by
  rw [← h, slot, List.getD_eq_getElem?_getD, List.getElem?_eq_getElem hp]; rfl

omit [DecidableEq K] in
theorem Inv.mod_lt_length {m : HashMap K V} (hm : Inv hash m) (x : Nat) :
    x % m.capacity < m.slots.length := by
  rw [hm.length_slots]; exact Nat.mod_lt _ hm.capacity_pos

omit [DecidableEq K] in
theorem Reaches.lt {m : HashMap K V} {k : K} {p : Nat} (h : Reaches hash m k p) (hpos : 0 < m.capacity) :
    p < m.capacity := by
  obtain ⟨d, -, rfl, -⟩ := h; exact Nat.mod_lt _ hpos

omit [DecidableEq K] in
theorem ne_empty_of_isOccupied {s : Slot K V} (h : s.isOccupied = true) : s ≠ .empty := by
  rintro rfl; cases h

/-! ### The probing loops -/

/-- `find_idx` does not find a key that is not stored. -/
theorem findIdxLoop_of_not_stored {m : HashMap K V} (hm : Inv hash m) {k : K}
    (hk : ∀ v, ¬ Stored m k v) (i n : Nat) : findIdxLoop m k (hashKey hash m k) i n = m.capacity := by
  induction n generalizing i with
  | zero => rfl
  | succ n ih =>
    simp only [findIdxLoop, hm.pos_eq]
    split
    · rfl
    · exact ih _
    · rename_i key v hs
      split_ifs with hkey
      · exact absurd ⟨_, getElem?_eq_of_slot (hm.mod_lt_length _) (hkey ▸ hs)⟩ (hk v)
      · exact ih _

/-- `find_idx` finds a stored key at the round that reaches it. -/
theorem findIdxLoop_of_clear {m : HashMap K V} (hm : Inv hash m) {k : K} {v : V} {d : Nat}
    (hs : m.slot ((hash k + d) % m.capacity) = .occupied k v) (hpre : Clear hash m k d) (n : Nat) :
    ∀ i, i ≤ d → d < i + n →
      findIdxLoop m k (hashKey hash m k) i n = (hash k + d) % m.capacity := by
  induction n with
  | zero => intro i hi hn; omega
  | succ n ih =>
    intro i hi hn
    simp only [findIdxLoop, hm.pos_eq]
    rcases Nat.lt_or_eq_of_le hi with hi | rfl
    · obtain ⟨hne, hnk⟩ := hpre i hi
      split
      · contradiction
      · exact ih _ (by omega) (by omega)
      · rename_i key v' heq
        split_ifs with hkey
        · exact absurd (hkey ▸ heq) (hnk v')
        · exact ih _ (by omega) (by omega)
    · simp [hs]

/-- `probe` answers the slot of a stored key, whatever `first_deleted` it has seen. -/
theorem probeLoop_of_clear {m : HashMap K V} (hm : Inv hash m) {k : K} {v : V} {d : Nat}
    (hs : m.slot ((hash k + d) % m.capacity) = .occupied k v) (hpre : Clear hash m k d) (n : Nat) :
    ∀ i fd, i ≤ d → d < i + n →
      probeLoop m k (hashKey hash m k) fd i n = (hash k + d) % m.capacity := by
  induction n with
  | zero => intro i fd hi hn; omega
  | succ n ih =>
    intro i fd hi hn
    simp only [probeLoop, hm.pos_eq]
    rcases Nat.lt_or_eq_of_le hi with hi | rfl
    · obtain ⟨hne, hnk⟩ := hpre i hi
      split
      · contradiction
      · exact ih _ _ (by omega) (by omega)
      · rename_i key v' heq
        split_ifs with hkey
        · exact absurd (hkey ▸ heq) (hnk v')
        · exact ih _ _ (by omega) (by omega)
    · simp [hs]

/-- `probe` for a key that is not stored answers a free slot that probing for the key reaches,
when some slot is free. -/
theorem probeLoop_of_not_stored {m : HashMap K V} (hm : Inv hash m) {k : K}
    (hk : ∀ v, ¬ Stored m k v)
    (hroom : ∃ j < m.capacity, (m.slot ((hash k + j) % m.capacity)).isOccupied = false) (n : Nat) :
    ∀ i fd, i + n = m.capacity → ProbeSeen hash m k i fd →
      let q := probeLoop m k (hashKey hash m k) fd i n
      (m.slot q).isOccupied = false ∧ Reaches hash m k q := by
  have hpos := hm.capacity_pos
  -- a `DELETED` `first_deleted` is the answer
  have hfd : ∀ fd, m.slot fd = .deleted → Reaches hash m k fd →
      (m.slot fd).isOccupied = false ∧ Reaches hash m k fd := fun fd h hr => ⟨by rw [h]; rfl, hr⟩
  induction n with
  | zero =>
    rintro i fd hi (⟨-, hall⟩ | ⟨hdel, hr⟩)
    · obtain ⟨j, hj, hfree⟩ := hroom
      simp [hall j (by omega)] at hfree
    · simp only [probeLoop, if_pos (hr.lt hpos).ne]
      exact hfd fd hdel hr
  | succ n ih =>
    rintro i fd hi hseen
    simp only [probeLoop, hm.pos_eq]
    split
    · rename_i hempty
      rcases hseen with ⟨rfl, hall⟩ | ⟨hdel, hr⟩
      · simp only [ne_eq, not_true_eq_false, if_false]
        exact ⟨by rw [hempty]; rfl,
          ⟨i, by omega, rfl, fun j hj => ne_empty_of_isOccupied (hall j hj)⟩⟩
      · rw [if_pos (hr.lt hpos).ne]; exact hfd fd hdel hr
    · rename_i hdel
      refine ih _ _ (by omega) (.inr ?_)
      rcases hseen with ⟨rfl, hall⟩ | ⟨hdel', hr⟩
      · rw [if_pos rfl]
        exact ⟨hdel, i, by omega, rfl, fun j hj => ne_empty_of_isOccupied (hall j hj)⟩
      · rw [if_neg (hr.lt hpos).ne]; exact ⟨hdel', hr⟩
    · rename_i key v hocc
      split_ifs with hkey
      · exact absurd ⟨_, getElem?_eq_of_slot (hm.mod_lt_length _) (hkey ▸ hocc)⟩ (hk v)
      · refine ih _ _ (by omega) ?_
        rcases hseen with ⟨rfl, hall⟩ | h
        · refine .inl ⟨rfl, fun j hj => ?_⟩
          rcases Nat.lt_succ_iff_lt_or_eq.1 hj with hj | rfl
          · exact hall j hj
          · rw [hocc]; rfl
        · exact .inr h

/-! ### Writing one slot -/

omit [DecidableEq K] in
theorem getD_set {l : List (Slot K V)} {q : Nat} (hq : q < l.length) (x : Slot K V) (i : Nat) :
    (l.set q x).getD i .empty = if i = q then x else l.getD i .empty := by
  by_cases hi : i = q
  · subst hi; simp [hq]
  · simp [List.getElem?_set, Ne.symm hi, hi]

omit [DecidableEq K] in
theorem getElem?_set_eq_some {l : List (Slot K V)} {q p : Nat} (hq : q < l.length) {x s : Slot K V} :
    (l.set q x)[p]? = some s ↔ p = q ∧ x = s ∨ p ≠ q ∧ l[p]? = some s := by
  by_cases hp : p = q
  · subst hp; simp [hq]
  · simp [List.getElem?_set, Ne.symm hp, hp]

omit [DecidableEq K] in
theorem stored_set {m : HashMap K V} {q : Nat} (hq : q < m.slots.length) (x : Slot K V) (sz : Nat)
    {k : K} {v : V} :
    Stored (⟨sz, m.capacity, m.slots.set q x⟩ : HashMap K V) k v ↔
      x = .occupied k v ∨ ∃ p, p ≠ q ∧ m.slots[p]? = some (.occupied k v) := by
  constructor
  · rintro ⟨p, hp⟩
    rcases (getElem?_set_eq_some hq).1 hp with ⟨-, h⟩ | ⟨hpq, hpo⟩
    · exact .inl h
    · exact .inr ⟨p, hpq, hpo⟩
  · rintro (rfl | ⟨p, hpq, hp⟩)
    · exact ⟨q, (getElem?_set_eq_some hq).2 (.inl ⟨rfl, rfl⟩)⟩
    · exact ⟨p, (getElem?_set_eq_some hq).2 (.inr ⟨hpq, hp⟩)⟩

omit [DecidableEq K] in
theorem Reaches.set {m : HashMap K V} {k : K} {p q : Nat} (hr : Reaches hash m k p)
    (hq : q < m.slots.length) {x : Slot K V} (hx : x ≠ .empty) (sz : Nat) :
    Reaches hash (⟨sz, m.capacity, m.slots.set q x⟩ : HashMap K V) k p := by
  obtain ⟨d, hd, hpd, hpre⟩ := hr
  refine ⟨d, hd, hpd, fun j hj => ?_⟩
  simp only [slot, getD_set hq]
  split_ifs
  · exact hx
  · exact hpre j hj

omit [DecidableEq K] in
/-- Writing a slot that is not `EMPTY` keeps the invariant, when `size_` moves with the occupied
slots and a key written is reached and stored nowhere else. -/
theorem Inv.set {m : HashMap K V} (hm : Inv hash m) {q : Nat} (hq : q < m.capacity) {x : Slot K V}
    (hx : x ≠ .empty) {sz : Nat}
    (hsize : sz + (if (m.slot q).isOccupied then 1 else 0) = m.size + (if x.isOccupied then 1 else 0))
    (hnew : ∀ k v, x = .occupied k v →
      Reaches hash m k q ∧ ∀ p v', m.slots[p]? = some (.occupied k v') → p = q) :
    Inv hash (⟨sz, m.capacity, m.slots.set q x⟩ : HashMap K V) := by
  have hql : q < m.slots.length := hm.length_slots ▸ hq
  refine ⟨by simp [hm.length_slots], hm.pow2, ?_, ?_, ?_⟩
  · have := List.boole_getElem_le_countP Slot.isOccupied m.slots q hql
    have e : m.slot q = m.slots[q] := by simp [slot, hql]
    simp only [List.countP_set _ _ _ _ hql]
    rw [e, hm.size_eq] at hsize
    omega
  · intro p p' k v v' hp hp'
    rcases (getElem?_set_eq_some hql).1 hp with ⟨rfl, h⟩ | ⟨hpq, hpo⟩
    · rcases (getElem?_set_eq_some hql).1 hp' with ⟨rfl, -⟩ | ⟨hpq', hpo'⟩
      · rfl
      · exact absurd ((hnew k v h).2 _ _ hpo') hpq'
    · rcases (getElem?_set_eq_some hql).1 hp' with ⟨rfl, h⟩ | ⟨-, hpo'⟩
      · exact absurd ((hnew k v' h).2 _ _ hpo) hpq
      · exact hm.unique _ _ _ _ _ hpo hpo'
  · intro p k v hp
    rcases (getElem?_set_eq_some hql).1 hp with ⟨rfl, rfl⟩ | ⟨-, hp⟩
    · exact (hnew k v rfl).1.set hql hx sz
    · exact (hm.reaches p k v hp).set hql hx sz

omit [DecidableEq K] in
/-- A stored key is reached through slots that are not `EMPTY` and hold no other copy of it. -/
theorem Inv.clear_of_stored {m : HashMap K V} (hm : Inv hash m) {k : K} {v : V} {p : Nat}
    (hs : m.slots[p]? = some (.occupied k v)) :
    ∃ d < m.capacity, (hash k + d) % m.capacity = p ∧ Clear hash m k d := by
  obtain ⟨d, hd, rfl, hpre⟩ := hm.reaches p k v hs
  refine ⟨d, hd, rfl, fun j hj => ⟨hpre j hj, fun v' h => ?_⟩⟩
  have := hm.unique _ _ k v' v (getElem?_eq_of_slot (hm.mod_lt_length _) h) hs
  exact absurd (add_mod_inj (by omega) hd this) (by omega)

theorem probe_of_stored {m : HashMap K V} (hm : Inv hash m) {k : K} {v : V} {p : Nat}
    (hs : m.slots[p]? = some (.occupied k v)) : probe hash m k = p := by
  obtain ⟨d, hd, rfl, hpre⟩ := hm.clear_of_stored hs
  exact probeLoop_of_clear hm (slot_eq hs) hpre _ _ _ (Nat.zero_le _) (by omega)

theorem findIdx_of_stored {m : HashMap K V} (hm : Inv hash m) {k : K} {v : V} {p : Nat}
    (hs : m.slots[p]? = some (.occupied k v)) : findIdx hash m k = p := by
  obtain ⟨d, hd, rfl, hpre⟩ := hm.clear_of_stored hs
  exact findIdxLoop_of_clear hm (slot_eq hs) hpre _ _ (Nat.zero_le _) (by omega)

omit [DecidableEq K] in
/-- With `size_` below the capacity some slot is free, and probing for any key meets it. -/
theorem Inv.exists_free {m : HashMap K V} (hm : Inv hash m) (hroom : m.size < m.capacity) (k : K) :
    ∃ j < m.capacity, (m.slot ((hash k + j) % m.capacity)).isOccupied = false := by
  have : ∃ s ∈ m.slots, s.isOccupied = false := by
    by_contra hne
    simp only [not_exists, not_and, Bool.not_eq_false] at hne
    have := List.countP_eq_length.2 hne
    rw [← hm.size_eq, hm.length_slots] at this
    omega
  obtain ⟨s, hs, hfree⟩ := this
  obtain ⟨q, hq, rfl⟩ := List.getElem_of_mem hs
  obtain ⟨j, hj, hjq⟩ := exists_add_mod_eq (h := hash k) (hm.length_slots ▸ hq)
  refine ⟨j, hj, ?_⟩
  rwa [hjq, slot, List.getD_eq_getElem _ _ hq]

theorem place_of_stored {m : HashMap K V} (hm : Inv hash m) {k : K} {v₀ : V} {p : Nat}
    (hs : m.slots[p]? = some (.occupied k v₀)) (v : V) :
    place hash m k v = { m with slots := m.slots.set p (.occupied k v) } := by
  simp [place, probe_of_stored hm hs, slot_eq hs]

theorem place_of_not_stored {m : HashMap K V} (hm : Inv hash m) {k : K} (hk : ∀ v, ¬ Stored m k v)
    (hroom : m.size < m.capacity) (v : V) :
    (m.slot (probe hash m k)).isOccupied = false ∧ Reaches hash m k (probe hash m k) ∧
      place hash m k v =
        { m with slots := m.slots.set (probe hash m k) (.occupied k v), size := m.size + 1 } := by
  obtain ⟨hfree, hr⟩ := probeLoop_of_not_stored hm hk (hm.exists_free hroom k) m.capacity 0
    m.capacity (Nat.zero_add _) (.inl ⟨rfl, nofun⟩)
  change (m.slot (probe hash m k)).isOccupied = false at hfree
  refine ⟨hfree, hr, ?_⟩
  unfold place
  dsimp only
  split
  · rename_i heq; rw [heq] at hfree; cases hfree
  · rfl

omit [DecidableEq K] in
theorem Inv.one_le_size {m : HashMap K V} (hm : Inv hash m) {k : K} {v : V} (hs : Stored m k v) :
    1 ≤ m.size := by
  obtain ⟨p, hp⟩ := hs
  rw [hm.size_eq, Nat.one_le_iff_ne_zero, Ne, List.countP_eq_zero, not_forall]
  exact ⟨_, fun h => h (List.mem_iff_getElem?.2 ⟨p, hp⟩) rfl⟩

omit [DecidableEq K] in
theorem Inv.size_le {m : HashMap K V} (hm : Inv hash m) : m.size ≤ m.capacity := by
  rw [hm.size_eq, ← hm.length_slots]; exact List.countP_le_length _

theorem capacity_place (m : HashMap K V) (k : K) (v : V) : (place hash m k v).capacity = m.capacity := by
  unfold place; dsimp only; split <;> (try split) <;> rfl

/-- `place` stores `k ↦ v` over any old value of `k` and keeps the invariant, when some slot is
free. -/
theorem place_spec {m : HashMap K V} (hm : Inv hash m) (hroom : m.size < m.capacity) (k : K) (v : V) :
    Inv hash (place hash m k v) ∧
      ∀ k' v', Stored (place hash m k v) k' v' ↔ k' = k ∧ v' = v ∨ k' ≠ k ∧ Stored m k' v' := by
  by_cases hst : ∃ v₀, Stored m k v₀
  · obtain ⟨v₀, p, hs⟩ := hst
    have hpl : p < m.slots.length := (List.getElem?_eq_some_iff.1 hs).1
    rw [place_of_stored hm hs]
    refine ⟨hm.set (hm.length_slots ▸ hpl) (by simp) (by simp [slot_eq hs, Slot.isOccupied]) ?_,
      fun k' v' => ?_⟩
    · rintro k' v' ⟨⟩
      exact ⟨hm.reaches p k v₀ hs, fun p' v'' hp' => hm.unique _ _ _ _ _ hp' hs⟩
    · rw [stored_set hpl]
      constructor
      · rintro (h | ⟨p', hp'p, hp'⟩)
        · obtain ⟨rfl, rfl⟩ := Slot.occupied.inj h; exact .inl ⟨rfl, rfl⟩
        · refine .inr ⟨fun hk => hp'p ?_, p', hp'⟩
          subst hk; exact hm.unique _ _ _ _ _ hp' hs
      · rintro (⟨rfl, rfl⟩ | ⟨hk, p', hp'⟩)
        · exact .inl rfl
        · refine .inr ⟨p', fun hpp => hk ?_, hp'⟩
          subst hpp; rw [hs] at hp'; cases hp'; rfl
  · push_neg at hst
    obtain ⟨hfree, hr, he⟩ := place_of_not_stored hm hst hroom v
    have hq := hr.lt hm.capacity_pos
    have hql : probe hash m k < m.slots.length := hm.length_slots ▸ hq
    rw [he]
    refine ⟨hm.set hq (by simp) (by rw [hfree]; rfl) ?_, fun k' v' => ?_⟩
    · rintro k' v' ⟨⟩
      exact ⟨hr, fun p v'' hp => absurd ⟨p, hp⟩ (hst v'')⟩
    · rw [stored_set hql]
      constructor
      · rintro (h | ⟨p', -, hp'⟩)
        · obtain ⟨rfl, rfl⟩ := Slot.occupied.inj h; exact .inl ⟨rfl, rfl⟩
        · exact .inr ⟨fun hk => hst v' (hk ▸ ⟨p', hp'⟩), p', hp'⟩
      · rintro (⟨rfl, rfl⟩ | ⟨-, p', hp'⟩)
        · exact .inl rfl
        · refine .inr ⟨p', fun hpp => ?_, hp'⟩
          subst hpp; rw [slot_eq hp'] at hfree; cases hfree

/-- `erase` answers whether the key is stored, unstores it and keeps the invariant. -/
theorem erase_spec {m : HashMap K V} (hm : Inv hash m) (k : K) :
    Inv hash (erase hash m k).2 ∧ ((erase hash m k).1 = true ↔ ∃ v, Stored m k v) ∧
      ∀ k' v', Stored (erase hash m k).2 k' v' ↔ k' ≠ k ∧ Stored m k' v' := by
  by_cases hst : ∃ v₀, Stored m k v₀
  · obtain ⟨v₀, p, hs⟩ := hst
    have hpl : p < m.slots.length := (List.getElem?_eq_some_iff.1 hs).1
    have hp : p ≠ m.capacity := by rw [← hm.length_slots]; omega
    have h1 := hm.one_le_size ⟨p, hs⟩
    simp only [erase, findIdx_of_stored hm hs, if_neg hp]
    refine ⟨hm.set (hm.length_slots ▸ hpl) (by simp) ?_ (by simp), iff_of_true trivial ⟨v₀, p, hs⟩,
      fun k' v' => ?_⟩
    · simp [slot_eq hs, Slot.isOccupied]; omega
    · rw [stored_set hpl]
      constructor
      · rintro (h | ⟨p', hp'p, hp'⟩)
        · cases h
        refine ⟨fun hk => hp'p ?_, p', hp'⟩
        subst hk; exact hm.unique _ _ _ _ _ hp' hs
      · rintro ⟨hk, p', hp'⟩
        refine .inr ⟨p', fun hpp => hk ?_, hp'⟩
        subst hpp; rw [hs] at hp'; cases hp'; rfl
  · push_neg at hst
    simp only [erase, findIdx, findIdxLoop_of_not_stored hm hst, if_true]
    exact ⟨hm, ⟨nofun, fun ⟨v, h⟩ => absurd h (hst v)⟩,
      fun k' v' => ⟨fun h => ⟨fun hk => hst v' (hk ▸ h), h⟩, And.right⟩⟩

omit [DecidableEq K] in
theorem clear_spec {m : HashMap K V} (hm : Inv hash m) :
    Inv hash (clear m) ∧ ∀ k v, ¬ Stored (clear m) k v := by
  have hnone : ∀ (p : Nat) (s : Slot K V), (clear m).slots[p]? = some s → s = .empty := by
    intro p s h
    simp only [clear, List.getElem?_map, Option.map_eq_some'] at h
    obtain ⟨_, -, rfl⟩ := h; rfl
  refine ⟨⟨by simp [clear, hm.length_slots], hm.pow2, ?_, fun p _ _ _ _ hp => ?_,
    fun p _ _ hp => ?_⟩, fun _ _ ⟨p, hp⟩ => ?_⟩
  · simp only [clear, List.countP_map]
    exact (List.countP_eq_zero.2 fun _ _ => by simp [Slot.isOccupied]).symm
  all_goals cases hnone _ _ hp

omit [DecidableEq K] in
theorem inv_fresh {c : Nat} (hc : c.isPowerOfTwo) : Inv hash (fresh c : HashMap K V) := by
  have hnone : ∀ (p : Nat) (k : K) (v : V), (fresh c : HashMap K V).slots[p]? ≠ some (.occupied k v) := by
    intro p k v h; simp [fresh, List.getElem?_replicate] at h
  exact ⟨List.length_replicate _ _, hc,
    (List.countP_eq_zero.2 fun _ h => by rw [List.eq_of_mem_replicate h]; simp [Slot.isOccupied]).symm,
    fun p _ _ _ _ hp => absurd hp (hnone _ _ _), fun p _ _ hp => absurd hp (hnone _ _ _)⟩

/-! ### `for_each` and `rehash` -/

omit [DecidableEq K] in
theorem mem_forEach {m : HashMap K V} {k : K} {v : V} : (k, v) ∈ m.forEach ↔ Stored m k v := by
  rw [forEach, List.mem_filterMap]
  simp only [Slot.entry_eq_some, exists_eq_right, Stored, List.mem_iff_getElem?]

omit [DecidableEq K] in
theorem Inv.length_forEach {m : HashMap K V} (hm : Inv hash m) : m.forEach.length = m.size := by
  rw [forEach, List.length_filterMap_eq_countP, hm.size_eq]
  congr 1; funext s; exact Slot.isSome_entry s

omit [DecidableEq K] in
/-- Slots that never hold one key twice list each key once. -/
theorem nodup_keys {L : List (Slot K V)}
    (hu : ∀ (p p' : Nat) (k : K) (v v' : V), L[p]? = some (.occupied k v) →
      L[p']? = some (.occupied k v') → p = p') :
    ((L.filterMap Slot.entry).map Prod.fst).Nodup := by
  induction L with
  | nil => simp
  | cons s L ih =>
    have hu' : ∀ (p p' : Nat) (k : K) (v v' : V), L[p]? = some (.occupied k v) →
        L[p']? = some (.occupied k v') → p = p' := fun p p' k v v' hp hp' =>
      Nat.succ_injective (hu (p + 1) (p' + 1) k v v' (by simpa using hp) (by simpa using hp'))
    cases s with
    | occupied k v =>
      simp only [List.filterMap_cons, Slot.entry, List.map_cons, List.nodup_cons]
      refine ⟨fun hk => ?_, ih hu'⟩
      obtain ⟨⟨k', v'⟩, he, rfl⟩ := List.mem_map.1 hk
      obtain ⟨a, ha, hae⟩ := List.mem_filterMap.1 he
      obtain ⟨p, hp⟩ := List.mem_iff_getElem?.1 ha
      rw [Slot.entry_eq_some.1 hae] at hp
      exact absurd (hu 0 (p + 1) _ v v' List.getElem?_cons_zero (by simpa using hp)) (by omega)
    | empty => simpa [List.filterMap_cons, Slot.entry] using ih hu'
    | deleted => simpa [List.filterMap_cons, Slot.entry] using ih hu'

omit [DecidableEq K] in
theorem Inv.nodup_keys {m : HashMap K V} (hm : Inv hash m) : (m.forEach.map Prod.fst).Nodup :=
  HashMap.nodup_keys hm.unique

/-- Putting entries with distinct new keys one by one into a table with room for them, by
`place` or by an `insert` that finds the table never overloaded, stores and counts each. -/
theorem foldl_place (ins : HashMap K V → K → V → HashMap K V)
    (hins : ∀ a k v, overloaded a = false → ins a k v = place hash a k v) :
    ∀ (es : List (K × V)) (acc : HashMap K V), Inv hash acc → (es.map Prod.fst).Nodup →
      (∀ e ∈ es, ∀ v, ¬ Stored acc e.1 v) → 10 * (acc.size + es.length) ≤ 7 * acc.capacity + 10 →
      let r := es.foldl (fun a e => ins a e.1 e.2) acc
      r = es.foldl (fun a e => place hash a e.1 e.2) acc ∧ Inv hash r ∧
        r.capacity = acc.capacity ∧ r.size = acc.size + es.length ∧
        ∀ k v, Stored r k v ↔ Stored acc k v ∨ (k, v) ∈ es
  | [], acc, hacc, _, _, _ => ⟨rfl, hacc, rfl, rfl, fun k v => by simp⟩
  | (k, v) :: es, acc, hacc, hnd, hfresh, hroom => by
    have hpos := hacc.capacity_pos
    simp only [List.length_cons] at hroom
    have hlt : acc.size < acc.capacity := by omega
    have hk : ∀ v', ¬ Stored acc k v' := hfresh (k, v) (List.mem_cons_self _ _)
    obtain ⟨hinv, hst⟩ := place_spec hacc hlt k v
    obtain ⟨-, -, he⟩ := place_of_not_stored hacc hk hlt v
    simp only [List.map_cons, List.nodup_cons] at hnd
    have hfresh' : ∀ e ∈ es, ∀ v', ¬ Stored (place hash acc k v) e.1 v' := by
      intro e hmem v' h
      rcases (hst _ _).1 h with ⟨rfl, -⟩ | ⟨-, h⟩
      · exact hnd.1 (List.mem_map_of_mem _ hmem)
      · exact hfresh e (List.mem_cons_of_mem _ hmem) v' h
    obtain ⟨h₁, h₂, h₃, h₄, h₅⟩ := foldl_place ins hins es (place hash acc k v) hinv hnd.2 hfresh'
      (by rw [capacity_place, he]; dsimp only; omega)
    simp only [List.foldl_cons, hins acc k v (by simp [overloaded]; omega)]
    refine ⟨h₁, h₂, h₃.trans (capacity_place ..), by rw [h₄, he]; simp; omega, fun k' v' => ?_⟩
    rw [h₅, hst, List.mem_cons, Prod.mk.injEq]
    by_cases hkk : k' = k
    · subst hkk; simp [hk v']
    · simp [hkk]

/-- `rehash(capacity_ * 2)` keeps the entries and the invariant, and gives the same table for any
`insert` that behaves as `place` while the table is not overloaded. -/
theorem rehash_spec {m : HashMap K V} (hm : Inv hash m) (ins : HashMap K V → K → V → HashMap K V)
    (hins : ∀ a k v, overloaded a = false → ins a k v = place hash a k v) :
    let r := rehash ins m (m.capacity * 2)
    r = rehash (place hash) m (m.capacity * 2) ∧ Inv hash r ∧ r.capacity = m.capacity * 2 ∧
      r.size = m.size ∧ ∀ k v, Stored r k v ↔ Stored m k v := by
  simp only [rehash]
  have hfresh : ∀ e ∈ m.forEach, ∀ v, ¬ Stored (fresh (m.capacity * 2) : HashMap K V) e.1 v :=
    fun _ _ _ ⟨p, hp⟩ => by simp [fresh, List.getElem?_replicate] at hp
  obtain ⟨h₁, h₂, h₃, h₄, h₅⟩ := foldl_place ins hins m.forEach (fresh (m.capacity * 2))
    (inv_fresh (Nat.mul2_isPowerOfTwo_of_isPowerOfTwo hm.pow2)) hm.nodup_keys hfresh
    (by simp only [fresh, hm.length_forEach]; have := hm.size_le; omega)
  refine ⟨h₁, h₂, h₃, by rw [h₄, hm.length_forEach]; exact Nat.zero_add _, fun k v => ?_⟩
  rw [h₅, mem_forEach]
  exact or_iff_right fun ⟨p, hp⟩ => by simp [fresh, List.getElem?_replicate] at hp

theorem insertAux_of_not_overloaded {a : HashMap K V} (h : overloaded a = false) (k : K) (v : V) :
    ∀ d, insertAux hash d a k v = place hash a k v
  | 0 => rfl
  | _ + 1 => by simp [insertAux, h]

/-- `insert` called at any depth gives the same table: the `insert`s of a `rehash` never
rehash. -/
theorem insertAux_depth {m : HashMap K V} (hm : Inv hash m) (k : K) (v : V) (d : Nat) :
    insertAux hash (d + 1) m k v = insert hash m k v := by
  have e := fun d => (rehash_spec hm (insertAux hash d)
    fun a k v h => insertAux_of_not_overloaded h k v d).1
  simp only [insert, insertAux, e d, e 0]

/-- `insert` stores `k ↦ v` over any old value of `k` and keeps the invariant. -/
theorem insert_spec {m : HashMap K V} (hm : Inv hash m) (k : K) (v : V) :
    Inv hash (insert hash m k v) ∧
      ∀ k' v', Stored (insert hash m k v) k' v' ↔ k' = k ∧ v' = v ∨ k' ≠ k ∧ Stored m k' v' := by
  have hpos := hm.capacity_pos
  rw [insert, insertAux]
  split_ifs with hov
  · obtain ⟨-, hinv, hcap, hsize, hst⟩ := rehash_spec hm (insertAux hash 0) fun _ _ _ _ => rfl
    obtain ⟨h₁, h₂⟩ := place_spec hinv (by rw [hcap, hsize]; have := hm.size_le; omega) k v
    exact ⟨h₁, fun k' v' => by rw [h₂, hst]⟩
  · exact place_spec hm (by simp [overloaded] at hov; omega) k v

/-! ### `find` and `contains` -/

theorem find_of_stored {m : HashMap K V} (hm : Inv hash m) {k : K} {v : V} {p : Nat}
    (hs : m.slots[p]? = some (.occupied k v)) : find hash m k = some v := by
  have hpl : p < m.slots.length := (List.getElem?_eq_some_iff.1 hs).1
  have hp : p ≠ m.capacity := by rw [← hm.length_slots]; omega
  simp [find, findIdx_of_stored hm hs, slot_eq hs, hp]

theorem find_eq_some_iff {m : HashMap K V} (hm : Inv hash m) {k : K} {v : V} :
    find hash m k = some v ↔ Stored m k v := by
  refine ⟨fun h => ?_, fun ⟨p, hs⟩ => find_of_stored hm hs⟩
  by_cases hst : ∃ v₀, Stored m k v₀
  · obtain ⟨v₀, p, hs⟩ := hst
    rw [find_of_stored hm hs] at h
    cases h; exact ⟨p, hs⟩
  · push_neg at hst
    simp [find, findIdx, findIdxLoop_of_not_stored hm hst] at h

theorem contains_eq {m : HashMap K V} (hm : Inv hash m) (k : K) :
    contains hash m k = (find hash m k).isSome := by
  by_cases hst : ∃ v₀, Stored m k v₀
  · obtain ⟨v₀, p, hs⟩ := hst
    have hpl : p < m.slots.length := (List.getElem?_eq_some_iff.1 hs).1
    have hp : p ≠ m.capacity := by rw [← hm.length_slots]; omega
    simp [contains, findIdx_of_stored hm hs, find_of_stored hm hs, hp]
  · push_neg at hst
    simp [contains, find, findIdx, findIdxLoop_of_not_stored hm hst]

/-! ### The finite map the table stands for -/

variable (hash)

/-- The table stands for the finite map `s`: it holds the invariant and stores exactly `s`'s
entries. -/
structure Refines (m : HashMap K V) (s : AList fun _ : K => V) : Prop where
  inv : Inv hash m
  stored_iff : ∀ k v, Stored m k v ↔ s.lookup k = some v

variable {hash}

theorem refines_new (c : Nat) : Refines hash (new c : HashMap K V) ∅ :=
  ⟨inv_fresh (Nat.isPowerOfTwo_nextPowerOfTwo c),
    fun k v => iff_of_false (fun ⟨p, hp⟩ => by simp [new, fresh, List.getElem?_replicate] at hp)
      (by simp [AList.lookup_empty])⟩

theorem Refines.apply {m : HashMap K V} {s : AList fun _ : K => V} (h : Refines hash m s) :
    ∀ call : Call K V, Refines hash (call.apply hash m) (call.model s)
  | .insert k v => ⟨(insert_spec h.inv k v).1, fun k' v' => by
      rw [Call.apply, Call.model, (insert_spec h.inv k v).2, h.stored_iff]
      by_cases hk : k' = k
      · subst hk; simp [AList.lookup_insert, eq_comm]
      · simp [hk, AList.lookup_insert_ne hk]⟩
  | .erase k => ⟨(erase_spec h.inv k).1, fun k' v' => by
      rw [Call.apply, Call.model, (erase_spec h.inv k).2.2, h.stored_iff]
      by_cases hk : k' = k
      · subst hk; simp [AList.lookup_erase]
      · simp [hk, AList.lookup_erase_ne hk]⟩
  | .clear => ⟨(clear_spec h.inv).1, fun k v =>
      iff_of_false ((clear_spec h.inv).2 k v) (by simp [Call.model, AList.lookup_empty])⟩

theorem Refines.run {m : HashMap K V} {s : AList fun _ : K => V} (h : Refines hash m s) :
    ∀ calls : List (Call K V), Refines hash (run hash m calls) (calls.foldl Call.model s)
  | [] => h
  | call :: calls => (h.apply call).run calls

theorem Refines.find_eq {m : HashMap K V} {s : AList fun _ : K => V} (h : Refines hash m s) (k : K) :
    find hash m k = s.lookup k :=
  Option.ext fun v => (find_eq_some_iff h.inv).trans (h.stored_iff k v)

theorem Refines.perm {m : HashMap K V} {s : AList fun _ : K => V} (h : Refines hash m s) :
    m.forEach.Perm (s.entries.map fun e => (e.1, e.2)) := by
  have hinj : Function.Injective fun e : (Σ _ : K, V) => (e.1, e.2) := by
    rintro ⟨_, _⟩ ⟨_, _⟩ e; cases e; rfl
  rw [List.perm_ext_iff_of_nodup (h.inv.nodup_keys.of_map _) (s.nodupKeys.nodup.map hinj)]
  rintro ⟨k, v⟩
  rw [mem_forEach, h.stored_iff, List.mem_map, ← Option.mem_def, AList.mem_lookup_iff]
  exact ⟨fun h => ⟨_, h, rfl⟩, fun ⟨⟨_, _⟩, h, e⟩ => by cases e; exact h⟩

/-- From any initial capacity and after any sequence of `insert`, `erase` and `clear`, the table
answers as the finite map built by the same calls: `find` is its lookup, `contains` agrees with
it, `size()` is its number of entries, and `for_each` visits its entries once each. -/
theorem hashMap_refines (initialCap : Nat) (calls : List (Call K V)) :
    let m : HashMap K V := run hash (new initialCap) calls
    let s : AList fun _ : K => V := calls.foldl Call.model ∅
    (∀ k, m.find hash k = s.lookup k) ∧ (∀ k, m.contains hash k = (s.lookup k).isSome) ∧
      m.size = s.entries.length ∧ m.forEach.Perm (s.entries.map fun e => (e.1, e.2)) := by
  have h : Refines hash (run hash (new initialCap) calls) (calls.foldl Call.model ∅) :=
    (refines_new initialCap).run calls
  refine ⟨h.find_eq, fun k => by rw [contains_eq h.inv, h.find_eq], ?_, h.perm⟩
  rw [← h.inv.length_forEach, h.perm.length_eq, List.length_map]

end HashMap

end FileBackup
