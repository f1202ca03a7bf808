import FileBackup.BPlusTree.Invariant
import Mathlib.Data.List.AList

/-!
# The B+ tree refines a sorted map

After any sequence of `insert` and `erase` from the empty tree, and for every `ORDER`, the
`BPlusTree` of `restore_engine.h` answers as the finite map built by the same calls:

* `Inv`: the root is well formed at some height (`Node.WF`), its leaves are linked in order by
  `next` with distinct addresses below `nextAddr`, and `size_` counts the entries; it holds of
  the empty tree and `insert` and `erase` keep it;
* `Inv.find_eq_some`, `Inv.forEach_eq`, `Inv.range_eq`: the read paths on the entries `toList`,
  leaf by leaf;
* `Refines` and `bPlusTree_refines`: `find`, `contains`, `size`, `for_each` and `range` agree
  with the `AList` of the same calls.
-/

namespace FileBackup

namespace BPlusTree

/-! ### Lookups and scans on strictly sorted entries -/

section Sorted

variable {K V : Type} [LinearOrder K]

/-- On strictly increasing keys, `lookup` finds the one entry at `k`. -/
theorem lookup_eq_some_iff {k : K} {v : V} : ∀ {es : List (K × V)},
    es.Pairwise (fun a b => a.1 < b.1) → (es.lookup k = some v ↔ (k, v) ∈ es)
  | [], _ => by simp
  | (a, b) :: es, hs => by
    rw [List.pairwise_cons] at hs
    by_cases hk : k = a
    · subst hk
      have : (k, v) ∉ es := fun h => lt_irrefl k (hs.1 _ h)
      simp [this, eq_comm]
    · simp [List.lookup_cons, beq_false_of_ne hk, hk, lookup_eq_some_iff hs.2]

/-- On strictly increasing keys, the loop of `range` keeps exactly the keys in `[lo, hi]`: the
first key above `hi` has no key of the range after it. -/
theorem scan_eq (lo hi : K) : ∀ {es : List (K × V)}, es.Pairwise (fun a b => a.1 < b.1) →
    scan lo hi es = es.filter fun e => lo ≤ e.1 ∧ e.1 ≤ hi
  | [], _ => rfl
  | e :: es, hs => by
    rw [List.pairwise_cons] at hs
    rw [scan]
    by_cases h₁ : hi < e.1
    · have hnone : es.filter (fun e => lo ≤ e.1 ∧ e.1 ≤ hi) = [] :=
        List.filter_eq_nil_iff.2 fun x hx => by simpa using fun _ => h₁.trans (hs.1 x hx)
      rw [if_pos h₁, List.filter_cons_of_neg (by simpa using fun _ => h₁), hnone]
    · by_cases h₂ : lo ≤ e.1
      · rw [if_neg h₁, if_pos h₂, List.filter_cons_of_pos (by simpa using ⟨h₂, not_lt.1 h₁⟩),
          scan_eq lo hi hs.2]
      · rw [if_neg h₁, if_neg h₂, List.filter_cons_of_neg (by simpa using fun h => absurd h h₂),
          scan_eq lo hi hs.2]

end Sorted

/-! ### The invariant of the tree -/

section Leaves

variable {K V : Type}

/-- The tree's entries, leaf by leaf. -/
def toList (t : BPlusTree K V) : List (K × V) := t.root.toList

theorem toList_eq {t : BPlusTree K V} {pre post : List (Leaf K V)} {l : Leaf K V}
    (h : t.root.leaves = pre ++ l :: post) :
    t.toList = pre.flatMap Leaf.entries ++ l.entries ++ post.flatMap Leaf.entries := by
  simp [toList, Node.toList, h]

/-- After the leaves `R` replace `l`, each address is an old one or `addr`. -/
theorem Replaces.mem_map_addr {addr : Nat} {l : Leaf K V} {R pre post : List (Leaf K V)}
    (hr : Replaces addr l R) {a : Nat} (ha : a ∈ (pre ++ R ++ post).map Leaf.addr) :
    a ∈ (pre ++ l :: post).map Leaf.addr ∨ a = addr := by
  simp only [List.map_append, List.mem_append, List.mem_map] at ha
  rcases ha with (⟨x, hx, rfl⟩ | ⟨x, hx, rfl⟩) | ⟨x, hx, rfl⟩
  · exact .inl (List.mem_map_of_mem _ (by simp [hx]))
  · rcases hr.mem_addr hx with h | h
    · exact .inl (h ▸ List.mem_map_of_mem _ (by simp))
    · exact .inr h
  · exact .inl (List.mem_map_of_mem _ (by simp [hx]))

end Leaves

section Tree

variable {K V : Type} [LinearOrder K]

/-- The invariant of every tree the calls build: a well-formed root, leaves linked in order with
distinct addresses, all below the address the next split takes, and `size_` the number of
entries. -/
structure Inv (t : BPlusTree K V) : Prop where
  wf : ∃ h, t.root.WF h none none
  linked : LinkedTo t.root.leaves none
  nodup : (t.root.leaves.map Leaf.addr).Nodup
  fresh : ∀ a ∈ t.root.leaves.map Leaf.addr, a < t.nextAddr
  size_eq : t.size = t.toList.length

theorem Inv.sorted {t : BPlusTree K V} (ht : Inv t) : t.toList.Pairwise (fun a b => a.1 < b.1) :=
  let ⟨_, hw⟩ := ht.wf
  hw.entries.1

/-- Every key lies between no bounds. -/
theorem inB_none (x : K) : InB none none x := ⟨by simp, by simp⟩

theorem inv_empty : Inv (empty : BPlusTree K V) where
  wf := ⟨0, by simp [empty, Node.WF]⟩
  linked := ⟨rfl, trivial⟩
  nodup := by simp [empty]
  fresh := by simp [empty]
  size_eq := rfl

/-- The root `insert` leaves: the node the insert returns, or a new root over it and the node
split off. Its leaves are the nodes' leaves, and it is well formed when they chain between no
bounds. -/
theorem insert_root (order : Nat) (t : BPlusTree K V) (key : K) (value : V) {h : Nat}
    (hch : Chain (fun a b c => Node.WF h a b c) none
      (insertInternal order key value t.nextAddr t.root).keys
      (insertInternal order key value t.nextAddr t.root).nodes none) :
    (t.insert order key value).root.leaves =
      (insertInternal order key value t.nextAddr t.root).nodes.flatMap Node.leaves ∧
    ∃ h', (t.insert order key value).root.WF h' none none := by
  simp only [insert]
  generalize insertInternal order key value t.nextAddr t.root = r at hch ⊢
  obtain ⟨n, _ | ⟨s, m⟩, found⟩ := r
  · exact ⟨by simp, h, hch.2⟩
  · exact ⟨by simp, h + 1, hch⟩

/-- The root `erase` leaves: a root left with one child is replaced by it, with the same
leaves. -/
theorem erase_root (t : BPlusTree K V) (key : K) {h : Nat}
    (hw : (eraseInternal key t.root).1.WF h none none) :
    (t.erase key).2.root.leaves = (eraseInternal key t.root).1.leaves ∧
      ∃ h', (t.erase key).2.root.WF h' none none := by
  simp only [erase]
  generalize (eraseInternal key t.root).1 = n at hw ⊢
  split
  · rename_i ks c
    cases h with
    | zero => exact False.elim hw
    | succ h =>
      have hks : ks = [] := List.length_eq_zero.1 (by simpa using (Chain.length hw).symm)
      subst hks
      exact ⟨by simp, h, hw.2⟩
  · exact ⟨rfl, h, hw⟩

/-- `insert` keeps the invariant, and its entries are the old ones with `key` set to `value`,
one more unless `key` was there. -/
theorem Inv.insert {t : BPlusTree K V} (ht : Inv t) (order : Nat) (key : K) (value : V) :
    Inv (t.insert order key value) ∧
      Upserts key value t.toList (t.insert order key value).toList
        (insertInternal order key value t.nextAddr t.root).found := by
  obtain ⟨⟨h, hw⟩, hlink, hnd, hfresh, hsize⟩ := ht
  obtain ⟨hch, pre, l, post, R, hl, hR, hrep, hups, hpre, hpost⟩ :=
    hw.insertInternal_spec order key value t.nextAddr (inB_none key)
  obtain ⟨hleaves, hwf⟩ := insert_root order t key value hch
  rw [hR] at hleaves
  rw [hl] at hlink hnd hfresh
  have hups' : Upserts key value t.toList (t.insert order key value).toList
      (insertInternal order key value t.nextAddr t.root).found := by
    rw [toList_eq hl, toList, Node.toList, hleaves, List.flatMap_append, List.flatMap_append]
    exact hups.append (fun e he => (hpre e he).ne) (fun e he => (hpost e he).ne')
  refine ⟨⟨hwf, ?_, ?_, ?_, ?_⟩, hups'⟩
  · rw [hleaves]
    exact hrep.linkedTo hlink
  · rw [hleaves]
    exact hrep.nodup hnd fun x hx => (hfresh _ (List.mem_map_of_mem _ hx)).ne
  · rw [hleaves]
    intro a ha
    rcases hrep.mem_map_addr ha with ha | rfl
    · exact Nat.lt_succ_of_lt (hfresh a ha)
    · exact Nat.lt_succ_self _
  · rw [hups'.length, ← hsize]
    rfl

/-- `erase` keeps the invariant, and its entries are the old ones without `key`, one fewer if
it reports `key` was there. -/
theorem Inv.erase {t : BPlusTree K V} (ht : Inv t) (key : K) :
    Inv (t.erase key).2 ∧ Erases key t.toList (t.erase key).2.toList (t.erase key).1 := by
  obtain ⟨⟨h, hw⟩, hlink, hnd, hfresh, hsize⟩ := ht
  obtain ⟨hw', pre, l, post, es', hl, hl', hers, hpre, hpost⟩ :=
    hw.eraseInternal_spec key (inB_none key)
  obtain ⟨hleaves, hwf⟩ := erase_root t key hw'
  rw [hl'] at hleaves
  have hmap : (t.erase key).2.root.leaves.map Leaf.addr = t.root.leaves.map Leaf.addr := by
    simp [hleaves, hl]
  have hers' : Erases key t.toList (t.erase key).2.toList (t.erase key).1 := by
    have := hers.append (fun e he => (hpre e he).ne) (fun e he => (hpost e he).ne')
    rwa [toList_eq hl, toList_eq hleaves]
  refine ⟨⟨hwf, ?_, hmap ▸ hnd, hmap ▸ hfresh, ?_⟩, hers'⟩
  · rw [hleaves]
    rw [hl] at hlink
    simpa using (Replaces.entries t.nextAddr l es').linkedTo hlink
  · have hlen := hers'.length
    show (if (t.erase key).1 then t.size - 1 else t.size) = _
    cases hf : (t.erase key).1 <;>
      simp only [hf, hsize, Bool.false_eq_true, ↓reduceIte] at hlen ⊢ <;> omega

/-! ### The read paths -/

/-- `find(k)` is `v` exactly when the tree holds the entry `(k, v)`: the leaf the search reaches
is the only one that can hold `k`. -/
theorem Inv.find_eq_some {t : BPlusTree K V} (ht : Inv t) (k : K) (v : V) :
    t.find k = some v ↔ (k, v) ∈ t.toList := by
  obtain ⟨h, hw⟩ := ht.wf
  obtain ⟨pre, l, post, hl, hd, hpre, hpost⟩ := hw.descend (inB_none k)
  have hs := ht.sorted
  rw [toList_eq hl] at hs ⊢
  rw [find, hd, Option.some_bind,
    lookup_eq_some_iff (List.pairwise_append.1 (List.pairwise_append.1 hs).1).2.1]
  simp only [List.mem_append]
  constructor
  · exact fun h => .inl (.inr h)
  · rintro ((h | h) | h)
    · exact absurd (hpre _ h) (lt_irrefl k)
    · exact h
    · exact absurd (hpost _ h) (lt_irrefl k)

/-- `for_each` visits the entries leaf by leaf: from the leftmost leaf, `next` walks every
leaf. -/
theorem Inv.forEach_eq {t : BPlusTree K V} (ht : Inv t) : t.forEach = t.toList := by
  obtain ⟨h, hw⟩ := ht.wf
  obtain ⟨hlm, hne⟩ := hw.leftmost
  obtain ⟨l, post, hl⟩ := List.exists_cons_of_ne_nil hne
  rw [forEach, hlm, hl, List.head?_cons]
  dsimp only
  rw [← hl, walk_eq ht.linked ht.nodup post [] l _ hl (by simp [hl])]
  simp [toList, Node.toList, hl]

/-- `range(lo, hi)` returns the entries with keys in `[lo, hi]`: the entries before the leaf the
search for `lo` reaches are below `lo`, and from that leaf `next` walks every later leaf. -/
theorem Inv.range_eq {t : BPlusTree K V} (ht : Inv t) (lo hi : K) :
    t.range lo hi = t.toList.filter fun e => lo ≤ e.1 ∧ e.1 ≤ hi := by
  obtain ⟨h, hw⟩ := ht.wf
  obtain ⟨pre, l, post, hl, hd, hpre, -⟩ := hw.descend (inB_none lo)
  have htl : t.toList = pre.flatMap Leaf.entries ++ (l :: post).flatMap Leaf.entries := by
    simp [toList_eq hl]
  have hs := ht.sorted
  rw [htl] at hs
  rw [range, hd]
  dsimp only
  rw [walk_eq ht.linked ht.nodup post pre l _ hl
      (by simp only [hl, List.length_append, List.length_cons]; omega), htl, List.filter_append,
    List.filter_eq_nil_iff.2 fun e he => by simpa using fun h => absurd h (not_le.2 (hpre e he)),
    List.nil_append]
  exact scan_eq lo hi (List.pairwise_append.1 hs).2.1

end Tree

/-! ### Refinement of the finite map -/

section Refinement

variable {K V : Type} [LinearOrder K]

/-- A call on the finite map: `insert` overwrites, `erase` removes. -/
def Call.model (m : AList fun _ : K => V) : Call K V → AList fun _ : K => V
  | .insert k v => m.insert k v
  | .erase k => m.erase k

/-- The tree keeps its invariant and holds exactly the entries of the map `m`. -/
structure Refines (t : BPlusTree K V) (m : AList fun _ : K => V) : Prop where
  inv : Inv t
  mem_iff : ∀ k v, (k, v) ∈ t.toList ↔ m.lookup k = some v

theorem refines_empty : Refines (empty : BPlusTree K V) ∅ :=
  ⟨inv_empty, fun k v => by simp [toList, Node.toList, empty, AList.lookup_empty]⟩

theorem Refines.apply {t : BPlusTree K V} {m : AList fun _ : K => V} (h : Refines t m)
    (order : Nat) : ∀ call : Call K V, Refines (call.apply order t) (call.model m)
  | .insert k v => ⟨(h.inv.insert order k v).1, fun k' v' => by
      rw [Call.apply, Call.model, (h.inv.insert order k v).2.mem, h.mem_iff]
      by_cases hk : k' = k
      · subst hk; simp [AList.lookup_insert, eq_comm]
      · simp [hk, AList.lookup_insert_ne hk]⟩
  | .erase k => ⟨(h.inv.erase k).1, fun k' v' => by
      rw [Call.apply, Call.model, (h.inv.erase k).2.mem, h.mem_iff]
      by_cases hk : k' = k
      · subst hk; simp [AList.lookup_erase]
      · simp [hk, AList.lookup_erase_ne hk]⟩

theorem Refines.foldl {t : BPlusTree K V} {m : AList fun _ : K => V} (h : Refines t m)
    (order : Nat) : ∀ calls : List (Call K V),
      Refines (calls.foldl (Call.apply order) t) (calls.foldl Call.model m)
  | [] => h
  | call :: calls => (h.apply order call).foldl order calls

theorem Refines.find_eq {t : BPlusTree K V} {m : AList fun _ : K => V} (h : Refines t m)
    (k : K) : t.find k = m.lookup k :=
  Option.ext fun v => (h.inv.find_eq_some k v).trans (h.mem_iff k v)

theorem Refines.perm {t : BPlusTree K V} {m : AList fun _ : K => V} (h : Refines t m) :
    t.toList.Perm (m.entries.map fun e => (e.1, e.2)) := by
  have hinj : Function.Injective fun e : (Σ _ : K, V) => (e.1, e.2) := by
    rintro ⟨_, _⟩ ⟨_, _⟩ e; cases e; rfl
  have hnd : t.toList.Nodup := h.inv.sorted.imp fun hab he => (he ▸ hab).ne rfl
  rw [List.perm_ext_iff_of_nodup hnd (m.nodupKeys.nodup.map hinj)]
  rintro ⟨k, v⟩
  rw [h.mem_iff, List.mem_map, ← Option.mem_def, AList.mem_lookup_iff]
  exact ⟨fun h => ⟨_, h, rfl⟩, fun ⟨⟨_, _⟩, h, e⟩ => by cases e; exact h⟩

/-- For every `ORDER` and after any sequence of `insert` and `erase` from the empty tree, the
tree answers as the finite map of the same calls: `find` is its lookup, `contains` agrees with
it, `size()` is its number of entries, `for_each` visits its entries once each in strictly
increasing key order, and `range(lo, hi)` returns its entries with keys in `[lo, hi]`, in
strictly increasing key order. -/
theorem bPlusTree_refines (order : Nat) (calls : List (Call K V)) :
    let t : BPlusTree K V := run order calls
    let m : AList fun _ : K => V := calls.foldl Call.model ∅
    (∀ k, t.find k = m.lookup k) ∧ (∀ k, t.contains k = (m.lookup k).isSome) ∧
      t.size = m.entries.length ∧
      t.forEach.Perm (m.entries.map fun e => (e.1, e.2)) ∧
      (t.forEach.map Prod.fst).Sorted (· < ·) ∧
      ∀ lo hi, (t.range lo hi).Perm
          ((m.entries.map fun e => (e.1, e.2)).filter fun e => lo ≤ e.1 ∧ e.1 ≤ hi) ∧
        ((t.range lo hi).map Prod.fst).Sorted (· < ·) := by
  have h : Refines (run order calls) (calls.foldl Call.model ∅) := refines_empty.foldl order calls
  have hsorted : ((run order calls).toList.map Prod.fst).Sorted (· < ·) :=
    List.pairwise_map.2 h.inv.sorted
  refine ⟨h.find_eq, fun k => by rw [contains, h.find_eq], ?_, ?_, ?_, fun lo hi => ⟨?_, ?_⟩⟩
  · rw [h.inv.size_eq, h.perm.length_eq, List.length_map]
  · rw [h.inv.forEach_eq]
    exact h.perm
  · rw [h.inv.forEach_eq]
    exact hsorted
  · rw [h.inv.range_eq]
    exact h.perm.filter _
  · rw [h.inv.range_eq]
    exact List.pairwise_map.2 (h.inv.sorted.filter _)

/- With `ORDER = 3` the third insert splits the root leaf at key `2`; the erase of `2` leaves
that separator in the root with no entry under it, and `for_each` and `range` still walk the
chain. -/
example : let t : BPlusTree Nat Nat := run 3 [.insert 1 10, .insert 2 20, .insert 3 30, .erase 2]
    t.forEach = [(1, 10), (3, 30)] ∧ t.range 2 5 = [(3, 30)] ∧ t.size = 2 := by
  decide

end Refinement

end BPlusTree

end FileBackup
