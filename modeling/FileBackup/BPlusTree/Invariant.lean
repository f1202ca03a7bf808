import FileBackup.BPlusTree.Basic

/-!
# The invariant of the B+ tree

* `LinkedTo`: each leaf's `next` is the address of the leaf after it; `Replaces`: how an insert
  or an erase changes the list of leaves, one leaf giving way to one or two;
* `InB lo hi x`: `x` in `[lo, hi)`, a missing bound bounding nothing; `Below a b`: `a ≤ b` when
  both are there;
* `Chain P lo keys children hi`: child `i` satisfies `P` between its bounds `b_i`, `b_{i+1}`
  of the list `lo, keys, hi`, which never decreases. Separators left stale by an erase still
  bound what is below them, so the chain survives erasures;
* `Node.WF h lo hi n`: `n` has height `h`, each leaf is sorted by key inside its bounds, and each
  internal node is a chain of well-formed children.

The chain lemmas are those a B+ tree needs: `Chain.append` (a split), `Chain.route` (the search
goes to the child whose bounds hold the key, and any chain between the same bounds can take its
place) and `Chain.flatMap` (the children's entries, in order, are sorted).
-/

namespace FileBackup

namespace BPlusTree

/-! ### The leaf chain -/

section Links

variable {K V : Type}

/-- The entries below a node, leaf by leaf. -/
def Node.toList (n : Node K V) : List (K × V) := n.leaves.flatMap Leaf.entries

/-- The address in a leaf's `next` when the leaves `ls` follow it and the chain then ends at
`last`. -/
def firstAddr (ls : List (Leaf K V)) (last : Option Nat) : Option Nat :=
  match ls with
  | [] => last
  | l :: _ => some l.addr

/-- Each leaf's `next` is the address of the leaf after it, and the last one's is `last`. -/
def LinkedTo : List (Leaf K V) → Option Nat → Prop
  | [], _ => True
  | l :: ls, last => l.next = firstAddr ls last ∧ LinkedTo ls last

/-- The leaves `R` take the place of the leaf `l`: the first at `l`'s address, a second one, if
any, at `addr`, linked in order with the last holding `l`'s `next`. -/
structure Replaces (addr : Nat) (l : Leaf K V) (R : List (Leaf K V)) : Prop where
  addrs : R.map Leaf.addr = [l.addr] ∨ R.map Leaf.addr = [l.addr, addr]
  linked : LinkedTo R l.next

@[simp] theorem toList_leaf (l : Leaf K V) : (Node.leaf l).toList = l.entries := by
  simp [Node.toList]

theorem toList_internal (ks : List K) (cs : List (Node K V)) :
    (Node.internal ks cs).toList = cs.flatMap Node.toList := by
  simp only [Node.toList, leaves_internal, List.flatMap_assoc]
  rfl

theorem flatMap_leaves_entries (cs : List (Node K V)) :
    (cs.flatMap Node.leaves).flatMap Leaf.entries = cs.flatMap Node.toList := by
  rw [List.flatMap_assoc]
  rfl

theorem firstAddr_append (A B : List (Leaf K V)) (last : Option Nat) :
    firstAddr (A ++ B) last = firstAddr A (firstAddr B last) := by
  cases A <;> rfl

theorem linkedTo_append (B : List (Leaf K V)) (last : Option Nat) : ∀ A : List (Leaf K V),
    LinkedTo (A ++ B) last ↔ LinkedTo A (firstAddr B last) ∧ LinkedTo B last
  | [] => by simp [LinkedTo]
  | a :: A => by
    rw [List.cons_append]
    simp only [LinkedTo]
    rw [firstAddr_append, linkedTo_append B last A, and_assoc]

/-- A leaf whose entries change keeps its place in the chain. -/
theorem Replaces.entries (addr : Nat) (l : Leaf K V) (es : List (K × V)) :
    Replaces addr l [{ l with entries := es }] :=
  ⟨.inl rfl, ⟨rfl, trivial⟩⟩

theorem Replaces.linkedTo {addr : Nat} {l : Leaf K V} {R pre post : List (Leaf K V)}
    {last : Option Nat} (hr : Replaces addr l R) (h : LinkedTo (pre ++ l :: post) last) :
    LinkedTo (pre ++ R ++ post) last := by
  have hfirst : firstAddr (R ++ post) last = some l.addr := by
    obtain ⟨hr | hr, -⟩ := hr <;> cases R <;> simp_all [firstAddr]
  rw [linkedTo_append] at h
  obtain ⟨hpre, hl, hpost⟩ := h
  rw [List.append_assoc, linkedTo_append, linkedTo_append, hfirst]
  exact ⟨hpre, hl ▸ hr.linked, hpost⟩

theorem Replaces.mem_addr {addr : Nat} {l : Leaf K V} {R : List (Leaf K V)}
    (hr : Replaces addr l R) {x : Leaf K V} (hx : x ∈ R) : x.addr = l.addr ∨ x.addr = addr := by
  have := List.mem_map_of_mem Leaf.addr hx
  obtain h | h := hr.addrs <;> simp_all

theorem Replaces.nodup {addr : Nat} {l : Leaf K V} {R pre post : List (Leaf K V)}
    (hr : Replaces addr l R) (hnd : ((pre ++ l :: post).map Leaf.addr).Nodup)
    (hfresh : ∀ x ∈ pre ++ l :: post, x.addr ≠ addr) : ((pre ++ R ++ post).map Leaf.addr).Nodup := by
  simp only [List.map_append, List.map_cons] at hnd ⊢
  obtain h | h := hr.addrs <;> rw [h]
  · simpa using hnd
  · have hperm : List.Perm (pre.map Leaf.addr ++ [l.addr, addr] ++ post.map Leaf.addr)
        (addr :: (pre.map Leaf.addr ++ l.addr :: post.map Leaf.addr)) := by
      simpa using @List.perm_middle _ addr (pre.map Leaf.addr ++ [l.addr]) (post.map Leaf.addr)
    refine hperm.nodup_iff.2 (List.nodup_cons.2 ⟨fun hm => ?_, hnd⟩)
    rw [← List.map_cons, ← List.map_append, List.mem_map] at hm
    obtain ⟨x, hx, hxa⟩ := hm
    exact hfresh x hx hxa

/-- With distinct addresses, an address names its leaf. -/
theorem find?_addr : ∀ {L : List (Leaf K V)}, (L.map Leaf.addr).Nodup → ∀ {x : Leaf K V}, x ∈ L →
    L.find? (·.addr = x.addr) = some x
  | [], _, _, hx => absurd hx (List.not_mem_nil _)
  | y :: L, hnd, x, hx => by
    rw [List.map_cons, List.nodup_cons] at hnd
    by_cases hyx : y = x
    · simp [hyx]
    · have hxL : x ∈ L := (List.mem_cons.1 hx).resolve_left (Ne.symm hyx)
      have hne : y.addr ≠ x.addr := fun e => hnd.1 (e ▸ List.mem_map_of_mem Leaf.addr hxL)
      simp [List.find?_cons, hne, find?_addr hnd.2 hxL]

/-- Along a linked chain of distinct addresses, the walk from a leaf visits it and every leaf
after it, given fuel for them. -/
theorem walk_eq {L : List (Leaf K V)} (hl : LinkedTo L none) (hnd : (L.map Leaf.addr).Nodup) :
    ∀ (post pre : List (Leaf K V)) (l : Leaf K V) (fuel : Nat), L = pre ++ l :: post →
      post.length < fuel → walk L fuel l = l :: post
  | _, _, _, 0, _, hf => absurd hf (Nat.not_lt_zero _)
  | [], pre, l, fuel + 1, hL, _ => by
    have : l.next = none := by
      rw [hL, linkedTo_append] at hl
      exact hl.2.1
    simp [walk, this]
  | l' :: post, pre, l, fuel + 1, hL, hf => by
    have hnext : l.next = some l'.addr := by
      rw [hL, linkedTo_append] at hl
      exact hl.2.1
    have hmem : l' ∈ L := by simp [hL]
    rw [walk, hnext]
    simp only [find?_addr hnd hmem]
    rw [walk_eq hl hnd post (pre ++ [l]) l' fuel (by simp [hL]) (by simpa using hf)]

/-- The separators an insert hands up in place of the child: the split key, if it split. -/
def Inserted.keys (r : Inserted K V) : List K :=
  match r.split with
  | none => []
  | some (s, _) => [s]

/-- The nodes in place of the child: the node, then its new sibling if it split. -/
def Inserted.nodes (r : Inserted K V) : List (Node K V) :=
  match r.split with
  | none => [r.node]
  | some (_, n) => [r.node, n]

@[simp] theorem Inserted.keys_none (n : Node K V) (f : Bool) :
    Inserted.keys ⟨n, none, f⟩ = [] := rfl

@[simp] theorem Inserted.nodes_none (n : Node K V) (f : Bool) :
    Inserted.nodes ⟨n, none, f⟩ = [n] := rfl

@[simp] theorem Inserted.keys_some (n m : Node K V) (s : K) (f : Bool) :
    Inserted.keys ⟨n, some (s, m), f⟩ = [s] := rfl

@[simp] theorem Inserted.nodes_some (n m : Node K V) (s : K) (f : Bool) :
    Inserted.nodes ⟨n, some (s, m), f⟩ = [n, m] := rfl

theorem Inserted.length_nodes (r : Inserted K V) : r.nodes.length = r.keys.length + 1 := by
  unfold Inserted.nodes Inserted.keys
  split <;> rfl

end Links

/-! ### What an operation does to the entries -/

section Entries

variable {K V : Type}

/-- `es'` is `es` with `key` mapped to `value`: one entry longer unless `key` was there
(`found`). -/
structure Upserts (key : K) (value : V) (es es' : List (K × V)) (found : Bool) : Prop where
  mem : ∀ k v, (k, v) ∈ es' ↔ k = key ∧ v = value ∨ k ≠ key ∧ (k, v) ∈ es
  length : es'.length = if found then es.length else es.length + 1

/-- `es'` is `es` without `key`: one entry shorter if `key` was there (`found`). -/
structure Erases (key : K) (es es' : List (K × V)) (found : Bool) : Prop where
  mem : ∀ k v, (k, v) ∈ es' ↔ k ≠ key ∧ (k, v) ∈ es
  length : (if found then es'.length + 1 else es'.length) = es.length

variable {key : K} {value : V} {es es' : List (K × V)} {found : Bool}

/-- The entry at `key` takes the new value. -/
theorem Upserts.single (v : V) : Upserts key value [(key, v)] [(key, value)] true :=
  ⟨fun k v' => by
    simp only [List.mem_singleton, Prod.mk.injEq]
    exact ⟨.inl, fun h => h.elim id fun h => absurd h.2.1 h.1⟩, rfl⟩

/-- A new entry at `key`. -/
theorem Upserts.new : Upserts key value [] [(key, value)] false :=
  ⟨fun k v' => by simp, rfl⟩

/-- The entry at `key` goes. -/
theorem Erases.single (v : V) : Erases key [(key, v)] [] true :=
  ⟨fun _ _ => ⟨fun h => absurd h (List.not_mem_nil _),
    fun ⟨hk, h⟩ => absurd (Prod.mk.inj (List.mem_singleton.1 h)).1 hk⟩, rfl⟩

/-- Entries around the changed ones, none of them at `key`, are left as they are. -/
theorem Upserts.append (h : Upserts key value es es' found) {P Q : List (K × V)}
    (hP : ∀ e ∈ P, e.1 ≠ key) (hQ : ∀ e ∈ Q, e.1 ≠ key) :
    Upserts key value (P ++ es ++ Q) (P ++ es' ++ Q) found where
  mem k v := by
    simp only [List.mem_append, h.mem]
    constructor
    · rintro ((hk | hk) | hk)
      · exact .inr ⟨hP _ hk, .inl (.inl hk)⟩
      · exact hk.imp id fun h => ⟨h.1, .inl (.inr h.2)⟩
      · exact .inr ⟨hQ _ hk, .inr hk⟩
    · rintro (hk | ⟨hk, (hk' | hk') | hk'⟩)
      · exact .inl (.inr (.inl hk))
      · exact .inl (.inl hk')
      · exact .inl (.inr (.inr ⟨hk, hk'⟩))
      · exact .inr hk'
  length := by
    simp only [List.length_append, h.length]
    split <;> omega

theorem Erases.append (h : Erases key es es' found) {P Q : List (K × V)}
    (hP : ∀ e ∈ P, e.1 ≠ key) (hQ : ∀ e ∈ Q, e.1 ≠ key) :
    Erases key (P ++ es ++ Q) (P ++ es' ++ Q) found where
  mem k v := by
    simp only [List.mem_append, h.mem]
    constructor
    · rintro ((hk | ⟨hk, hk'⟩) | hk)
      · exact ⟨hP _ hk, .inl (.inl hk)⟩
      · exact ⟨hk, .inl (.inr hk')⟩
      · exact ⟨hQ _ hk, .inr hk⟩
    · rintro ⟨hk, (hk' | hk') | hk'⟩
      · exact .inl (.inl hk')
      · exact .inl (.inr ⟨hk, hk'⟩)
      · exact .inr hk'
  length := by
    simp only [List.length_append, ← h.length]
    split <;> omega

end Entries


/-! ### Bounds and separator chains -/

section Order

variable {K V : Type} [LinearOrder K]

/-- `x` lies in `[lo, hi)`; a missing bound bounds nothing. -/
def InB (lo hi : Option K) (x : K) : Prop := (∀ a ∈ lo, a ≤ x) ∧ ∀ b ∈ hi, x < b

/-- `a ≤ b` when both bounds are there. -/
def Below (a b : Option K) : Prop := ∀ x ∈ a, ∀ y ∈ b, x ≤ y

/-- The separator chain of an internal node between `lo` and `hi`: each child satisfies `P`
between the bounds around it, and the bounds `lo, keys, hi` never decrease. -/
def Chain (P : Option K → Option K → Node K V → Prop) :
    Option K → List K → List (Node K V) → Option K → Prop
  | lo, [], [c], hi => Below lo hi ∧ P lo hi c
  | lo, k :: ks, c :: cs, hi => Below lo (some k) ∧ P lo (some k) c ∧ Chain P (some k) ks cs hi
  | _, _, _, _ => False

/-- `n` is well formed at height `h` between `lo` and `hi`: a leaf, at height `0`, holds keys
strictly increasing inside the bounds; an internal node is a chain of well-formed children one
level lower. -/
def Node.WF : Nat → Option K → Option K → Node K V → Prop
  | 0, lo, hi, .leaf l => l.entries.Pairwise (fun a b => a.1 < b.1) ∧ ∀ e ∈ l.entries, InB lo hi e.1
  | h + 1, lo, hi, .internal ks cs => Chain (fun a b c => Node.WF h a b c) lo ks cs hi
  | _, _, _, _ => False

/-- The child a search for `x` goes to: past the leading separators `<= x`. On sorted
separators this is `upper_bound_idx` (`upperBoundIdx_eq`). -/
def childIndex (ks : List K) (x : K) : Nat := (ks.takeWhile (· ≤ x)).length

theorem childIndex_cons (k : K) (ks : List K) (x : K) :
    childIndex (k :: ks) x = if k ≤ x then childIndex ks x + 1 else 0 := by
  by_cases h : k ≤ x <;> simp [childIndex, List.takeWhile_cons, h]

theorem InB.below {lo hi : Option K} {x : K} (h : InB lo hi x) : Below lo hi :=
  fun a ha b hb => (h.1 a ha).trans (h.2 b hb).le

theorem Below.trans {a b : Option K} {k : K} (h₁ : Below a (some k)) (h₂ : Below (some k) b) :
    Below a b :=
  fun x hx y hy => (h₁ x hx k rfl).trans (h₂ k rfl y hy)

theorem InB.widen_hi {lo hi : Option K} {k x : K} (h : InB lo (some k) x)
    (hk : Below (some k) hi) : InB lo hi x :=
  ⟨h.1, fun b hb => lt_of_lt_of_le (h.2 k rfl) (hk k rfl b hb)⟩

theorem InB.widen_lo {lo hi : Option K} {k x : K} (h : InB (some k) hi x)
    (hk : Below lo (some k)) : InB lo hi x :=
  ⟨fun a ha => (hk a ha k rfl).trans (h.1 k rfl), h.2⟩

section Chain

variable {P : Option K → Option K → Node K V → Prop}

theorem Chain.length : ∀ {lo hi : Option K} {ks : List K} {cs : List (Node K V)},
    Chain P lo ks cs hi → cs.length = ks.length + 1
  | _, _, [], [_], _ => rfl
  | _, _, _ :: _, _ :: _, h => by rw [List.length_cons, List.length_cons, Chain.length h.2.2]
  | _, _, [], [], h => False.elim h
  | _, _, [], _ :: _ :: _, h => False.elim h
  | _, _, _ :: _, [], h => False.elim h

/-- A chain cut at a separator: the chain up to it and the chain from it. -/
theorem Chain.append {m : K} :
    ∀ {lo hi : Option K} {s₁ s₂ : List K} {c₁ c₂ : List (Node K V)},
      c₁.length = s₁.length + 1 →
      (Chain P lo (s₁ ++ m :: s₂) (c₁ ++ c₂) hi ↔
        Chain P lo s₁ c₁ (some m) ∧ Chain P (some m) s₂ c₂ hi)
  | _, _, [], _, [_], _, _ => and_assoc.symm
  | _, _, [], _, [], _, h => by simp at h
  | _, _, [], _, _ :: _ :: _, _, h => by simp at h
  | _, _, _ :: _, _, [], _, h => by simp at h
  | _, hi, k :: s₁, s₂, _ :: c₁, c₂, h => by
    have ih : Chain P (some k) (s₁ ++ m :: s₂) (c₁ ++ c₂) hi ↔
        Chain P (some k) s₁ c₁ (some m) ∧ Chain P (some m) s₂ c₂ hi :=
      Chain.append (by simpa using h)
    exact ⟨fun ⟨h₁, h₂, h₃⟩ => ⟨⟨h₁, h₂, (ih.1 h₃).1⟩, (ih.1 h₃).2⟩,
      fun ⟨⟨h₁, h₂, h₃⟩, h₄⟩ => ⟨h₁, h₂, ih.2 ⟨h₃, h₄⟩⟩⟩

/-- The bounds of a chain never decrease: each separator lies between `lo` and `hi`. -/
theorem Chain.below : ∀ {lo hi : Option K} {ks : List K} {cs : List (Node K V)},
    Chain P lo ks cs hi → Below lo hi ∧ ∀ k ∈ ks, Below lo (some k) ∧ Below (some k) hi
  | _, _, [], [_], h => ⟨h.1, by simp⟩
  | _, _, k :: ks, _ :: _, h => by
    obtain ⟨hk, -, hc⟩ := h
    obtain ⟨hkhi, hks⟩ := Chain.below hc
    refine ⟨hk.trans hkhi, fun k' hk' => ?_⟩
    rcases List.mem_cons.1 hk' with rfl | hk'
    · exact ⟨hk, hkhi⟩
    · exact ⟨hk.trans (hks k' hk').1, (hks k' hk').2⟩
  | _, _, [], [], h => False.elim h
  | _, _, [], _ :: _ :: _, h => False.elim h
  | _, _, _ :: _, [], h => False.elim h

theorem Chain.sorted : ∀ {lo hi : Option K} {ks : List K} {cs : List (Node K V)},
    Chain P lo ks cs hi → ks.Sorted (· ≤ ·)
  | _, _, [], _, _ => List.sorted_nil
  | _, _, k :: _, _ :: _, h =>
    List.sorted_cons.2 ⟨fun k' hk' => ((Chain.below h.2.2).2 k' hk').1 k rfl k' rfl,
      Chain.sorted h.2.2⟩
  | _, _, _ :: _, [], h => False.elim h

theorem Chain.head : ∀ {lo hi : Option K} {ks : List K} {c : Node K V} {cs : List (Node K V)},
    Chain P lo ks (c :: cs) hi → ∃ b, P lo b c
  | _, hi, [], _, [], h => ⟨hi, h.2⟩
  | _, _, k :: _, _, _, h => ⟨some k, h.2.1⟩
  | _, _, [], _, _ :: _, h => False.elim h

/-- Every child of a chain from `k` lies above a separator at least `k`. -/
theorem Chain.lower : ∀ {k : K} {hi : Option K} {ks : List K} {cs : List (Node K V)},
    Chain P (some k) ks cs hi → ∀ c ∈ cs, ∃ k' b, k ≤ k' ∧ P (some k') b c
  | k, hi, [], [c], h, c', hc' => by
    rw [List.mem_singleton.1 hc']
    exact ⟨k, hi, le_rfl, h.2⟩
  | k, _, k₁ :: _, c :: _, h, c', hc' => by
    obtain ⟨hk, hc, hrest⟩ := h
    rcases List.mem_cons.1 hc' with rfl | hc'
    · exact ⟨k, some k₁, le_rfl, hc⟩
    · obtain ⟨k', b, hk', hp⟩ := Chain.lower hrest c' hc'
      exact ⟨k', b, (hk k rfl k₁ rfl).trans hk', hp⟩
  | _, _, [], [], h, _, _ => False.elim h
  | _, _, [], _ :: _ :: _, h, _, _ => False.elim h
  | _, _, _ :: _, [], h, _, _ => False.elim h

/-- The search for `x` in a chain goes to the child `childIndex ks x`, whose bounds hold `x`;
the children before it lie below separators `<= x`, those after it above separators `> x`,
and any chain between its bounds can take its place. -/
theorem Chain.route {x : K} : ∀ {lo hi : Option K} {ks : List K} {cs : List (Node K V)},
    Chain P lo ks cs hi → InB lo hi x →
    ∃ (hlt : childIndex ks x < cs.length) (a b : Option K), InB a b x ∧
      P a b cs[childIndex ks x] ∧
      (∀ c ∈ cs.take (childIndex ks x), ∃ a' k, k ≤ x ∧ P a' (some k) c) ∧
      (∀ c ∈ cs.drop (childIndex ks x + 1), ∃ k b', x < k ∧ P (some k) b' c) ∧
      ∀ ts ms, Chain P a ts ms b →
        Chain P lo (ks.take (childIndex ks x) ++ ts ++ ks.drop (childIndex ks x))
          (cs.take (childIndex ks x) ++ ms ++ cs.drop (childIndex ks x + 1)) hi
  | lo, hi, [], [c], h, hx => by
    refine ⟨by simp [childIndex], lo, hi, hx, h.2, by simp [childIndex], by simp [childIndex],
      fun ts ms hm => by simpa [childIndex] using hm⟩
  | lo, hi, k :: ks, c :: cs, h, hx => by
    obtain ⟨hk, hc, hrest⟩ := h
    by_cases hkx : k ≤ x
    · obtain ⟨hlt, a, b, hab, hp, hpre, hpost, hre⟩ :=
        Chain.route hrest ⟨fun a ha => (Option.mem_some_iff.1 ha) ▸ hkx, hx.2⟩
      have hci : childIndex (k :: ks) x = childIndex ks x + 1 := by simp [childIndex_cons, hkx]
      refine ⟨by simp [hci, hlt], a, b, hab, by simpa [hci] using hp, ?_, ?_, ?_⟩
      · rw [hci, List.take_succ_cons]
        intro c' hc'
        rcases List.mem_cons.1 hc' with rfl | hc'
        · exact ⟨lo, k, hkx, hc⟩
        · exact hpre c' hc'
      · simpa [hci] using hpost
      · intro ts ms hm
        rw [hci]
        simp only [List.take_succ_cons, List.drop_succ_cons, List.cons_append, Chain]
        exact ⟨hk, hc, hre ts ms hm⟩
    · have hci : childIndex (k :: ks) x = 0 := by simp [childIndex_cons, hkx]
      refine ⟨by simp [hci], lo, some k, ⟨hx.1, fun b hb => (Option.mem_some_iff.1 hb) ▸
        lt_of_not_le hkx⟩, by simpa [hci] using hc, by simp [hci], ?_, ?_⟩
      · simp only [hci, Nat.zero_add, List.drop_succ_cons, List.drop_zero]
        intro c' hc'
        obtain ⟨k', b, hk', hp⟩ := Chain.lower hrest c' hc'
        exact ⟨k', b, lt_of_lt_of_le (lt_of_not_le hkx) hk', hp⟩
      · intro ts ms hm
        simp only [hci, List.take_zero, List.nil_append, List.drop_zero, Nat.zero_add,
          List.drop_succ_cons]
        exact (Chain.append (Chain.length hm)).2 ⟨hm, hrest⟩
  | _, _, [], [], h, _ => False.elim h
  | _, _, [], _ :: _ :: _, h, _ => False.elim h
  | _, _, _ :: _, [], h, _ => False.elim h

/-- The entries of a chain's children, in order, are sorted and inside its bounds when each
child's are inside its own. -/
theorem Chain.flatMap {f : Node K V → List (K × V)}
    (hP : ∀ a b c, P a b c → (f c).Pairwise (fun x y => x.1 < y.1) ∧ ∀ e ∈ f c, InB a b e.1) :
    ∀ {lo hi : Option K} {ks : List K} {cs : List (Node K V)}, Chain P lo ks cs hi →
      (cs.flatMap f).Pairwise (fun x y => x.1 < y.1) ∧ ∀ e ∈ cs.flatMap f, InB lo hi e.1
  | _, _, [], [c], h => by simpa using hP _ _ c h.2
  | _, _, k :: _, c :: _, h => by
    obtain ⟨hk, hc, hrest⟩ := h
    obtain ⟨hs₁, hb₁⟩ := hP _ _ c hc
    obtain ⟨hs₂, hb₂⟩ := Chain.flatMap hP hrest
    have hkhi := (Chain.below hrest).1
    rw [List.flatMap_cons]
    refine ⟨List.pairwise_append.2 ⟨hs₁, hs₂, fun x hx y hy =>
      lt_of_lt_of_le ((hb₁ x hx).2 k rfl) ((hb₂ y hy).1 k rfl)⟩, fun e he => ?_⟩
    rcases List.mem_append.1 he with he | he
    · exact (hb₁ e he).widen_hi hkhi
    · exact (hb₂ e he).widen_lo hk
  | _, _, [], [], h => False.elim h
  | _, _, [], _ :: _ :: _, h => False.elim h
  | _, _, _ :: _, [], h => False.elim h

end Chain

/-! ### Well-formed nodes -/

theorem flatMap_split {α β : Type} (f : α → List β) (l : List α) {i : Nat} (hi : i < l.length) :
    l.flatMap f = (l.take i).flatMap f ++ f l[i] ++ (l.drop (i + 1)).flatMap f := by
  conv_lhs => rw [← List.take_append_drop i l, List.drop_eq_getElem_cons hi]
  rw [List.flatMap_append, List.flatMap_cons, List.append_assoc]

/-- A well-formed node's entries are strictly increasing and inside its bounds. -/
theorem Node.WF.entries : ∀ {h : Nat} {lo hi : Option K} {n : Node K V}, n.WF h lo hi →
    n.toList.Pairwise (fun x y => x.1 < y.1) ∧ ∀ e ∈ n.toList, InB lo hi e.1
  | 0, _, _, .leaf _, hw => by
    rw [toList_leaf]
    exact hw
  | _ + 1, _, _, .internal _ _, hw => by
    rw [toList_internal]
    exact Chain.flatMap (fun _ _ _ hc => Node.WF.entries hc) hw
  | 0, _, _, .internal _ _, hw => False.elim hw
  | _ + 1, _, _, .leaf _, hw => False.elim hw

/-- The loop of `for_each` down `children[0]` reaches the first leaf, and there is one. -/
theorem Node.WF.leftmost : ∀ {h : Nat} {lo hi : Option K} {n : Node K V}, n.WF h lo hi →
    n.leftmost = n.leaves.head? ∧ n.leaves ≠ []
  | 0, _, _, .leaf _, _ => ⟨rfl, by simp⟩
  | _ + 1, _, _, .internal _ [], hw => absurd (Chain.length hw) (by simp)
  | _ + 1, _, _, .internal _ (_ :: _), hw => by
    obtain ⟨_, hc⟩ := Chain.head hw
    obtain ⟨h₁, h₂⟩ := Node.WF.leftmost hc
    simp only [Node.leftmost, leaves_internal, List.flatMap_cons, h₁]
    exact ⟨(List.head?_append_of_ne_nil _ h₂).symm, by simp [h₂]⟩
  | 0, _, _, .internal _ _, hw => False.elim hw
  | _ + 1, _, _, .leaf _, hw => False.elim hw

section Route

variable {h : Nat} {lo hi : Option K} {ks : List K} {cs : List (Node K V)}

theorem Node.WF.upperBoundIdx_eq (hw : (Node.internal ks cs).WF (h + 1) lo hi) (x : K) :
    upperBoundIdx ks x = childIndex ks x :=
  BPlusTree.upperBoundIdx_eq (Chain.sorted hw) x

/-- `Chain.route` for a well-formed internal node, with the keys of the children before and
after the one the search goes to. -/
theorem Node.WF.route {x : K} (hw : (Node.internal ks cs).WF (h + 1) lo hi) (hx : InB lo hi x) :
    ∃ (hlt : childIndex ks x < cs.length) (a b : Option K), InB a b x ∧
      cs[childIndex ks x].WF h a b ∧
      (∀ e ∈ (cs.take (childIndex ks x)).flatMap Node.toList, e.1 < x) ∧
      (∀ e ∈ (cs.drop (childIndex ks x + 1)).flatMap Node.toList, x < e.1) ∧
      ∀ ts ms, Chain (fun a b c => Node.WF h a b c) a ts ms b →
        (Node.internal (ks.take (childIndex ks x) ++ ts ++ ks.drop (childIndex ks x))
          (cs.take (childIndex ks x) ++ ms ++ cs.drop (childIndex ks x + 1))).WF (h + 1) lo hi := by
  obtain ⟨hlt, a, b, hab, hc, hpre, hpost, hre⟩ := Chain.route hw hx
  refine ⟨hlt, a, b, hab, hc, fun e he => ?_, fun e he => ?_, hre⟩
  · obtain ⟨c, hc', he⟩ := List.mem_flatMap.1 he
    obtain ⟨_, k, hk, hw'⟩ := hpre c hc'
    exact lt_of_lt_of_le ((hw'.entries.2 e he).2 k rfl) hk
  · obtain ⟨c, hc', he⟩ := List.mem_flatMap.1 he
    obtain ⟨k, _, hk, hw'⟩ := hpost c hc'
    exact lt_of_lt_of_le hk ((hw'.entries.2 e he).1 k rfl)

end Route

/-- The leaves of an internal node around a leaf of its `i`-th child: the children before it,
the child's leaves around that leaf, and the children after it. Entries below `x` before the
child and inside it before the leaf stay below `x`, and likewise above `x` after it. -/
theorem leaves_around (ks : List K) {cs : List (Node K V)} {i : Nat} (hlt : i < cs.length) {x : K}
    {pre post : List (Leaf K V)} {l : Leaf K V} (hl : cs[i].leaves = pre ++ l :: post)
    (hpre : ∀ e ∈ (cs.take i).flatMap Node.toList, e.1 < x)
    (hpost : ∀ e ∈ (cs.drop (i + 1)).flatMap Node.toList, x < e.1)
    (hpre' : ∀ e ∈ pre.flatMap Leaf.entries, e.1 < x)
    (hpost' : ∀ e ∈ post.flatMap Leaf.entries, x < e.1) :
    (Node.internal ks cs).leaves = ((cs.take i).flatMap Node.leaves ++ pre) ++
        l :: (post ++ (cs.drop (i + 1)).flatMap Node.leaves) ∧
      (∀ e ∈ ((cs.take i).flatMap Node.leaves ++ pre).flatMap Leaf.entries, e.1 < x) ∧
      (∀ e ∈ (post ++ (cs.drop (i + 1)).flatMap Node.leaves).flatMap Leaf.entries, x < e.1) := by
  refine ⟨by rw [leaves_internal, flatMap_split _ cs hlt, hl]; simp, fun e he => ?_, fun e he => ?_⟩
  · rw [List.flatMap_append, flatMap_leaves_entries, List.mem_append] at he
    exact he.elim (hpre e) (hpre' e)
  · rw [List.flatMap_append, flatMap_leaves_entries, List.mem_append] at he
    exact he.elim (hpost' e) (hpost e)

/-- The loop of `find` and `range` down to a leaf reaches the leaf whose bounds hold the key:
the leaves before it hold smaller keys, those after it larger ones. -/
theorem Node.WF.descend {x : K} : ∀ {h : Nat} {lo hi : Option K} {n : Node K V}, n.WF h lo hi →
    InB lo hi x → ∃ pre l post, n.leaves = pre ++ l :: post ∧ n.descend x = some l ∧
      (∀ e ∈ pre.flatMap Leaf.entries, e.1 < x) ∧ (∀ e ∈ post.flatMap Leaf.entries, x < e.1)
  | 0, _, _, .leaf l, _, _ => ⟨[], l, [], rfl, rfl, by simp, by simp⟩
  | _ + 1, _, _, .internal ks cs, hw, hx => by
    obtain ⟨hlt, a, b, hab, hc, hpre, hpost, -⟩ := hw.route hx
    obtain ⟨pre, l, post, hl, hd, hpre', hpost'⟩ := Node.WF.descend hc hab
    obtain ⟨hleaves, hbelow, habove⟩ := leaves_around ks hlt hl hpre hpost hpre' hpost'
    refine ⟨_, l, _, hleaves, ?_, hbelow, habove⟩
    simp only [Node.descend, descend_go, hw.upperBoundIdx_eq, List.getElem?_eq_getElem hlt,
      Option.some_bind, hd]
  | 0, _, _, .internal _ _, hw, _ => False.elim hw
  | _ + 1, _, _, .leaf _, hw, _ => False.elim hw

/-! ### Leaves -/

/-- A sorted leaf splits at `lower_bound(key)` into the keys below `key` and the others, which
start with `key` or lie above it. -/
theorem lowerBound_split {es : List (K × V)} (hs : es.Pairwise (fun a b => a.1 < b.1)) (key : K) :
    ∃ A B, es = A ++ B ∧ lowerBound es key = A.length ∧ (∀ e ∈ A, e.1 < key) ∧
      ((∃ v C, B = (key, v) :: C ∧ ∀ e ∈ C, key < e.1) ∨
        (B.head?.map Prod.fst ≠ some key ∧ ∀ e ∈ B, key < e.1)) := by
  refine ⟨es.takeWhile (fun e => e.1 < key), es.dropWhile (fun e => e.1 < key),
    (List.takeWhile_append_dropWhile _ _).symm, rfl,
    fun e he => by simpa using List.mem_takeWhile_imp he, ?_⟩
  have hB : (es.dropWhile fun e => e.1 < key).Pairwise (fun a b => a.1 < b.1) :=
    hs.sublist (List.dropWhile_suffix _).sublist
  have hhead := List.head_dropWhile_not (fun e : K × V => decide (e.1 < key)) es
  rcases hd : es.dropWhile (fun e => e.1 < key) with _ | ⟨b, C⟩
  · exact .inr ⟨by simp [hd], by simp [hd]⟩
  · have hb : key ≤ b.1 := by simpa [hd] using hhead (by simp [hd])
    rw [hd]
    rw [hd, List.pairwise_cons] at hB
    by_cases hbk : b.1 = key
    · exact .inl ⟨b.2, C, by rw [← hbk], fun e he => hbk ▸ hB.1 e he⟩
    · have hlt : key < b.1 := lt_of_le_of_ne hb (Ne.symm hbk)
      refine .inr ⟨by simpa using hbk, fun e he => ?_⟩
      rcases List.mem_cons.1 he with rfl | he
      · exact hlt
      · exact hlt.trans (hB.1 e he)

/-- A sorted, bounded leaf cut before the entry `e` gives two well-formed leaves around its
key. -/
theorem chain_split_leaf {lo hi : Option K} {T rest : List (K × V)} {e : K × V}
    (hs : (T ++ e :: rest).Pairwise (fun a b => a.1 < b.1))
    (hb : ∀ x ∈ T ++ e :: rest, InB lo hi x.1) (a₁ a₂ : Nat) (n₁ n₂ : Option Nat) :
    Chain (fun a b c => Node.WF 0 a b c) lo [e.1]
      [.leaf ⟨a₁, T, n₁⟩, .leaf ⟨a₂, e :: rest, n₂⟩] hi := by
  rw [List.pairwise_append, List.pairwise_cons] at hs
  obtain ⟨hT, ⟨he, hrest⟩, hcross⟩ := hs
  have hbe := hb e (by simp)
  refine ⟨fun a ha y hy => (Option.mem_some_iff.1 hy) ▸ hbe.1 a ha, ⟨hT, fun x hx =>
    ⟨(hb x (by simp [hx])).1, fun y hy => (Option.mem_some_iff.1 hy) ▸ hcross x hx e (by simp)⟩⟩,
    fun x hx y hy => (Option.mem_some_iff.1 hx) ▸ (hbe.2 y hy).le, List.pairwise_cons.2 ⟨he, hrest⟩,
    fun x hx => ?_⟩
  refine ⟨fun y hy => (Option.mem_some_iff.1 hy) ▸ ?_, (hb x (by simp_all)).2⟩
  rcases List.mem_cons.1 hx with rfl | hx
  · exact le_rfl
  · exact (he x hx).le

/-- `split_leaf` of a sorted, bounded leaf: two leaves chained around the separator, the first
at the leaf's address and linked to the second at `addr`, holding the leaf's entries. -/
theorem splitLeaf_spec {lo hi : Option K} {l left right : Leaf K V} {addr : Nat} {s : K}
    (hs : l.entries.Pairwise (fun a b => a.1 < b.1)) (hb : ∀ e ∈ l.entries, InB lo hi e.1)
    (hsplit : splitLeaf l addr = some (left, s, right)) :
    Chain (fun a b c => Node.WF 0 a b c) lo [s] [.leaf left, .leaf right] hi ∧
      Replaces addr l [left, right] ∧ left.entries ++ right.entries = l.entries := by
  simp only [splitLeaf] at hsplit
  split at hsplit
  · cases hsplit
  · rename_i e rest hdrop
    simp only [Option.some.injEq, Prod.mk.injEq] at hsplit
    obtain ⟨rfl, rfl, rfl⟩ := hsplit
    have hcut : l.entries = l.entries.take (l.entries.length / 2) ++ e :: rest := by
      rw [← hdrop, List.take_append_drop]
    rw [hcut] at hs hb
    exact ⟨chain_split_leaf hs hb _ _ _ _, ⟨.inr rfl, rfl, rfl, trivial⟩, hcut.symm⟩

/-- The entries stay inside the bounds when a key inside them goes in between `A` and `C`. -/
theorem inB_insert {lo hi : Option K} {A C : List (K × V)} {k : K} (w : V)
    (hA : ∀ e ∈ A, InB lo hi e.1) (hx : InB lo hi k) (hC : ∀ e ∈ C, InB lo hi e.1) :
    ∀ e ∈ A ++ (k, w) :: C, InB lo hi e.1 := by
  simp only [List.mem_append, List.mem_cons]
  rintro e (he | rfl | he)
  exacts [hA e he, hx, hC e he]

/-- A leaf that takes its new entries without splitting. -/
theorem insert_single_leaf {lo hi : Option K} {key : K} {value : V} {addr : Nat} {l : Leaf K V}
    {es' : List (K × V)} {found : Bool} (hs : es'.Pairwise (fun a b => a.1 < b.1))
    (hb : ∀ e ∈ es', InB lo hi e.1) (hlh : Below lo hi)
    (hups : Upserts key value l.entries es' found) :
    let r : Inserted K V := ⟨.leaf { l with entries := es' }, none, found⟩
    Chain (fun a b c => Node.WF 0 a b c) lo r.keys r.nodes hi ∧
      Replaces addr l (r.nodes.flatMap Node.leaves) ∧
      Upserts key value l.entries ((r.nodes.flatMap Node.leaves).flatMap Leaf.entries) r.found :=
  ⟨⟨hlh, hs, hb⟩, by simpa [Inserted.nodes] using Replaces.entries addr l es',
    by simpa [Inserted.nodes] using hups⟩

/-- The leaf case of `insert_internal`: the new entries replace the leaf's, in one leaf or, after
a split, in two linked leaves around the separator. -/
theorem insertLeaf_spec (order : Nat) (key : K) (value : V) (addr : Nat) {lo hi : Option K}
    {l : Leaf K V} (hw : (Node.leaf l).WF 0 lo hi) (hx : InB lo hi key) :
    let r := insertLeaf order key value addr l
    Chain (fun a b c => Node.WF 0 a b c) lo r.keys r.nodes hi ∧
      Replaces addr l (r.nodes.flatMap Node.leaves) ∧
      Upserts key value l.entries ((r.nodes.flatMap Node.leaves).flatMap Leaf.entries) r.found := by
  obtain ⟨hs, hb⟩ := hw
  obtain ⟨A, B, hes, hpos, hA, hB⟩ := lowerBound_split hs key
  have hget : l.entries[lowerBound l.entries key]?.map Prod.fst = B.head?.map Prod.fst := by
    rw [hpos, hes, getElem?_length_append]
  have hAk : ∀ e ∈ A, e.1 ≠ key := fun e he => (hA e he).ne
  rw [hes] at hs hb
  obtain ⟨hbA, hbB⟩ := List.forall_mem_append.1 hb
  rcases hB with ⟨v, C, rfl, hC⟩ | ⟨hne, hB⟩
  · -- `key` is there: its value is overwritten in place
    have hset : l.entries.set (lowerBound l.entries key) (key, value) = A ++ (key, value) :: C := by
      rw [hpos, hes, set_length_append]
    have hups : Upserts key value l.entries (A ++ (key, value) :: C) true := by
      rw [hes]
      simpa using (Upserts.single v).append hAk fun e he => (hC e he).ne'
    simp only [insertLeaf, hget, List.head?_cons, Option.map_some', if_true, hset]
    refine insert_single_leaf ?_
      (inB_insert value hbA hx fun e he => hbB e (List.mem_cons_of_mem _ he)) hx.below hups
    have : (A ++ (key, value) :: C).map Prod.fst = (A ++ (key, v) :: C).map Prod.fst := by simp
    rw [← List.pairwise_map] at hs ⊢
    rwa [this]
  · -- `key` is new: it goes in at its position, and the leaf splits if it overfills
    have hins : l.entries.insertIdx (lowerBound l.entries key) (key, value) =
        A ++ (key, value) :: B := by
      rw [hpos, hes, insertIdx_length_append]
    have hs' : (A ++ (key, value) :: B).Pairwise (fun a b => a.1 < b.1) := by
      rw [List.pairwise_append] at hs ⊢
      refine ⟨hs.1, List.pairwise_cons.2 ⟨hB, hs.2.1⟩, fun a ha b hb => ?_⟩
      rcases List.mem_cons.1 hb with rfl | hb
      · exact hA a ha
      · exact hs.2.2 a ha b hb
    have hb' := inB_insert value hbA hx hbB
    have hups : Upserts key value l.entries (A ++ (key, value) :: B) false := by
      rw [hes]
      simpa using Upserts.new.append hAk fun e he => (hB e he).ne'
    have hnot : ¬ (B.head?.map Prod.fst = some key) := hne
    simp only [insertLeaf, hget, hnot, if_false, hins]
    split
    · split
      · rename_i left s right hsplit
        obtain ⟨hch, hrep, hcat⟩ := splitLeaf_spec hs' hb' hsplit
        exact ⟨hch, ⟨hrep.addrs, hrep.linked⟩, by simpa [Inserted.nodes, hcat] using hups⟩
      · exact insert_single_leaf hs' hb' hx.below hups
    · exact insert_single_leaf hs' hb' hx.below hups

/-! ### Internal nodes -/

/-- `split_internal` of a chain: the two halves are chains up to and from the separator that
goes up, and they hold the same leaves. -/
theorem splitInternal_spec {ks : List K} {cs : List (Node K V)} {left right : Node K V} {k : K}
    (hs : splitInternal ks cs = some (left, k, right)) :
    left.leaves ++ right.leaves = cs.flatMap Node.leaves ∧
      ∀ {h : Nat} {lo hi : Option K}, Chain (fun a b c => Node.WF h a b c) lo ks cs hi →
        Chain (fun a b c => Node.WF (h + 1) a b c) lo [k] [left, right] hi := by
  simp only [splitInternal] at hs
  split at hs
  · cases hs
  · rename_i k₀ hk₀
    simp only [Option.some.injEq, Prod.mk.injEq] at hs
    obtain ⟨rfl, rfl, rfl⟩ := hs
    refine ⟨by simp only [leaves_internal, ← List.flatMap_append, List.take_append_drop], ?_⟩
    intro h lo hi hc
    have hmid : ks.length / 2 < ks.length := (List.getElem?_eq_some_iff.1 hk₀).1
    have hks : ks = ks.take (ks.length / 2) ++ k₀ :: ks.drop (ks.length / 2 + 1) := by
      rw [← (List.getElem?_eq_some_iff.1 hk₀).2, ← List.drop_eq_getElem_cons hmid,
        List.take_append_drop]
    have hlen := Chain.length hc
    have hbelow := (Chain.below hc).2 k₀ (List.getElem?_mem hk₀)
    rw [hks, ← List.take_append_drop (ks.length / 2 + 1) cs] at hc
    obtain ⟨hl, hr⟩ := (Chain.append (by simp; omega)).1 hc
    exact ⟨hbelow.1, hl, hbelow.2, hr⟩

/-- An insert into an internal node whose search index `i` is in range: it reports the child's
`found`, its leaves are those of the children with the child's result in place, and so is its
chain, one level up. -/
theorem insertInternal_internal (order : Nat) (key : K) (value : V) (addr : Nat) {ks : List K}
    {cs : List (Node K V)} {i : Nat} (hi : upperBoundIdx ks key = i) (hlt : i < cs.length) :
    let r := insertInternal order key value addr cs[i]
    let r' := insertInternal order key value addr (.internal ks cs)
    r'.found = r.found ∧
      r'.nodes.flatMap Node.leaves = (cs.take i ++ r.nodes ++ cs.drop (i + 1)).flatMap Node.leaves ∧
      ∀ {h : Nat} {lo hi : Option K}, Chain (fun a b c => Node.WF h a b c) lo
          (ks.take i ++ r.keys ++ ks.drop i) (cs.take i ++ r.nodes ++ cs.drop (i + 1)) hi →
        Chain (fun a b c => Node.WF (h + 1) a b c) lo r'.keys r'.nodes hi := by
  intro r r'
  have hgo : insertInternal.go order key value addr i cs = some r := by
    rw [insertInternal_go, List.getElem?_eq_getElem hlt]
    rfl
  have hik : i ≤ ks.length := hi ▸ upperBoundIdx_le ks key
  simp only [r', insertInternal, hi, hgo]
  rcases hsplit : r.split with _ | ⟨s, n⟩
  · have hk : r.keys = [] := by simp [Inserted.keys, hsplit]
    have hn : r.nodes = [r.node] := by simp [Inserted.nodes, hsplit]
    rw [hk, hn, List.append_nil, List.take_append_drop, List.append_assoc, List.singleton_append,
      ← set_eq_take_drop cs r.node hlt]
    exact ⟨rfl, by simp, fun hc => ⟨(Chain.below hc).1, hc⟩⟩
  · have hk : r.keys = [s] := by simp [Inserted.keys, hsplit]
    have hn : r.nodes = [r.node, n] := by simp [Inserted.nodes, hsplit]
    have hks : ks.take i ++ [s] ++ ks.drop i = ks.insertIdx i s := by
      rw [insertIdx_eq_take_drop ks s hik]; simp
    have hcs : cs.take i ++ [r.node, n] ++ cs.drop (i + 1) = (cs.set i r.node).insertIdx (i + 1) n := by
      rw [insertIdx_set cs r.node n hlt]; simp
    rw [hk, hn, hks, hcs]
    dsimp only
    split
    · split
      · rename_i left k right hs'
        obtain ⟨hl, hc⟩ := splitInternal_spec hs'
        exact ⟨rfl, by simpa using hl, hc⟩
      · exact ⟨rfl, by simp, fun hc => ⟨(Chain.below hc).1, hc⟩⟩
    · exact ⟨rfl, by simp, fun hc => ⟨(Chain.below hc).1, hc⟩⟩

/-- `insert_internal` on a well-formed node whose bounds hold the key: its nodes form a chain
between the same bounds, and its leaves are the node's with the leaf the search reaches replaced
by one or two leaves holding that leaf's entries with `key` set to `value`. -/
theorem Node.WF.insertInternal_spec (order : Nat) (key : K) (value : V) (addr : Nat) :
    ∀ {h : Nat} {lo hi : Option K} {n : Node K V}, n.WF h lo hi → InB lo hi key →
    Chain (fun a b c => Node.WF h a b c) lo (insertInternal order key value addr n).keys
        (insertInternal order key value addr n).nodes hi ∧
      ∃ pre l post R, n.leaves = pre ++ l :: post ∧
        (insertInternal order key value addr n).nodes.flatMap Node.leaves = pre ++ R ++ post ∧
        Replaces addr l R ∧
        Upserts key value l.entries (R.flatMap Leaf.entries)
          (insertInternal order key value addr n).found ∧
        (∀ e ∈ pre.flatMap Leaf.entries, e.1 < key) ∧ (∀ e ∈ post.flatMap Leaf.entries, key < e.1)
  | 0, _, _, .leaf l, hw, hx => by
    obtain ⟨hc, hr, hu⟩ := insertLeaf_spec order key value addr hw hx
    exact ⟨hc, [], l, [], _, rfl, (List.append_nil _).symm, hr, hu, by simp, by simp⟩
  | _ + 1, _, _, .internal ks cs, hw, hx => by
    obtain ⟨hlt, a, b, hab, hc, hpre, hpost, hre⟩ := hw.route hx
    obtain ⟨hch, pre, l, post, R, hl, hR, hrep, hups, hpre', hpost'⟩ :=
      Node.WF.insertInternal_spec order key value addr hc hab
    obtain ⟨hfound, hleaves, hchain⟩ :=
      insertInternal_internal order key value addr (hw.upperBoundIdx_eq key) hlt
    obtain ⟨hl', hbelow, habove⟩ := leaves_around ks hlt hl hpre hpost hpre' hpost'
    refine ⟨hchain (hre _ _ hch), _, l, _, R, hl', ?_, hrep, hfound ▸ hups, hbelow, habove⟩
    rw [hleaves, List.flatMap_append, List.flatMap_append, hR]
    simp
  | 0, _, _, .internal _ _, hw, _ => False.elim hw
  | _ + 1, _, _, .leaf _, hw, _ => False.elim hw

/-- The leaf case of `erase_internal`: the leaf keeps its place with the entry at `key`
removed, if there was one. -/
theorem eraseLeaf_spec (key : K) {lo hi : Option K} {l : Leaf K V}
    (hw : (Node.leaf l).WF 0 lo hi) :
    ∃ es', (eraseInternal key (.leaf l)).1 = .leaf { l with entries := es' } ∧
      (Node.leaf { l with entries := es' }).WF 0 lo hi ∧
      Erases key l.entries es' (eraseInternal key (.leaf l)).2 := by
  obtain ⟨hs, hb⟩ := hw
  obtain ⟨A, B, hes, hpos, hA, hB⟩ := lowerBound_split hs key
  have hget : l.entries[lowerBound l.entries key]?.map Prod.fst = B.head?.map Prod.fst := by
    rw [hpos, hes, getElem?_length_append]
  have hAk : ∀ e ∈ A, e.1 ≠ key := fun e he => (hA e he).ne
  rcases hB with ⟨v, C, rfl, hC⟩ | ⟨hne, hB⟩
  · -- `key` is there: its entry goes
    have herase : l.entries.eraseIdx (lowerBound l.entries key) = A ++ C := by
      rw [hpos, hes, eraseIdx_length_append]
    have hCk : ∀ e ∈ C, e.1 ≠ key := fun e he => (hC e he).ne'
    simp only [eraseInternal, hget, List.head?_cons, Option.map_some', if_true, herase]
    refine ⟨A ++ C, rfl, ⟨?_, fun e he => hb e ?_⟩, ?_⟩
    · rw [hes] at hs
      exact hs.sublist ((List.sublist_cons_self _ C).append_left A)
    · rw [hes]
      rcases List.mem_append.1 he with he | he <;> simp [he]
    · rw [hes]
      simpa using (Erases.single v).append hAk hCk
  · -- `key` is not there: nothing changes
    have hBk : ∀ e ∈ B, e.1 ≠ key := fun e he => (hB e he).ne'
    have hnot : ¬ (B.head?.map Prod.fst = some key) := hne
    simp only [eraseInternal, hget, hnot, if_false]
    refine ⟨l.entries, rfl, ⟨hs, hb⟩, ⟨fun k v' => ⟨fun h => ⟨fun hk => ?_, h⟩, And.right⟩, rfl⟩⟩
    rw [hes, List.mem_append] at h
    exact h.elim (hAk _ · hk) (hBk _ · hk)

/-- `erase_internal` on a well-formed node whose bounds hold the key: the node stays well
formed, and its leaves are the node's with the leaf the search reaches holding its entries
without `key`. -/
theorem Node.WF.eraseInternal_spec (key : K) :
    ∀ {h : Nat} {lo hi : Option K} {n : Node K V}, n.WF h lo hi → InB lo hi key →
    (eraseInternal key n).1.WF h lo hi ∧
      ∃ pre l post es', n.leaves = pre ++ l :: post ∧
        (eraseInternal key n).1.leaves = pre ++ { l with entries := es' } :: post ∧
        Erases key l.entries es' (eraseInternal key n).2 ∧
        (∀ e ∈ pre.flatMap Leaf.entries, e.1 < key) ∧ (∀ e ∈ post.flatMap Leaf.entries, key < e.1)
  | 0, _, _, .leaf l, hw, _ => by
    obtain ⟨es', he, hw', hers⟩ := eraseLeaf_spec key hw
    rw [he]
    exact ⟨hw', [], l, [], es', rfl, rfl, hers, by simp, by simp⟩
  | _ + 1, _, _, .internal ks cs, hw, hx => by
    obtain ⟨hlt, a, b, hab, hc, hpre, hpost, hre⟩ := hw.route hx
    obtain ⟨hw', pre, l, post, es', hl, hl', hers, hpre', hpost'⟩ :=
      Node.WF.eraseInternal_spec key hc hab
    have hgo : eraseInternal.go key (childIndex ks key) cs =
        some (eraseInternal key cs[childIndex ks key]) := by
      rw [eraseInternal_go, List.getElem?_eq_getElem hlt]
      rfl
    have hset : cs.set (childIndex ks key) (eraseInternal key cs[childIndex ks key]).1 =
        cs.take (childIndex ks key) ++ [(eraseInternal key cs[childIndex ks key]).1] ++
          cs.drop (childIndex ks key + 1) := by
      rw [set_eq_take_drop _ _ hlt]
      simp
    obtain ⟨hleaves, hbelow, habove⟩ := leaves_around ks hlt hl hpre hpost hpre' hpost'
    simp only [eraseInternal, hw.upperBoundIdx_eq, hgo]
    refine ⟨?_, _, l, _, es', hleaves, ?_, hers, hbelow, habove⟩
    · have := hre [] [(eraseInternal key cs[childIndex ks key]).1] ⟨hab.below, hw'⟩
      rwa [List.append_nil, List.take_append_drop, ← hset] at this
    · rw [leaves_internal, hset, List.flatMap_append, List.flatMap_append, List.flatMap_singleton,
        hl']
      simp
  | 0, _, _, .internal _ _, hw, _ => False.elim hw
  | _ + 1, _, _, .leaf _, hw, _ => False.elim hw

end Order

end BPlusTree

end FileBackup
