import FileBackup.Scheduler

/-!
# `PriorityQueue<T, Compare>` (`priority_queue.h`)

A binary heap in the vector `heap_`, ordered by the comparator `cmp_`: `cmp(a, b)` says that `b`
comes out before `a`. `JobScheduler` keeps `pq_` in one, under `JobCompare`.

* `siftUp`, `siftDown`, and the calls `push`, `pop`, `top`, `removeIf`, `update`, `clear`;
* `Ordered`: no element is `cmp`-below its parent; `Broken`, `DownBroken`, `UpBroken`: the
  heap with one position out of place, which the sifts repair, after the states of the sift
  loops in a heap with a hole;
* `Spec`: what each call does to the multiset of elements, and what `top` and `pop` return;
* `priorityQueue_spec`: for every comparator that is a strict weak order, every heap that a
  sequence of calls reaches from the empty queue is ordered, and the next call meets `Spec`.

`remove_if` and `update` sift down and then up at the same index: after an update that raises
an element the first sift does nothing, and after one that lowers it the second does nothing
(`siftDown_upBroken`).

A comparison reads two cells that the code always has in range; `less` reads `false` past the
end, so that the order facts carry no bounds of their own.
-/

namespace FileBackup

namespace PriorityQueue

variable {α : Type} (cmp : α → α → Bool)

/-- `(idx - 1) / 2`. -/
def parent (i : Nat) : Nat := (i - 1) / 2

/-- `cmp_(heap_[i], heap_[j])`, and `false` when either index is past the end. -/
def less (h : List α) (i j : Nat) : Bool :=
  match h[i]?, h[j]? with
  | some a, some b => cmp a b
  | _, _ => false

/-- `std::swap(heap_[i], heap_[j])`. -/
def swap (h : List α) (i j : Nat) : List α :=
  match h[i]?, h[j]? with
  | some a, some b => (h.set i b).set j a
  | _, _ => h

/-- `sift_up(idx)`: swap with the parent while the parent is `cmp`-below. -/
def siftUp (h : List α) (idx : Nat) : List α :=
  if idx = 0 then h
  else if less cmp h (parent idx) idx then siftUp (swap h (parent idx) idx) (parent idx)
  else h
termination_by idx
decreasing_by unfold parent; omega

/-- `best` in `sift_down(idx)`: the left child when it is `cmp`-above `idx`, then the right child
when it is `cmp`-above that. -/
def best (h : List α) (idx : Nat) : Nat :=
  let b := if 2 * idx + 1 < h.length ∧ less cmp h idx (2 * idx + 1) = true then 2 * idx + 1 else idx
  if 2 * idx + 2 < h.length ∧ less cmp h b (2 * idx + 2) = true then 2 * idx + 2 else b

theorem best_eq_or (h : List α) (idx : Nat) :
    best cmp h idx = idx ∨ idx < best cmp h idx ∧ best cmp h idx < h.length := by
  simp only [best]; split_ifs <;> omega

theorem length_swap (h : List α) (i j : Nat) : (swap h i j).length = h.length := by
  unfold swap; split <;> simp

/-- `sift_down(idx)`: swap with `best` until `idx` is `best`. -/
def siftDown (h : List α) (idx : Nat) : List α :=
  if best cmp h idx = idx then h
  else siftDown (swap h idx (best cmp h idx)) (best cmp h idx)
termination_by h.length - idx
decreasing_by have := best_eq_or cmp h idx; rw [length_swap]; omega

/-- `heap_[i] = heap_.back(); heap_.pop_back();`. -/
def removeAt (h : List α) (i : Nat) : List α :=
  match h.getLast? with
  | some last => (h.set i last).dropLast
  | none => h

/-- `push(item)`. -/
def push (h : List α) (x : α) : List α := siftUp cmp (h ++ [x]) h.length

/-- `pop()`: the root; the last element takes its place and sifts down. -/
def pop (h : List α) : Except String (α × List α) :=
  match h with
  | [] => .error "PriorityQueue: pop on empty queue"
  | top :: _ =>
    let h' := removeAt h 0
    .ok (top, if h'.isEmpty then h' else siftDown cmp h' 0)

/-- `top()`. -/
def top : List α → Except String α
  | [] => .error "PriorityQueue: top on empty queue"
  | x :: _ => .ok x

/-- `remove_if(pred)`: the first element that satisfies `pred` is replaced by the last, which
sifts down and then up. -/
def removeIf (p : α → Bool) (h : List α) : Bool × List α :=
  match h.findIdx? p with
  | none => (false, h)
  | some i =>
    let h' := removeAt h i
    (true, if i < h'.length then siftUp cmp (siftDown cmp h' i) i else h')

/-- `update(pred, new_val)`: the first element that satisfies `pred` is replaced by `new_val`,
which sifts down and then up. -/
def update (p : α → Bool) (v : α) (h : List α) : Bool × List α :=
  match h.findIdx? p with
  | none => (false, h)
  | some i => (true, siftUp cmp (siftDown cmp (h.set i v) i) i)

/-- A call on a `PriorityQueue`. -/
inductive Call (α : Type)
  | push (x : α)
  | pop
  | top
  | removeIf (p : α → Bool)
  | update (p : α → Bool) (v : α)
  | clear

/-- What a call answers; `error` is the message of the exception it throws. -/
inductive Reply (α : Type)
  | done
  | item (x : α)
  | flag (b : Bool)
  | error (msg : String)

/-- One call on the queue `heap_`. A call that throws leaves the queue as it was. -/
def step (h : List α) : Call α → Reply α × List α
  | .push x => (.done, push cmp h x)
  | .pop =>
    match pop cmp h with
    | .ok r => (.item r.1, r.2)
    | .error msg => (.error msg, h)
  | .top =>
    match top h with
    | .ok x => (.item x, h)
    | .error msg => (.error msg, h)
  | .removeIf p => (.flag (removeIf cmp p h).1, (removeIf cmp p h).2)
  | .update p v => (.flag (update cmp p v h).1, (update cmp p v h).2)
  | .clear => (.done, [])

/-- The queue after a sequence of calls. -/
def run (h : List α) : List (Call α) → List α
  | [] => h
  | call :: calls => run (step cmp h call).2 calls

/-- What a call does to the multiset of elements, and what `top` and `pop` return: an element
that no element of the queue is `cmp`-above. -/
def Spec (h : List α) : Call α → Reply α → List α → Prop
  | .push x, r, h' => r = .done ∧ h'.Perm (h ++ [x])
  | .pop, r, h' =>
    (h = [] ∧ r = .error "PriorityQueue: pop on empty queue" ∧ h' = h) ∨
      ∃ e, r = .item e ∧ (∀ x ∈ h, cmp e x = false) ∧ h.Perm (e :: h')
  | .top, r, h' =>
    h' = h ∧ ((h = [] ∧ r = .error "PriorityQueue: top on empty queue") ∨
      ∃ e ∈ h, r = .item e ∧ ∀ x ∈ h, cmp e x = false)
  | .removeIf p, r, h' =>
    ∃ b, r = .flag b ∧ (b = true ↔ ∃ x ∈ h, p x = true) ∧
      if b = true then ∃ x, p x = true ∧ h.Perm (x :: h') else h' = h
  | .update p v, r, h' =>
    ∃ b, r = .flag b ∧ (b = true ↔ ∃ x ∈ h, p x = true) ∧
      if b = true then ∃ x rest, p x = true ∧ h.Perm (x :: rest) ∧ h'.Perm (v :: rest)
      else h' = h
  | .clear, r, h' => r = .done ∧ h' = []

/-! ### Positions and comparisons -/

/-- `c` is a child of `k`. -/
def IsChild (c k : Nat) : Prop := 0 < c ∧ parent c = k

theorem parent_lt {i : Nat} (hi : 0 < i) : parent i < i := by unfold parent; omega

theorem IsChild.lt {c k : Nat} (hc : IsChild c k) : k < c := by
  unfold IsChild parent at hc; omega

theorem isChild_iff {c k : Nat} : IsChild c k ↔ c = 2 * k + 1 ∨ c = 2 * k + 2 := by
  unfold IsChild parent; omega

variable {cmp}

theorem less_congr {h h' : List α} {i j i' j' : Nat} (hi : h'[i']? = h[i]?) (hj : h'[j']? = h[j]?) :
    less cmp h' i' j' = less cmp h i j := by
  unfold less; rw [hi, hj]

theorem less_eq {h : List α} {i j : Nat} (hi : i < h.length) (hj : j < h.length) :
    less cmp h i j = cmp h[i] h[j] := by
  simp [less, List.getElem?_eq_getElem hi, List.getElem?_eq_getElem hj]

theorem less_of_length_le {h : List α} {i j : Nat} (hj : h.length ≤ j) : less cmp h i j = false := by
  unfold less; rw [List.getElem?_eq_none hj]; split <;> simp_all

theorem lt_length_of_less {h : List α} {i j : Nat} (hl : less cmp h i j = true) :
    i < h.length ∧ j < h.length := by
  unfold less at hl
  split at hl
  · rename_i a b ha hb
    exact ⟨(List.getElem?_eq_some_iff.1 ha).1, (List.getElem?_eq_some_iff.1 hb).1⟩
  · cases hl

theorem less_eq_false_of_not {h : List α} {i j : Nat} (hn : ¬ (j < h.length ∧ less cmp h i j = true)) :
    less cmp h i j = false := by
  cases hl : less cmp h i j
  · rfl
  · exact absurd ⟨(lt_length_of_less hl).2, hl⟩ hn

section StrictWeakOrder

variable [hcmp : IsStrictWeakOrder α (fun a b => cmp a b = true)]

theorem cmp_irrefl (a : α) : cmp a a = false := by simpa using hcmp.irrefl a

theorem cmp_trans {a b c : α} (h₁ : cmp a b = true) (h₂ : cmp b c = true) : cmp a c = true :=
  hcmp.trans a b c h₁ h₂

theorem cmp_asymm {a b : α} (h : cmp a b = true) : cmp b a = false := by
  cases hba : cmp b a
  · rfl
  · simpa [cmp_irrefl] using cmp_trans h hba

/-- Not being `cmp`-below is transitive: the complement of a strict weak order is a total
preorder. -/
theorem cmp_neg_trans {a b c : α} (h₁ : cmp a b = false) (h₂ : cmp b c = false) :
    cmp a c = false := by
  cases hac : cmp a c
  · rfl
  · have hba : cmp b a = false := by
      cases hba : cmp b a
      · rfl
      · simpa [h₂] using cmp_trans hba hac
    have hcb : cmp c b = false := by
      cases hcb : cmp c b
      · rfl
      · simpa [h₁] using cmp_trans hac hcb
    have := (hcmp.incomp_trans a b c ⟨by simp [h₁], by simp [hba]⟩ ⟨by simp [h₂], by simp [hcb]⟩).1
    simp [hac] at this

theorem less_self (h : List α) (i : Nat) : less cmp h i i = false := by
  unfold less; split <;> simp_all [cmp_irrefl]

theorem less_trans {h : List α} {a b c : Nat} (h₁ : less cmp h a b = true)
    (h₂ : less cmp h b c = true) : less cmp h a c = true := by
  obtain ⟨ha, hb⟩ := lt_length_of_less h₁
  obtain ⟨-, hc⟩ := lt_length_of_less h₂
  rw [less_eq ha hb] at h₁; rw [less_eq hb hc] at h₂
  rw [less_eq ha hc]; exact cmp_trans h₁ h₂

theorem less_asymm {h : List α} {a b : Nat} (hl : less cmp h a b = true) : less cmp h b a = false := by
  obtain ⟨ha, hb⟩ := lt_length_of_less hl
  rw [less_eq ha hb] at hl; rw [less_eq hb ha]; exact cmp_asymm hl

/-- The negative transitivity of `less` through a middle position `b` that comes before `c`. -/
theorem less_neg_trans {h : List α} {a b c : Nat} (hbc : b ≤ c) (h₁ : less cmp h a b = false)
    (h₂ : less cmp h b c = false) : less cmp h a c = false := by
  cases hl : less cmp h a c
  · rfl
  obtain ⟨ha, hc⟩ := lt_length_of_less hl
  have hb : b < h.length := by omega
  rw [less_eq ha hb] at h₁; rw [less_eq hb hc] at h₂; rw [less_eq ha hc] at hl
  simp [cmp_neg_trans h₁ h₂] at hl

end StrictWeakOrder

/-! ### The cells the operations change -/

theorem getElem?_swap_left {h : List α} {i j : Nat} (hi : i < h.length) (hj : j < h.length) :
    (swap h i j)[i]? = h[j]? := by
  simp only [swap, List.getElem?_eq_getElem hi, List.getElem?_eq_getElem hj]
  by_cases hij : i = j
  · subst hij; simp [hi]
  · simp [List.getElem?_set, hij, Ne.symm hij, hi]

theorem getElem?_swap_right {h : List α} {i j : Nat} (hi : i < h.length) (hj : j < h.length) :
    (swap h i j)[j]? = h[i]? := by
  simp [swap, List.getElem?_eq_getElem hi, List.getElem?_eq_getElem hj, List.getElem?_set, hj]

theorem getElem?_swap_of_ne {h : List α} {i j k : Nat} (hki : k ≠ i) (hkj : k ≠ j) :
    (swap h i j)[k]? = h[k]? := by
  unfold swap; split
  · rw [List.getElem?_set_ne (Ne.symm hkj), List.getElem?_set_ne (Ne.symm hki)]
  · rfl

/-- The positions of `h'` other than `k` hold what `h` holds there, or nothing. -/
def Agree (h' h : List α) (k : Nat) : Prop := ∀ j, j ≠ k → h'[j]? = h[j]? ∨ h'[j]? = none

theorem Agree.less_eq_false {h' h : List α} {k a b : Nat} (hag : Agree h' h k) (ha : a ≠ k) (hb : b ≠ k)
    (hl : less cmp h a b = false) : less cmp h' a b = false := by
  rcases hag a ha with e | e
  · rcases hag b hb with e' | e'
    · rwa [less_congr e e']
    · unfold less; rw [e']; split <;> simp_all
  · unfold less; rw [e]

theorem agree_append (h : List α) (x : α) : Agree (h ++ [x]) h h.length := by
  intro j hj
  rcases Nat.lt_or_gt_of_ne hj with hj | hj
  · exact .inl (List.getElem?_append_left hj)
  · exact .inr (List.getElem?_eq_none (by simp; omega))

theorem agree_set (h : List α) (i : Nat) (v : α) : Agree (h.set i v) h i :=
  fun _ hj => .inl (List.getElem?_set_ne (Ne.symm hj))

theorem agree_removeAt (h : List α) (i : Nat) : Agree (removeAt h i) h i := by
  intro j hj
  unfold removeAt
  split
  · rw [List.getElem?_dropLast, List.getElem?_set_ne (Ne.symm hj)]
    split <;> simp
  · exact .inl rfl

/-! ### The heap order and the states the sifts repair -/

variable (cmp)

/-- No element is `cmp`-below its parent. -/
def Ordered (h : List α) : Prop := ∀ i, 0 < i → less cmp h (parent i) i = false

/-- Every parent and child pair off position `k` is in order. -/
def OrderedExcept (h : List α) (k : Nat) : Prop :=
  ∀ i, 0 < i → i ≠ k → parent i ≠ k → less cmp h (parent i) i = false

/-- Position `k` may be out of place either way; its children are in order with its parent. -/
structure Broken (h : List α) (k : Nat) : Prop where
  except : OrderedExcept cmp h k
  bridge : 0 < k → ∀ c, IsChild c k → less cmp h (parent k) c = false

/-- `Broken`, with `k` in order with its parent: the loop state of `sift_down`. -/
structure DownBroken (h : List α) (k : Nat) extends Broken cmp h k : Prop where
  above : 0 < k → less cmp h (parent k) k = false

/-- `Broken`, with `k` in order with its children: the loop state of `sift_up`. -/
structure UpBroken (h : List α) (k : Nat) extends Broken cmp h k : Prop where
  below : ∀ c, IsChild c k → less cmp h k c = false

variable {cmp}

theorem Broken.ordered {h : List α} {k : Nat} (o : Broken cmp h k)
    (hup : 0 < k → less cmp h (parent k) k = false) (hdown : ∀ c, IsChild c k → less cmp h k c = false) :
    Ordered cmp h := by
  intro i hi
  by_cases hik : i = k
  · subst hik; exact hup hi
  by_cases hpk : parent i = k
  · rw [hpk]; exact hdown i ⟨hi, hpk⟩
  · exact o.except i hi hik hpk

/-- A heap with position `k` changed, or dropped, is broken at `k`. -/
theorem Ordered.broken [IsStrictWeakOrder α (fun a b => cmp a b = true)] {h h' : List α} {k : Nat}
    (o : Ordered cmp h) (hag : Agree h' h k) : Broken cmp h' k where
  except i hi hik hpk := hag.less_eq_false hpk hik (o i hi)
  bridge hk c hc := by
    have hpk : parent k ≠ k := (parent_lt hk).ne
    refine hag.less_eq_false hpk hc.lt.ne' (less_neg_trans hc.lt.le (o k hk) ?_)
    rw [← hc.2]; exact o c hc.1

theorem Ordered.upBroken [IsStrictWeakOrder α (fun a b => cmp a b = true)] {h : List α}
    (o : Ordered cmp h) (k : Nat) : UpBroken cmp h k where
  toBroken := o.broken fun _ _ => .inl rfl
  below c hc := hc.2 ▸ o c hc.1

theorem ordered_nil : Ordered cmp ([] : List α) := fun _ _ => less_of_length_le (Nat.zero_le _)

theorem Broken.ordered_of_length_le {h : List α} {k : Nat} (o : Broken cmp h k) (hk : h.length ≤ k) :
    Ordered cmp h :=
  o.ordered (fun _ => less_of_length_le hk) fun c hc => less_of_length_le (by have := hc.lt; omega)

/-! ### `sift_up` -/

section Sift

variable [IsStrictWeakOrder α (fun a b => cmp a b = true)]

theorem UpBroken.move {h : List α} {k : Nat} (o : UpBroken cmp h k) (hk : 0 < k)
    (hl : less cmp h (parent k) k = true) : UpBroken cmp (swap h (parent k) k) (parent k) := by
  obtain ⟨hpl, hkl⟩ := lt_length_of_less hl
  have hpk := parent_lt hk
  have sl := getElem?_swap_left hpl hkl
  have sr := getElem?_swap_right hpl hkl
  -- the order facts of `h` that the swap moves
  have hsib : ∀ d, IsChild d (parent k) → d ≠ k → less cmp h (parent k) d = false :=
    fun d hd hdk => hd.2 ▸ o.except d hd.1 hdk (by rw [hd.2]; omega)
  have hpp : 0 < parent k → less cmp h (parent (parent k)) (parent k) = false :=
    fun hp => o.except _ hp hpk.ne (by have := parent_lt hp; omega)
  refine ⟨⟨fun i hi hip hpi => ?_, fun hp d hd => ?_⟩, fun d hd => ?_⟩
  · have hik : i ≠ k := fun e => hpi (congrArg parent e)
    by_cases hpik : parent i = k
    · rw [hpik, less_congr sr (getElem?_swap_of_ne hip hik)]
      exact o.bridge hk i ⟨hi, hpik⟩
    · rw [less_congr (getElem?_swap_of_ne hpi hpik) (getElem?_swap_of_ne hip hik)]
      exact o.except i hi hik hpik
  · have hpp' : (swap h (parent k) k)[parent (parent k)]? = h[parent (parent k)]? :=
      getElem?_swap_of_ne (parent_lt hp).ne (by have := parent_lt hp; omega)
    by_cases hdk : d = k
    · rw [hdk, less_congr hpp' sr]; exact hpp hp
    · rw [less_congr hpp' (getElem?_swap_of_ne hd.lt.ne' hdk)]
      exact less_neg_trans hd.lt.le (hpp hp) (hsib d hd hdk)
  · by_cases hdk : d = k
    · rw [hdk, less_congr sl sr]; exact less_asymm hl
    · rw [less_congr sl (getElem?_swap_of_ne hd.lt.ne' hdk)]
      cases hkd : less cmp h k d
      · rfl
      · simpa [hsib d hd hdk] using less_trans hl hkd

theorem siftUp_ordered {h : List α} {k : Nat} (o : UpBroken cmp h k) : Ordered cmp (siftUp cmp h k) := by
  induction h, k using siftUp.induct cmp with
  | case1 h => rw [siftUp, if_pos rfl]; exact o.ordered (absurd · (lt_irrefl 0)) o.below
  | case2 h k hk hl ih =>
    rw [siftUp, if_neg hk, if_pos hl]
    exact ih (o.move (Nat.pos_of_ne_zero hk) hl)
  | case3 h k hk hl =>
    rw [siftUp, if_neg hk, if_neg hl]
    exact o.ordered (fun _ => by simpa using hl) o.below

/-! ### `sift_down` -/

/-- No child of `idx` is `cmp`-above `best`. -/
theorem best_max (h : List α) (k d : Nat) (hd : IsChild d k) : less cmp h (best cmp h k) d = false := by
  simp only [best]
  rcases isChild_iff.1 hd with rfl | rfl <;> split_ifs with h₁ h₂ h₂
  · exact less_asymm h₂.2
  · exact less_self h _
  · exact less_eq_false_of_not fun ⟨_, hl⟩ => h₁ ⟨(lt_length_of_less hl).2, less_trans h₂.2 hl⟩
  · exact less_eq_false_of_not h₁
  · exact less_self h _
  · exact less_eq_false_of_not h₂
  · exact less_self h _
  · exact less_eq_false_of_not h₂

/-- A `best` other than `idx` is a child of `idx` that is `cmp`-above it. -/
theorem best_spec {h : List α} {k : Nat} (hb : best cmp h k ≠ k) :
    IsChild (best cmp h k) k ∧ best cmp h k < h.length ∧ less cmp h k (best cmp h k) = true := by
  simp only [best] at hb ⊢
  split_ifs at hb ⊢ with h₁ h₂ h₂
  · exact ⟨isChild_iff.2 (.inr rfl), h₂.1, less_trans h₁.2 h₂.2⟩
  · exact ⟨isChild_iff.2 (.inl rfl), h₁.1, h₁.2⟩
  · exact ⟨isChild_iff.2 (.inr rfl), h₂.1, h₂.2⟩
  · exact absurd rfl hb

theorem Broken.move {h : List α} {k : Nat} (o : Broken cmp h k) (hb : best cmp h k ≠ k) :
    DownBroken cmp (swap h k (best cmp h k)) (best cmp h k) := by
  have hmax : ∀ d, IsChild d k → less cmp h (best cmp h k) d = false := best_max h k
  obtain ⟨hc, hcl, hl⟩ := best_spec hb
  generalize best cmp h k = c at hmax hc hcl hl ⊢
  have hkl := (lt_length_of_less hl).1
  have sl := getElem?_swap_left hkl hcl
  have sr := getElem?_swap_right hkl hcl
  have hkc := hc.lt
  refine ⟨⟨fun i hi hic hpi => ?_, fun _ d hd => ?_⟩, fun _ => ?_⟩
  · by_cases hik : i = k
    · rw [hik] at hi ⊢
      have hpk := parent_lt hi
      rw [less_congr (getElem?_swap_of_ne hpk.ne (by omega)) sl]
      exact o.bridge hi c hc
    by_cases hpk : parent i = k
    · rw [hpk, less_congr sl (getElem?_swap_of_ne hik hic)]
      exact hmax i ⟨hi, hpk⟩
    · rw [less_congr (getElem?_swap_of_ne hpk hpi) (getElem?_swap_of_ne hik hic)]
      exact o.except i hi hik hpk
  · have hdc := hd.lt
    rw [hc.2, less_congr sl (getElem?_swap_of_ne (by omega) hdc.ne')]
    exact hd.2 ▸ o.except d hd.1 (by omega) (by rw [hd.2]; omega)
  · rw [hc.2, less_congr sl sr]; exact less_asymm hl

theorem siftDown_ordered {h : List α} {k : Nat} (o : DownBroken cmp h k) :
    Ordered cmp (siftDown cmp h k) := by
  induction h, k using siftDown.induct cmp with
  | case1 h k hb =>
    rw [siftDown, if_pos hb]
    exact o.ordered o.above fun c hc => hb ▸ best_max h k c hc
  | case2 h k hb ih =>
    rw [siftDown, if_neg hb]
    exact ih (o.move hb)

/-- `sift_down(k)` from a heap broken at `k` leaves `k` in order with its children: the element
either stays, or moves down and leaves the heap ordered. -/
theorem siftDown_upBroken {h : List α} {k : Nat} (o : Broken cmp h k) :
    UpBroken cmp (siftDown cmp h k) k := by
  rw [siftDown]
  split_ifs with hb
  · exact ⟨o, fun c hc => hb ▸ best_max h k c hc⟩
  · exact (siftDown_ordered (o.move hb)).upBroken k

/-! ### The calls keep the heap ordered -/

theorem Ordered.push {h : List α} (o : Ordered cmp h) (x : α) : Ordered cmp (push cmp h x) :=
  siftUp_ordered ⟨o.broken (agree_append h x),
    fun c hc => less_of_length_le (by have := hc.lt; simp; omega)⟩

/-- After `heap_[i] = heap_.back(); heap_.pop_back();` position `i` is out of place, or past the
end. -/
theorem Ordered.removeAt {h : List α} (o : Ordered cmp h) (i : Nat) : Broken cmp (removeAt h i) i :=
  o.broken (agree_removeAt h i)

theorem Ordered.pop {h h' : List α} {e : α} (o : Ordered cmp h) (hp : pop cmp h = .ok (e, h')) :
    Ordered cmp h' := by
  match h, hp with
  | _ :: _, hp =>
    simp only [PriorityQueue.pop, Except.ok.injEq, Prod.mk.injEq] at hp
    rw [← hp.2]
    split
    · exact (o.removeAt 0).ordered_of_length_le (by simp_all)
    · exact siftDown_ordered ⟨o.removeAt 0, (absurd · (lt_irrefl 0))⟩

theorem Ordered.removeIf {h : List α} (o : Ordered cmp h) (p : α → Bool) :
    Ordered cmp (removeIf cmp p h).2 := by
  unfold PriorityQueue.removeIf
  split
  · exact o
  · rename_i i _
    dsimp only
    split
    · exact siftUp_ordered (siftDown_upBroken (o.removeAt i))
    · exact (o.removeAt i).ordered_of_length_le (by omega)

theorem Ordered.update {h : List α} (o : Ordered cmp h) (p : α → Bool) (v : α) :
    Ordered cmp (update cmp p v h).2 := by
  unfold PriorityQueue.update
  split
  · exact o
  · exact siftUp_ordered (siftDown_upBroken (o.broken (agree_set h _ v)))

theorem Ordered.step {h : List α} (o : Ordered cmp h) (call : Call α) :
    Ordered cmp (step cmp h call).2 := by
  cases call with
  | push x => exact o.push x
  | pop =>
    simp only [PriorityQueue.step]
    split
    · exact o.pop ‹_›
    · exact o
  | top => simp only [PriorityQueue.step]; split <;> exact o
  | removeIf p => exact o.removeIf p
  | update p v => exact o.update p v
  | clear => exact ordered_nil

theorem Ordered.run {h : List α} (o : Ordered cmp h) :
    ∀ calls : List (Call α), Ordered cmp (run cmp h calls)
  | [] => o
  | call :: calls => (o.step call).run calls

/-- The root is at or above every element. -/
theorem Ordered.root_max {h : List α} (o : Ordered cmp h) (j : Nat) : less cmp h 0 j = false := by
  induction j using Nat.strong_induction_on with
  | _ j ih =>
    rcases Nat.eq_zero_or_pos j with rfl | hj
    · exact less_self h 0
    · exact less_neg_trans (parent_lt hj).le (ih _ (parent_lt hj)) (o j hj)

theorem Ordered.head_max {e : α} {t : List α} (o : Ordered cmp (e :: t)) :
    ∀ x ∈ e :: t, cmp e x = false := by
  intro x hx
  obtain ⟨j, hj, rfl⟩ := List.mem_iff_getElem.1 hx
  have := o.root_max j
  rwa [less_eq (by simp) hj, List.getElem_cons_zero] at this

end Sift

/-! ### The multiset of elements -/

theorem perm_set {h : List α} {i : Nat} {x : α} (hx : h[i]? = some x) (v : α) :
    (x :: h.set i v).Perm (v :: h) := by
  classical
  obtain ⟨hi, rfl⟩ := List.getElem?_eq_some_iff.1 hx
  rw [List.perm_iff_count]; intro b
  have := List.boole_getElem_le_count b h i hi
  rw [List.count_cons, List.count_set _ _ _ _ hi, List.count_cons]
  omega

theorem perm_swap (h : List α) (i j : Nat) : (swap h i j).Perm h := by
  unfold swap
  split
  · rename_i a b ha hb
    have hb' : (h.set i b)[j]? = some b := by
      rw [List.getElem?_set]
      split_ifs with e e'
      · rfl
      · exact absurd (List.getElem?_eq_some_iff.1 ha).1 e'
      · exact hb
    exact ((perm_set hb' a).trans (perm_set ha b)).cons_inv
  · exact List.Perm.refl h

theorem siftUp_perm (h : List α) (k : Nat) : (siftUp cmp h k).Perm h := by
  induction h, k using siftUp.induct cmp with
  | case1 h => rw [siftUp, if_pos rfl]
  | case2 h k hk hl ih => rw [siftUp, if_neg hk, if_pos hl]; exact ih.trans (perm_swap _ _ _)
  | case3 h k hk hl => rw [siftUp, if_neg hk, if_neg hl]

theorem siftDown_perm (h : List α) (k : Nat) : (siftDown cmp h k).Perm h := by
  induction h, k using siftDown.induct cmp with
  | case1 h k hb => rw [siftDown, if_pos hb]
  | case2 h k hb ih => rw [siftDown, if_neg hb]; exact ih.trans (perm_swap _ _ _)

/-- `heap_[i] = heap_.back(); heap_.pop_back();` takes out `heap_[i]`. -/
theorem perm_removeAt {h : List α} {i : Nat} {x : α} (hx : h[i]? = some x) :
    h.Perm (x :: removeAt h i) := by
  have hi := (List.getElem?_eq_some_iff.1 hx).1
  cases hl : h.getLast? with
  | none => simp_all [List.getLast?_eq_none_iff]
  | some last =>
    simp only [removeAt, hl]
    have hl1 : (h.set i last).getLast? = some last := by
      rw [List.getLast?_eq_getElem?, List.length_set, List.getElem?_set]
      split_ifs
      · rfl
      · rw [← List.getLast?_eq_getElem?, hl]
    have p1 := perm_set hx last
    rw [← List.dropLast_append_getLast? last hl1] at p1
    exact List.Perm.cons_inv (p1.symm.trans (((List.perm_append_singleton last _).cons x).trans
      (List.Perm.swap last x _)))


/-! ### Each call meets its specification -/

section Spec

variable [IsStrictWeakOrder α (fun a b => cmp a b = true)]

theorem Ordered.spec {h : List α} (o : Ordered cmp h) :
    ∀ call : Call α, Spec cmp h call (PriorityQueue.step cmp h call).1 (PriorityQueue.step cmp h call).2
  | .push _ => ⟨rfl, siftUp_perm _ _⟩
  | .pop => by
    match h, o with
    | [], _ => exact .inl ⟨rfl, rfl, rfl⟩
    | e :: t, o =>
      refine .inr ⟨e, rfl, o.head_max, (perm_removeAt List.getElem?_cons_zero).trans (.cons e ?_)⟩
      dsimp only [PriorityQueue.step, PriorityQueue.pop]
      split
      · exact List.Perm.refl _
      · exact (siftDown_perm _ _).symm
  | .top => by
    match h, o with
    | [], _ => exact ⟨rfl, .inl ⟨rfl, rfl⟩⟩
    | e :: t, o => exact ⟨rfl, .inr ⟨e, List.mem_cons_self e t, rfl, o.head_max⟩⟩
  | .removeIf p => by
    simp only [PriorityQueue.step, Spec]
    unfold PriorityQueue.removeIf
    split
    · rename_i hf
      refine ⟨false, rfl, ⟨nofun, fun ⟨x, hx, hp⟩ => ?_⟩, rfl⟩
      simp [List.findIdx?_eq_none_iff.1 hf x hx] at hp
    · rename_i i hf
      obtain ⟨hi, hp, -⟩ := List.findIdx?_eq_some_iff_getElem.1 hf
      refine ⟨true, rfl, iff_of_true rfl ⟨_, List.getElem_mem hi, hp⟩, ?_⟩
      rw [if_pos rfl]
      refine ⟨h[i], hp, (perm_removeAt (List.getElem?_eq_getElem hi)).trans (.cons _ ?_)⟩
      dsimp only
      split
      · exact ((siftUp_perm _ _).trans (siftDown_perm _ _)).symm
      · exact List.Perm.refl _
  | .update p v => by
    simp only [PriorityQueue.step, Spec]
    unfold PriorityQueue.update
    split
    · rename_i hf
      refine ⟨false, rfl, ⟨nofun, fun ⟨x, hx, hp⟩ => ?_⟩, rfl⟩
      simp [List.findIdx?_eq_none_iff.1 hf x hx] at hp
    · rename_i i hf
      obtain ⟨hi, hp, -⟩ := List.findIdx?_eq_some_iff_getElem.1 hf
      have hx : h[i]? = some h[i] := List.getElem?_eq_getElem hi
      refine ⟨true, rfl, iff_of_true rfl ⟨_, List.getElem_mem hi, hp⟩, ?_⟩
      rw [if_pos rfl]
      refine ⟨h[i], PriorityQueue.removeAt h i, hp, perm_removeAt hx, (siftUp_perm _ _).trans
        ((siftDown_perm _ _).trans ?_)⟩
      -- `heap_[i] = new_val` swaps `heap_[i]` for `new_val` in the multiset
      exact ((perm_set hx v).trans (((perm_removeAt hx).cons v).trans (.swap _ _ _))).cons_inv
  | .clear => ⟨rfl, rfl⟩

variable (cmp)

/-- For every comparator `cmp` that is a strict weak order and every sequence of calls on an
empty queue, no `heap_[i]` with `i > 0` is `cmp`-above `heap_[(i - 1) / 2]`, and the next call
does what `Spec` says: `push` adds its item, `pop` and `top` answer an element that no element
is `cmp`-above (and `pop` removes it), `remove_if` and `update` answer whether an element
satisfies the predicate and then remove, or replace, exactly one such element, and `clear`
empties the queue. -/
theorem priorityQueue_spec (calls : List (Call α)) :
    let h : List α := run cmp [] calls
    (∀ i (hi : i < h.length) (hi0 : 0 < i),
      cmp (h.get ⟨(i - 1) / 2, (parent_lt hi0).trans hi⟩) h[i] = false) ∧
      ∀ call, Spec cmp h call (step cmp h call).1 (step cmp h call).2 := by
  intro h
  have o : Ordered cmp h := Ordered.run ordered_nil calls
  refine ⟨fun i hi hi0 => ?_, o.spec⟩
  have := o i hi0
  rwa [less_eq ((parent_lt hi0).trans hi) hi] at this

end Spec

end PriorityQueue

/-- `JobScheduler::JobCompare`: `true` when `b` comes out first, by higher priority, then by
older `created_at`. -/
def jobCompare (a b : JobEntry) : Bool :=
  if a.priority ≠ b.priority then a.priority.toNat < b.priority.toNat
  else a.createdAt > b.createdAt

theorem JobPriority.toNat_inj {p q : JobPriority} : p.toNat = q.toNat ↔ p = q := by
  cases p <;> cases q <;> decide

theorem jobCompare_eq (a b : JobEntry) :
    jobCompare a b = decide (a.priority.toNat < b.priority.toNat ∨
      a.priority.toNat = b.priority.toNat ∧ b.createdAt < a.createdAt) := by
  unfold jobCompare
  by_cases hp : a.priority = b.priority
  · simp [hp]
  · have : a.priority.toNat ≠ b.priority.toNat := mt JobPriority.toNat_inj.1 hp
    simp [hp, this]

/-- `JobCompare` orders entries lexicographically by priority and then age, and entries with
the same priority and `created_at` are tied: a strict weak order. -/
instance jobCompare_isStrictWeakOrder : IsStrictWeakOrder JobEntry (fun a b => jobCompare a b = true) where
  irrefl a := by simp [jobCompare_eq]
  trans a b c := by simp only [jobCompare_eq, decide_eq_true_eq]; omega
  incomp_trans a b c := by simp only [jobCompare_eq, decide_eq_true_eq]; omega

/-- `pq_` under `JobCompare`, after `submit_job` pushes three entries and `cancel_job` removes
one: `JobCompare` is a strict weak order, so the queue is a heap that meets `Spec`. -/
theorem jobQueue_spec :
    let calls : List (PriorityQueue.Call JobEntry) :=
      [.push ⟨1, .low, 5⟩, .push ⟨2, .urgent, 7⟩, .push ⟨3, .urgent, 6⟩,
        .removeIf fun e => e.jobId == 2]
    IsStrictWeakOrder JobEntry (fun a b => jobCompare a b = true) ∧
      let h : List JobEntry := PriorityQueue.run jobCompare [] calls
      (∀ i (hi : i < h.length) (hi0 : 0 < i),
        jobCompare (h.get ⟨(i - 1) / 2, (PriorityQueue.parent_lt hi0).trans hi⟩) h[i] = false) ∧
        ∀ call, PriorityQueue.Spec jobCompare h call (PriorityQueue.step jobCompare h call).1
          (PriorityQueue.step jobCompare h call).2 :=
  ⟨jobCompare_isStrictWeakOrder, PriorityQueue.priorityQueue_spec jobCompare _⟩

end FileBackup
