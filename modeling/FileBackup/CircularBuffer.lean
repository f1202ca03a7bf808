import FileBackup.Basic

/-!
# `CircularBuffer<T>` (`datastructures/circular_buffer.h`)

A ring of `capacity_` slots with `head_`, `tail_` and `count_`; `MessagingService` keeps its
event log in one, written with `push_overwrite` and read with `last_n`. It refines a FIFO queue
of at most `capacity` elements:

* `CircularBuffer` and its calls `push`, `pushOverwrite`, `pop`, `peek`, `clear`, `lastN`;
* `toList`: the queue the buffer holds, `count_` slots read from `head_` on;
* `Inv`: the slots fill the capacity, `head_ < capacity_`, `count_ ≤ capacity_`, and
  `tail_ = (head_ + count_) mod capacity_`;
* `Fifo`: the abstract queue, carrying its bound, and the same calls on it;
* `step_refines`, and `circularBuffer_refines`: from a new buffer of any capacity `c ≥ 1`,
  every sequence of calls gets the same answers from the buffer as from the queue.

The `size_t` sums never wrap: `buf_(capacity)` allocates `capacity` strings, far fewer than
`2^63`. The mutex serialises the calls, so a sequence of calls is the whole behaviour.
-/

namespace FileBackup

/-- `CircularBuffer<T>`: `buf_`, `capacity_`, `head_`, `tail_`, `count_`. -/
structure CircularBuffer (α : Type) where
  buf : List α
  capacity : Nat
  head : Nat
  tail : Nat
  count : Nat

namespace CircularBuffer

variable {α : Type} [Inhabited α]

/-- The constructor: `capacity` default-constructed slots, nothing queued. -/
def new (capacity : Nat) : CircularBuffer α := ⟨List.replicate capacity default, capacity, 0, 0, 0⟩

/-- `buf_[i]`. -/
def slot (b : CircularBuffer α) (i : Nat) : α := b.buf.getD i default

/-- `push(item)`: `false` when full, else write at `tail_` and advance it. -/
def push (b : CircularBuffer α) (x : α) : Bool × CircularBuffer α :=
  if b.count = b.capacity then (false, b)
  else (true, { b with buf := b.buf.set b.tail x, tail := (b.tail + 1) % b.capacity,
                       count := b.count + 1 })

/-- `push_overwrite(item)`: write at `tail_` and advance it; when full, advance `head_` past the
overwritten oldest item instead of counting one more. -/
def pushOverwrite (b : CircularBuffer α) (x : α) : CircularBuffer α :=
  if b.count = b.capacity then
    { b with buf := b.buf.set b.tail x, tail := (b.tail + 1) % b.capacity,
             head := (b.head + 1) % b.capacity }
  else { b with buf := b.buf.set b.tail x, tail := (b.tail + 1) % b.capacity, count := b.count + 1 }

/-- `pop()`. -/
def pop (b : CircularBuffer α) : Option α × CircularBuffer α :=
  if b.count = 0 then (none, b)
  else (some (b.slot b.head), { b with head := (b.head + 1) % b.capacity, count := b.count - 1 })

/-- `peek()`. -/
def peek (b : CircularBuffer α) : Option α := if b.count = 0 then none else some (b.slot b.head)

/-- `clear()`: `head_ = tail_ = count_ = 0`; the slots keep their values. -/
def clear (b : CircularBuffer α) : CircularBuffer α := { b with head := 0, tail := 0, count := 0 }

/-- `last_n(n)`: `actual = min(n, count_)` slots from `(head_ + count_ - actual) % capacity_`. -/
def lastN (b : CircularBuffer α) (n : Nat) : List α :=
  let actual := if n < b.count then n else b.count
  let start := (b.head + b.count - actual) % b.capacity
  (List.range actual).map fun i => b.slot ((start + i) % b.capacity)

/-- The queue the buffer holds: `count_` slots from `head_` on. -/
def toList (b : CircularBuffer α) : List α :=
  (List.range b.count).map fun i => b.slot ((b.head + i) % b.capacity)

/-- The representation invariant. -/
structure Inv (b : CircularBuffer α) : Prop where
  length_buf : b.buf.length = b.capacity
  capacity_pos : 0 < b.capacity
  head_lt : b.head < b.capacity
  count_le : b.count ≤ b.capacity
  tail_eq : b.tail = (b.head + b.count) % b.capacity

theorem inv_new {c : Nat} (hc : 0 < c) : (new c : CircularBuffer α).Inv :=
  ⟨List.length_replicate _ _, hc, hc, Nat.zero_le _, by simp [new]⟩

@[simp] theorem length_toList (b : CircularBuffer α) : b.toList.length = b.count := by
  simp [toList]

theorem getElem_toList (b : CircularBuffer α) {i : Nat} (h : i < b.toList.length) :
    b.toList[i] = b.slot ((b.head + i) % b.capacity) := by
  simp [toList]

theorem getD_set {l : List α} {t : Nat} (ht : t < l.length) (x : α) (i : Nat) :
    (l.set t x).getD i default = if i = t then x else l.getD i default := by
  by_cases hi : i = t
  · subst hi; simp [ht]
  · simp [List.getElem?_set, Ne.symm hi, hi]

omit [Inhabited α] in
theorem Inv.tail_lt {b : CircularBuffer α} (hb : b.Inv) : b.tail < b.buf.length := by
  rw [hb.length_buf, hb.tail_eq]; exact Nat.mod_lt _ hb.capacity_pos

/-- The slot `i + 1` places after `(head_ + 1) % capacity_` is `i + 2` places after `head_`. -/
theorem succ_head_mod (h i n : Nat) : ((h + 1) % n + i) % n = (h + (i + 1)) % n := by
  rw [Nat.mod_add_mod, Nat.add_right_comm, Nat.add_assoc]

/-- A buffer that is not full, with a write at `tail_` and one more counted, appends to the
queue. -/
theorem toList_of_append {b b' : CircularBuffer α} (hb : b.Inv) (hc : b.count < b.capacity)
    {x : α} (hbuf : b'.buf = b.buf.set b.tail x) (hcap : b'.capacity = b.capacity)
    (hhead : b'.head = b.head) (hcount : b'.count = b.count + 1) :
    b'.toList = b.toList ++ [x] := by
  apply List.ext_getElem (by simp [hcount])
  intro i h₁ _
  simp only [length_toList, hcount] at h₁
  rw [getElem_toList]
  simp only [slot, hbuf, hcap, hhead]
  rw [getD_set hb.tail_lt, hb.tail_eq]
  by_cases hi : i < b.count
  · rw [List.getElem_append_left (by simpa using hi), getElem_toList,
      if_neg fun e => absurd (add_mod_inj (by omega) (by omega) e) (by omega)]
    rfl
  · obtain rfl : i = b.count := by omega
    rw [List.getElem_append_right (by simp), if_pos rfl]
    simp

/-- A full buffer, with a write at `tail_` (which is `head_`) and `head_` advanced, drops the
oldest item and appends. -/
theorem toList_of_rotate {b b' : CircularBuffer α} (hb : b.Inv) (hc : b.count = b.capacity)
    {x : α} (hbuf : b'.buf = b.buf.set b.tail x) (hcap : b'.capacity = b.capacity)
    (hhead : b'.head = (b.head + 1) % b.capacity) (hcount : b'.count = b.count) :
    b'.toList = b.toList.tail ++ [x] := by
  have htail : b.tail = (b.head + 0) % b.capacity := by
    rw [hb.tail_eq, hc, Nat.add_mod_right, Nat.add_zero]
  have hpos := hb.capacity_pos
  apply List.ext_getElem (by simp [hcount]; omega)
  intro i h₁ _
  simp only [length_toList, hcount] at h₁
  rw [getElem_toList]
  simp only [slot, hbuf, hcap, hhead]
  rw [getD_set hb.tail_lt, succ_head_mod, htail]
  by_cases hi : i + 1 < b.count
  · rw [List.getElem_append_left (by simp; omega), List.getElem_tail, getElem_toList,
      if_neg fun e => absurd (add_mod_inj (by omega) (by omega) e) (by omega)]
    rfl
  · obtain rfl : i = b.count - 1 := by omega
    rw [List.getElem_append_right (by simp), if_pos (by rw [Nat.sub_add_cancel (by omega), hc,
      Nat.add_mod_right, Nat.add_zero])]
    simp

/-- Advancing `head_` and counting one fewer drops the oldest item. -/
theorem toList_of_advance {b b' : CircularBuffer α} (hbuf : b'.buf = b.buf)
    (hcap : b'.capacity = b.capacity) (hhead : b'.head = (b.head + 1) % b.capacity)
    (hcount : b'.count = b.count - 1) : b'.toList = b.toList.tail := by
  apply List.ext_getElem (by simp [hcount])
  intro i _ _
  rw [getElem_toList, List.getElem_tail, getElem_toList]
  simp only [slot, hbuf, hcap, hhead, succ_head_mod]

theorem head?_toList {b : CircularBuffer α} (hb : b.Inv) :
    b.toList.head? = if b.count = 0 then none else some (b.slot b.head) := by
  split_ifs with h
  · simp [List.head?_eq_none_iff, ← List.length_eq_zero, h]
  · rw [List.head?_eq_getElem? , List.getElem?_eq_getElem (by simp; omega), getElem_toList,
      Nat.add_zero, Nat.mod_eq_of_lt hb.head_lt]

/-! ### The calls -/

theorem toList_push {b : CircularBuffer α} (hb : b.Inv) (h : b.count ≠ b.capacity) (x : α) :
    (b.push x).2.toList = b.toList ++ [x] := by
  rw [push, if_neg h]
  exact toList_of_append hb (lt_of_le_of_ne hb.count_le h) rfl rfl rfl rfl

omit [Inhabited α] in
theorem Inv.push {b : CircularBuffer α} (hb : b.Inv) (x : α) : (b.push x).2.Inv := by
  unfold CircularBuffer.push
  split_ifs with h
  · exact hb
  · have := hb.count_le
    exact ⟨by simp [hb.length_buf], hb.capacity_pos, hb.head_lt, by simp only; omega,
      by simp only [hb.tail_eq, Nat.mod_add_mod, Nat.add_assoc]⟩

theorem toList_pushOverwrite {b : CircularBuffer α} (hb : b.Inv) (x : α) :
    (b.pushOverwrite x).toList =
      if b.count = b.capacity then b.toList.tail ++ [x] else b.toList ++ [x] := by
  unfold pushOverwrite
  split_ifs with h
  · exact toList_of_rotate hb h rfl rfl rfl rfl
  · exact toList_of_append hb (lt_of_le_of_ne hb.count_le h) rfl rfl rfl rfl

omit [Inhabited α] in
theorem Inv.pushOverwrite {b : CircularBuffer α} (hb : b.Inv) (x : α) : (b.pushOverwrite x).Inv := by
  unfold CircularBuffer.pushOverwrite
  have := hb.count_le
  split_ifs with h
  · refine ⟨by simp [hb.length_buf], hb.capacity_pos, Nat.mod_lt _ hb.capacity_pos, by simp [h], ?_⟩
    simp only [hb.tail_eq, h, Nat.mod_add_mod, Nat.add_mod_right, Nat.add_right_comm, Nat.mod_mod]
  · exact ⟨by simp [hb.length_buf], hb.capacity_pos, hb.head_lt, by simp only; omega,
      by simp only [hb.tail_eq, Nat.mod_add_mod, Nat.add_assoc]⟩

theorem pop_eq {b : CircularBuffer α} (hb : b.Inv) :
    b.pop.1 = b.toList.head? ∧ b.pop.2.toList = b.toList.tail := by
  rw [head?_toList hb]
  unfold pop
  split_ifs with h
  · simp [toList, h]
  · exact ⟨rfl, toList_of_advance rfl rfl rfl rfl⟩

theorem Inv.pop {b : CircularBuffer α} (hb : b.Inv) : b.pop.2.Inv := by
  unfold CircularBuffer.pop
  have := hb.count_le
  split_ifs with h
  · exact hb
  · refine ⟨hb.length_buf, hb.capacity_pos, Nat.mod_lt _ hb.capacity_pos, by simp only; omega, ?_⟩
    simp only [hb.tail_eq, Nat.mod_add_mod]
    congr 1; omega

omit [Inhabited α] in
theorem Inv.clear {b : CircularBuffer α} (hb : b.Inv) : b.clear.Inv :=
  ⟨hb.length_buf, hb.capacity_pos, hb.capacity_pos, Nat.zero_le _, (Nat.zero_mod _).symm⟩

theorem lastN_eq (b : CircularBuffer α) (n : Nat) : b.lastN n = b.toList.drop (b.count - n) := by
  apply List.ext_getElem (by simp [lastN]; split_ifs <;> omega)
  intro i _ _
  simp only [lastN, List.getElem_map, List.getElem_range, List.getElem_drop, getElem_toList]
  rw [Nat.mod_add_mod]
  congr 2
  split_ifs <;> omega

end CircularBuffer

/-! ### The queue it stands for -/

/-- A FIFO queue of at most `capacity` items. -/
structure Fifo (α : Type) (capacity : Nat) where
  items : List α
  length_le : items.length ≤ capacity

namespace Fifo

variable {α : Type} {c : Nat}

/-- The empty queue. -/
def empty : Fifo α c := ⟨[], Nat.zero_le _⟩

/-- Append when there is room, answering whether there was. -/
def push (q : Fifo α c) (x : α) : Bool × Fifo α c :=
  if h : q.items.length < c then (true, ⟨q.items ++ [x], by simp; omega⟩) else (false, q)

/-- Append, dropping the oldest item when full. -/
def pushOverwrite (q : Fifo α c) (x : α) : Fifo α c :=
  if h : q.items.length = c then ⟨(q.items ++ [x]).tail, by simp; omega⟩
  else ⟨q.items ++ [x], by have := q.length_le; simp; omega⟩

/-- Remove and answer the oldest item. -/
def pop (q : Fifo α c) : Option α × Fifo α c :=
  (q.items.head?, ⟨q.items.tail, by have := q.length_le; simp; omega⟩)

/-- The last `min n |q|` items, oldest first. -/
def lastN (q : Fifo α c) (n : Nat) : List α := q.items.drop (q.items.length - n)

end Fifo

/-- A call on a `CircularBuffer`. -/
inductive BufferCall (α : Type)
  | push (x : α)
  | pushOverwrite (x : α)
  | pop
  | peek
  | clear
  | lastN (n : Nat)
  | size
  | empty
  | full

/-- What a call answers. -/
inductive BufferReply (α : Type)
  | flag (b : Bool)
  | item (x : Option α)
  | items (xs : List α)
  | size (n : Nat)
  | done
  deriving DecidableEq

namespace CircularBuffer

variable {α : Type} [Inhabited α]

/-- One call on the buffer. -/
def step (b : CircularBuffer α) : BufferCall α → BufferReply α × CircularBuffer α
  | .push x => (.flag (b.push x).1, (b.push x).2)
  | .pushOverwrite x => (.done, b.pushOverwrite x)
  | .pop => (.item b.pop.1, b.pop.2)
  | .peek => (.item b.peek, b)
  | .clear => (.done, b.clear)
  | .lastN n => (.items (b.lastN n), b)
  | .size => (.size b.count, b)
  | .empty => (.flag (b.count = 0), b)
  | .full => (.flag (b.count = b.capacity), b)

/-- The answers to a sequence of calls, and the buffer after it. -/
def run (b : CircularBuffer α) : List (BufferCall α) → List (BufferReply α) × CircularBuffer α
  | [] => ([], b)
  | call :: calls => ((b.step call).1 :: ((b.step call).2.run calls).1, ((b.step call).2.run calls).2)

end CircularBuffer

namespace Fifo

variable {α : Type} {c : Nat}

/-- One call on the queue. -/
def step (q : Fifo α c) : BufferCall α → BufferReply α × Fifo α c
  | .push x => (.flag (q.push x).1, (q.push x).2)
  | .pushOverwrite x => (.done, q.pushOverwrite x)
  | .pop => (.item q.pop.1, q.pop.2)
  | .peek => (.item q.items.head?, q)
  | .clear => (.done, empty)
  | .lastN n => (.items (q.lastN n), q)
  | .size => (.size q.items.length, q)
  | .empty => (.flag (q.items.length = 0), q)
  | .full => (.flag (q.items.length = c), q)

/-- The answers to a sequence of calls, and the queue after it. -/
def run (q : Fifo α c) : List (BufferCall α) → List (BufferReply α) × Fifo α c
  | [] => ([], q)
  | call :: calls => ((q.step call).1 :: ((q.step call).2.run calls).1, ((q.step call).2.run calls).2)

end Fifo

namespace CircularBuffer

variable {α : Type} [Inhabited α]

/-- The buffer stands for the queue `q` of capacity `c`. -/
structure Refines {c : Nat} (b : CircularBuffer α) (q : Fifo α c) : Prop where
  inv : b.Inv
  capacity_eq : b.capacity = c
  toList_eq : b.toList = q.items

theorem step_refines {c : Nat} {b : CircularBuffer α} {q : Fifo α c} (h : b.Refines q)
    (call : BufferCall α) : (b.step call).1 = (q.step call).1 ∧ (b.step call).2.Refines (q.step call).2 := by
  obtain ⟨hb, hc, hq⟩ := h
  have hlen : q.items.length = b.count := by rw [← hq, length_toList]
  cases call with
  | push x =>
    have := hb.count_le
    by_cases hfull : b.count = b.capacity
    · have hb' : b.push x = (false, b) := if_pos hfull
      have hq' : q.push x = (false, q) := dif_neg (by omega)
      simp only [step, Fifo.step, hb', hq']
      exact ⟨trivial, hb, hc, hq⟩
    · have hq' : q.push x = (true, ⟨q.items ++ [x], _⟩) := dif_pos (by omega)
      refine ⟨by simp only [step, Fifo.step, hq', push, if_neg hfull], hb.push x, ?_, ?_⟩
      · simp only [step, push, if_neg hfull]; exact hc
      · rw [step, Fifo.step, toList_push hb hfull, hq, hq']
  | pushOverwrite x =>
    refine ⟨rfl, hb.pushOverwrite x, by unfold step pushOverwrite; split_ifs <;> exact hc, ?_⟩
    simp only [step, Fifo.step, toList_pushOverwrite hb, Fifo.pushOverwrite, hq, hlen, ← hc]
    split_ifs with h
    · have := hb.capacity_pos
      exact (List.tail_append_of_ne_nil (List.ne_nil_of_length_pos (by omega))).symm
    · rfl
  | pop => exact ⟨by simp [step, Fifo.step, (pop_eq hb).1, hq, Fifo.pop],
      hb.pop, by unfold step pop; split_ifs <;> exact hc, by simp [step, Fifo.step, (pop_eq hb).2, hq, Fifo.pop]⟩
  | peek => exact ⟨by simp [step, Fifo.step, peek, ← head?_toList hb, hq], hb, hc, hq⟩
  | clear => exact ⟨rfl, hb.clear, hc, by simp [step, Fifo.step, toList, clear, Fifo.empty]⟩
  | lastN n => exact ⟨by simp [step, Fifo.step, lastN_eq, hq, hlen, Fifo.lastN], hb, hc, hq⟩
  | size => exact ⟨by simp [step, Fifo.step, hlen], hb, hc, hq⟩
  | empty => exact ⟨by simp [step, Fifo.step, hlen], hb, hc, hq⟩
  | full => exact ⟨by simp [step, Fifo.step, hlen, hc], hb, hc, hq⟩

theorem run_refines {c : Nat} : ∀ {b : CircularBuffer α} {q : Fifo α c} (calls : List (BufferCall α)),
    b.Refines q → (b.run calls).1 = (q.run calls).1 ∧ (b.run calls).2.Refines (q.run calls).2
  | _, _, [], h => ⟨rfl, h⟩
  | _, _, call :: calls, h => by
    obtain ⟨h₁, h₂⟩ := step_refines h call
    obtain ⟨h₃, h₄⟩ := run_refines calls h₂
    exact ⟨by simp only [run, Fifo.run, h₁, h₃], h₄⟩

/-- From a new buffer of any capacity `c ≥ 1`, every sequence of `push`, `push_overwrite`,
`pop`, `peek`, `clear`, `last_n`, `size`, `empty` and `full` calls gets the answers a FIFO queue of at most `c`
items gives, and the buffer ends holding that queue. -/
theorem circularBuffer_refines (c : Nat) (hc : 0 < c) (calls : List (BufferCall α)) :
    ((new c : CircularBuffer α).run calls).1 = ((Fifo.empty : Fifo α c).run calls).1 ∧
      ((new c : CircularBuffer α).run calls).2.toList = ((Fifo.empty : Fifo α c).run calls).2.items ∧
      ((Fifo.empty : Fifo α c).run calls).2.items.length ≤ c := by
  have h₀ : (new c : CircularBuffer α).Refines (Fifo.empty : Fifo α c) :=
    ⟨inv_new hc, rfl, by simp [toList, new, Fifo.empty]⟩
  obtain ⟨h₁, h₂⟩ := run_refines calls h₀
  exact ⟨h₁, h₂.toList_eq, Fifo.length_le _⟩

/-- The messaging event log with room for two entries, after three `log_event`s. -/
theorem eventLog_refines :
    let calls : List (BufferCall String) :=
      [.pushOverwrite "a", .pushOverwrite "b", .pushOverwrite "c", .lastN 20]
    0 < 2 ∧ (((new 2 : CircularBuffer String).run calls).1 = ((Fifo.empty : Fifo String 2).run calls).1 ∧
      ((new 2 : CircularBuffer String).run calls).2.toList =
        ((Fifo.empty : Fifo String 2).run calls).2.items ∧
      ((Fifo.empty : Fifo String 2).run calls).2.items.length ≤ 2) :=
  ⟨by decide, circularBuffer_refines 2 (by decide) _⟩


end CircularBuffer

end FileBackup
