import FileBackup.Fs

/-!
# Replacing and removing an entry of the tree

What `Node.remove` does, stated once so that the calls that remove entries (`unlink`, `rmdir`,
and `remove_recursive` built from them) never unfold it:

* `Node.set`: the tree with the entry at a path replaced; it leaves every path that is neither
  above nor below the replaced one (`get_set_of_apart`), keeps the directories above it
  (`exists_dir_of_set`), and a second replacement overrides the first (`set_set`);
* `remove_append_singleton`: removing a child of a directory replaces the directory by its
  other entries; `remove_set`: removing a replaced entry is removing the original;
* `get_remove_below`, `get_remove_of_apart`, `exists_dir_of_remove`: after removing the entry at
  `p`, nothing is at or below `p`, every path neither above nor below `p` is unchanged, and the
  directories above `p` remain;
* `Node.height`: the depth of the tree, which bounds the nesting of a recursive walk.
-/

namespace FileBackup

namespace Node

/-- The tree with the entry at `p` replaced by `m`; `none` when there is no entry at `p`. -/
def set : Node → Path → Node → Option Node
  | _, [], m => some m
  | .dir es, c :: p, m => match es.lookup c with
    | some n => (set n p m).map fun n' => .dir (setEntry es c n')
    | none => none
  | _, _ :: _, _ => none

mutual
/-- The depth of the tree below a node: `0` for anything but a directory. -/
def height : Node → Nat
  | .dir es => heightOf es + 1
  | _ => 0

/-- The greatest height among the entries of a directory. -/
def heightOf : List (String × Node) → Nat
  | [] => 0
  | (_, n) :: es => max n.height (heightOf es)
end

/-! ### Entry lists -/

theorem setEntry_of_lookup {es : List (String × Node)} {c : String} {m : Node}
    (h : es.lookup c = some m) : setEntry es c m = es := by
  induction es with
  | nil => cases h
  | cons e es ih =>
    obtain ⟨k, v⟩ := e
    by_cases hk : k = c
    · subst hk
      rw [List.lookup_cons_self] at h
      cases h
      simp [setEntry]
    · rw [List.lookup_cons, beq_false_of_ne (Ne.symm hk)] at h
      simp [setEntry, hk, ih h]

theorem setEntry_setEntry (es : List (String × Node)) (c : String) (x y : Node) :
    setEntry (setEntry es c x) c y = setEntry es c y := by
  induction es with
  | nil => simp [setEntry]
  | cons e es ih =>
    obtain ⟨k, v⟩ := e
    by_cases hk : k = c <;> simp [setEntry, hk, ih]

theorem filter_setEntry (es : List (String × Node)) (c : String) (x : Node) :
    (setEntry es c x).filter (·.1 != c) = es.filter (·.1 != c) := by
  induction es with
  | nil => simp [setEntry]
  | cons e es ih =>
    obtain ⟨k, v⟩ := e
    by_cases hk : k = c <;> simp [setEntry, hk, ih]

theorem lookup_filter_of_ne (es : List (String × Node)) {c d : String} (h : d ≠ c) :
    (es.filter (·.1 != c)).lookup d = es.lookup d := by
  induction es with
  | nil => rfl
  | cons e es ih =>
    obtain ⟨k, v⟩ := e
    by_cases hk : k = c
    · subst hk
      simp [List.filter_cons, ih, List.lookup_cons, beq_false_of_ne h]
    · simp [List.filter_cons, hk, List.lookup_cons, ih]

theorem lookup_filter_self (es : List (String × Node)) (c : String) :
    (es.filter (·.1 != c)).lookup c = none := by
  simp only [List.lookup_eq_none_iff, List.mem_filter, bne_iff_ne, ne_eq]
  exact fun p hp h => hp.2 h.symm

theorem height_le_of_lookup {es : List (String × Node)} {c : String} {m : Node}
    (h : es.lookup c = some m) : m.height ≤ heightOf es := by
  induction es with
  | nil => cases h
  | cons e es ih =>
    obtain ⟨k, v⟩ := e
    rw [heightOf]
    by_cases hk : c = k
    · subst hk
      rw [List.lookup_cons_self] at h
      cases h
      exact le_max_left _ _
    · rw [List.lookup_cons, beq_false_of_ne hk] at h
      exact (ih h).trans (le_max_right _ _)

theorem wf_of_lookup {es : List (String × Node)} (hwf : WfOf es) {c : String} {m : Node}
    (h : es.lookup c = some m) : m.Wf := by
  induction es with
  | nil => cases h
  | cons e es ih =>
    obtain ⟨k, v⟩ := e
    obtain ⟨-, -, hv, hes⟩ := hwf
    by_cases hk : c = k
    · subst hk
      rw [List.lookup_cons_self] at h
      cases h
      exact hv
    · rw [List.lookup_cons, beq_false_of_ne hk] at h
      exact ih hes h

/-! ### Below a node -/

/-- An entry below the root is an entry below a child of a root directory. -/
theorem get_cons_eq_some {n m : Node} {c : String} {p : Path} :
    n.get (c :: p) = some m ↔ ∃ es k, n = .dir es ∧ es.lookup c = some k ∧ k.get p = some m := by
  refine ⟨fun h => ?_, fun ⟨es, k, hn, hl, h⟩ => by simp only [hn, get, hl, h]⟩
  cases n with
  | dir es =>
    cases hl : es.lookup c with
    | none => simp [get, hl] at h
    | some k => exact ⟨es, k, rfl, hl, by simpa only [get, hl] using h⟩
  | _ => cases h

/-- An entry below a node is no higher than it. -/
theorem height_le_of_get {n m : Node} {p : Path} (h : n.get p = some m) : m.height ≤ n.height := by
  induction p generalizing n with
  | nil => simp only [get, Option.some.injEq] at h; subst h; exact le_rfl
  | cons c p ih =>
    obtain ⟨es, k, rfl, hl, h⟩ := get_cons_eq_some.1 h
    exact (ih h).trans ((height_le_of_lookup hl).trans (by rw [height]; omega))

theorem wf_of_get {n m : Node} (hwf : n.Wf) {p : Path} (h : n.get p = some m) : m.Wf := by
  induction p generalizing n with
  | nil => simp only [get, Option.some.injEq] at h; subst h; exact hwf
  | cons c p ih =>
    obtain ⟨es, k, rfl, hl, h⟩ := get_cons_eq_some.1 h
    exact ih (wf_of_lookup hwf hl) h

/-- Every node above an entry is a directory. -/
theorem exists_dir_of_get_append {n m : Node} {q t : Path} (h : n.get (q ++ t) = some m)
    (ht : t ≠ []) : ∃ es, n.get q = some (.dir es) := by
  rw [get_append] at h
  cases hq : n.get q with
  | none => simp [hq] at h
  | some x =>
    rw [hq, Option.some_bind] at h
    obtain ⟨d, t, rfl⟩ := List.exists_cons_of_ne_nil ht
    obtain ⟨es, -, rfl, -⟩ := get_cons_eq_some.1 h
    exact ⟨es, rfl⟩

/-! ### Replacing an entry -/

/-- A replacement below the root replaces a child of a root directory. -/
theorem set_cons_eq_some {n n' a : Node} {c : String} {p : Path} :
    n.set (c :: p) a = some n' ↔ ∃ es k k', n = .dir es ∧ es.lookup c = some k ∧
      k.set p a = some k' ∧ n' = .dir (setEntry es c k') := by
  refine ⟨fun h => ?_, fun ⟨es, k, k', hn, hl, hk', h⟩ => by
    simp only [hn, h, set, hl, hk', Option.map_some']⟩
  cases n with
  | dir es =>
    cases hl : es.lookup c with
    | none => simp [set, hl] at h
    | some k =>
      simp only [set, hl] at h
      obtain ⟨k', hk', rfl⟩ := Option.map_eq_some'.1 h
      exact ⟨es, k, k', rfl, hl, hk', rfl⟩
  | _ => cases h

theorem exists_set {n m : Node} {p : Path} (h : n.get p = some m) (a : Node) :
    ∃ n', n.set p a = some n' := by
  induction p generalizing n with
  | nil => exact ⟨a, by simp only [set]⟩
  | cons c p ih =>
    obtain ⟨es, k, rfl, hl, h⟩ := get_cons_eq_some.1 h
    obtain ⟨k', hk'⟩ := ih h
    exact ⟨_, set_cons_eq_some.2 ⟨es, k, k', rfl, hl, hk', rfl⟩⟩

/-- Replacing an entry by itself changes nothing. -/
theorem set_of_get {n m : Node} {p : Path} (h : n.get p = some m) : n.set p m = some n := by
  induction p generalizing n with
  | nil => simp only [get, Option.some.injEq] at h; simp only [set, h]
  | cons c p ih =>
    obtain ⟨es, k, rfl, hl, h⟩ := get_cons_eq_some.1 h
    exact set_cons_eq_some.2 ⟨es, k, k, rfl, hl, ih h, by rw [setEntry_of_lookup hl]⟩

theorem get_set_self {n n' a : Node} {p : Path} (h : n.set p a = some n') : n'.get p = some a := by
  induction p generalizing n n' with
  | nil => simp only [set, Option.some.injEq] at h; simp only [get, h]
  | cons c p ih =>
    obtain ⟨es, k, k', rfl, -, hk', rfl⟩ := set_cons_eq_some.1 h
    exact get_cons_eq_some.2 ⟨_, k', rfl, lookup_setEntry_self es c k', ih hk'⟩

/-- A second replacement at the same path overrides the first. -/
theorem set_set {n n' a b : Node} {p : Path} (h : n.set p a = some n') :
    n'.set p b = n.set p b := by
  induction p generalizing n n' with
  | nil => simp only [set]
  | cons c p ih =>
    obtain ⟨es, k, k', rfl, hl, hk', rfl⟩ := set_cons_eq_some.1 h
    simp only [set, lookup_setEntry_self, hl, ih hk', setEntry_setEntry]

/-- A replacement changes no entry that is neither above nor at or below the replaced one. -/
theorem get_set_of_apart {n n' a : Node} {p : Path} (h : n.set p a = some n') {q : Path}
    (hpq : ¬ p <+: q) (hqp : ¬ q <+: p) : n'.get q = n.get q := by
  induction p generalizing n n' q with
  | nil => exact absurd List.nil_prefix hpq
  | cons c p ih =>
    obtain ⟨es, k, k', rfl, hl, hk', rfl⟩ := set_cons_eq_some.1 h
    cases q with
    | nil => exact absurd List.nil_prefix hqp
    | cons d q =>
      by_cases hd : d = c
      · subst hd
        simp only [List.cons_prefix_cons, true_and] at hpq hqp
        simp only [get, lookup_setEntry_self, hl]
        exact ih hk' hpq hqp
      · simp only [get, lookup_setEntry_of_ne _ _ hd]

/-- The nodes strictly above a replaced entry are directories. -/
theorem exists_dir_of_set {n n' a : Node} {p q : Path} (h : n.set p a = some n') (hq : q <+: p)
    (hne : q ≠ p) : ∃ es, n'.get q = some (.dir es) := by
  obtain ⟨t, rfl⟩ := hq
  exact exists_dir_of_get_append (get_set_self h) (by rintro rfl; exact hne (List.append_nil q).symm)

/-! ### Removing an entry -/

theorem remove_cons {es : List (String × Node)} {c : String} {t : Path} (ht : t ≠ []) :
    (Node.dir es).remove (c :: t) = match es.lookup c with
      | some m => (m.remove t).map fun m' => .dir (setEntry es c m')
      | none => none := by
  obtain ⟨d, t, rfl⟩ := List.exists_cons_of_ne_nil ht
  rfl

/-- Removing a child of a directory replaces the directory by its other entries. -/
theorem remove_append_singleton {n : Node} {p : Path} {es : List (String × Node)} (c : String)
    (h : n.get p = some (.dir es)) :
    n.remove (p ++ [c]) = n.set p (.dir (es.filter (·.1 != c))) := by
  induction p generalizing n with
  | nil => simp only [get, Option.some.injEq] at h; subst h; rfl
  | cons d p ih =>
    obtain ⟨es₀, k, rfl, hl, h⟩ := get_cons_eq_some.1 h
    rw [List.cons_append, remove_cons (by simp)]
    simp only [set, hl, ih h]

/-- Removing a replaced entry is removing the original one. -/
theorem remove_set {n n' a : Node} {p : Path} (h : n.set p a = some n') (hp : p ≠ []) :
    n'.remove p = n.remove p := by
  induction p generalizing n n' with
  | nil => exact absurd rfl hp
  | cons c t ih =>
    obtain ⟨es, k, k', rfl, hl, hk', rfl⟩ := set_cons_eq_some.1 h
    rcases t with _ | ⟨d, t⟩
    · simp [remove, filter_setEntry]
    · rw [remove_cons (List.cons_ne_nil _ _), remove_cons (List.cons_ne_nil _ _)]
      simp only [lookup_setEntry_self, hl, ih hk' (List.cons_ne_nil _ _), setEntry_setEntry]

theorem remove_nil (n : Node) : n.remove [] = none := by cases n <;> rfl

/-- A path with an entry, other than the root, is a child of a directory and can be removed. -/
theorem exists_remove {n m : Node} {p : Path} (h : n.get p = some m) (hp : p ≠ []) :
    ∃ q c es, p = q ++ [c] ∧ n.get q = some (.dir es) ∧ ∃ r, n.remove p = some r := by
  obtain ⟨q, c, rfl⟩ : ∃ q c, p = q ++ [c] :=
    ⟨p.dropLast, p.getLast hp, (List.dropLast_append_getLast hp).symm⟩
  obtain ⟨es, hq⟩ := exists_dir_of_get_append h (List.cons_ne_nil c [])
  exact ⟨q, c, es, rfl, hq, by rw [remove_append_singleton c hq]; exact exists_set hq _⟩

section Removed

variable {n : Node} {q : Path} {es : List (String × Node)} {c : String} {r : Node}

/-- After removing the entry at `q ++ [c]` nothing is at or below it. -/
theorem get_remove_below (hq : n.get q = some (.dir es)) (h : n.remove (q ++ [c]) = some r)
    (t : Path) : r.get (q ++ [c] ++ t) = none := by
  rw [remove_append_singleton c hq] at h
  rw [List.append_assoc, get_append, get_set_self h]
  simp only [Option.some_bind, List.singleton_append, get, lookup_filter_self]

/-- Removing the entry at `q ++ [c]` changes no path that is neither above nor below it. -/
theorem get_remove_of_apart (hq : n.get q = some (.dir es)) (h : n.remove (q ++ [c]) = some r)
    {u : Path} (h₁ : ¬ q ++ [c] <+: u) (h₂ : ¬ u <+: q ++ [c]) : r.get u = n.get u := by
  rw [remove_append_singleton c hq] at h
  by_cases hqu : q <+: u
  · obtain ⟨v, rfl⟩ := hqu
    obtain ⟨d, v, rfl⟩ := List.exists_cons_of_ne_nil (show v ≠ [] by
      rintro rfl; exact h₂ ((List.append_nil q).symm ▸ List.prefix_append q [c]))
    have hd : d ≠ c := by
      rintro rfl; exact h₁ (by rw [← List.singleton_append, ← List.append_assoc]; simp)
    rw [get_append, get_set_self h, get_append, hq]
    simp only [Option.some_bind, get, lookup_filter_of_ne _ hd]
  · exact get_set_of_apart h hqu (fun hu => h₂ (hu.trans (List.prefix_append q [c])))

/-- The directories above a removed entry remain. -/
theorem exists_dir_of_remove (hq : n.get q = some (.dir es)) (h : n.remove (q ++ [c]) = some r)
    {u : Path} (hu : u <+: q) : ∃ es', r.get u = some (.dir es') := by
  rw [remove_append_singleton c hq] at h
  by_cases hne : u = q
  · subst hne; exact ⟨_, get_set_self h⟩
  · exact exists_dir_of_set h hu hne

end Removed

/-- A removal of a path with no entry changes nothing. -/
theorem remove_of_get_eq_none {n r : Node} {p : Path} (hp : n.get p = none)
    (h : n.remove p = some r) : r = n := by
  induction p generalizing n r with
  | nil => cases n <;> cases h
  | cons c t ih =>
    cases n with
    | dir es =>
      rcases t with _ | ⟨d, t⟩
      · simp only [remove, Option.some.injEq] at h
        subst h
        cases hc : es.lookup c with
        | some m => simp [get, hc] at hp
        | none =>
          rw [List.filter_eq_self.2 fun e he => ?_]
          simp only [List.lookup_eq_none_iff] at hc
          exact bne_iff_ne.2 (Ne.symm (bne_iff_ne.1 (hc e he)))
      · rw [remove_cons (List.cons_ne_nil _ _)] at h
        cases hl : es.lookup c with
        | none => simp [hl] at h
        | some k =>
          simp only [hl] at h
          obtain ⟨k', hk', rfl⟩ := Option.map_eq_some'.1 h
          simp only [get, hl] at hp
          rw [ih hp hk', setEntry_of_lookup hl]
    | _ => cases h

end Node

end FileBackup
