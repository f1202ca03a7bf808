import FileBackup.Fs.Remove

/-!
# What a write leaves alone

The chunk store and the restore engine write files in place: `std::ofstream` truncates the inode
that a path links to. A file therefore keeps its bytes across a write at another path only when
the two paths do not share an inode.

* `writeFile_cases`: a write rewrites the inode of a regular file, or links a fresh inode at a
  path that had no entry. `exists_writeFile` says when a write succeeds, `readFile_writeFile`
  what it leaves at its path.
* `Fs.Owned s`: every regular file below `s` is the only link to its inode.
  * Every write and every `mkdir_p` keep it (`Owned.writeFile`, `Owned.mkdirP`).
  * A write at another path keeps such a file with its bytes (`Owned.keeps_writeFile`).
  * `WritesOutside s` is what a change apart from `s` does.
* `Fs.OnlyAt a`: every entry after a change is an entry there was, a directory on the way to `a`,
  or an entry at or below `a`.
  * `put`, `mkdir_p`, a write and `remove_recursive` at or below `a` are such changes.
  * They keep a destination apart from `a` free (`Fresh.onlyAt`).
* `Fs.KeepsEntries s`: every entry at or below `s` is still there. `mkdir_p` and a write keep
  every entry; a `put` or a `remove_recursive` apart from `s` keeps those below it.
* `Fs.AddsFilesBelow s`: every regular file after a change that is not below `s` was there before;
  `mkdir_p` and a write below `s` are such changes.
* `mkdirP_dir`: `mkdir_p` makes every directory of its path when nothing on the path is anything
  but a directory.
-/

namespace FileBackup

namespace Node

/-- `put` into a directory succeeds. -/
theorem exists_put_of_get {n : Node} {q : Path} {es : List (String × Node)}
    (h : n.get q = some (.dir es)) (name : String) (m : Node) : ∃ n', n.put q name m = some n' := by
  induction q generalizing n with
  | nil =>
    simp only [get, Option.some.injEq] at h
    subst h
    exact ⟨_, rfl⟩
  | cons c q ih =>
    obtain ⟨es₀, k, rfl, hl, hk⟩ := get_cons_eq_some.1 h
    obtain ⟨k', hk'⟩ := ih hk
    exact ⟨.dir (setEntry es₀ c k'), by simp only [put, hl, hk', Option.map_some']⟩

/-- After `put`, an entry is one there was, a directory on the way to the new entry, or at or
below it. -/
theorem get_put_cases {n n' m k : Node} {q : Path} {name : String} (h : n.put q name m = some n')
    {p : Path} (hp : n'.get p = some k) :
    n.get p = some k ∨ (∃ es, k = .dir es) ∧ p <+: q ∨ q ++ [name] <+: p := by
  by_cases hqp : q ++ [name] <+: p
  · exact .inr (.inr hqp)
  · by_cases hpq : p <+: q
    · obtain ⟨t, rfl⟩ := hpq
      have hs := get_put_self h
      rw [List.append_assoc, get_append, hp, Option.some_bind] at hs
      obtain ⟨es, e⟩ := exists_dir_of_get_append (q := []) hs (by simp)
      simp only [get, Option.some.injEq] at e
      exact .inr (.inl ⟨⟨es, e⟩, ⟨t, rfl⟩⟩)
    · exact .inl ((get_put_of_apart h hpq hqp).symm.trans hp)

/-- Every entry above a directory is a directory. -/
theorem dir_of_get_prefix {n : Node} {p r : Path} {es : List (String × Node)}
    (h : n.get p = some (.dir es)) (hr : r <+: p) : ∃ es', n.get r = some (.dir es') := by
  obtain ⟨t, rfl⟩ := hr
  rw [get_append] at h
  cases hg : n.get r with
  | none => rw [hg] at h; cases h
  | some d =>
    rw [hg, Option.some_bind] at h
    cases t with
    | nil =>
      simp only [get, Option.some.injEq] at h
      exact ⟨es, by rw [h]⟩
    | cons c t =>
      cases d with
      | dir es' => exact ⟨es', rfl⟩
      | _ => cases h

/-- `put` at a path that had no entry keeps every entry there was. -/
theorem isSome_get_put {n n' m : Node} {q p : Path} {name : String} (h : n.put q name m = some n')
    (hfresh : n.get (q ++ [name]) = none) (hp : (n.get p).isSome) : (n'.get p).isSome := by
  by_cases hpq : p <+: q ++ [name]
  · obtain ⟨d, hd⟩ := get_of_prefix (get_put_self h) hpq
    rw [hd]; rfl
  · by_cases hqp : q ++ [name] <+: p
    · obtain ⟨d, hd⟩ := get_of_prefix (Option.get_mem hp) hqp
      rw [hfresh] at hd; cases hd
    · rwa [get_put_of_apart h (fun h' => hpq (h'.trans (List.prefix_append q [name]))) hqp]

end Node

namespace Fs

section

variable {s a d p q : Path} {fs fs' fs'' : Fs} {data b : Bytes} {i : Nat}

theorem readFile_eq_some : fs.readFile p = some b ↔ ∃ i, fs.lookup p = some (.file i) ∧ fs.inodes i = b := by
  unfold readFile
  split <;> simp_all

/-! ### Writing a file -/

/-- A write rewrites the inode of the regular file at `p`, or links the next inode at a path that
had no entry, in the directory above it. -/
theorem writeFile_cases (h : fs.writeFile p data = some fs') :
    (∃ j, fs.lookup p = some (.file j) ∧ fs' = { fs with inodes := Function.update fs.inodes j data }) ∨
    (fs.lookup p = none ∧ ∃ name r, p = p.dropLast ++ [name] ∧
      fs.root.put p.dropLast name (.file fs.nextIno) = some r ∧
      fs' = ⟨r, Function.update fs.inodes fs.nextIno data, fs.nextIno + 1⟩) := by
  unfold writeFile at h
  split at h
  · exact .inl ⟨_, ‹_›, (Option.some.inj h).symm⟩
  · cases h
  · split at h
    · rename_i name hname
      obtain ⟨r, hr, rfl⟩ := Option.map_eq_some'.1 h
      exact .inr ⟨‹_›, name, r, (List.dropLast_append_getLast? name hname).symm, hr, rfl⟩
    · cases h

/-- A write succeeds on a regular file, and at a path with no entry in an existing directory. -/
theorem exists_writeFile (h : (∃ j, fs.lookup p = some (.file j)) ∨
    (fs.lookup p = none ∧ p ≠ [] ∧ ∃ es, fs.lookup p.dropLast = some (.dir es))) (data : Bytes) :
    ∃ fs', fs.writeFile p data = some fs' := by
  rcases h with ⟨j, hj⟩ | ⟨hnone, hp, es, hq⟩
  · exact ⟨{ fs with inodes := Function.update fs.inodes j data }, by simp only [writeFile, hj]⟩
  · obtain ⟨r, hr⟩ := Node.exists_put_of_get hq (p.getLast hp) (.file fs.nextIno)
    exact ⟨⟨r, Function.update fs.inodes fs.nextIno data, fs.nextIno + 1⟩,
      by simp only [writeFile, hnone, List.getLast?_eq_getLast p hp, hr, Option.map_some']⟩

theorem readFile_writeFile (h : fs.writeFile p data = some fs') : fs'.readFile p = some data := by
  rcases writeFile_cases h with ⟨j, hj, rfl⟩ | ⟨-, name, r, hp, hr, rfl⟩
  · exact readFile_eq_some.2 ⟨j, hj, Function.update_same _ _ _⟩
  · refine readFile_eq_some.2 ⟨fs.nextIno, ?_, Function.update_same _ _ _⟩
    rw [hp]; exact Node.get_put_self hr

/-- A regular file after a write was there before with its inode, or is the written one, linked to
the next inode. -/
theorem lookup_writeFile_file (h : fs.writeFile p data = some fs') (hq : fs'.lookup q = some (.file i)) :
    fs.lookup q = some (.file i) ∨ q = p ∧ i = fs.nextIno := by
  rcases writeFile_cases h with ⟨j, -, rfl⟩ | ⟨-, name, r, hp, hr, rfl⟩
  · exact .inl hq
  · rcases lookup_put_file hr hq with hq | ⟨hq', rfl⟩
    · exact .inl hq
    · exact .inr ⟨hq'.trans hp.symm, rfl⟩

/-- A write keeps every other regular file whose inode the written path does not link. -/
theorem lookup_writeFile_of_ne (h : fs.writeFile p data = some fs') (hb : fs.InodesBelow)
    (hq : fs.lookup q = some (.file i)) (hi : fs.lookup p ≠ some (.file i)) :
    fs'.lookup q = some (.file i) ∧ fs'.inodes i = fs.inodes i := by
  rcases writeFile_cases h with ⟨j, hj, rfl⟩ | ⟨hnone, name, r, hp, hr, rfl⟩
  · exact ⟨hq, Function.update_noteq (fun e => hi (by rw [e]; exact hj)) _ _⟩
  · exact ⟨Node.get_put_fresh hr (by rw [← hp]; exact hnone) hq,
      Function.update_noteq (hb q i hq).ne _ _⟩

/-! ### Files that are the only link to their inode -/

/-- Every regular file below `s` is the only link to its inode, and `nextIno` is fresh. -/
structure Owned (s : Path) (fs : Fs) : Prop where
  below : fs.InodesBelow
  single : ∀ p q i, s <+: p → fs.lookup p = some (.file i) → fs.lookup q = some (.file i) → q = p

theorem Owned.confined (h : fs.Owned s) : fs.Confined s :=
  ⟨h.below, fun p q i hp hq h₁ h₂ => hq (h.single p q i hp h₁ h₂ ▸ hp)⟩

/-- A filesystem with no regular file below `s`, whose inodes are below `nextIno`, owns `s`. -/
theorem owned_of_none (hb : fs.InodesBelow) (h : ∀ p i, s <+: p → fs.lookup p ≠ some (.file i)) :
    fs.Owned s :=
  ⟨hb, fun p _ i hp h₁ _ => absurd h₁ (h p i hp)⟩

/-- A filesystem whose regular files all lie outside `s`, with inodes below `nextIno`, owns
`s`. -/
theorem owned_of_files (h : ∀ x ∈ fs.root.files, x.2 < fs.nextIno ∧ ¬ s <+: x.1) : fs.Owned s :=
  owned_of_none (fun _ _ hp => (h _ (Node.mem_files_of_get hp)).1)
    fun _ _ hs hp => (h _ (Node.mem_files_of_get hp)).2 hs

theorem Owned.writeFile (h : fs.writeFile p data = some fs') (ho : fs.Owned s) : fs'.Owned s := by
  rcases writeFile_cases h with ⟨j, -, rfl⟩ | ⟨-, name, r, -, hr, rfl⟩
  · exact ⟨ho.below, ho.single⟩
  · refine ⟨fun q i hq => ?_, fun q₁ q₂ i hs h₁ h₂ => ?_⟩
    · rcases lookup_put_file hr hq with hq | ⟨-, rfl⟩
      · exact Nat.lt_succ_of_lt (ho.below q i hq)
      · exact Nat.lt_succ_self _
    · rcases lookup_put_file hr h₁ with h₁ | ⟨e₁, rfl⟩ <;>
        rcases lookup_put_file hr h₂ with h₂ | ⟨e₂, hi⟩
      · exact ho.single q₁ q₂ i hs h₁ h₂
      · exact absurd (ho.below q₁ i h₁) (by rw [hi]; exact lt_irrefl _)
      · exact absurd (ho.below q₂ _ h₂) (lt_irrefl _)
      · exact e₂.trans e₁.symm

/-- `mkdir_p` links no inode, so it keeps every owned subtree owned. -/
theorem Owned.mkdirP (ho : fs.Owned s) (done q : Path) : (fs.mkdirP done q).Owned s :=
  ⟨fun p i hp => by simpa using ho.below p i ((lookup_mkdirP_file fs done q).1 hp),
    fun p q' i hs h₁ h₂ => ho.single p q' i hs ((lookup_mkdirP_file fs done q).1 h₁)
      ((lookup_mkdirP_file fs done q).1 h₂)⟩

/-- A write keeps every other regular file below `s` with its bytes. -/
theorem Owned.keeps_writeFile (h : fs.writeFile p data = some fs') (ho : fs.Owned s)
    (hs : s <+: q) (hqp : q ≠ p) (hq : fs.lookup q = some (.file i)) :
    fs'.lookup q = some (.file i) ∧ fs'.inodes i = fs.inodes i :=
  lookup_writeFile_of_ne h ho.below hq fun hp => hqp (ho.single q p i hs hq hp).symm

theorem Owned.readFile_writeFile_of_ne (h : fs.writeFile p data = some fs') (ho : fs.Owned s)
    (hs : s <+: q) (hqp : q ≠ p) (hr : fs.readFile q = some b) : fs'.readFile q = some b := by
  obtain ⟨i, hl, rfl⟩ := readFile_eq_some.1 hr
  obtain ⟨hl', hi⟩ := ho.keeps_writeFile h hs hqp hl
  exact readFile_eq_some.2 ⟨i, hl', hi⟩

/-- `fs'` keeps every regular file of `fs` below `s`, with its contents. -/
def KeepsBelow (s : Path) (fs fs' : Fs) : Prop :=
  ∀ p i, s <+: p → fs.lookup p = some (.file i) →
    fs'.lookup p = some (.file i) ∧ fs'.inodes i = fs.inodes i

theorem KeepsBelow.readFile (h : KeepsBelow s fs fs') (hp : s <+: p) (hr : fs.readFile p = some b) :
    fs'.readFile p = some b := by
  obtain ⟨i, hl, rfl⟩ := readFile_eq_some.1 hr
  obtain ⟨hl', hi⟩ := h p i hp hl
  exact readFile_eq_some.2 ⟨i, hl', hi⟩

/-- `fs'` keeps the files below `s` single links, with their contents, when `fs` had them
single: what a change apart from `s` does. -/
def WritesOutside (s : Path) (fs fs' : Fs) : Prop :=
  fs.Owned s → fs'.Owned s ∧ KeepsBelow s fs fs'

theorem WritesOutside.refl (s : Path) (fs : Fs) : WritesOutside s fs fs :=
  fun h => ⟨h, fun _ _ _ h => ⟨h, rfl⟩⟩

theorem WritesOutside.trans (h₁ : WritesOutside s fs fs') (h₂ : WritesOutside s fs' fs'') :
    WritesOutside s fs fs'' := fun h => by
  obtain ⟨ho', hk'⟩ := h₁ h
  obtain ⟨ho'', hk''⟩ := h₂ ho'
  refine ⟨ho'', fun p i hp hl => ?_⟩
  obtain ⟨hl', e'⟩ := hk' p i hp hl
  obtain ⟨hl'', e''⟩ := hk'' p i hp hl'
  exact ⟨hl'', e''.trans e'⟩

theorem writesOutside_writeFile (h : fs.writeFile p data = some fs') (hp : ¬ s <+: p) :
    WritesOutside s fs fs' :=
  fun ho => ⟨ho.writeFile h, fun _ _ hs hq => ho.keeps_writeFile h hs (fun e => hp (e ▸ hs)) hq⟩

theorem writesOutside_mkdirP (s : Path) (fs : Fs) (done q : Path) :
    WritesOutside s fs (fs.mkdirP done q) := fun ho =>
  ⟨ho.mkdirP done q, fun _ _ _ hp => ⟨(lookup_mkdirP_file fs done q).2 hp, by simp⟩⟩

@[simp] theorem readFile_mkdirP (fs : Fs) (done q p : Path) :
    (fs.mkdirP done q).readFile p = fs.readFile p :=
  Option.ext fun b => by
    simp only [Option.mem_def, readFile_eq_some, lookup_mkdirP_file, inodes_mkdirP]

/-! ### Removing a subtree -/

@[simp] theorem inodes_removeRecursive (fs : Fs) (p : Path) :
    (fs.removeRecursive p).inodes = fs.inodes := by
  unfold removeRecursive; split <;> rfl

@[simp] theorem nextIno_removeRecursive (fs : Fs) (p : Path) :
    (fs.removeRecursive p).nextIno = fs.nextIno := by
  unfold removeRecursive; split <;> rfl

/-- `remove_recursive` leaves every path neither above nor below its own. -/
theorem lookup_removeRecursive_of_apart (h₁ : ¬ p <+: q) (h₂ : ¬ q <+: p) :
    (fs.removeRecursive p).lookup q = fs.lookup q := by
  unfold removeRecursive
  split
  · rename_i r hr
    cases hg : fs.root.get p with
    | none => rw [Node.remove_of_get_eq_none hg hr]
    | some m =>
      have hp : p ≠ [] := by rintro rfl; rw [Node.remove_nil] at hr; cases hr
      obtain ⟨q', c, es, rfl, hq', -⟩ := Node.exists_remove hg hp
      exact Node.get_remove_of_apart hq' hr h₁ h₂
  · rfl

/-- After `remove_recursive`, an entry is one there was, or a directory above the removed path. -/
theorem lookup_removeRecursive_cases {n : Node} (h : (fs.removeRecursive p).lookup q = some n) :
    fs.lookup q = some n ∨ (∃ es, n = .dir es) ∧ q <+: p := by
  unfold removeRecursive at h
  split at h
  · rename_i r hr
    cases hg : fs.root.get p with
    | none => rw [Node.remove_of_get_eq_none hg hr] at h; exact .inl h
    | some m =>
      have hp : p ≠ [] := by rintro rfl; rw [Node.remove_nil] at hr; cases hr
      obtain ⟨q', c, es, rfl, hq', -⟩ := Node.exists_remove hg hp
      by_cases h₁ : q' ++ [c] <+: q
      · obtain ⟨t, rfl⟩ := h₁
        rw [lookup, Node.get_remove_below hq' hr t] at h
        cases h
      by_cases h₂ : q <+: q' ++ [c]
      · rcases List.prefix_concat_iff.1 h₂ with rfl | hq
        · exact absurd (List.prefix_refl _) h₁
        · obtain ⟨es', he⟩ := Node.exists_dir_of_remove hq' hr hq
          exact .inr ⟨⟨es', (Option.some.inj (he.symm.trans h)).symm⟩, h₂⟩
      · exact .inl ((Node.get_remove_of_apart hq' hr h₁ h₂).symm.trans h)
  · exact .inl h

theorem lookup_removeRecursive_file (h : (fs.removeRecursive p).lookup q = some (.file i)) :
    fs.lookup q = some (.file i) := by
  rcases lookup_removeRecursive_cases h with h | ⟨⟨_, he⟩, -⟩
  · exact h
  · cases he

theorem writesOutside_removeRecursive (h₁ : ¬ p <+: s) (h₂ : ¬ s <+: p) :
    WritesOutside s fs (fs.removeRecursive p) := fun ho =>
  ⟨⟨fun q i hq => by simpa using ho.below q i (lookup_removeRecursive_file hq),
    fun q q' i hs hq hq' => ho.single q q' i hs (lookup_removeRecursive_file hq)
      (lookup_removeRecursive_file hq')⟩,
    fun q i hs hq => ⟨(lookup_removeRecursive_of_apart
      (fun hp => (List.prefix_or_prefix_of_prefix hp hs).elim h₁ h₂)
      (fun hq' => h₂ (hs.trans hq'))).trans hq, by simp⟩⟩

/-! ### Making directories -/

/-- After `mkdir`, an entry is one there was, or a directory on the way to the new one. -/
theorem lookup_mkdir_cases {c : String} {n : Node} (h : (fs.mkdir q c).lookup p = some n) :
    fs.lookup p = some n ∨ (∃ es, n = .dir es) ∧ p <+: q ++ [c] := by
  unfold mkdir at h
  split at h
  · exact .inl h
  · split at h
    · rename_i r hr
      rcases Node.get_put_cases hr h with h | ⟨hd, hp⟩ | ⟨t, rfl⟩
      · exact .inl h
      · exact .inr ⟨hd, hp.trans (List.prefix_append _ _)⟩
      · rw [lookup, Node.get_append, Node.get_put_self hr, Option.some_bind] at h
        cases t with
        | nil => exact .inr ⟨⟨[], (Option.some.inj h).symm⟩, by simp⟩
        | cons d t => cases h
    · exact .inl h

/-- After `mkdir_p`, an entry is one there was, or a directory on the way to the path made. -/
theorem lookup_mkdirP_cases {n : Node} {fs : Fs} {done q : Path}
    (h : (fs.mkdirP done q).lookup p = some n) :
    fs.lookup p = some n ∨ (∃ es, n = .dir es) ∧ p <+: done ++ q := by
  induction q generalizing fs done with
  | nil => exact .inl h
  | cons c q ih =>
    rw [mkdirP] at h
    rcases ih h with h | ⟨hd, hp⟩
    · rcases lookup_mkdir_cases h with h | ⟨hd, hp⟩
      · exact .inl h
      · exact .inr ⟨hd, hp.trans (by simp)⟩
    · exact .inr ⟨hd, by simpa using hp⟩

/-- `mkdir` in a directory leaves an entry at the new path. -/
theorem lookup_mkdir_self {es : List (String × Node)} (hq : fs.lookup q = some (.dir es))
    (c : String) : (fs.mkdir q c).lookup (q ++ [c]) ≠ none := by
  unfold mkdir
  split
  · simp_all
  · obtain ⟨r, hr⟩ := Node.exists_put_of_get hq c (.dir [])
    simp only [hr]
    simp [lookup, Node.get_put_self hr]

/-- `mkdir_p` makes every directory of its path when nothing on the path is anything but a
directory. -/
theorem mkdirP_dir : ∀ {fs : Fs} {done q : Path}, fs.lookup done ≠ none →
    (∀ t n, t <+: q → fs.lookup (done ++ t) = some n → ∃ es, n = .dir es) →
    ∃ es, (fs.mkdirP done q).lookup (done ++ q) = some (.dir es)
  | fs, done, [], hdone, h => by
    obtain ⟨n, hn⟩ := Option.ne_none_iff_exists'.1 hdone
    obtain ⟨es, rfl⟩ := h [] n (List.prefix_refl _) (by simpa using hn)
    exact ⟨es, by simpa using hn⟩
  | fs, done, c :: q, hdone, h => by
    obtain ⟨n, hn⟩ := Option.ne_none_iff_exists'.1 hdone
    obtain ⟨es, rfl⟩ := h [] n List.nil_prefix (by simpa using hn)
    have ih := @mkdirP_dir (fs.mkdir done c) (done ++ [c]) q
      (lookup_mkdir_self hn c) fun t n ht hl => by
        rcases lookup_mkdir_cases hl with hl | ⟨hd, -⟩
        · exact h (c :: t) n (by simpa using ht) (by simpa using hl)
        · exact hd
    simpa using ih

/-! ### Changes at one place -/

/-- Every entry of `fs'` is an entry of `fs`, a directory on the way to `a`, or at or below
`a`. -/
def OnlyAt (a : Path) (fs fs' : Fs) : Prop :=
  ∀ p n, fs'.lookup p = some n → fs.lookup p = some n ∨ (∃ es, n = .dir es) ∧ p <+: a ∨ a <+: p

theorem OnlyAt.refl (a : Path) (fs : Fs) : OnlyAt a fs fs := fun _ _ h => .inl h

theorem OnlyAt.trans (h₁ : OnlyAt a fs fs') (h₂ : OnlyAt a fs' fs'') : OnlyAt a fs fs'' :=
  fun p n h => (h₂ p n h).elim (h₁ p n) .inr

/-- A change at or below `b` is a change at `a` when `a` is above `b`. -/
theorem OnlyAt.mono {b : Path} (h : OnlyAt b fs fs') (hab : a <+: b) : OnlyAt a fs fs' :=
  fun p n hp => (h p n hp).imp_right fun h => h.elim
    (fun ⟨hd, hpb⟩ => (List.prefix_or_prefix_of_prefix hpb hab).elim (fun hpa => .inl ⟨hd, hpa⟩) .inr)
    (fun hbp => .inr (hab.trans hbp))

theorem onlyAt_mkdirP (fs : Fs) (done q : Path) : OnlyAt (done ++ q) fs (fs.mkdirP done q) :=
  fun _ _ h => (lookup_mkdirP_cases h).imp_right .inl

/-- Placing an entry `name` in the directory `q` changes only `q ++ [name]`. -/
theorem onlyAt_of_put {q : Path} {name : String} {m : Node} (h : fs.root.put q name m = some fs'.root) :
    OnlyAt (q ++ [name]) fs fs' := fun _ _ hp =>
  (Node.get_put_cases h hp).imp_right fun h' =>
    h'.imp_left fun ⟨hd, hpq⟩ => ⟨hd, hpq.trans (List.prefix_append q [name])⟩

theorem onlyAt_writeFile (h : fs.writeFile p data = some fs') : OnlyAt p fs fs' := by
  rcases writeFile_cases h with ⟨j, -, rfl⟩ | ⟨-, name, r, hp, hr, rfl⟩
  · exact OnlyAt.refl _ _
  · rw [hp]; exact onlyAt_of_put hr

theorem onlyAt_removeRecursive (fs : Fs) (p : Path) : OnlyAt p fs (fs.removeRecursive p) :=
  fun _ _ h => (lookup_removeRecursive_cases h).imp_right .inl

/-- Nothing is at `d`, and every entry on the way to it is a directory: a destination
`mkdir_p` can make. -/
structure Fresh (d : Path) (fs : Fs) : Prop where
  absent : fs.lookup d = none
  dirs : ∀ t n, t <+: d → fs.lookup t = some n → ∃ es, n = .dir es

/-- An absent path whose parent is a directory is a fresh destination. -/
theorem fresh_of_parent {es : List (String × Node)} (ha : fs.lookup d = none)
    (hp : fs.lookup d.dropLast = some (.dir es)) : fs.Fresh d := by
  refine ⟨ha, fun t n ht hn => ?_⟩
  rcases eq_or_ne d [] with rfl | hd
  · obtain rfl := List.prefix_nil.1 ht
    rw [ha] at hn; cases hn
  · rw [← List.dropLast_append_getLast hd, List.prefix_concat_iff] at ht
    rcases ht with rfl | ht
    · rw [List.dropLast_append_getLast hd, ha] at hn; cases hn
    · obtain ⟨es', he⟩ := Node.dir_of_get_prefix hp ht
      exact ⟨es', Option.some.inj (hn.symm.trans he)⟩

/-- A change at a place apart from a fresh destination keeps it fresh. -/
theorem Fresh.onlyAt (h : fs.Fresh d) (ho : OnlyAt a fs fs') (h₁ : ¬ a <+: d) (h₂ : ¬ d <+: a) :
    fs'.Fresh d := by
  refine ⟨Option.eq_none_iff_forall_not_mem.2 fun n hn => ?_, fun t n ht hn => ?_⟩
  · rcases ho d n hn with hn' | ⟨-, hd⟩ | hd
    · rw [h.absent] at hn'; cases hn'
    · exact h₂ hd
    · exact h₁ hd
  · rcases ho t n hn with hn' | ⟨hd, -⟩ | hat
    · exact h.dirs t n ht hn'
    · exact hd
    · exact absurd (hat.trans ht) h₁


/-! ### Entries that stay -/

/-- Every entry of `fs` at or below `s` is still an entry of `fs'`. -/
def KeepsEntries (s : Path) (fs fs' : Fs) : Prop :=
  ∀ p, s <+: p → (fs.lookup p).isSome → (fs'.lookup p).isSome

theorem KeepsEntries.refl (s : Path) (fs : Fs) : KeepsEntries s fs fs := fun _ _ h => h

theorem KeepsEntries.trans (h₁ : KeepsEntries s fs fs') (h₂ : KeepsEntries s fs' fs'') :
    KeepsEntries s fs fs'' := fun p hs h => h₂ p hs (h₁ p hs h)

theorem keepsEntries_mkdir (s : Path) (fs : Fs) (q : Path) (c : String) :
    KeepsEntries s fs (fs.mkdir q c) := fun p _ hp => by
  unfold mkdir
  split
  · exact hp
  · rename_i hnone
    split
    · rename_i r hr
      exact Node.isSome_get_put hr hnone hp
    · exact hp

theorem keepsEntries_mkdirP (s : Path) : ∀ (fs : Fs) (done q : Path),
    KeepsEntries s fs (fs.mkdirP done q)
  | _, _, [] => .refl _ _
  | fs, done, c :: q => (keepsEntries_mkdir s fs done c).trans (keepsEntries_mkdirP s _ _ q)

theorem keepsEntries_writeFile (h : fs.writeFile p data = some fs') : KeepsEntries s fs fs' := by
  rcases writeFile_cases h with ⟨j, -, rfl⟩ | ⟨hnone, name, r, hp, hr, rfl⟩
  · exact .refl _ _
  · exact fun q _ hq => Node.isSome_get_put hr (by rw [← hp]; exact hnone) hq

/-- A write whose failure leaves the filesystem as it was keeps every entry. -/
theorem keepsEntries_writeFile_getD (s : Path) (fs : Fs) (p : Path) (data : Bytes) :
    KeepsEntries s fs ((fs.writeFile p data).getD fs) := by
  cases h : fs.writeFile p data with
  | none => exact .refl _ _
  | some fs' => exact keepsEntries_writeFile h

/-- A `put` apart from `s` keeps the entries below `s`. -/
theorem keepsEntries_of_put {name : String} {m : Node} (h : fs.root.put q name m = some fs'.root)
    (h₁ : ¬ q ++ [name] <+: s) (h₂ : ¬ s <+: q ++ [name]) : KeepsEntries s fs fs' :=
  fun p hs hp => by
    have hqp : ¬ q ++ [name] <+: p := fun hqp =>
      (List.prefix_or_prefix_of_prefix hqp hs).elim h₁ h₂
    have hpq : ¬ p <+: q := fun hpq => h₂ (hs.trans (hpq.trans (List.prefix_append q [name])))
    rwa [lookup, Node.get_put_of_apart h hpq hqp]

theorem keepsEntries_removeRecursive (h₁ : ¬ p <+: s) (h₂ : ¬ s <+: p) :
    KeepsEntries s fs (fs.removeRecursive p) := fun q hs hq => by
  rwa [lookup_removeRecursive_of_apart (fun hpq => (List.prefix_or_prefix_of_prefix hpq hs).elim h₁ h₂)
    fun hqp => h₂ (hs.trans hqp)]

/-! ### Files that appear only below a place -/

/-- Every regular file of `fs'` that is not at or below `s` is a regular file of `fs`. -/
def AddsFilesBelow (s : Path) (fs fs' : Fs) : Prop :=
  ∀ q i, fs'.lookup q = some (.file i) → ¬ s <+: q → fs.lookup q = some (.file i)

theorem AddsFilesBelow.refl (s : Path) (fs : Fs) : AddsFilesBelow s fs fs := fun _ _ h _ => h

theorem AddsFilesBelow.trans (h₁ : AddsFilesBelow s fs fs') (h₂ : AddsFilesBelow s fs' fs'') :
    AddsFilesBelow s fs fs'' := fun q i hq hs => h₁ q i (h₂ q i hq hs) hs

/-- Files that appear only below `t` appear only below any `s` above it. -/
theorem AddsFilesBelow.mono {t : Path} (h : AddsFilesBelow t fs fs') (hst : s <+: t) :
    AddsFilesBelow s fs fs' := fun q i hq hs => h q i hq fun ht => hs (hst.trans ht)

theorem addsFilesBelow_mkdirP (s : Path) (fs : Fs) (done q : Path) :
    AddsFilesBelow s fs (fs.mkdirP done q) := fun _ _ hq _ => (lookup_mkdirP_file fs done q).1 hq

theorem addsFilesBelow_writeFile (h : fs.writeFile p data = some fs') (hp : s <+: p) :
    AddsFilesBelow s fs fs' := fun _ _ hq hs =>
  (lookup_writeFile_file h hq).resolve_right fun ⟨e, _⟩ => hs (e ▸ hp)
end

end Fs

end FileBackup
