import FileBackup.Paths

/-!
# The filesystem the worker reads and writes

A tree of directory entries over inodes, as `lstat` and `readdir` see it. A regular file is a
link to an inode, so a hard link is a second entry naming the same inode and a write through
either is seen through both; symbolic links and special files are entries that no walk of the
code follows. Paths are component lists (`splitPath` turns the code's strings into them), and
no symbolic link is followed on the way.

* `Node.get` (lookup), `Node.put` (set an entry of an existing directory), `Node.remove`;
* `Fs.mkdir`, `Fs.mkdirP` and `Fs.mkdirPath` (`mkdir_p`), `Fs.writeFile` (`std::ofstream`,
  truncating), `Fs.readFile` (`std::ifstream`), `Fs.statSize`, `Fs.removeRecursive`;
* `Node.files`: the regular files at or below a node in `readdir` order, and `Node.mirror`, the
  tree `snapshot_directory` builds: the directories, and each regular file as a hard link;
* `Node.Wf`: entry names are valid and unique in each directory, as in a real directory;
* frame lemmas: an update at one path leaves every path that is neither above nor below it
  (`Node.get_put_of_apart`, `Fs.lookup_mkdirP`, `Fs.writeFile_confined`);
* `Fs.Direct` and `Fs.LinkFree`: the paths the kernel resolves as the model does. The model
  resolves a path literally, a `..` component being a name like any other and a symbolic link on
  the way ending the lookup, where the kernel goes up or follows the link; the two agree on a path
  with no `..` component and no link on the way (`Direct`), and on every path below it when there
  is no link at or below it either (`LinkFree`). The results about the paths the code is given
  (the data directory, a restore's destination, a snapshot's path) assume them.

A directory lists its entries in `readdir` order; a new entry comes last.
-/

namespace FileBackup

/-- A directory entry. -/
inductive Node
  /-- A regular file: a link to an inode. -/
  | file (ino : Nat)
  | dir (entries : List (String × Node))
  | symlink (target : String)
  /-- A device, FIFO or socket. -/
  | special

namespace Node

/-- The entry at a path below this one. -/
def get : Node → Path → Option Node
  | n, [] => some n
  | .dir es, c :: p => match es.lookup c with
    | some m => get m p
    | none => none
  | _, _ :: _ => none

/-- The entry list with `name` set to `n`: replaced in place, or added last. -/
def setEntry : List (String × Node) → String → Node → List (String × Node)
  | [], name, n => [(name, n)]
  | (k, v) :: es, name, n => if k = name then (name, n) :: es else (k, v) :: setEntry es name n

/-- Set the entry `name` of the directory at `p`; `none` when `p` is not a directory. -/
def put : Node → Path → String → Node → Option Node
  | .dir es, [], name, n => some (.dir (setEntry es name n))
  | .dir es, c :: p, name, n => match es.lookup c with
    | some m => (put m p name n).map fun m' => .dir (setEntry es c m')
    | none => none
  | _, _, _, _ => none

/-- Remove the entry at a path, with everything below it. -/
def remove : Node → Path → Option Node
  | .dir es, [name] => some (.dir (es.filter (·.1 != name)))
  | .dir es, c :: p => match es.lookup c with
    | some m => (remove m p).map fun m' => .dir (setEntry es c m')
    | none => none
  | _, _ => none

/-- Whether `snapshot_directory` copies an entry: directories and regular files. -/
def isDirOrFile : Node → Bool
  | .dir _ => true
  | .file _ => true
  | _ => false

mutual
/-- The regular files at or below a node, with their paths from it, in `readdir` order. -/
def files : Node → List (Path × Nat)
  | .file i => [([], i)]
  | .dir es => filesOf es
  | _ => []

/-- The regular files below the entries of a directory. -/
def filesOf : List (String × Node) → List (Path × Nat)
  | [] => []
  | (name, n) :: es => (files n).map (fun x => (name :: x.1, x.2)) ++ filesOf es
end

mutual
/-- The mirror `snapshot_directory` builds: every directory, every regular file as a hard link
to its inode, nothing else. -/
def mirror : Node → Node
  | .dir es => .dir (mirrorOf es)
  | n => n

/-- The mirrored entries of a directory. -/
def mirrorOf : List (String × Node) → List (String × Node)
  | [] => []
  | (name, n) :: rest => if n.isDirOrFile then (name, mirror n) :: mirrorOf rest else mirrorOf rest
end

mutual
/-- Every directory of the tree has valid, distinct entry names. -/
def Wf : Node → Prop
  | .dir es => WfOf es
  | _ => True

/-- Valid, distinct names in these entries, and below them. -/
def WfOf : List (String × Node) → Prop
  | [] => True
  | (name, n) :: es => ValidName name ∧ name ∉ es.map Prod.fst ∧ n.Wf ∧ WfOf es
end

/-! ### Lookup after an update -/

theorem lookup_setEntry_self (es : List (String × Node)) (name : String) (n : Node) :
    (setEntry es name n).lookup name = some n := by
  induction es with
  | nil => simp [setEntry]
  | cons e es ih =>
    obtain ⟨k, v⟩ := e
    by_cases hk : k = name
    · simp [setEntry, hk]
    · simp [setEntry, hk, List.lookup_cons, beq_false_of_ne (Ne.symm hk), ih]

theorem lookup_setEntry_of_ne (es : List (String × Node)) {name c : String} (n : Node)
    (h : c ≠ name) : (setEntry es name n).lookup c = es.lookup c := by
  induction es with
  | nil => simp [setEntry, List.lookup_cons, beq_false_of_ne h]
  | cons e es ih =>
    obtain ⟨k, v⟩ := e
    by_cases hk : k = name
    · subst hk; simp [setEntry, List.lookup_cons, beq_false_of_ne h]
    · by_cases hc : c = k
      · simp [setEntry, hk, hc]
      · simp [setEntry, hk, List.lookup_cons, hc, ih]

theorem get_append (n : Node) (p q : Path) : n.get (p ++ q) = (n.get p).bind (·.get q) := by
  induction p generalizing n with
  | nil => simp [get]
  | cons c p ih =>
    cases n with
    | dir es =>
      simp only [List.cons_append, get]
      cases es.lookup c <;> simp [ih]
    | _ => rfl

/-- After `put` the new entry is found at its path. -/
theorem get_put_self {n n' m : Node} {q : Path} {name : String} (h : n.put q name m = some n') :
    n'.get (q ++ [name]) = some m := by
  induction q generalizing n n' with
  | nil =>
    cases n with
    | dir es =>
      simp only [put, Option.some.injEq] at h
      subst h
      simp [get, lookup_setEntry_self]
    | _ => cases h
  | cons c q ih =>
    cases n with
    | dir es =>
      simp only [put] at h
      split at h
      · rename_i k hk
        obtain ⟨k', hk', rfl⟩ := Option.map_eq_some'.1 h
        simp [get, lookup_setEntry_self, ih hk']
      · cases h
    | _ => cases h

/-- Every directory above an entry exists. -/
theorem get_of_prefix {n m : Node} {p r : Path} (h : n.get p = some m) (hr : r <+: p) :
    ∃ d, n.get r = some d := by
  obtain ⟨t, rfl⟩ := hr
  rw [get_append] at h
  cases hg : n.get r with
  | none => simp [hg] at h
  | some d => exact ⟨d, rfl⟩

/-- `put` succeeds only into a directory. -/
theorem exists_get_of_put {n n' m : Node} {q : Path} {name : String}
    (h : n.put q name m = some n') : ∃ es, n.get q = some (.dir es) := by
  induction q generalizing n n' with
  | nil =>
    cases n with
    | dir es => exact ⟨es, rfl⟩
    | _ => cases h
  | cons c q ih =>
    cases n with
    | dir es =>
      simp only [put] at h
      split at h
      · rename_i k hk
        obtain ⟨k', hk', -⟩ := Option.map_eq_some'.1 h
        simpa only [get, hk] using ih hk'
      · cases h
    | _ => cases h

/-- `put` changes no entry that is neither above nor at or below the entry it sets. -/
theorem get_put_of_apart {n n' m : Node} {q : Path} {name : String}
    (h : n.put q name m = some n') {p : Path} (hpq : ¬ p <+: q) (hqp : ¬ q ++ [name] <+: p) :
    n'.get p = n.get p := by
  induction q generalizing n n' p with
  | nil =>
    cases n with
    | dir es =>
      simp only [put, Option.some.injEq] at h
      subst h
      cases p with
      | nil => exact absurd List.nil_prefix hpq
      | cons d p =>
        have hd : d ≠ name := by rintro rfl; exact hqp (by simp)
        simp [get, lookup_setEntry_of_ne _ _ hd]
    | _ => cases h
  | cons c q ih =>
    cases n with
    | dir es =>
      simp only [put] at h
      split at h
      · rename_i k hk
        obtain ⟨k', hk', rfl⟩ := Option.map_eq_some'.1 h
        cases p with
        | nil => exact absurd List.nil_prefix hpq
        | cons d p =>
          by_cases hd : d = c
          · subst hd
            simp only [List.cons_prefix_cons, true_and, List.cons_append] at hpq hqp
            simp only [get, lookup_setEntry_self, hk]
            exact ih hk' hpq hqp
          · simp [get, lookup_setEntry_of_ne _ _ hd]
      · cases h
    | _ => cases h

/-- `put` at a path that had no entry leaves every regular file where it was. -/
theorem get_put_fresh {n n' m : Node} {q : Path} {name : String} (h : n.put q name m = some n')
    (hfresh : n.get (q ++ [name]) = none) {p : Path} {i : Nat} (hp : n.get p = some (.file i)) :
    n'.get p = some (.file i) := by
  rw [← hp]
  refine get_put_of_apart h (fun ⟨t, ht⟩ => ?_) (fun hqp => ?_)
  · obtain ⟨es, hq⟩ := exists_get_of_put h
    rw [← ht, get_append, hp] at hq
    cases t <;> cases hq
  · obtain ⟨d, hd⟩ := get_of_prefix hp hqp
    rw [hfresh] at hd; cases hd

/-- A regular file after `put` was there before, or lies in the new entry. -/
theorem get_put_file {n n' m : Node} {q : Path} {name : String} (h : n.put q name m = some n')
    {p : Path} {i : Nat} (hp : n'.get p = some (.file i)) :
    n.get p = some (.file i) ∨ ∃ t, p = q ++ [name] ++ t ∧ m.get t = some (.file i) := by
  by_cases hqp : q ++ [name] <+: p
  · obtain ⟨t, rfl⟩ := hqp
    rw [get_append, get_put_self h] at hp
    exact .inr ⟨t, rfl, hp⟩
  · by_cases hpq : p <+: q
    · obtain ⟨t, rfl⟩ := hpq
      have hs := get_put_self h
      rw [List.append_assoc, get_append, hp] at hs
      cases t <;> cases hs
    · exact .inl ((get_put_of_apart h hpq hqp).symm.trans hp)

/-! ### What a walk sees -/

mutual
theorem files_mirror : ∀ n : Node, (mirror n).files = n.files
  | .dir es => by simp only [mirror, files]; exact filesOf_mirrorOf es
  | .file _ => rfl
  | .symlink _ => rfl
  | .special => rfl

theorem filesOf_mirrorOf : ∀ es : List (String × Node), filesOf (mirrorOf es) = filesOf es
  | [] => rfl
  | (name, n) :: rest => by
    unfold mirrorOf
    split
    · simp only [filesOf, files_mirror n, filesOf_mirrorOf rest]
    · rename_i h
      cases n <;> simp_all [isDirOrFile, filesOf, files, filesOf_mirrorOf rest]
end

theorem ne_nil_of_mem_filesOf {es : List (String × Node)} {x : Path × Nat}
    (h : x ∈ filesOf es) : x.1 ≠ [] := by
  induction es with
  | nil => cases h
  | cons e es ih =>
    obtain ⟨name, n⟩ := e
    simp only [filesOf, List.mem_append, List.mem_map] at h
    rcases h with ⟨y, -, rfl⟩ | h
    · simp
    · exact ih h

theorem mem_map_fst_of_lookup {es : List (String × Node)} {c : String} {m : Node}
    (h : es.lookup c = some m) : c ∈ es.map Prod.fst := by
  induction es with
  | nil => cases h
  | cons e es ih =>
    obtain ⟨k, v⟩ := e
    by_cases hk : c = k
    · subst hk; exact List.mem_cons_self _ _
    · simp only [List.lookup_cons, beq_false_of_ne hk] at h
      exact List.mem_cons_of_mem _ (ih h)

theorem mem_filesOf_of_lookup {es : List (String × Node)} {c : String} {m : Node}
    (h : es.lookup c = some m) {x : Path × Nat} (hx : x ∈ m.files) :
    (c :: x.1, x.2) ∈ filesOf es := by
  induction es with
  | nil => cases h
  | cons e es ih =>
    obtain ⟨k, v⟩ := e
    simp only [filesOf, List.mem_append, List.mem_map]
    by_cases hk : c = k
    · subst hk
      simp only [List.lookup_cons_self, Option.some.injEq] at h
      exact .inl ⟨x, h ▸ hx, rfl⟩
    · simp only [List.lookup_cons, beq_false_of_ne hk] at h
      exact .inr (ih h)

/-- A regular file a lookup reaches is one of the files below the node. -/
theorem mem_files_of_get {n : Node} {p : Path} {i : Nat} (h : n.get p = some (.file i)) :
    (p, i) ∈ n.files := by
  induction p generalizing n with
  | nil =>
    simp only [get, Option.some.injEq] at h
    simp [h, files]
  | cons c p ih =>
    cases n with
    | dir es =>
      simp only [get] at h
      split at h
      · rename_i m hm
        exact mem_filesOf_of_lookup hm (ih h)
      · cases h
    | _ => cases h

mutual
/-- In a well-formed tree, a lookup finds each of the files below a node. -/
theorem get_of_mem_files : ∀ n : Node, n.Wf → ∀ x ∈ n.files, n.get x.1 = some (.file x.2)
  | .file _, _, x, hx => by
    simp only [files, List.mem_singleton] at hx
    subst hx; rfl
  | .dir es, h, x, hx => get_of_mem_filesOf es h x hx
  | .symlink _, _, _, hx => by simp [files] at hx
  | .special, _, _, hx => by simp [files] at hx

theorem get_of_mem_filesOf : ∀ es : List (String × Node), WfOf es → ∀ x ∈ filesOf es,
    (Node.dir es).get x.1 = some (.file x.2)
  | [], _, _, hx => by cases hx
  | (name, n) :: es, ⟨_, hname, hn, hes⟩, x, hx => by
    simp only [filesOf, List.mem_append, List.mem_map] at hx
    rcases hx with ⟨y, hy, rfl⟩ | hx
    · simp [get, get_of_mem_files n hn y hy]
    · have h := get_of_mem_filesOf es hes x hx
      obtain ⟨c, rest, hc⟩ := List.exists_cons_of_ne_nil (ne_nil_of_mem_filesOf hx)
      rw [hc] at h ⊢
      simp only [get] at h ⊢
      split at h
      · rename_i m hm
        have hcn : c ≠ name := fun e => hname (e ▸ mem_map_fst_of_lookup hm)
        simpa [List.lookup_cons, beq_false_of_ne hcn, hm] using h
      · cases h
end

mutual
/-- The components of the path of each file below a well-formed node are entry names. -/
theorem validName_of_mem_files : ∀ n : Node, n.Wf → ∀ x ∈ n.files, ∀ c ∈ x.1, ValidName c
  | .file _, _, x, hx, _, hc => by
    simp only [files, List.mem_singleton] at hx
    subst hx; cases hc
  | .dir es, h, x, hx, c, hc => validName_of_mem_filesOf es h x hx c hc
  | .symlink _, _, _, hx, _, _ => by simp [files] at hx
  | .special, _, _, hx, _, _ => by simp [files] at hx

theorem validName_of_mem_filesOf : ∀ es : List (String × Node), WfOf es → ∀ x ∈ filesOf es,
    ∀ c ∈ x.1, ValidName c
  | [], _, _, hx, _, _ => by cases hx
  | (name, n) :: es, ⟨hv, _, hn, hes⟩, x, hx, c, hc => by
    simp only [filesOf, List.mem_append, List.mem_map] at hx
    rcases hx with ⟨y, hy, rfl⟩ | hx
    · rcases List.mem_cons.1 hc with rfl | hc
      · exact hv
      · exact validName_of_mem_files n hn y hy c hc
    · exact validName_of_mem_filesOf es hes x hx c hc
end

theorem map_fst_mirrorOf_subset :
    ∀ es : List (String × Node), (mirrorOf es).map Prod.fst ⊆ es.map Prod.fst
  | [] => List.Subset.refl _
  | (name, n) :: es => by
    unfold mirrorOf
    split
    · exact List.cons_subset_cons _ (map_fst_mirrorOf_subset es)
    · exact (map_fst_mirrorOf_subset es).trans (List.subset_cons_self _ _)

mutual
/-- Mirroring keeps a tree well formed: it only drops entries. -/
theorem wf_mirror : ∀ n : Node, n.Wf → n.mirror.Wf
  | .dir es, h => wfOf_mirrorOf es h
  | .file _, h => h
  | .symlink _, h => h
  | .special, h => h

theorem wfOf_mirrorOf : ∀ es : List (String × Node), WfOf es → WfOf (mirrorOf es)
  | [], _ => trivial
  | (name, n) :: es, ⟨hv, hname, hn, hes⟩ => by
    unfold mirrorOf
    split
    · exact ⟨hv, fun h => hname (map_fst_mirrorOf_subset es h), wf_mirror n hn,
        wfOf_mirrorOf es hes⟩
    · exact wfOf_mirrorOf es hes
end

/-! ### Symbolic links on a path -/

/-- Whether a symbolic link lies strictly above the end of `p`, on the way down from this node. -/
def linkAbove : Node → Path → Bool
  | _, [] => false
  | .symlink _, _ :: _ => true
  | .dir es, c :: p => match es.lookup c with
    | some m => linkAbove m p
    | none => false
  | _, _ :: _ => false

mutual
/-- Whether this entry is a symbolic link or has one below it. -/
def hasLink : Node → Bool
  | .symlink _ => true
  | .dir es => hasLinkOf es
  | _ => false

/-- Whether these entries, or the entries below them, hold a symbolic link. -/
def hasLinkOf : List (String × Node) → Bool
  | [] => false
  | (_, n) :: es => n.hasLink || hasLinkOf es
end

/-- A path with no link above its end meets none on the way. -/
theorem get_ne_symlink_of_linkAbove {t : String} : ∀ {n : Node} {p q : Path},
    n.linkAbove p = false → q <+: p → q ≠ p → n.get q ≠ some (.symlink t)
  | _, [], _, _, hq, hne => absurd (List.prefix_nil.1 hq) hne
  | n, _ :: _, [], h, _, _ => by cases n <;> simp_all [get, linkAbove]
  | .dir es, c :: p, d :: q, h, hq, hne => by
    obtain ⟨rfl, hq'⟩ := List.cons_prefix_cons.1 hq
    simp only [linkAbove, get] at h ⊢
    split at h
    · exact get_ne_symlink_of_linkAbove h hq' fun e => hne (e ▸ rfl)
    · nofun
  | .file _, _ :: _, _ :: _, _, _, _ | .special, _ :: _, _ :: _, _, _, _
  | .symlink _, _ :: _, _ :: _, _, _, _ => by simp [get]

theorem hasLink_of_lookup {es : List (String × Node)} {c : String} {m : Node}
    (h : hasLinkOf es = false) (hc : es.lookup c = some m) : m.hasLink = false := by
  induction es with
  | nil => cases hc
  | cons e es ih =>
    obtain ⟨k, v⟩ := e
    simp only [hasLinkOf, Bool.or_eq_false_iff] at h
    by_cases hk : c = k
    · subst hk; simp only [List.lookup_cons, beq_self_eq_true, Option.some.injEq] at hc
      exact hc ▸ h.1
    · simp only [List.lookup_cons, beq_false_of_ne hk] at hc
      exact ih h.2 hc

/-- Below an entry with no link, no path leads to one. -/
theorem get_ne_symlink_of_hasLink : ∀ {n : Node} {q : Path} {t : String},
    n.hasLink = false → n.get q ≠ some (.symlink t)
  | .symlink _, [], _, h => by simp [hasLink] at h
  | .dir es, c :: q, t, h => by
    simp only [get]
    split
    · exact get_ne_symlink_of_hasLink (hasLink_of_lookup (by simpa [hasLink] using h) ‹_›)
    · nofun
  | .file _, [], _, _ | .dir _, [], _, _ | .special, [], _, _ => by simp [get]
  | .file _, _ :: _, _, _ | .special, _ :: _, _, _ | .symlink _, _ :: _, _, _ => by simp [get]

end Node

/-- The filesystem: the tree from `/`, the inodes' contents, and the next free inode. -/
structure Fs where
  root : Node
  inodes : Nat → Bytes
  nextIno : Nat

namespace Fs

/-- `lstat(p)`: the entry at `p`. -/
def lookup (fs : Fs) (p : Path) : Option Node := fs.root.get p

/-- The contents of the regular file at `p`, read whole (`std::ifstream`). -/
def readFile (fs : Fs) (p : Path) : Option Bytes :=
  match fs.lookup p with
  | some (.file i) => some (fs.inodes i)
  | _ => none

/-- `stat(p).st_size`: a regular file's length. The code stats only the paths of regular files;
other entries are given size `0`. -/
def statSize (fs : Fs) (p : Path) : Option Nat :=
  (fs.lookup p).map fun
    | .file i => (fs.inodes i).length
    | _ => 0

/-- `mkdir(q/name)`: nothing when the entry exists or `q` is not a directory. -/
def mkdir (fs : Fs) (q : Path) (name : String) : Fs :=
  match fs.lookup (q ++ [name]) with
  | some _ => fs
  | none => match fs.root.put q name (.dir []) with
    | some r => { fs with root := r }
    | none => fs

/-- `mkdir` of each prefix in turn, `done` being the prefix already made. -/
def mkdirP (fs : Fs) (done : Path) : Path → Fs
  | [] => fs
  | c :: p => (fs.mkdir done c).mkdirP (done ++ [c]) p

/-- `mkdir_p(path)`: `mkdir` at each `/` of the string and at its end. -/
def mkdirPath (fs : Fs) (path : String) : Fs := fs.mkdirP [] (splitPath path)

/-- Opening `p` for writing (truncating) and writing `data`: a new file gets the next inode;
`none` when the entry is not a regular file or its directory does not exist. -/
def writeFile (fs : Fs) (p : Path) (data : Bytes) : Option Fs :=
  match fs.lookup p with
  | some (.file i) => some { fs with inodes := Function.update fs.inodes i data }
  | some _ => none
  | none => match p.getLast? with
    | some name => (fs.root.put p.dropLast name (.file fs.nextIno)).map fun r =>
      { root := r, inodes := Function.update fs.inodes fs.nextIno data, nextIno := fs.nextIno + 1 }
    | none => none

/-- `remove_recursive(p)`: the entry at `p` and everything below it are gone. -/
def removeRecursive (fs : Fs) (p : Path) : Fs :=
  match fs.root.remove p with
  | some r => { fs with root := r }
  | none => fs

/-! ### Writes confined to a subtree -/

/-- Every inode an entry names is below `nextIno`. -/
def InodesBelow (fs : Fs) : Prop := ∀ p i, fs.lookup p = some (.file i) → i < fs.nextIno

/-- The files below `s` share no inode with the files outside it, and `nextIno` is fresh. -/
structure Confined (s : Path) (fs : Fs) : Prop where
  below : fs.InodesBelow
  separate : ∀ p q i, s <+: p → ¬ s <+: q → fs.lookup p = some (.file i) →
    fs.lookup q ≠ some (.file i)

/-- `fs'` keeps every regular file of `fs` outside `s`, with its contents. -/
def KeepsOutside (s : Path) (fs fs' : Fs) : Prop :=
  ∀ p i, ¬ s <+: p → fs.lookup p = some (.file i) →
    fs'.lookup p = some (.file i) ∧ fs'.inodes i = fs.inodes i

theorem KeepsOutside.refl (s : Path) (fs : Fs) : KeepsOutside s fs fs := fun _ _ _ h => ⟨h, rfl⟩

theorem KeepsOutside.trans {s : Path} {fs₁ fs₂ fs₃ : Fs} (h₁ : KeepsOutside s fs₁ fs₂)
    (h₂ : KeepsOutside s fs₂ fs₃) : KeepsOutside s fs₁ fs₃ := fun p i hp h => by
  obtain ⟨h', e⟩ := h₁ p i hp h
  obtain ⟨h'', e'⟩ := h₂ p i hp h'
  exact ⟨h'', e'.trans e⟩

/-- `fs'` keeps every file outside `s` and the files below `s` apart, when `fs` kept them
apart: what a run that writes only below `s` does. -/
def WritesWithin (s : Path) (fs fs' : Fs) : Prop :=
  fs.Confined s → KeepsOutside s fs fs' ∧ fs'.Confined s

theorem WritesWithin.refl (s : Path) (fs : Fs) : WritesWithin s fs fs :=
  fun h => ⟨KeepsOutside.refl s fs, h⟩

theorem WritesWithin.trans {s : Path} {fs₁ fs₂ fs₃ : Fs} (h₁ : WritesWithin s fs₁ fs₂)
    (h₂ : WritesWithin s fs₂ fs₃) : WritesWithin s fs₁ fs₃ := fun h =>
  ⟨(h₁ h).1.trans (h₂ (h₁ h).2).1, (h₂ (h₁ h).2).2⟩

/-- A filesystem with no regular file below `s`, whose inodes are all below `nextIno`, keeps
`s` apart. -/
theorem confined_of_files {s : Path} {fs : Fs}
    (h : ∀ x ∈ fs.root.files, x.2 < fs.nextIno ∧ ¬ s <+: x.1) : fs.Confined s :=
  ⟨fun _ _ hp => (h _ (Node.mem_files_of_get hp)).1,
    fun _ _ _ hs _ hp => absurd hs (h _ (Node.mem_files_of_get hp)).2⟩

/-! ### `mkdir` -/

/-- `mkdir` adds at most an empty directory, so it keeps exactly the regular files there were. -/
theorem lookup_mkdir_file (fs : Fs) (q : Path) (name : String) {p : Path} {i : Nat} :
    (fs.mkdir q name).lookup p = some (.file i) ↔ fs.lookup p = some (.file i) := by
  unfold mkdir
  split
  · rfl
  · rename_i hnone
    split
    · rename_i r hr
      refine ⟨fun hp => ?_, Node.get_put_fresh hr hnone⟩
      rcases Node.get_put_file hr hp with h | ⟨t, -, ht⟩
      · exact h
      · cases t <;> simp [Node.get, List.lookup_cons] at ht
    · rfl

@[simp] theorem inodes_mkdir (fs : Fs) (q : Path) (name : String) :
    (fs.mkdir q name).inodes = fs.inodes := by
  unfold mkdir; split
  · rfl
  · split <;> rfl

@[simp] theorem nextIno_mkdir (fs : Fs) (q : Path) (name : String) :
    (fs.mkdir q name).nextIno = fs.nextIno := by
  unfold mkdir; split
  · rfl
  · split <;> rfl

theorem lookup_mkdirP_file (fs : Fs) (done q : Path) {p : Path} {i : Nat} :
    (fs.mkdirP done q).lookup p = some (.file i) ↔ fs.lookup p = some (.file i) := by
  induction q generalizing fs done with
  | nil => rfl
  | cons c q ih => rw [mkdirP, ih, lookup_mkdir_file]

@[simp] theorem inodes_mkdirP (fs : Fs) (done q : Path) : (fs.mkdirP done q).inodes = fs.inodes := by
  induction q generalizing fs done with
  | nil => rfl
  | cons c q ih => rw [mkdirP, ih, inodes_mkdir]

@[simp] theorem nextIno_mkdirP (fs : Fs) (done q : Path) :
    (fs.mkdirP done q).nextIno = fs.nextIno := by
  induction q generalizing fs done with
  | nil => rfl
  | cons c q ih => rw [mkdirP, ih, nextIno_mkdir]

/-- `mkdir_p` leaves every entry that is not above the directory it makes. -/
theorem lookup_mkdirP {fs : Fs} {done q p : Path} {d : Node} (hp : fs.lookup p = some d)
    (hpq : ¬ p <+: done ++ q) : (fs.mkdirP done q).lookup p = some d := by
  induction q generalizing fs done with
  | nil => exact hp
  | cons c q ih =>
    refine ih ?_ (by simpa using hpq)
    unfold mkdir
    split
    · exact hp
    · rename_i hnone
      split
      · rename_i r hr
        refine (Node.get_put_of_apart hr (fun h => hpq (h.trans (List.prefix_append _ _)))
          fun h => ?_).trans hp
        obtain ⟨d', hd'⟩ := Node.get_of_prefix hp h
        exact absurd hd' (by simp [lookup] at hnone; simp [hnone])
      · exact hp

theorem Confined.mkdirP {s : Path} {fs : Fs} (h : fs.Confined s) (done q : Path) :
    (fs.mkdirP done q).Confined s :=
  ⟨fun p i hp => by simpa using h.below p i ((lookup_mkdirP_file fs done q).1 hp),
    fun p p' i hs hs' hp hp' => h.separate p p' i hs hs' ((lookup_mkdirP_file fs done q).1 hp)
      ((lookup_mkdirP_file fs done q).1 hp')⟩

theorem keepsOutside_mkdirP (s : Path) (fs : Fs) (done q : Path) :
    KeepsOutside s fs (fs.mkdirP done q) :=
  fun _ _ _ hp => ⟨(lookup_mkdirP_file fs done q).2 hp, by simp⟩

/-! ### Writing a file -/

/-- A regular file after a write at a fresh path was there before, or is the new one. -/
theorem lookup_put_file {fs : Fs} {q : Path} {name : String} {r : Node} {j : Nat}
    (hr : fs.root.put q name (.file j) = some r) {p : Path} {i : Nat}
    (hp : r.get p = some (.file i)) : fs.lookup p = some (.file i) ∨ (p = q ++ [name] ∧ i = j) := by
  rcases Node.get_put_file hr hp with h | ⟨t, rfl, ht⟩
  · exact .inl h
  · cases t <;> simp_all [Node.get]

theorem writesWithin_mkdirP (s : Path) (fs : Fs) (done q : Path) :
    WritesWithin s fs (fs.mkdirP done q) :=
  fun h => ⟨keepsOutside_mkdirP s fs done q, h.mkdirP done q⟩

/-- A write below `s` keeps every file outside `s`, and keeps the files below `s` apart from the
others. -/
theorem writeFile_confined {s p : Path} {data : Bytes} {fs fs' : Fs}
    (h : fs.writeFile p data = some fs') (hs : s <+: p) (hc : fs.Confined s) :
    KeepsOutside s fs fs' ∧ fs'.Confined s := by
  unfold writeFile at h
  split at h
  · rename_i j hj
    cases h
    refine ⟨fun p' i hp' h' => ⟨h', Function.update_noteq ?_ _ _⟩, ⟨hc.below, hc.separate⟩⟩
    rintro rfl
    exact hc.separate p p' i hs hp' hj h'
  · cases h
  · rename_i hnone
    split at h
    · rename_i name hname
      obtain ⟨r, hr, rfl⟩ := Option.map_eq_some'.1 h
      have hp : p.dropLast ++ [name] = p := List.dropLast_append_getLast? name hname
      refine ⟨fun p' i _ h' => ⟨Node.get_put_fresh hr (by rw [hp]; exact hnone) h',
        Function.update_noteq (hc.below p' i h').ne _ _⟩, ⟨fun p' i h' => ?_, ?_⟩⟩
      · rcases lookup_put_file hr h' with h' | ⟨-, rfl⟩
        · exact Nat.lt_succ_of_lt (hc.below p' i h')
        · exact Nat.lt_succ_self _
      · intro p₁ p₂ i hs₁ hs₂ h₁ h₂
        rcases lookup_put_file hr h₂ with h₂ | ⟨he, -⟩
        · rcases lookup_put_file hr h₁ with h₁ | ⟨-, rfl⟩
          · exact hc.separate p₁ p₂ i hs₁ hs₂ h₁ h₂
          · exact absurd (hc.below p₂ _ h₂) (lt_irrefl _)
        · exact hs₂ (by rw [he, hp]; exact hs)
    · cases h

/-! ### Paths the code resolves as the model does -/

/-- The code resolves `p` as the model does: no component of it is `..`, and no symbolic link
lies on the way to it (`lstat` of `p` itself does not follow a link there). -/
def Direct (fs : Fs) (p : Path) : Prop := ".." ∉ p ∧ fs.root.linkAbove p = false

instance (fs : Fs) (p : Path) : Decidable (fs.Direct p) := inferInstanceAs (Decidable (_ ∧ _))

/-- The code resolves `p`, and every path below it, as the model does: `p` is `Direct`, and no
symbolic link lies at `p` or below it, so that `open` and `stat` follow none. -/
def LinkFree (fs : Fs) (p : Path) : Prop :=
  fs.Direct p ∧ (fs.lookup p).all (fun n => !n.hasLink) = true

instance (fs : Fs) (p : Path) : Decidable (fs.LinkFree p) := inferInstanceAs (Decidable (_ ∧ _))

theorem Direct.lookup_ne_symlink {fs : Fs} {p q : Path} (h : fs.Direct p) (hq : q <+: p) (hne : q ≠ p)
    (t : String) : fs.lookup q ≠ some (.symlink t) :=
  Node.get_ne_symlink_of_linkAbove h.2 hq hne

/-- No path above, at or below a link-free path is a symbolic link. -/
theorem LinkFree.lookup_ne_symlink {fs : Fs} {p q : Path} (h : fs.LinkFree p) (hq : q <+: p ∨ p <+: q)
    (t : String) : fs.lookup q ≠ some (.symlink t) := by
  by_cases hqp : q <+: p ∧ q ≠ p
  · exact h.1.lookup_ne_symlink hqp.1 hqp.2 t
  · obtain ⟨r, rfl⟩ : p <+: q := hq.elim (fun hq => by simp_all) id
    rw [lookup, Node.get_append]
    cases hp : fs.root.get p with
    | none => simp
    | some n =>
      have hn : n.hasLink = false := by simpa [lookup, hp] using h.2
      simpa using Node.get_ne_symlink_of_hasLink hn

end Fs

end FileBackup
