import FileBackup.Fs

/-!
# Snapshots (`backup/snapshot.h`)

`SnapshotManager::create_snapshot` makes `snap_<job_id>_<created_at>` under its base directory
and mirrors the source into it, each regular file as a hard link; `list_files` walks the mirror.

* `SnapshotInfo`, `snapshotDir`;
* `copyFile` (the fallback for a single-file source), `snapshotDirectory`, `createSnapshot`;
* `listFilesRecursive`, `listFiles`, `removeSnapshot`;
* `listEntries_eq`: the walk lists `base/joinRel rel` for each regular file `rel` of the tree, in
  `readdir` order.

`snapshot_directory` is one step here: it places `Node.mirror` of the source at the new
directory, which is what its walk builds when nothing else writes the two trees meanwhile and the
snapshot directory is not below the source; links are on one filesystem, so `link` succeeds
whenever its target is new.
-/

namespace FileBackup

/-- `SnapshotInfo`; its `snapshot_id` is read by nothing and left out. -/
structure SnapshotInfo where
  jobId : Int
  snapshotPath : String := ""
  createdAt : Nat := 0
  isConsistent : Bool := false
  deriving DecidableEq, Repr

/-- `base_dir_ + "/snap_" + job_id + "_" + created_at`. -/
def snapshotDir (baseDir : String) (jobId : Int) (createdAt : Nat) : String :=
  baseDir ++ "/snap_" ++ toString jobId ++ "_" ++ toString createdAt

/-- `copy_file(src, dst)`: `dst` is opened (created or truncated) whatever `src` is; the copy
fails when either does not open, and also when `src` is empty, since inserting an empty stream
buffer sets `failbit`. -/
def copyFile (fs : Fs) (src dst : Path) : Bool × Fs :=
  match fs.writeFile dst [] with
  | none => (false, fs)
  | some fs' => match fs'.readFile src with
    | none => (false, fs')
    | some data => match fs'.writeFile dst data with
      | some fs'' => (data != [], fs'')
      | none => (false, fs')

/-- `snapshot_directory(src, dst)` for a source directory with entries `es`: `dst` becomes their
mirror. -/
def snapshotDirectory (fs : Fs) (es : List (String × Node)) (dst : Path) : Bool × Fs :=
  match dst.getLast? with
  | some name => match fs.root.put dst.dropLast name (.dir (Node.mirrorOf es)) with
    | some r => (true, { fs with root := r })
    | none => (false, fs)
  | none => (false, fs)

/-- `create_snapshot(job_id, source_path)` at clock `now`: make the directory, then mirror a
source directory into it, or copy a source file; a source that does not exist gives an
inconsistent snapshot. -/
def createSnapshot (fs : Fs) (baseDir : String) (jobId : Int) (sourcePath : String) (now : Nat) :
    SnapshotInfo × Fs :=
  let snapDir := snapshotDir baseDir jobId now
  let fs := fs.mkdirPath snapDir
  let info : SnapshotInfo := { jobId, snapshotPath := snapDir, createdAt := now }
  match fs.lookup (splitPath sourcePath) with
  | none => (info, fs)
  | some (.dir es) =>
    let r := snapshotDirectory fs es (splitPath snapDir)
    ({ info with isConsistent := r.1 }, r.2)
  | some _ =>
    let r := copyFile fs (splitPath sourcePath) (splitPath (snapDir ++ "/" ++ basenameOf sourcePath))
    ({ info with isConsistent := r.1 }, r.2)

/-- Whether `lstat` reports a regular file. -/
def Node.isFile : Node → Bool
  | .file _ => true
  | _ => false

mutual
/-- `list_files_recursive(path, files)` on the entry at `path`: nothing unless it opens as a
directory. -/
def listFilesRecursive (path : String) : Node → List String
  | .dir es => listEntries path es
  | _ => []

/-- The entries of a directory at `path`: `path + "/" + name` for a regular file, the walk of a
subdirectory, nothing for anything else. -/
def listEntries (path : String) : List (String × Node) → List String
  | [] => []
  | (name, n) :: es =>
    (if n.isFile then [path ++ "/" ++ name] else listFilesRecursive (path ++ "/" ++ name) n) ++
      listEntries path es
end

/-- `list_files(info)`. -/
def listFiles (fs : Fs) (info : SnapshotInfo) : List String :=
  if info.snapshotPath = "" then []
  else match fs.lookup (splitPath info.snapshotPath) with
    | some n => listFilesRecursive info.snapshotPath n
    | none => []

/-- `remove_snapshot(info)`; its result is not looked at. -/
def removeSnapshot (fs : Fs) (info : SnapshotInfo) : Fs :=
  if info.snapshotPath = "" then fs else fs.removeRecursive (splitPath info.snapshotPath)

/-! ### What the walk lists -/

mutual
/-- The walk of a directory lists each regular file below it, as its path from the walk's start. -/
theorem listFilesRecursive_eq : ∀ (path : String) (n : Node), n.isFile = false →
    listFilesRecursive path n = n.files.map fun x => path ++ "/" ++ joinRel x.1
  | path, .dir es, _ => by
    simp only [listFilesRecursive, Node.files]; exact listEntries_eq path es
  | _, .file _, h => by cases h
  | _, .symlink _, _ => rfl
  | _, .special, _ => rfl

theorem listEntries_eq : ∀ (path : String) (es : List (String × Node)),
    listEntries path es = (Node.filesOf es).map fun x => path ++ "/" ++ joinRel x.1
  | _, [] => rfl
  | path, (name, n) :: es => by
    simp only [listEntries, Node.filesOf, List.map_append, List.map_map, listEntries_eq path es]
    congr 1
    cases hn : n.isFile
    · simp only [Bool.false_eq_true, ↓reduceIte, listFilesRecursive_eq _ n hn]
      refine List.map_congr_left fun x hx => ?_
      cases n with
      | dir es' =>
        obtain ⟨a, rel, hrel⟩ := List.exists_cons_of_ne_nil
          (Node.ne_nil_of_mem_filesOf (show x ∈ Node.filesOf es' from hx))
        simp [Function.comp, hrel, joinRel, String.append_assoc]
      | file => simp [Node.isFile] at hn
      | _ => simp [Node.files] at hx
    · cases n <;> simp_all [Node.isFile, Node.files, joinRel]
end

/-! ### A consistent snapshot of a directory -/

theorem snapshotDir_ne_empty (baseDir : String) (jobId : Int) (now : Nat) :
    snapshotDir baseDir jobId now ≠ "" := fun h => by
  have hl := congrArg String.length h
  have h₆ : "/snap_".length = 6 := rfl
  have h₀ : "".length = 0 := rfl
  simp only [snapshotDir, String.length_append, h₆, h₀] at hl
  omega

/-- The walk of a snapshot that holds the mirror of `es` lists each file of `es` below it. -/
theorem listFiles_mirror {fs : Fs} {info : SnapshotInfo} {es : List (String × Node)}
    (hne : info.snapshotPath ≠ "")
    (h : fs.lookup (splitPath info.snapshotPath) = some (.dir (Node.mirrorOf es))) :
    listFiles fs info = (Node.filesOf es).map fun x => info.snapshotPath ++ "/" ++ joinRel x.1 := by
  simp only [listFiles, hne, ↓reduceIte, h, listFilesRecursive, listEntries_eq, Node.filesOf_mirrorOf]

/-- The path of a listed file resolves through the snapshot's path, then the file's path in the
source. -/
theorem splitPath_listed (snapDir : String) {es : List (String × Node)} (hwf : Node.WfOf es)
    {x : Path × Nat} (hx : x ∈ Node.filesOf es) :
    splitPath (snapDir ++ "/" ++ joinRel x.1) = splitPath snapDir ++ x.1 := by
  rw [splitPath_append_slash, splitPath_joinRel (Node.validName_of_mem_filesOf es hwf x hx)]

/-- `snapshot_directory` succeeds only by placing the mirror at `dst`. -/
theorem snapshotDirectory_of_ok {fs : Fs} {es : List (String × Node)} {dst : Path}
    (h : (snapshotDirectory fs es dst).1 = true) :
    ∃ q name r, dst = q ++ [name] ∧ fs.root.put q name (.dir (Node.mirrorOf es)) = some r ∧
      (snapshotDirectory fs es dst).2 = { fs with root := r } := by
  unfold snapshotDirectory at h ⊢
  split at h
  · rename_i name hname
    split at h
    · rename_i r hr
      refine ⟨dst.dropLast, name, r, (List.dropLast_append_getLast? name hname).symm, hr, ?_⟩
      simp only [hname, hr]
    · cases h
  · cases h

/-- A snapshot of a source directory that is not above the snapshot directory mirrors it. -/
theorem createSnapshot_of_dir {fs : Fs} {baseDir sourcePath : String} {jobId : Int} {now : Nat}
    {es : List (String × Node)} (hsrc : fs.lookup (splitPath sourcePath) = some (.dir es))
    (hsep : ¬ splitPath sourcePath <+: splitPath (snapshotDir baseDir jobId now)) :
    createSnapshot fs baseDir jobId sourcePath now =
      let r := snapshotDirectory (fs.mkdirPath (snapshotDir baseDir jobId now)) es
        (splitPath (snapshotDir baseDir jobId now))
      ({ jobId, snapshotPath := snapshotDir baseDir jobId now, createdAt := now,
          isConsistent := r.1 }, r.2) := by
  have h : (fs.mkdirPath (snapshotDir baseDir jobId now)).lookup (splitPath sourcePath) =
      some (.dir es) := Fs.lookup_mkdirP hsrc (by simpa using hsep)
  simp only [createSnapshot, h]

/-- Where a consistent snapshot of a source directory `es` puts the mirror: the snapshot
directory's path, split at its last component. -/
theorem createSnapshot_dir_put {fs fs' : Fs} {baseDir sourcePath : String} {jobId : Int}
    {now : Nat} {info : SnapshotInfo} {es : List (String × Node)}
    (hsrc : fs.lookup (splitPath sourcePath) = some (.dir es))
    (hsep : ¬ splitPath sourcePath <+: splitPath (snapshotDir baseDir jobId now))
    (h : createSnapshot fs baseDir jobId sourcePath now = (info, fs'))
    (hc : info.isConsistent = true) :
    info.snapshotPath = snapshotDir baseDir jobId now ∧ ∃ q name r,
      splitPath (snapshotDir baseDir jobId now) = q ++ [name] ∧
      (fs.mkdirPath (snapshotDir baseDir jobId now)).root.put q name (.dir (Node.mirrorOf es)) =
        some r ∧ fs' = { fs.mkdirPath (snapshotDir baseDir jobId now) with root := r } := by
  rw [createSnapshot_of_dir hsrc hsep, Prod.mk.injEq] at h
  obtain ⟨rfl, rfl⟩ := h
  obtain ⟨q, name, r, hq, hr, he⟩ := snapshotDirectory_of_ok hc
  exact ⟨rfl, q, name, r, hq, hr, he⟩

/-- A consistent snapshot of a well-formed source directory `es` keeps the inodes, and its walk
lists each file of `es`, in order, as a path below the snapshot directory that links to the
file's inode. -/
theorem createSnapshot_dir {fs fs' : Fs} {baseDir sourcePath : String} {jobId : Int} {now : Nat}
    {info : SnapshotInfo} {es : List (String × Node)}
    (hsrc : fs.lookup (splitPath sourcePath) = some (.dir es)) (hwf : Node.WfOf es)
    (hsep : ¬ splitPath sourcePath <+: splitPath (snapshotDir baseDir jobId now))
    (h : createSnapshot fs baseDir jobId sourcePath now = (info, fs'))
    (hc : info.isConsistent = true) :
    fs'.inodes = fs.inodes ∧
      listFiles fs' info =
        (Node.filesOf es).map (fun x => snapshotDir baseDir jobId now ++ "/" ++ joinRel x.1) ∧
      ∀ x ∈ Node.filesOf es,
        fs'.lookup (splitPath (snapshotDir baseDir jobId now) ++ x.1) = some (.file x.2) := by
  obtain ⟨hpath, q, name, r, hq, hr, rfl⟩ := createSnapshot_dir_put hsrc hsep h hc
  have hsnap : ({ fs.mkdirPath (snapshotDir baseDir jobId now) with root := r } : Fs).lookup
      (splitPath (snapshotDir baseDir jobId now)) = some (.dir (Node.mirrorOf es)) := by
    rw [hq]; exact Node.get_put_self hr
  refine ⟨by simp [Fs.mkdirPath], ?_, fun x hx => ?_⟩
  · rw [← hpath] at hsnap ⊢
    exact listFiles_mirror (hpath ▸ snapshotDir_ne_empty baseDir jobId now) hsnap
  · rw [Fs.lookup, Node.get_append]
    rw [Fs.lookup] at hsnap
    rw [hsnap, Option.some_bind]
    refine Node.get_of_mem_filesOf _ (Node.wfOf_mirrorOf es hwf) x ?_
    rwa [Node.filesOf_mirrorOf]

/-- A regular file after a consistent snapshot of a source directory was there before, or lies
below the snapshot directory and links the inode of the source file at the same place. -/
theorem createSnapshot_file {fs fs' : Fs} {baseDir sourcePath : String} {jobId : Int} {now : Nat}
    {info : SnapshotInfo} {es : List (String × Node)}
    (hsrc : fs.lookup (splitPath sourcePath) = some (.dir es)) (hwf : Node.WfOf es)
    (hsep : ¬ splitPath sourcePath <+: splitPath (snapshotDir baseDir jobId now))
    (h : createSnapshot fs baseDir jobId sourcePath now = (info, fs'))
    (hc : info.isConsistent = true) {p : Path} {i : Nat} (hp : fs'.lookup p = some (.file i)) :
    fs.lookup p = some (.file i) ∨ ∃ t, p = splitPath (snapshotDir baseDir jobId now) ++ t ∧
      fs.lookup (splitPath sourcePath ++ t) = some (.file i) := by
  obtain ⟨-, q, name, r, hq, hr, rfl⟩ := createSnapshot_dir_put hsrc hsep h hc
  have hsrc₁ : (fs.mkdirPath (snapshotDir baseDir jobId now)).lookup (splitPath sourcePath) =
      some (.dir es) := Fs.lookup_mkdirP hsrc (by simpa using hsep)
  rcases Node.get_put_file hr hp with hp | ⟨t, rfl, ht⟩
  · exact .inl ((Fs.lookup_mkdirP_file _ _ _).1 hp)
  · have hm := Node.mem_files_of_get ht
    simp only [Node.files, Node.filesOf_mirrorOf] at hm
    refine .inr ⟨t, by rw [hq], (Fs.lookup_mkdirP_file fs [] (splitPath (snapshotDir baseDir jobId now))).1
      (show (fs.mkdirPath (snapshotDir baseDir jobId now)).lookup _ = _ from ?_)⟩
    rw [Fs.lookup, Node.get_append, ← Fs.lookup, hsrc₁, Option.some_bind]
    exact Node.get_of_mem_filesOf es hwf _ hm

/-- A consistent snapshot, placed and taken apart from `s`, keeps the files below `s` apart
from the others. -/
theorem Fs.Confined.createSnapshot {s : Path} {fs fs' : Fs} {baseDir sourcePath : String}
    {jobId : Int} {now : Nat} {info : SnapshotInfo} {es : List (String × Node)}
    (hconf : fs.Confined s) (hsrc : fs.lookup (splitPath sourcePath) = some (.dir es))
    (hwf : Node.WfOf es) (hsep : ¬ splitPath sourcePath <+: splitPath (snapshotDir baseDir jobId now))
    (hs₁ : ¬ s <+: splitPath sourcePath) (hs₂ : ¬ splitPath sourcePath <+: s)
    (hs₃ : ¬ s <+: splitPath (snapshotDir baseDir jobId now))
    (hs₄ : ¬ splitPath (snapshotDir baseDir jobId now) <+: s)
    (h : FileBackup.createSnapshot fs baseDir jobId sourcePath now = (info, fs'))
    (hc : info.isConsistent = true) : fs'.Confined s := by
  have hno : fs'.nextIno = fs.nextIno := by
    obtain ⟨-, q, name, r, -, -, rfl⟩ := createSnapshot_dir_put hsrc hsep h hc
    simp [Fs.mkdirPath]
  have hfile := fun {p} {i} hp => createSnapshot_file hsrc hwf hsep h hc (p := p) (i := i) hp
  refine ⟨fun p i hp => ?_, fun p p' i hsp hsp' hp hp' => ?_⟩
  · rw [hno]
    rcases hfile hp with hp | ⟨t, -, hp⟩
    · exact hconf.below p i hp
    · exact hconf.below _ i hp
  · rcases hfile hp with hp | ⟨t, rfl, -⟩
    · rcases hfile hp' with hp' | ⟨t, rfl, hq⟩
      · exact hconf.separate p p' i hsp hsp' hp hp'
      · exact hconf.separate p _ i hsp (not_prefix_append_of_apart hs₁ hs₂ t) hp hq
    · exact not_prefix_append_of_apart hs₃ hs₄ t hsp

end FileBackup
