import FileBackup.RoundTrip.Store

/-!
# Restoring what a backup recorded

`RestoreEngine::restore_job` makes the destination, then for each manifest of the job makes the
target's directory and calls `ChunkStore::restore_file`. From a sound chunk store whose manifests
record the files of a well-formed tree, into a fresh destination apart from the store, it
restores every file of the tree byte for byte at its place below the destination
(`restoreJob_recorded`):

* `Sound.decodeChunks`: the chunks of a recorded manifest decode to the file's bytes;
* `restoreFile_of_decodes`: `restore_file` then writes them and its digest check passes;
* `Laid`: the destination holds directories only on the way to the tree's files, and files only
  at their places; the loop keeps it (`Laid.mkdirP`, `restoreStep_recorded`), so each target's
  directory can be made and each target written.
-/

namespace FileBackup

/-! ### Paths below the destination -/

theorem splitPath_append_joinRel (a : String) {p : Path} (hv : ∀ n ∈ p, ValidName n) :
    splitPath (a ++ "/" ++ joinRel p) = splitPath a ++ p := by
  rw [splitPath_append_slash, splitPath_joinRel hv]

/-- The directory of `a/p` is `a` followed by all but the last component of `p`. -/
theorem splitPath_dirnameOf_joinRel : ∀ {p : Path}, p ≠ [] → (∀ n ∈ p, ValidName n) →
    ∀ a : String, splitPath (dirnameOf (a ++ "/" ++ joinRel p)) = splitPath a ++ p.dropLast
  | [], h, _, _ => absurd rfl h
  | [n], _, hv, a => by
    rw [show joinRel [n] = n from rfl, dirnameOf_append_slash a n (hv n (by simp)).2.1]
    simp
  | n :: m :: p, _, hv, a => by
    have e : a ++ "/" ++ joinRel (n :: m :: p) = a ++ "/" ++ n ++ "/" ++ joinRel (m :: p) := by
      simp only [joinRel, String.append_assoc]
    rw [e, splitPath_dirnameOf_joinRel (List.cons_ne_nil m p)
      (fun k hk => hv k (List.mem_cons_of_mem n hk)), splitPath_append_slash,
      splitPath_name (hv n (List.mem_cons_self n _))]
    simp

/-- Two files of a well-formed tree lie one above the other only when they are the same file. -/
theorem Node.eq_of_prefix_of_mem_filesOf {es : List (String × Node)} (hwf : Node.WfOf es)
    {x y : Path × Nat} (hx : x ∈ Node.filesOf es) (hy : y ∈ Node.filesOf es) (h : x.1 <+: y.1) :
    x = y := by
  have gy := Node.get_of_mem_filesOf es hwf y hy
  obtain ⟨t, ht⟩ := h
  rw [← ht, Node.get_append, Node.get_of_mem_filesOf es hwf x hx, Option.some_bind] at gy
  cases t with
  | nil =>
    simp only [Node.get, Option.some.injEq, Node.file.injEq] at gy
    exact Prod.ext (by simpa using ht) gy
  | cons c t => cases gy

/-! ### One file -/

namespace ChunkStore

variable {c : Codec} {storageDir : String} {comp : CompressionType} {encrypt : Bool}
  {key : Bytes32} {W : List Bytes} {index : ChunkIndex} {db : Db} {fs : Fs}

theorem Sound.decodeChunks_of_forall₂ (h : Sound c storageDir comp encrypt key W db fs)
    (hidx : index.InStore storageDir) : ∀ {cs : List ChunkInfo} {ws : List Bytes},
    List.Forall₂ (fun ci w => ci.hash = c.hashHex w ∧ ci.size = w.length) cs ws →
    (∀ w ∈ ws, w ∈ W ∧ db.chunkExists (c.hashHex w) = true) →
    decodeChunks c index db fs comp encrypt key cs = (true, ws.flatten)
  | [], [], .nil, _ => rfl
  | _ :: _, w :: _, .cons hw hs, hws => by
    rw [decodeChunks_cons, h.decodeChunk hidx (hws w (List.mem_cons_self _ _)).1
      (hws w (List.mem_cons_self _ _)).2 hw.1 hw.2,
      h.decodeChunks_of_forall₂ hidx hs fun w' hw' => hws w' (List.mem_cons_of_mem _ hw'),
      List.flatten_cons]

/-- The chunks of a manifest recorded from `b` decode to `b` from a sound store that has a row
for each of its windows, through any cache of the store. -/
theorem Sound.decodeChunks (h : Sound c storageDir comp encrypt key W db fs)
    (hidx : index.InStore storageDir) {m : FileManifest} {p : Path} {b : Bytes}
    (hm : Recorded c m p b)
    (hW : ∀ w ∈ windows b, w ∈ W) (hcov : db.Covers c b) :
    decodeChunks c index db fs comp encrypt key m.chunks = (true, b) := by
  rw [h.decodeChunks_of_forall₂ hidx (forall₂_of_layout hm.chunks)
    fun w hw => ⟨hW w hw, hcov w hw⟩]
  rw [windows, flatten_readChunks _ _ le_rfl]

/-- A sound store for a job that does not encrypt is sound under any key. -/
theorem Sound.rekey (h : Sound c storageDir comp false key W db fs) (key' : Bytes32) :
    Sound c storageDir comp false key' W db fs :=
  ⟨h.owned, fun w hw hx => h.decodes w hw hx⟩

/-- `restore_file` of a manifest whose chunks decode to bytes with the manifest's digest, into a
target it can open: it writes the bytes there and reports success. -/
theorem restoreFile_of_decodes {m : FileManifest} {target : String} {fs₂ : Fs} {b : Bytes}
    (h₂ : (fs.mkdirPath (dirnameOf target)).writeFile (splitPath target) [] = some fs₂)
    (hd : decodeChunks c index db fs₂ comp encrypt key m.chunks = (true, b))
    (hh : m.fileHash = toHex (c.sha256 b)) :
    ∃ fs₃, fs₂.writeFile (splitPath target) b = some fs₃ ∧
      restoreFile c index db fs m target comp encrypt key = (true, fs₃) := by
  obtain ⟨i, hi, -⟩ := Fs.readFile_eq_some.1 (Fs.readFile_writeFile h₂)
  obtain ⟨fs₃, h₃⟩ := Fs.exists_writeFile (.inl ⟨i, hi⟩) b
  refine ⟨fs₃, h₃, ?_⟩
  simp only [restoreFile, h₂, hd, h₃, Option.getD_some, hashFile, Fs.readFile_writeFile h₃, hh,
    beq_self_eq_true, Bool.and_self]

end ChunkStore

/-! ### The destination -/

namespace Fs

/-- The destination `d` as the restore loop leaves it for the files `F` of a tree: its files are
the only links to their inodes, every entry on the way to it is a directory, and below it there
are directories only where no file of `F` lies, and files only where one does. -/
structure Laid (d : Path) (F : List (Path × Nat)) (fs : Fs) : Prop where
  owned : fs.Owned d
  above : ∀ t n, t <+: d → fs.lookup t = some n → ∃ es, n = .dir es
  shape : ∀ r n, fs.lookup (d ++ r) = some n →
    ((∃ es, n = .dir es) ∧ ∀ y ∈ F, y.1 ≠ r) ∨ ((∃ i, n = .file i) ∧ ∃ y ∈ F, y.1 = r)

section Laid

variable {d : Path} {F : List (Path × Nat)} {fs fs' : Fs} {x : Path × Nat}

theorem eq_nil_of_append_prefix_self {r : Path} (h : d ++ r <+: d) : r = [] :=
  List.eq_nil_of_length_eq_zero (by have := h.length_le; rw [List.length_append] at this; omega)

/-- `mkdir_p` of the destination, fresh and on a path of directories, lays it out empty. -/
theorem Fresh.laid (h : fs.Fresh d) (hb : fs.InodesBelow) (hne : ∀ y ∈ F, y.1 ≠ []) :
    Laid d F (fs.mkdirP [] d) := by
  have hbelow : ∀ r n, fs.lookup (d ++ r) ≠ some n := fun r n hr => by
    obtain ⟨_, hd⟩ := Node.get_of_prefix hr (List.prefix_append d r)
    rw [← lookup, h.absent] at hd; cases hd
  refine ⟨⟨fun p i hp => ?_, fun p q i ⟨r, hr⟩ hp _ => ?_⟩, fun t n ht hn => ?_, fun r n hn => ?_⟩
  · simpa using hb p i ((lookup_mkdirP_file fs [] d).1 hp)
  · exact absurd ((lookup_mkdirP_file fs [] d).1 (hr ▸ hp)) (hbelow r _)
  · rcases lookup_mkdirP_cases hn with hn | ⟨hd, -⟩
    · exact h.dirs t n ht hn
    · exact hd
  · rcases lookup_mkdirP_cases hn with hn | ⟨hd, hr⟩
    · exact absurd hn (hbelow r n)
    · obtain rfl := eq_nil_of_append_prefix_self (by simpa using hr)
      exact .inl ⟨hd, fun y hy => hne y hy⟩

/-- A target can be written once its directory is made. -/
theorem Laid.exists_writeFile (h : Laid d F fs) (hx : x ∈ F) (hxne : x.1 ≠ [])
    (hdir : ∃ es, fs.lookup (d ++ x.1.dropLast) = some (.dir es)) (data : Bytes) :
    ∃ fs', fs.writeFile (d ++ x.1) data = some fs' := by
  refine Fs.exists_writeFile ?_ data
  cases hn : fs.lookup (d ++ x.1) with
  | none =>
    refine .inr ⟨rfl, by simp [hxne], ?_⟩
    rwa [List.dropLast_append_of_ne_nil _ hxne]
  | some n =>
    rcases h.shape _ n hn with ⟨-, hy⟩ | ⟨⟨i, rfl⟩, -⟩
    · exact absurd rfl (hy x hx)
    · exact .inl ⟨i, rfl⟩

section Tree

variable (hF : ∀ x ∈ F, ∀ y ∈ F, x.1 <+: y.1 → x = y) (hne : ∀ y ∈ F, y.1 ≠ [])
include hF hne

/-- No file of a tree lies strictly above another. -/
theorem ne_of_prefix_dropLast (hx : x ∈ F) {r : Path} (hr : r <+: x.1.dropLast) :
    ∀ y ∈ F, y.1 ≠ r := by
  rintro y hy rfl
  obtain rfl := hF y hy x hx (hr.trans (List.dropLast_prefix _))
  have := hr.length_le
  simp only [List.length_dropLast] at this
  exact hne y hy (List.eq_nil_of_length_eq_zero (by omega))

/-- `mkdir_p` of a target's directory keeps the layout, and makes the directory. -/
theorem Laid.mkdirP (h : Laid d F fs) (hx : x ∈ F) :
    Laid d F (fs.mkdirP [] (d ++ x.1.dropLast)) ∧
      ∃ es, (fs.mkdirP [] (d ++ x.1.dropLast)).lookup (d ++ x.1.dropLast) = some (.dir es) := by
  refine ⟨⟨(writesOutside_mkdirP d fs [] _ h.owned).1, fun t n ht hn => ?_, fun r n hn => ?_⟩, ?_⟩
  · rcases lookup_mkdirP_cases hn with hn | ⟨hd, -⟩
    · exact h.above t n ht hn
    · exact hd
  · rcases lookup_mkdirP_cases hn with hn | ⟨hd, hr⟩
    · exact h.shape r n hn
    · exact .inl ⟨hd, ne_of_prefix_dropLast hF hne hx (by simpa using hr)⟩
  · refine mkdirP_dir (by simp [lookup, Node.get]) fun t n ht hn => ?_
    rw [List.nil_append] at hn
    rcases List.prefix_or_prefix_of_prefix ht (List.prefix_append d x.1.dropLast) with ht' | ⟨r, rfl⟩
    · exact h.above t n ht' hn
    · rcases h.shape r n hn with ⟨hd, -⟩ | ⟨-, y, hy, rfl⟩
      · exact hd
      · exact absurd rfl (ne_of_prefix_dropLast hF hne hx (by simpa using ht) y hy)

/-- A write at a file's place keeps the layout. -/
theorem Laid.writeFile (h : Laid d F fs) (hx : x ∈ F) {data : Bytes}
    (hw : fs.writeFile (d ++ x.1) data = some fs') : Laid d F fs' := by
  obtain ⟨j, hj, -⟩ := readFile_eq_some.1 (readFile_writeFile hw)
  have hxne := hne x hx
  refine ⟨h.owned.writeFile hw, fun t n ht hn => ?_, fun r n hn => ?_⟩
  · rcases onlyAt_writeFile hw t n hn with hn | ⟨hd, -⟩ | hxt
    · exact h.above t n ht hn
    · exact hd
    · exact absurd (eq_nil_of_append_prefix_self (hxt.trans ht)) hxne
  · rcases onlyAt_writeFile hw _ n hn with hn | ⟨hd, hr⟩ | ⟨t, ht⟩
    · exact h.shape r n hn
    · rw [List.prefix_append_right_inj] at hr
      rw [← List.dropLast_append_getLast hxne] at hr
      rcases List.prefix_concat_iff.1 hr with rfl | hr
      · rw [List.dropLast_append_getLast hxne, hj] at hn
        obtain ⟨es, rfl⟩ := hd
        cases hn
      · exact .inl ⟨hd, ne_of_prefix_dropLast hF hne hx hr⟩
    · rw [List.append_assoc] at ht
      obtain rfl := List.append_cancel_left ht
      rw [← List.append_assoc, lookup, Node.get_append, ← lookup, hj, Option.some_bind] at hn
      cases t with
      | nil => exact .inr ⟨⟨j, (Option.some.inj hn).symm⟩, x, hx, (List.append_nil _).symm⟩
      | cons c t => cases hn

end Tree

end Laid

end Fs

/-! ### The loop of `restore_job` -/

namespace RestoreEngine

open ChunkStore

section Loop

variable {c : Codec} {index : ChunkIndex} {db : Db} {J : BackupJob} {key : Bytes32}
  {dest S : String} {W : List Bytes} {F : List (Path × Nat)} {B : Nat → Bytes}
  (hidx : index.InStore S)
  (hF : ∀ x ∈ F, ∀ y ∈ F, x.1 <+: y.1 → x = y) (hv : ∀ y ∈ F, y.1 ≠ [] ∧ ∀ n ∈ y.1, ValidName n)
  (hd₁ : ¬ splitPath S <+: splitPath dest) (hd₂ : ¬ splitPath dest <+: splitPath S)
include hidx hF hv hd₁ hd₂

/-- One manifest of `restore_job`'s loop, recorded from the file `x` of the tree: the file is
restored at its place and counted, the store stays sound, the layout is kept, and every other
file below the destination keeps its bytes. -/
theorem restoreStep_recorded {acc : RestoreResult × Fs} {m : FileManifest} {x : Path × Nat}
    (hx : x ∈ F) (hm : Recorded c m x.1 (B x.2)) (hW : ∀ w ∈ windows (B x.2), w ∈ W)
    (hcov : db.Covers c (B x.2)) (hs : Sound c S J.compression J.encrypt key W db acc.2)
    (hl : Fs.Laid (splitPath dest) F acc.2) :
    let r := restoreStep c index db J key dest acc m
    r.1.filesRestored = acc.1.filesRestored + 1 ∧
      Sound c S J.compression J.encrypt key W db r.2 ∧ Fs.Laid (splitPath dest) F r.2 ∧
      r.2.readFile (splitPath dest ++ x.1) = some (B x.2) ∧
      ∀ y ∈ F, y.1 ≠ x.1 → ∀ b, acc.2.readFile (splitPath dest ++ y.1) = some b →
        r.2.readFile (splitPath dest ++ y.1) = some b := by
  obtain ⟨hxne, hxv⟩ := hv x hx
  have hne : ∀ y ∈ F, y.1 ≠ [] := fun y hy => (hv y hy).1
  have hT : splitPath (dest ++ "/" ++ m.filePath) = splitPath dest ++ x.1 := by
    rw [hm.path, splitPath_append_joinRel _ hxv]
  have hmk : ∀ fs : Fs, fs.mkdirPath (dirnameOf (dest ++ "/" ++ m.filePath)) =
      fs.mkdirP [] (splitPath dest ++ x.1.dropLast) := fun fs => by
    rw [Fs.mkdirPath, hm.path, splitPath_dirnameOf_joinRel hxne hxv]
  -- the target's directory, made by `restore_job` and again by `restore_file`, then the target
  obtain ⟨hl₁, -⟩ := hl.mkdirP hF hne hx
  obtain ⟨hl₁', hdir⟩ := hl₁.mkdirP hF hne hx
  obtain ⟨fs₂, h₂⟩ := hl₁'.exists_writeFile hx hxne hdir []
  have hapart : ¬ splitPath S <+: splitPath dest ++ x.1 := not_prefix_append_of_apart hd₁ hd₂ x.1
  have hs₂ : Sound c S J.compression J.encrypt key W db fs₂ :=
    hs.of_writesOutside (((Fs.writesOutside_mkdirP _ _ _ _).trans
      (Fs.writesOutside_mkdirP _ _ _ _)).trans (Fs.writesOutside_writeFile h₂ hapart))
  obtain ⟨fs₃, h₃, hr⟩ := @restoreFile_of_decodes c J.compression J.encrypt key index db
    (acc.2.mkdirP [] (splitPath dest ++ x.1.dropLast)) m (dest ++ "/" ++ m.filePath) fs₂ (B x.2)
    (by rw [hmk, hT]; exact h₂)
    (hs₂.decodeChunks hidx hm hW hcov) hm.hash
  rw [hT] at h₃
  have hl₂ := hl₁'.writeFile hF hne hx h₂
  simp only [restoreStep, hmk, hr, ↓reduceIte]
  refine ⟨trivial, hs₂.of_writesOutside (Fs.writesOutside_writeFile h₃ hapart),
    hl₂.writeFile hF hne hx h₃, Fs.readFile_writeFile h₃, fun y hy hyx b hb => ?_⟩
  have hne' : splitPath dest ++ y.1 ≠ splitPath dest ++ x.1 := fun e => hyx (List.append_cancel_left e)
  refine hl₂.owned.readFile_writeFile_of_ne h₃ (List.prefix_append _ _) hne' ?_
  refine hl₁'.owned.readFile_writeFile_of_ne h₂ (List.prefix_append _ _) hne' ?_
  simpa using hb

/-- The loop of `restore_job` over manifests recorded from files of the tree: it counts each,
restores each at its place, and leaves every other file below the destination as it was. -/
theorem foldl_restoreStep_recorded (hW : ∀ x ∈ F, ∀ w ∈ windows (B x.2), w ∈ W)
    (hcov : ∀ x ∈ F, db.Covers c (B x.2)) :
    ∀ (ms : List FileManifest) (xs : List (Path × Nat)) (acc : RestoreResult × Fs),
    List.Forall₂ (fun m x => Recorded c m x.1 (B x.2)) ms xs → (∀ x ∈ xs, x ∈ F) →
    Sound c S J.compression J.encrypt key W db acc.2 → Fs.Laid (splitPath dest) F acc.2 →
    let r := ms.foldl (restoreStep c index db J key dest) acc
    r.1.filesRestored = acc.1.filesRestored + ms.length ∧
      (∀ x ∈ xs, r.2.readFile (splitPath dest ++ x.1) = some (B x.2)) ∧
      ∀ y ∈ F, (∀ x ∈ xs, y.1 ≠ x.1) → ∀ b, acc.2.readFile (splitPath dest ++ y.1) = some b →
        r.2.readFile (splitPath dest ++ y.1) = some b
  | [], [], _, .nil, _, _, _ => ⟨rfl, nofun, fun _ _ _ _ hb => hb⟩
  | m :: ms, x :: xs, acc, .cons hm hms, hxs, hs, hl => by
    have hx := hxs x (List.mem_cons_self x xs)
    obtain ⟨hn, hs', hl', hrx, hkeep⟩ :=
      restoreStep_recorded hidx hF hv hd₁ hd₂ hx hm (hW x hx) (hcov x hx) hs hl
    obtain ⟨hn', hrest, hframe⟩ := foldl_restoreStep_recorded hW hcov ms xs _ hms
      (fun y hy => hxs y (List.mem_cons_of_mem x hy)) hs' hl'
    refine ⟨by rw [List.foldl_cons, hn', hn, List.length_cons]; omega, fun y hy => ?_,
      fun y hy hyx b hb => hframe y hy (fun x' hx' => hyx x' (List.mem_cons_of_mem x hx'))
        b (hkeep y hy (hyx x (List.mem_cons_self x xs)) b hb)⟩
    rcases List.mem_cons.1 hy with rfl | hy
    · by_cases hrep : ∃ x' ∈ xs, x'.1 = y.1
      · -- restored again later: the same file
        obtain ⟨x', hx', he⟩ := hrep
        obtain rfl := hF x' (hxs x' (List.mem_cons_of_mem _ hx')) y hx (he ▸ List.prefix_refl _)
        exact hrest x' hx'
      · exact hframe y hx (fun x' hx' e => hrep ⟨x', hx', e.symm⟩) _ hrx
    · exact hrest y hy

end Loop

/-- `restore_job` of a completed job whose manifests record the files of a well-formed tree `es`
(with bytes `B`), from a store that is sound for the job's settings and key and has a row for
each of their windows, into a fresh destination apart from the store, through any cache of the
store: it succeeds, counts every file, and leaves each file's bytes at its place below the
destination. -/
theorem restoreJob_recorded {c : Codec} {index : ChunkIndex} {db : Db} {fs : Fs} {jobId : Int}
    {dest S : String}
    {J : BackupJob} {key : Bytes32} {W : List Bytes} {es : List (String × Node)} {B : Nat → Bytes}
    (hidx : index.InStore S) (hrow : db.getJob jobId = some J) (hstatus : J.status = .completed)
    (hkey : J.encrypt = true → db.getEncryptionKey jobId = keyToHex key) (hwf : Node.WfOf es)
    (hms : List.Forall₂ (fun m x => Recorded c m x.1 (B x.2)) (db.getFileManifests jobId)
      (Node.filesOf es))
    (hW : ∀ x ∈ Node.filesOf es, ∀ w ∈ windows (B x.2), w ∈ W)
    (hcov : ∀ x ∈ Node.filesOf es, db.Covers c (B x.2))
    (hs : Sound c S J.compression J.encrypt key W db fs) (hfresh : fs.Fresh (splitPath dest))
    (hd₁ : ¬ splitPath S <+: splitPath dest) (hd₂ : ¬ splitPath dest <+: splitPath S) :
    let r := restoreJob c index db fs jobId dest
    r.1.success = true ∧ r.1.filesRestored = (Node.filesOf es).length ∧
      ∀ x ∈ Node.filesOf es, r.2.readFile (splitPath dest ++ x.1) = some (B x.2) := by
  have hF : ∀ x ∈ Node.filesOf es, ∀ y ∈ Node.filesOf es, x.1 <+: y.1 → x = y :=
    fun _ hx _ hy h => Node.eq_of_prefix_of_mem_filesOf hwf hx hy h
  have hv : ∀ y ∈ Node.filesOf es, y.1 ≠ [] ∧ ∀ n ∈ y.1, ValidName n :=
    fun y hy => ⟨Node.ne_nil_of_mem_filesOf hy, Node.validName_of_mem_filesOf es hwf y hy⟩
  -- the key `restore_job` reads is the job's
  have hkne : ¬ (J.encrypt = true ∧ db.getEncryptionKey jobId = "") := fun ⟨he, h⟩ => by
    have h64 : (keyToHex key).length = 64 := length_hexOf key
    rw [← hkey he, h] at h64
    cases h64
  have hs' : Sound c S J.compression J.encrypt
      (if J.encrypt then keyFromHex (db.getEncryptionKey jobId) else Bytes32.zero) W db fs := by
    cases he : J.encrypt
    · rw [he] at hs; exact hs.rekey _
    · rw [if_pos rfl, hkey he, keyFromHex_keyToHex]; rwa [he] at hs
  simp only [restoreJob, hrow, hstatus, ne_eq, not_true_eq_false, ↓reduceIte, hkne, Fs.mkdirPath]
  split
  · rename_i hempty
    rw [List.isEmpty_iff.1 hempty] at hms
    rw [List.forall₂_nil_left_iff.1 hms]
    exact ⟨rfl, rfl, nofun⟩
  · rename_i hempty
    obtain ⟨hn, hrest, -⟩ := foldl_restoreStep_recorded hidx hF hv hd₁ hd₂ hW hcov _ _
      ({}, fs.mkdirP [] (splitPath dest)) hms (fun _ => id)
      (hs'.of_writesOutside (Fs.writesOutside_mkdirP _ _ _ _))
      (hfresh.laid hs.owned.below fun y hy => (hv y hy).1)
    refine ⟨?_, ?_, hrest⟩
    · simp only [decide_eq_true_eq]
      rw [hn]
      exact Nat.zero_add _ ▸ List.length_pos.2 fun h => hempty (by simp [h])
    · rw [hn, hms.length_eq]; exact Nat.zero_add _

end RestoreEngine

end FileBackup
