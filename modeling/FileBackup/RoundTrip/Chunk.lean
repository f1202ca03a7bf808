import FileBackup.ChunkStore

/-!
# Decoding one chunk

`ChunkStore::restore_file` reads each chunk's file from the path its row names, decrypts it when
the job encrypts, decompresses it unless the job's compression is `NONE`, and checks the result
against the chunk's hash. This module separates the pure part of that loop body:

* `decodeRaw` decrypts, then decompresses; it gives `none` when a library returns nothing.
* `decodeChunk` is the chunk's path (the cached one, else the row's), the file there,
  `decodeRaw`, and the two checks.
  * `decodeChunks_cons` is the loop in these terms.
  * `decodeChunks_of_forall₂` is the loop over chunks that all decode.
* `decodeRaw_encodeChunk`: under the codec's laws, a window that `store_file` wrote without a
  failed call decodes back to the window.
* `splitPath_getChunkPath`: the file of a hex hash `h` is `<storage>/chunks/<h[0..2]>/<h[2..4]>/<h>`.
  So two windows share a chunk file only when their hashes are equal (`hashHex_eq_of_getChunkPath`).
-/

namespace FileBackup

namespace ChunkStore

/-- The transform `restore_file` applies to a chunk's file: decrypt when the job encrypts, then
decompress to `size` bytes unless the compression is `NONE`; `none` when either returns nothing. -/
def decodeRaw (c : Codec) (comp : CompressionType) (encrypted : Bool) (key : Bytes32) (size : Nat)
    (raw : Bytes) : Option Bytes :=
  let data := if encrypted then c.decrypt key raw else raw
  let data' := if comp = .none then data else c.decompress comp data size
  if (encrypted ∧ data = []) ∨ (comp ≠ .none ∧ data' = []) then none else some data'

/-- One pass of `restore_file`'s loop: the file at the chunk's path, decoded, when the path is
not empty and the result has the chunk's hash. -/
def decodeChunk (c : Codec) (index : ChunkIndex) (db : Db) (fs : Fs) (comp : CompressionType)
    (encrypted : Bool) (key : Bytes32) (ci : ChunkInfo) : Option Bytes :=
  let path := index.path db ci.hash
  match fs.readFile (splitPath path) with
  | none => none
  | some raw => match decodeRaw c comp encrypted key ci.size raw with
    | none => none
    | some data => if path = "" ∨ c.hashHex data ≠ ci.hash then none else some data

/-- The loop of `restore_file`, one chunk at a time. -/
theorem decodeChunks_cons (c : Codec) (index : ChunkIndex) (db : Db) (fs : Fs)
    (comp : CompressionType) (encrypted : Bool) (key : Bytes32) (ci : ChunkInfo)
    (rest : List ChunkInfo) :
    decodeChunks c index db fs comp encrypted key (ci :: rest) =
      match decodeChunk c index db fs comp encrypted key ci with
      | none => (false, [])
      | some data => ((decodeChunks c index db fs comp encrypted key rest).1,
          data ++ (decodeChunks c index db fs comp encrypted key rest).2) := by
  simp only [decodeChunks, decodeChunk, decodeRaw]
  cases fs.readFile (splitPath (index.path db ci.hash)) with
  | none => rfl
  | some raw =>
    dsimp only
    generalize (if encrypted then c.decrypt key raw else raw) = data
    generalize (if comp = .none then data else c.decompress comp data ci.size) = data'
    by_cases hA : (encrypted = true ∧ data = []) ∨ (comp ≠ .none ∧ data' = [])
    · rw [if_pos hA, if_pos (by tauto)]
    · rw [if_neg hA]
      dsimp only
      by_cases hB : index.path db ci.hash = "" ∨ c.hashHex data' ≠ ci.hash
      · rw [if_pos hB, if_pos (by tauto)]
      · rw [if_neg hB, if_neg (by tauto)]

/-- A loop over chunks that each decode appends them all, in order. -/
theorem decodeChunks_of_forall₂ {c : Codec} {index : ChunkIndex} {db : Db} {fs : Fs}
    {comp : CompressionType} {encrypted : Bool} {key : Bytes32} :
    ∀ {cis : List ChunkInfo} {ws : List Bytes},
    List.Forall₂ (fun ci w => decodeChunk c index db fs comp encrypted key ci = some w) cis ws →
    decodeChunks c index db fs comp encrypted key cis = (true, ws.flatten)
  | [], [], .nil => rfl
  | _ :: _, _ :: _, .cons h hs => by
    rw [decodeChunks_cons, h, decodeChunks_of_forall₂ hs, List.flatten_cons]

/-- Under the codec's laws, a window encoded without a failed call decodes back to it. -/
theorem decodeRaw_encodeChunk {c : Codec} (hc : c.Lawful) {comp : CompressionType}
    {encrypt : Bool} {key : Bytes32} {w processed : Bytes} (hw : w ≠ [])
    (h : encodeChunk c comp encrypt key w = (some processed, [])) :
    decodeRaw c comp encrypt key w.length processed = some w := by
  unfold encodeChunk at h
  by_cases hn : comp = .none
  · -- stored as it is, or encrypted
    subst hn
    cases encrypt
    · simp at h; subst h; simp [decodeRaw, hw]
    · simp at h
      split_ifs at h with he
      · simp at h
      · simp only [Prod.mk.injEq, Option.some.injEq, and_true] at h
        subst h
        simp [decodeRaw, hc.decrypt_encrypt _ _ he, hw]
  · -- compressed, then maybe encrypted; a failed compression would be a failed call
    have hz : c.compress comp w ≠ [] := fun hz => by
      cases encrypt
      · simp [hn, hz] at h
      · simp [hn, hz] at h; split_ifs at h <;> simp at h
    have hd := hc.decompress_compress comp w hz
    cases encrypt
    · simp [hn, hz] at h; subst h; simp [decodeRaw, hn, hd, hw]
    · simp [hn, hz] at h
      split_ifs at h with he
      · simp at h
      · simp only [Prod.mk.injEq, Option.some.injEq, and_true] at h
        subst h
        simp [decodeRaw, hn, hc.decrypt_encrypt _ _ he, hd, hz, hw]

/-! ### Where a chunk's file lies -/

/-- A run of lowercase hex digits is a valid entry name. -/
theorem validName_of_lowerHex {l : List Char} (hl : l ≠ []) (hh : ∀ c ∈ l, IsLowerHex c) :
    ValidName ⟨l⟩ := by
  refine ⟨hl, fun hs => absurd (hh _ hs) (by decide), fun he => ?_⟩
  exact absurd (hh '.' (by rw [show l = ['.'] from he]; exact List.mem_singleton_self _)) (by decide)

/-- The chunk file of a digest's hex form, component by component. -/
theorem splitPath_getChunkPath (storageDir : String) (d : Bytes32) :
    splitPath (getChunkPath storageDir (toHex d)) = splitPath storageDir ++
      ["chunks", ⟨(toHex d).data.take 2⟩, ⟨((toHex d).data.drop 2).take 2⟩, toHex d] := by
  have hx : ∀ c ∈ (toHex d).data, IsLowerHex c := isLowerHex_hexOf d
  have hlen : (toHex d).data.length = 64 := length_hexOf d
  have e : getChunkPath storageDir (toHex d) = storageDir ++ "/" ++ ("chunks" ++ "/" ++
      (⟨(toHex d).data.take 2⟩ ++ "/" ++ (⟨((toHex d).data.drop 2).take 2⟩ ++ "/" ++ toHex d))) := by
    simp only [getChunkPath, String.append_assoc]; rfl
  have v₁ : ValidName ⟨(toHex d).data.take 2⟩ :=
    validName_of_lowerHex (by simp [List.take_eq_nil_iff, ← List.length_pos, hlen])
      fun c hc => hx c (List.mem_of_mem_take hc)
  have v₂ : ValidName ⟨((toHex d).data.drop 2).take 2⟩ :=
    validName_of_lowerHex (by simp [List.take_eq_nil_iff, ← List.length_pos, hlen])
      fun c hc => hx c (List.mem_of_mem_drop (List.mem_of_mem_take hc))
  have v₃ : ValidName (toHex d) :=
    validName_of_lowerHex (l := (toHex d).data) (by simp [← List.length_pos, hlen]) hx
  have v₀ : ValidName "chunks" := by decide
  rw [e, splitPath_append_slash, splitPath_append_slash, splitPath_append_slash,
    splitPath_append_slash, splitPath_name v₀, splitPath_name v₁, splitPath_name v₂,
    splitPath_name v₃]
  rfl

/-- Two windows whose chunk files are one have one hash, whatever codecs hashed them. -/
theorem hashHex_eq_of_getChunkPath {storageDir : String} {c c' : Codec} {x y : Bytes}
    (h : splitPath (getChunkPath storageDir (c.hashHex x)) =
      splitPath (getChunkPath storageDir (c'.hashHex y))) : c.hashHex x = c'.hashHex y := by
  unfold Codec.hashHex at h ⊢
  rw [splitPath_getChunkPath, splitPath_getChunkPath] at h
  simp at h
  exact h.2.2

/-- The chunk file of a window is never the empty path. -/
theorem getChunkPath_ne_empty (storageDir : String) (c : Codec) (x : Bytes) :
    getChunkPath storageDir (c.hashHex x) ≠ "" := fun h => by
  have := splitPath_getChunkPath storageDir (c.sha256 x)
  rw [show toHex (c.sha256 x) = c.hashHex x from rfl, h] at this
  simp [splitPath, splitSlash] at this

end ChunkStore

end FileBackup
