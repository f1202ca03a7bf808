import FileBackup.ChunkStore

/-!
# `SHA256::hash_file` (`crypto/sha256.h`)

`hash_file` opens the file, feeds it to a streaming SHA-256 through a 64 KiB buffer, and
finalises. `ChunkStore::store_file` records its hex as the file's hash and `restore_file`
recomputes it on the restored file; the rest of the model uses the one-shot `hashFile`.

* `HashStream`: `SHA256::Stream` over an abstract digest state (`EVP_DigestInit_ex`,
  `EVP_DigestUpdate`, `EVP_DigestFinal_ex`, each taken to succeed, as `Codec.sha256` is), and
  `HashStream.Lawful`: updates compose by concatenation, an empty update does nothing, and
  finalising what was fed gives `SHA256::hash`;
* `readBuffer`, `hashLoop`, `hashFileWith`: `file.read` with `gcount()` and `eof()`, the read
  loop, and `hash_file`;
* `hashLoop_eq_foldl`: past `⌊|b| / 65536⌋` iterations the loop has stopped by itself, having
  fed the buffers `windows b` in order; they are never empty and concatenate to `b`;
* `hashFileWith_eq_hashFile`: with a lawful stream `hash_file` is the one-shot `hashFile`;
* `hashFile_eq_hash`: the whole statement for one file content `b`.
-/

namespace FileBackup

/-- `SHA256::Stream`: a digest state, its initial value (`EVP_DigestInit_ex`), `update(data,
len)` (`EVP_DigestUpdate`) and `finalize()` (`EVP_DigestFinal_ex`). -/
structure HashStream where
  State : Type
  init : State
  update : State → Bytes → State
  finalize : State → Bytes32

namespace HashStream

/-- The laws of a streaming SHA-256 against the one-shot `hash` of the codec. -/
structure Lawful (st : HashStream) (c : Codec) : Prop where
  update_append : ∀ s x y, st.update (st.update s x) y = st.update s (x ++ y)
  update_nil : ∀ s, st.update s [] = s
  finalize_update : ∀ x, st.finalize (st.update st.init x) = c.sha256 x

/-- The stream that keeps the bytes fed so far and hashes them at the end. -/
def ofCodec (c : Codec) : HashStream := ⟨Bytes, [], (· ++ ·), c.sha256⟩

theorem ofCodec_lawful (c : Codec) : (ofCodec c).Lawful c :=
  ⟨fun s x y => List.append_assoc s x y, List.append_nil, fun _ => rfl⟩

/-- Under the laws, feeding buffers one after the other is feeding their concatenation. -/
theorem Lawful.foldl_update {st : HashStream} {c : Codec} (h : st.Lawful c) :
    ∀ (bufs : List Bytes) (s : st.State), bufs.foldl st.update s = st.update s bufs.flatten
  | [], s => (h.update_nil s).symm
  | b :: bufs, s => by
    rw [List.foldl_cons, h.foldl_update bufs, h.update_append, List.flatten_cons]

end HashStream

/-- The size of `hash_file`'s buffer, `uint8_t buf[65536]`. -/
def hashBufferSize : Nat := 65536

theorem hashBufferSize_eq : hashBufferSize = chunkSize := rfl

/-- `file.read(buf, sizeof(buf))` on the bytes `rest` not yet read: the bytes it reads
(`gcount()`), and whether it reached the end of the file, which sets `eofbit` and `failbit`
together. A read that fills the buffer sets neither, even when it ends at the end of the file. -/
def readBuffer (rest : Bytes) : Bytes × Bool :=
  (rest.take hashBufferSize, decide (rest.length < hashBufferSize))

/-- `while (file.read(buf, sizeof(buf)) || file.gcount() > 0)
{ stream.update(buf, file.gcount()); if (file.eof()) break; }`, for at most `fuel` iterations,
with the stream's `update`. -/
def hashLoop {σ : Type} (update : σ → Bytes → σ) : Nat → Bytes → σ → σ
  | 0, _, s => s
  | fuel + 1, rest, s =>
    let (buf, eof) := readBuffer rest
    if !eof || 0 < buf.length then
      if eof then update s buf
      else hashLoop update fuel (rest.drop hashBufferSize) (update s buf)
    else s

/-- `SHA256::hash_file(path)`: the zero digest when the file does not open, else the stream
finalised after the read loop, run with more iterations than it can take. -/
def hashFileWith (st : HashStream) (fs : Fs) (p : Path) : Bytes32 :=
  match fs.readFile p with
  | some data => st.finalize (hashLoop st.update (data.length + 1) data st.init)
  | none => Bytes32.zero

/-- One iteration: an empty rest reads nothing and leaves the loop; a short read is fed and
breaks; a full read is fed and the loop goes on. -/
theorem hashLoop_succ {σ : Type} (update : σ → Bytes → σ) (fuel : Nat) (rest : Bytes) (s : σ) :
    hashLoop update (fuel + 1) rest s =
      if rest = [] then s
      else if rest.length < hashBufferSize then update s rest
      else hashLoop update fuel (rest.drop hashBufferSize) (update s (rest.take hashBufferSize)) := by
  rcases rest with _ | ⟨x, xs⟩
  · rfl
  · by_cases h : (x :: xs).length < hashBufferSize
    · simp [hashLoop, readBuffer, h, List.take_of_length_le h.le]
    · simp [hashLoop, readBuffer, hashBufferSize] at h ⊢
      rw [if_neg (by omega), if_neg (by omega)]

theorem readChunks_nil : ∀ n, readChunks n [] = []
  | 0 => rfl
  | _ + 1 => rfl

/-- Past `⌊|data| / 65536⌋` iterations the loop has stopped by itself: it has fed exactly the
`CHUNK_SIZE` reads of the data, in order. -/
theorem hashLoop_eq_foldl {σ : Type} (update : σ → Bytes → σ) :
    ∀ (n m : Nat) (data : Bytes) (s : σ), data.length / hashBufferSize < n → data.length ≤ m →
      hashLoop update n data s = (readChunks m data).foldl update s
  | 0, _, _, _, hn, _ => absurd hn (Nat.not_lt_zero _)
  | n + 1, m, data, s, hn, hm => by
    rw [hashLoop_succ]
    split_ifs with h0 hshort
    · rw [h0, readChunks_nil, List.foldl_nil]
    · obtain ⟨m, rfl⟩ : ∃ m', m = m' + 1 := ⟨m - 1, by have := List.length_pos.2 h0; omega⟩
      rw [readChunks, if_neg h0, List.drop_of_length_le (hashBufferSize_eq ▸ hshort.le),
        readChunks_nil, List.take_of_length_le (hashBufferSize_eq ▸ hshort.le)]
      rfl
    · obtain ⟨m, rfl⟩ : ∃ m', m = m' + 1 := ⟨m - 1, by have := List.length_pos.2 h0; omega⟩
      rw [readChunks, if_neg h0, List.foldl_cons, ← hashBufferSize_eq]
      simp only [hashBufferSize] at hn hshort
      exact hashLoop_eq_foldl update n m _ _ (by simp only [List.length_drop, hashBufferSize]; omega)
        (by simp only [List.length_drop, hashBufferSize]; omega)

/-- With a lawful stream, `hash_file` is the one-shot `hashFile` of the chunk store. -/
theorem hashFileWith_eq_hashFile {c : Codec} {st : HashStream} (hst : st.Lawful c) (fs : Fs)
    (p : Path) : hashFileWith st fs p = hashFile c fs p := by
  unfold hashFileWith hashFile
  cases fs.readFile p with
  | none => rfl
  | some data =>
    dsimp only
    rw [hashLoop_eq_foldl st.update (data.length + 1) data.length data st.init
      (Nat.lt_succ_of_le (Nat.div_le_self _ _)) le_rfl, hst.foldl_update,
      flatten_readChunks _ _ le_rfl, hst.finalize_update]

/-- `hash_file` on a file with content `b`: past `⌊|b| / 65536⌋` iterations the read loop has
stopped, having fed the buffers `windows b` in order, none of them empty and each at most
65536 bytes, which concatenate to `b` (also when `|b|` is `0` or a multiple of `65536`), and the
digest is `SHA256::hash(b)`. -/
theorem hashFile_eq_hash (c : Codec) (st : HashStream) (hst : st.Lawful c) (b : Bytes) :
    (∀ {σ : Type} (update : σ → Bytes → σ) (s : σ) (n : Nat), b.length / hashBufferSize < n →
      hashLoop update n b s = (windows b).foldl update s) ∧
    (windows b).flatten = b ∧ (∀ w ∈ windows b, w ≠ [] ∧ w.length ≤ hashBufferSize) ∧
    ∀ fs p, fs.readFile p = some b → hashFileWith st fs p = c.sha256 b :=
  ⟨fun update s n hn => hashLoop_eq_foldl update n _ b s hn le_rfl,
    flatten_readChunks _ _ le_rfl, fun _ hw => mem_readChunks hw,
    fun fs p hp => by rw [hashFileWith_eq_hashFile hst, hashFile, hp]⟩

/-- A file of `65537` bytes: the loop reads a full buffer, then one byte. -/
theorem hashFile_eq_hash_two_reads :
    (HashStream.ofCodec Codec.transparent).Lawful Codec.transparent ∧
    ((∀ {σ : Type} (update : σ → Bytes → σ) (s : σ) (n : Nat),
        (List.replicate 65537 7 : Bytes).length / hashBufferSize < n →
        hashLoop update n (List.replicate 65537 7) s =
          (windows (List.replicate 65537 7)).foldl update s) ∧
      (windows (List.replicate 65537 7)).flatten = List.replicate 65537 7 ∧
      (∀ w ∈ windows (List.replicate 65537 7), w ≠ [] ∧ w.length ≤ hashBufferSize) ∧
      ∀ fs p, fs.readFile p = some (List.replicate 65537 7) →
        hashFileWith (HashStream.ofCodec Codec.transparent) fs p =
          Codec.transparent.sha256 (List.replicate 65537 7)) :=
  ⟨HashStream.ofCodec_lawful _,
    hashFile_eq_hash _ _ (HashStream.ofCodec_lawful _) (List.replicate 65537 7)⟩

end FileBackup
