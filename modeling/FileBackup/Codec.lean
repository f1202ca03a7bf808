import FileBackup.Basic

/-!
# The libraries of the chunk pipeline (`crypto/sha256.h`, `crypto/aes256.h`, `compression/compressor.h`)

OpenSSL's SHA-256 and AES-256-CBC and the LZ4 and ZSTD codecs are not modelled bit by bit. A
`Codec` gives them as functions, an empty result being the failure value the wrappers return,
and `Codec.Lawful` states the specifications the pipeline relies on. The code's own glue is
modelled exactly:

* `Bytes32`: `HashDigest` and `AES256::Key`, both `std::array<uint8_t, 32>`;
* `toHex` and `keyToHex` (`%02x` per byte), `keyFromHex` (`sscanf("%02x")` per pair, an all-zero
  key for a string shorter than 64 characters);
* `Compressor::compress` and `decompress`: `NONE` passes the data through, `LZ4` and `ZSTD` call
  the library;
* `hashHex`: `SHA256::to_hex(SHA256::hash(data))`, the identity of a chunk.

`AES256::encrypt` draws a fresh IV; a `Codec`'s `encrypt` is one choice of those IVs, and every
law below holds for each.
-/

namespace FileBackup

/-- `std::array<uint8_t, 32>`: a SHA-256 digest or an AES-256 key. -/
@[ext] structure Bytes32 where
  bytes : List UInt8
  length_eq : bytes.length = 32
  deriving DecidableEq

/-- The all-zero array (`Key key{}`). -/
def Bytes32.zero : Bytes32 := ⟨List.replicate 32 0, rfl⟩

/-! ### Hex -/

/-- The lowercase hex digit of `n < 16`. -/
def hexDigit (n : Nat) : Char := if n < 10 then Char.ofNat (48 + n) else Char.ofNat (87 + n)

/-- `snprintf(.., "%02x", b)`: two lowercase hex digits. -/
def byteHex (b : UInt8) : List Char := [hexDigit (b.toNat / 16), hexDigit (b.toNat % 16)]

/-- The value of a hex digit as `%x` reads it, either case. -/
def hexVal (c : Char) : Option Nat :=
  if '0' ≤ c ∧ c ≤ '9' then some (c.toNat - 48)
  else if 'a' ≤ c ∧ c ≤ 'f' then some (c.toNat - 87)
  else if 'A' ≤ c ∧ c ≤ 'F' then some (c.toNat - 55)
  else none

/-- `sscanf(p, "%02x", &byte)` on the two characters at `p`: up to two hex digits. When the first
is not a hex digit the call converts nothing and the code stores an unspecified byte, here `0`. -/
def scanByte (c₁ c₂ : Char) : UInt8 :=
  match hexVal c₁, hexVal c₂ with
  | some h, some l => UInt8.ofNat (16 * h + l)
  | some h, none => UInt8.ofNat h
  | none, _ => 0

/-- The bytes read from consecutive character pairs. -/
def scanPairs : List Char → List UInt8
  | c₁ :: c₂ :: cs => scanByte c₁ c₂ :: scanPairs cs
  | _ => []

theorem length_scanPairs : ∀ cs : List Char, (scanPairs cs).length = cs.length / 2
  | [] => rfl
  | [_] => by simp [scanPairs]
  | _ :: _ :: cs => by simp only [scanPairs, List.length_cons, length_scanPairs cs]; omega

/-- The hex text of 32 bytes. -/
def hexOf (a : Bytes32) : String := ⟨a.bytes.flatMap byteHex⟩

/-- `SHA256::to_hex`. -/
def toHex (d : Bytes32) : String := hexOf d

/-- `AES256::key_to_hex`. -/
def keyToHex (k : Bytes32) : String := hexOf k

/-- `AES256::key_from_hex`: the zero key for fewer than 64 characters, else 32 bytes from the
first 64 characters. -/
def keyFromHex (hex : String) : Bytes32 :=
  if h : hex.length < 64 then Bytes32.zero
  else ⟨scanPairs (hex.data.take 64), by
    rw [length_scanPairs, List.length_take]
    simp only [String.length] at h
    omega⟩

/-- `SHA256::from_hex`: `sscanf("%02x")` on each of the 32 character pairs of the `HashHex`.
Its `char data[65]` is zero-initialised, so a shorter text reads as padded with `NUL`s. -/
def fromHex (hex : String) : Bytes32 :=
  ⟨scanPairs ((hex.data ++ List.replicate 64 (Char.ofNat 0)).take 64), by
    rw [length_scanPairs, List.length_take, List.length_append, List.length_replicate]
    omega⟩

/-- A lowercase hex digit, `[0-9a-f]`. -/
def IsLowerHex (c : Char) : Prop := ('0' ≤ c ∧ c ≤ '9') ∨ ('a' ≤ c ∧ c ≤ 'f')

instance : DecidablePred IsLowerHex := fun _ => inferInstanceAs (Decidable (_ ∨ _))

theorem hexVal_hexDigit : ∀ n < 16, hexVal (hexDigit n) = some n := by decide

theorem isLowerHex_hexDigit : ∀ n < 16, IsLowerHex (hexDigit n) := by decide

theorem isLowerHex_hexOf (a : Bytes32) : ∀ c ∈ (hexOf a).data, IsLowerHex c := by
  intro c hc
  obtain ⟨b, -, hb⟩ := List.mem_flatMap.1 hc
  have hlt : b.toNat / 16 < 16 := by have := b.toNat_lt_size; simp only [UInt8.size] at this; omega
  rcases List.mem_pair.1 hb with rfl | rfl
  · exact isLowerHex_hexDigit _ hlt
  · exact isLowerHex_hexDigit _ (Nat.mod_lt _ (by decide))

theorem scanByte_byteHex (b : UInt8) :
    scanByte (hexDigit (b.toNat / 16)) (hexDigit (b.toNat % 16)) = b := by
  have hb := UInt8.toNat_lt_size b
  have h1 := hexVal_hexDigit (b.toNat / 16) (by simp only [UInt8.size] at hb; omega)
  have h2 := hexVal_hexDigit (b.toNat % 16) (Nat.mod_lt _ (by decide))
  simp only [scanByte, h1, h2]
  rw [Nat.div_add_mod]
  apply UInt8.eq_of_val_eq
  simp [UInt8.ofNat, UInt8.toNat, Fin.ofNat]

theorem scanPairs_flatMap_byteHex (l : List UInt8) : scanPairs (l.flatMap byteHex) = l := by
  induction l with
  | nil => rfl
  | cons b l ih =>
    rw [List.flatMap_cons]
    show scanByte _ _ :: scanPairs (l.flatMap byteHex) = b :: l
    rw [scanByte_byteHex, ih]

theorem length_flatMap_byteHex (l : List UInt8) : (l.flatMap byteHex).length = 2 * l.length := by
  induction l with
  | nil => rfl
  | cons b l ih => rw [List.flatMap_cons, List.length_append, ih]; simp [byteHex]; omega

theorem length_hexOf (a : Bytes32) : (hexOf a).length = 64 := by
  show (a.bytes.flatMap byteHex).length = 64
  rw [length_flatMap_byteHex, a.length_eq]

/-- A key survives its trip through the `encryption_keys` table. -/
theorem keyFromHex_keyToHex (k : Bytes32) : keyFromHex (keyToHex k) = k := by
  obtain ⟨l, hl⟩ := k
  have hlen : (l.flatMap byteHex).length = 64 := by rw [length_flatMap_byteHex, hl]
  unfold keyFromHex keyToHex hexOf
  rw [dif_neg (by simp [String.length, hlen])]
  simp only [Bytes32.mk.injEq, List.take_of_length_le hlen.le, scanPairs_flatMap_byteHex]

theorem fromHex_hexOf (d : Bytes32) : fromHex (hexOf d) = d := by
  have hlen : (d.bytes.flatMap byteHex).length = 64 := by rw [length_flatMap_byteHex, d.length_eq]
  ext1
  exact (congrArg scanPairs (List.take_left' hlen)).trans (scanPairs_flatMap_byteHex _)

/-! ### The library calls -/

/-- The library functions the pipeline calls. An empty result is a failure. -/
structure Codec where
  sha256 : Bytes → Bytes32
  lz4Compress : Bytes → Bytes
  lz4Decompress : Bytes → Nat → Bytes
  zstdCompress : Bytes → Bytes
  zstdDecompress : Bytes → Nat → Bytes
  encrypt : Bytes32 → Bytes → Bytes
  decrypt : Bytes32 → Bytes → Bytes

namespace Codec

variable (c : Codec)

/-- `Compressor::compress(data, type)`. -/
def compress : CompressionType → Bytes → Bytes
  | .none, data => data
  | .lz4, data => c.lz4Compress data
  | .zstd, data => c.zstdCompress data

/-- `Compressor::decompress(data, original_size, type)`. -/
def decompress : CompressionType → Bytes → Nat → Bytes
  | .none, data, _ => data
  | .lz4, data, n => c.lz4Decompress data n
  | .zstd, data, n => c.zstdDecompress data n

/-- `SHA256::to_hex(SHA256::hash(data))`. -/
def hashHex (data : Bytes) : String := toHex (c.sha256 data)

/-- The specifications of the libraries: each decompressor inverts its compressor, AES decrypt
with a key inverts encrypt with it, and decrypt fails (returns nothing) or gives other bytes on
data encrypted under another key or not encrypted at all. -/
structure Lawful : Prop where
  lz4 : ∀ x, c.lz4Compress x ≠ [] → c.lz4Decompress (c.lz4Compress x) x.length = x
  zstd : ∀ x, c.zstdCompress x ≠ [] → c.zstdDecompress (c.zstdCompress x) x.length = x
  decrypt_encrypt : ∀ k x, c.encrypt k x ≠ [] → c.decrypt k (c.encrypt k x) = x
  decrypt_other : ∀ k k' x, k ≠ k' → c.encrypt k x ≠ [] →
    c.decrypt k' (c.encrypt k x) = [] ∨ c.decrypt k' (c.encrypt k x) ≠ x
  decrypt_plain : ∀ k x, (∀ k' y, c.encrypt k' y ≠ x) → c.decrypt k x = [] ∨ c.decrypt k x ≠ x

@[simp] theorem compress_none (data : Bytes) : c.compress .none data = data := rfl

@[simp] theorem decompress_none (data : Bytes) (n : Nat) : c.decompress .none data n = data := rfl

/-- Under the laws, decompressing what compression produced gives the data back. -/
theorem Lawful.decompress_compress {c : Codec} (h : c.Lawful) (t : CompressionType) (x : Bytes)
    (hx : c.compress t x ≠ []) : c.decompress t (c.compress t x) x.length = x := by
  cases t with
  | none => rfl
  | lz4 => exact h.lz4 x hx
  | zstd => exact h.zstd x hx

/-! ### The laws are consistent -/

/-- A codec meeting every law: the compressors return their input, "encryption" prefixes the key
and decryption checks and strips it, and the digest is the first 32 bytes, zero-padded. -/
def transparent : Codec where
  sha256 d := ⟨(d ++ List.replicate 32 0).take 32, by simp⟩
  lz4Compress d := d
  lz4Decompress d _ := d
  zstdCompress d := d
  zstdDecompress d _ := d
  encrypt k x := k.bytes ++ x
  decrypt k y := if y.take 32 = k.bytes then y.drop 32 else []

theorem transparent_decrypt_encrypt (k k' : Bytes32) (x : Bytes) :
    transparent.decrypt k' (transparent.encrypt k x) = if k = k' then x else [] := by
  have hk : (k.bytes ++ x).take 32 = k.bytes := by simp [← k.length_eq]
  have hd : (k.bytes ++ x).drop 32 = x := by simp [← k.length_eq]
  by_cases h : k = k'
  · subst h; simp [transparent, hk, hd]
  · simp only [transparent, hk, h, ↓reduceIte, ite_eq_right_iff]
    exact fun e => absurd (Bytes32.ext e) h

theorem transparent_lawful : transparent.Lawful where
  lz4 _ _ := rfl
  zstd _ _ := rfl
  decrypt_encrypt k x _ := by simp [transparent_decrypt_encrypt]
  decrypt_other k k' x h _ := .inl (by simp [transparent_decrypt_encrypt, h])
  decrypt_plain k x h := .inl (by
    simp only [transparent, ite_eq_right_iff]
    intro hx
    exact absurd (show k.bytes ++ x.drop 32 = x by rw [← hx, List.take_append_drop])
      (h k (x.drop 32)))

end Codec

/-- The hex codecs invert each other: a key's hex is 64 lowercase hex digits and reads back as
the key, a digest's hex reads back as the digest, so two digests have equal `HashHex` exactly
when they are equal, and chunks share a `hash_hex` exactly when they share a SHA-256 digest. -/
theorem hexCodecs_roundTrip :
    (∀ k : Bytes32, (keyToHex k).length = 64 ∧ (∀ c ∈ (keyToHex k).data, IsLowerHex c) ∧
      keyFromHex (keyToHex k) = k) ∧
    (∀ d : Bytes32, fromHex (toHex d) = d) ∧
    (∀ d₁ d₂ : Bytes32, toHex d₁ = toHex d₂ ↔ d₁ = d₂) ∧
    (∀ (c : Codec) (x y : Bytes), c.hashHex x = c.hashHex y ↔ c.sha256 x = c.sha256 y) := by
  have inj : ∀ d₁ d₂ : Bytes32, toHex d₁ = toHex d₂ ↔ d₁ = d₂ := fun d₁ d₂ =>
    ⟨fun h => by rw [← fromHex_hexOf d₁, ← fromHex_hexOf d₂]; exact congrArg fromHex h,
      congrArg toHex⟩
  exact ⟨fun k => ⟨length_hexOf k, isLowerHex_hexOf k, keyFromHex_keyToHex k⟩, fromHex_hexOf,
    inj, fun c x y => inj _ _⟩

end FileBackup
