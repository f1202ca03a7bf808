import FileBackup.Basic

/-!
# Path strings

The code builds every path as a string (`path + "/" + name`, `get_chunk_path`, the snapshot
directory) and hands it to the kernel, which resolves it component by component. This file
gives that resolution and the two string helpers the code shares.

* `splitPath`: the components a path string resolves through; empty components (from `//` or a
  leading or trailing `/`) and `.` are skipped, and the tree is entered at `/`;
* `SameBase`: two paths the kernel reads from one directory, both absolute or both relative to
  the working directory (the program never changes it), as the model reads every path from the
  root of its tree;
* `basenameOf` and `dirnameOf` (`basename_of`, `dirname_of`: split at the last `/`);
* `joinRel`: the text a walk appends below its start (`name/name/…`);
* `splitPath_append_slash`: `splitPath (a + "/" + b)` is `splitPath a ++ splitPath b`, so a path
  built by appending names resolves through those names (`splitPath_name`, `splitPath_joinRel`).
-/

namespace FileBackup

/-- A path as its components. -/
abbrev Path := List String

/-- The pieces of a string between its slashes, empty ones included. -/
def splitSlash : List Char → List (List Char)
  | [] => [[]]
  | c :: cs =>
    if c = '/' then [] :: splitSlash cs
    else match splitSlash cs with
      | w :: ws => (c :: w) :: ws
      | [] => [[c]]

/-- The components the kernel resolves a path string through. -/
def splitPath (s : String) : Path :=
  (splitSlash s.data).filterMap fun w => if w = [] ∨ w = ['.'] then none else some ⟨w⟩

/-- The kernel reads `a` and `b` from the same directory: both are absolute, or both are relative
to the working directory. -/
def SameBase (a b : String) : Prop := a.data.head? = some '/' ↔ b.data.head? = some '/'

instance (a b : String) : Decidable (SameBase a b) := inferInstanceAs (Decidable (_ ↔ _))

/-- A directory entry name as `readdir` returns it: not empty, no `/`, not `.`. -/
def ValidName (n : String) : Prop := n.data ≠ [] ∧ '/' ∉ n.data ∧ n.data ≠ ['.']

instance (n : String) : Decidable (ValidName n) := inferInstanceAs (Decidable (_ ∧ _ ∧ _))

/-- `basename_of`: the text after the last `/`, all of it when there is none. -/
def basenameOf (path : String) : String := ⟨(path.data.reverse.takeWhile (· != '/')).reverse⟩

/-- `dirname_of`: the text before the last `/`, `"."` when there is none. -/
def dirnameOf (path : String) : String :=
  if '/' ∈ path.data then ⟨(path.data.reverse.dropWhile (· != '/')).tail.reverse⟩ else "."

/-- `n₁/n₂/…/nₖ`: the text a walk appends below its start for the path `[n₁, …, nₖ]`. -/
def joinRel : Path → String
  | [] => ""
  | [n] => n
  | n :: p => n ++ "/" ++ joinRel p

/-! ### Resolution of built paths -/

theorem splitSlash_ne_nil : ∀ l : List Char, splitSlash l ≠ []
  | [] => by simp [splitSlash]
  | c :: cs => by
    unfold splitSlash
    split
    · simp
    · split <;> simp

theorem splitSlash_append_slash (a b : List Char) :
    splitSlash (a ++ '/' :: b) = splitSlash a ++ splitSlash b := by
  induction a with
  | nil => simp [splitSlash]
  | cons c a ih =>
    by_cases hc : c = '/'
    · simp [splitSlash, hc, ih]
    · obtain ⟨w, ws, hw⟩ := List.exists_cons_of_ne_nil (splitSlash_ne_nil a)
      simp [splitSlash, hc, ih, hw]

theorem splitSlash_of_not_mem {w : List Char} (h : '/' ∉ w) : splitSlash w = [w] := by
  induction w with
  | nil => rfl
  | cons c w ih =>
    have hc : c ≠ '/' := fun e => h (e ▸ List.mem_cons_self _ _)
    simp [splitSlash, hc, ih fun hm => h (List.mem_cons_of_mem _ hm)]

/-- A path built as `a + "/" + b` resolves through the components of `a`, then those of `b`. -/
theorem splitPath_append_slash (a b : String) :
    splitPath (a ++ "/" ++ b) = splitPath a ++ splitPath b := by
  simp only [splitPath, String.data_append, List.append_assoc]
  rw [List.singleton_append, splitSlash_append_slash, List.filterMap_append]

/-- A path that is neither above nor below `b` is above nothing below `b`. -/
theorem not_prefix_append_of_apart {a b : Path} (h₁ : ¬ a <+: b) (h₂ : ¬ b <+: a) (t : Path) :
    ¬ a <+: b ++ t := fun h =>
  (List.prefix_or_prefix_of_prefix h (List.prefix_append b t)).elim h₁ h₂

/-- A valid entry name resolves to itself. -/
theorem splitPath_name {n : String} (h : ValidName n) : splitPath n = [n] := by
  obtain ⟨h₁, h₂, h₃⟩ := h
  simp [splitPath, splitSlash_of_not_mem h₂, h₁, h₃]

/-- A relative path of valid names, joined with slashes, resolves to itself. -/
theorem splitPath_joinRel : ∀ {p : Path}, (∀ n ∈ p, ValidName n) → splitPath (joinRel p) = p
  | [], _ => rfl
  | [n], h => splitPath_name (h n (List.mem_singleton_self n))
  | n :: m :: p, h => by
    show splitPath (n ++ "/" ++ joinRel (m :: p)) = _
    rw [splitPath_append_slash, splitPath_name (h n (List.mem_cons_self _ _)),
      splitPath_joinRel fun k hk => h k (List.mem_cons_of_mem _ hk), List.singleton_append]

/-- The base name of `a + "/" + n`, for `n` without a slash, is `n`. -/
theorem basenameOf_append_slash (a n : String) (h : '/' ∉ n.data) :
    basenameOf (a ++ "/" ++ n) = n := by
  have hn : ∀ c ∈ n.data.reverse, (c != '/') = true := fun c hc => by
    have : c ≠ '/' := fun e => h (e ▸ List.mem_reverse.1 hc)
    simpa using this
  simp only [basenameOf, String.data_append, List.reverse_append, List.append_assoc]
  rw [List.takeWhile_append_of_pos hn]
  simp [show "/".data = ['/'] from rfl]

/-- The directory name of `a + "/" + n`, for `n` without a slash, is `a`. -/
theorem dirnameOf_append_slash (a n : String) (h : '/' ∉ n.data) :
    dirnameOf (a ++ "/" ++ n) = a := by
  have hn : ∀ c ∈ n.data.reverse, (c != '/') = true := fun c hc => by
    have : c ≠ '/' := fun e => h (e ▸ List.mem_reverse.1 hc)
    simpa using this
  have hs : "/".data = ['/'] := rfl
  simp only [dirnameOf, String.data_append, hs, List.mem_append, List.mem_singleton, or_true,
    true_or, ↓reduceIte, List.reverse_append, List.append_assoc]
  rw [List.dropWhile_append_of_pos hn]
  simp

end FileBackup
