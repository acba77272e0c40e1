import MerkleService.Data.FilePath

/-!
# The files of the blob store

`FileBlobStore` (`internal/store/file_blob.go`) keeps the blob of a key in the file
`filepath.Join(dir, key)`.  Here are the paths that its methods ask the file system to create, read
or remove for a key.

* `FileBlobStore.touched` : these paths.
* `touched_inside_iff` : **they are inside the directory of the store if and only if the key stays
  inside**.
-/

namespace MerkleService

namespace Store

open FilePath

structure FileBlobStore where
  dir : AbsPath
  dah : List (String × UInt64)

/-- `os.MkdirAll`: the directories on the way to a path that do not exist. -/
def mkdirAll (existing : AbsPath → Bool) (p : AbsPath) : List AbsPath :=
  ((List.range (p.names.length + 1)).map p.take).filter fun q => !existing q

namespace FileBlobStore

variable (f : FileBlobStore) (existing : AbsPath → Bool) (key : String) (height : UInt64)

/-- `FileBlobStore.path`. -/
def path : AbsPath := f.dir.join key

/-- `Set` creates the parent, unless it is the directory of the store, and the file. -/
def setPaths : List AbsPath :=
  let path := f.path key
  let parent := path.dir
  (if parent ≠ f.dir then mkdirAll existing parent else []) ++ [path]

/-- `Get` reads the file. -/
def getPaths : List AbsPath := [f.path key]

/-- `Del` removes the file. -/
def delPaths : List AbsPath := [f.path key]

/-- `SetCurrentBlockHeight` removes the file of a key whose delete-at-height is reached. -/
def prunePaths : List AbsPath :=
  (f.dah.filter fun e => e.2 ≤ height && e.1 = key).map fun e => f.path e.1

/-- What the four methods create, read or remove for a key. -/
def touched : List AbsPath :=
  f.setPaths existing key ++ f.getPaths key ++ f.delPaths key ++ f.prunePaths key height

variable {f existing key height}

/-- A directory that has to be created on the way to a file inside is inside. -/
theorem mkdirAll_inside (hdir : ∀ i, existing (f.dir.take i) = true)
    (hpath : f.dir.StrictlyContains (f.path key)) :
    ∀ p ∈ mkdirAll existing (f.path key).dir, f.dir.StrictlyContains p := by
  intro p hp
  obtain ⟨rest, hne, hnames⟩ := hpath
  obtain ⟨hp, hnew⟩ := List.mem_filter.1 hp
  obtain ⟨i, -, rfl⟩ := List.mem_map.1 hp
  have htake : ((f.path key).dir.take i).names =
      (f.dir.names ++ rest).take (min i ((f.path key).names.length - 1)) := by
    rw [← hnames]
    exact List.take_take
  rcases Nat.lt_or_ge f.dir.names.length (min i ((f.path key).names.length - 1)) with hlt | hge
  · -- Below the directory of the store.
    refine ⟨rest.take (min i ((f.path key).names.length - 1) - f.dir.names.length), ?_, ?_⟩
    · rw [ne_eq, List.take_eq_nil_iff, not_or]
      exact ⟨by omega, hne⟩
    · rw [htake, List.take_append, List.take_of_length_le hlt.le]
  · -- The directories above are there.
    have hold : (f.path key).dir.take i = f.dir.take (min i ((f.path key).names.length - 1)) := by
      refine AbsPath.ext_names ?_
      rw [htake, List.take_append_of_le_length hge]
      rfl
    rw [hold, hdir] at hnew
    cases hnew

/-- **The files of a key are inside the directory if and only if the key stays inside.**  The
directory of the store exists. -/
theorem touched_inside_iff (hdir : ∀ i, existing (f.dir.take i) = true) :
    (∀ p ∈ f.touched existing key height, f.dir.StrictlyContains p) ↔ StaysInside f.dir key := by
  rw [← strictlyContains_join_iff]
  constructor
  · intro h
    refine h _ ?_
    simp only [touched, getPaths, List.mem_append, List.mem_singleton]
    exact .inl (.inl (.inr rfl))
  · intro hpath p hp
    simp only [touched, setPaths, getPaths, delPaths, prunePaths, List.mem_append,
      List.mem_singleton, List.mem_map, List.mem_filter, Bool.and_eq_true, decide_eq_true_eq] at hp
    rcases hp with (((hp | rfl) | rfl) | rfl) | ⟨e, ⟨-, -, rfl⟩, rfl⟩
    · split_ifs at hp
      · exact mkdirAll_inside hdir hpath p hp
      · cases hp
    · exact hpath
    · exact hpath
    · exact hpath
    · exact hpath

end FileBlobStore

end Store

end MerkleService
