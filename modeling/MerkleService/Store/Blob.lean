import MerkleService.LTS.Basic
import MerkleService.Data.Hex
import MerkleService.Data.FilePath

/-!
# The blob store and the two stores over it

`NewFromConfig` (`internal/store/factory.go`) gives one `BlobStore` to the store of the subtrees and
to the store of the STUMPs.  A blob store keeps blobs under keys, and a delete-at-height for some of
the keys: `SetCurrentBlockHeight` removes the blobs whose height is reached.

`MemoryBlobStore` and `FileBlobStore` differ in what a key names: the key itself, or the file at
`filepath.Join(dir, key)`.  This is the parameter `path` of the model.  What can fail on a disk
answers in the arguments: how a write ends (`Write`), and whether a file could be removed.

* `Blobs` : the blobs and the delete-at-heights, with `set`, `get`, `del` and
  `setCurrentBlockHeight`.
* `Stores`, `Op` : the operations of `SubtreeStore` and `StumpStore`.
-/

namespace MerkleService

namespace Store

/-- How the write of a blob ends. -/
inductive Write where
  | done
  /-- With an error before anything was written. -/
  | refused
  /-- With an error after the first `n` bytes. -/
  | broken (n : ℕ)
  deriving DecidableEq, Repr

/-- What the write leaves behind, if it got so far. -/
def Write.content (data : List UInt8) : Write → Option (List UInt8)
  | done => some data
  | refused => none
  | broken n => some (data.take n)

/-- The blobs, and the delete-at-height of the keys that have one. -/
structure Blobs (κ : Type) where
  blob : κ → Option (List UInt8)
  dah : List (String × UInt64)

namespace Blobs

variable {κ : Type} [DecidableEq κ] (path : String → κ) (b : Blobs κ)

/-- `NewMemoryBlobStore`, or `NewFileBlobStore` in an empty directory. -/
def empty : Blobs κ := ⟨fun _ => none, []⟩

/-- `Set`; without the option, `deleteAtHeight` is 0. -/
def set (key : String) (data : List UInt8) (deleteAtHeight : UInt64) (w : Write) : Blobs κ where
  blob := match w.content data with
    | some content => Function.update b.blob (path key) (some content)
    | none => b.blob
  dah := if w = .done ∧ 0 < deleteAtHeight then
      (key, deleteAtHeight) :: b.dah.filter fun e => e.1 ≠ key
    else b.dah

/-- `Get`; `none` is `ErrBlobNotFound`. -/
def get (key : String) : Option (List UInt8) := b.blob (path key)

/-- `Del`; a file that could not be removed stays. -/
def del (key : String) (removed : Bool) : Blobs κ where
  blob := if removed then Function.update b.blob (path key) none else b.blob
  dah := b.dah.filter fun e => e.1 ≠ key

/-- `SetCurrentBlockHeight`; the error of a removal is ignored. -/
def setCurrentBlockHeight (height : UInt64) (removed : String → Bool) : Blobs κ where
  blob := fun k =>
    if b.dah.any fun e => e.2 ≤ height && removed e.1 && path e.1 = k then none else b.blob k
  dah := b.dah.filter fun e => !(e.2 ≤ height)

/-! ### What the operations do -/

variable {path b} {key : String} {data : List UInt8} {height : UInt64} {w : Write} {k : κ}

theorem blob_set_of_ne (hk : k ≠ path key) : (b.set path key data height w).blob k = b.blob k := by
  unfold set
  cases w.content data with
  | none => rfl
  | some content => exact Function.update_of_ne hk _ _

theorem blob_set_of_content {content : List UInt8} (hw : w.content data = some content) :
    (b.set path key data height w).blob (path key) = some content := by
  simp only [set, hw, Function.update_self]

theorem blob_set_of_refused (hw : w.content data = none) :
    (b.set path key data height w).blob = b.blob := by
  simp only [set, hw]

theorem blob_del {removed : Bool} {content : List UInt8}
    (h : (b.del path key removed).blob k = some content) : b.blob k = some content := by
  cases removed with
  | false => exact h
  | true =>
    simp only [del, ↓reduceIte] at h
    by_cases hk : k = path key
    · subst hk
      rw [Function.update_self] at h
      cases h
    · rwa [Function.update_of_ne hk] at h

theorem blob_setCurrentBlockHeight {removed : String → Bool} {content : List UInt8}
    (h : (b.setCurrentBlockHeight path height removed).blob k = some content) :
    b.blob k = some content := by
  simp only [setCurrentBlockHeight] at h
  split_ifs at h
  exact h

end Blobs

/-! ### The two stores -/

/-- The stores as they are wired: what a key names, the offsets of the delete-at-heights, and the
hash of a STUMP reference. -/
structure Stores (κ : Type) where
  path : String → κ
  dahOffset : UInt64
  stumpDAHOffset : UInt64
  sha256 : List UInt8 → List UInt8

/-- Over `MemoryBlobStore` a key names itself. -/
def Stores.memory (dahOffset stumpDAHOffset : UInt64) (sha256 : List UInt8 → List UInt8) :
    Stores String :=
  ⟨id, dahOffset, stumpDAHOffset, sha256⟩

/-- Over `FileBlobStore` a key names a file. -/
def Stores.file (dir : FilePath.AbsPath) (dahOffset stumpDAHOffset : UInt64)
    (sha256 : List UInt8 → List UInt8) : Stores FilePath.AbsPath :=
  ⟨dir.join, dahOffset, stumpDAHOffset, sha256⟩

def stumpKeyPrefix : String := "stump/"

namespace Stores

variable {κ : Type} [DecidableEq κ] (st : Stores κ) (b : Blobs κ)

/-- `StoreSubtree`. -/
def storeSubtree (id : String) (data : List UInt8) (blockHeight : UInt64) (w : Write) : Blobs κ :=
  b.set st.path id data (if 0 < blockHeight then blockHeight + st.dahOffset else 0) w

/-- `StoreSubtreeFromReader`; `w` is `refused` when the reader fails. -/
def storeSubtreeFromReader (id : String) (data : List UInt8) (blockHeight : UInt64) (w : Write) :
    Blobs κ :=
  b.set st.path id data (blockHeight + st.dahOffset) w

/-- `GetSubtree`, when the blob can be read. -/
def getSubtree (id : String) : Option (List UInt8) := b.get st.path id

def deleteSubtree (id : String) (removed : Bool) : Blobs κ := b.del st.path id removed

def stumpRefFor (data : List UInt8) : String := Hex.encode (st.sha256 data)

/-- `StumpStore.Put`. -/
def put (data : List UInt8) (blockHeight : UInt64) (w : Write) : Blobs κ :=
  b.set st.path (stumpKeyPrefix ++ st.stumpRefFor data) data
    (if 0 < blockHeight ∧ 0 < st.stumpDAHOffset then blockHeight + st.stumpDAHOffset else 0) w

/-- `StumpStore.Get`, when the blob can be read; `none` is `ErrStumpNotFound`. -/
def getStump (ref : String) : Option (List UInt8) :=
  if ref = "" then none else b.get st.path (stumpKeyPrefix ++ ref)

/-- `StumpStore.Delete`. -/
def deleteStump (ref : String) (removed : Bool) : Blobs κ :=
  if ref = "" then b else b.del st.path (stumpKeyPrefix ++ ref) removed

end Stores

/-- An operation of one of the stores that can change the blobs. -/
inductive Op where
  | storeSubtree (id : String) (data : List UInt8) (blockHeight : UInt64) (w : Write)
  | storeSubtreeFromReader (id : String) (data : List UInt8) (blockHeight : UInt64) (w : Write)
  | deleteSubtree (id : String) (removed : Bool)
  | put (data : List UInt8) (blockHeight : UInt64) (w : Write)
  | deleteStump (ref : String) (removed : Bool)
  | setCurrentBlockHeight (height : UInt64) (removed : String → Bool)

/-- The blobs after an operation. -/
def Stores.apply {κ : Type} [DecidableEq κ] (st : Stores κ) (b : Blobs κ) : Op → Blobs κ
  | .storeSubtree id data blockHeight w => st.storeSubtree b id data blockHeight w
  | .storeSubtreeFromReader id data blockHeight w =>
    st.storeSubtreeFromReader b id data blockHeight w
  | .deleteSubtree id removed => st.deleteSubtree b id removed
  | .put data blockHeight w => st.put b data blockHeight w
  | .deleteStump ref removed => st.deleteStump b ref removed
  | .setCurrentBlockHeight height removed => b.setCurrentBlockHeight st.path height removed

def Stores.machine {κ : Type} [DecidableEq κ] (st : Stores κ) : LTS (Blobs κ) Op :=
  ⟨fun b op => some (st.apply b op)⟩

end Store

end MerkleService
