import MerkleService.Store.StumpRef
import MerkleService.LTS.Linearizable

/-!
# Concurrent calls of the file store

`FileBlobStore` (`internal/store/file_blob.go`) writes the file of a blob and records its
delete-at-height in two steps: `Set` takes the mutex only after the file is written, and `Del`
releases it before the file is removed.  Here the calls of several clients run at once; a call of
the file system is one step, and so is a section under the mutex.

`MemoryBlobStore` (`internal/store/memory_blob.go`) holds the mutex during the whole call, so that
its calls happen one after the other.

* `memory` : the memory store, as a machine that answers calls.
* `system dir` : the file store at `dir`, with the calls that are under way.
* `join_inj` : **different keys name different files**, if they are ids of subtrees or keys of
  STUMPs.
* `State.Permitted` : the step does not interfere with a call between its two steps.
-/

namespace MerkleService

namespace Store

open FilePath

namespace Blobs

variable {κ : Type} [DecidableEq κ] (path : String → κ) (b : Blobs κ) (key : String)

/-! ### The steps of a call -/

/-- `os.WriteFile`. -/
def write (data : List UInt8) : Blobs κ :=
  { b with blob := Function.update b.blob (path key) (some data) }

/-- `f.dah[key] = o.deleteAtHeight`. -/
def record (deleteAtHeight : UInt64) : Blobs κ :=
  { b with dah := (key, deleteAtHeight) :: b.dah.filter fun e => e.1 ≠ key }

/-- `delete(f.dah, key)`. -/
def forget : Blobs κ := { b with dah := b.dah.filter fun e => e.1 ≠ key }

/-- `os.Remove`. -/
def remove : Blobs κ := { b with blob := Function.update b.blob (path key) none }

variable {path b key}

omit [DecidableEq κ] in
theorem mem_record {deleteAtHeight : UInt64} {e : String × UInt64} :
    e ∈ (b.record key deleteAtHeight).dah ↔
      e = (key, deleteAtHeight) ∨ e ∈ b.dah ∧ e.1 ≠ key := by
  simp [record]

omit [DecidableEq κ] in
theorem mem_record_self {d d' : UInt64} : (key, d') ∈ (b.record key d).dah ↔ d' = d := by
  simp [record]

omit [DecidableEq κ] in
theorem mem_record_of_ne {k : String} (hk : k ≠ key) {d d' : UInt64} :
    (k, d') ∈ (b.record key d).dah ↔ (k, d') ∈ b.dah := by
  simp [record, hk]

omit [DecidableEq κ] in
theorem mem_forget {e : String × UInt64} :
    e ∈ (b.forget key).dah ↔ e ∈ b.dah ∧ e.1 ≠ key := by
  simp [forget]

theorem blob_write (data : List UInt8) (k : κ) :
    (b.write path key data).blob k = if k = path key then some data else b.blob k :=
  Function.update_apply _ _ _ _

theorem blob_remove (k : κ) :
    (b.remove path key).blob k = if k = path key then none else b.blob k :=
  Function.update_apply _ _ _ _

theorem set_done (data : List UInt8) (deleteAtHeight : UInt64) :
    b.set path key data deleteAtHeight .done =
      if 0 < deleteAtHeight then (b.write path key data).record key deleteAtHeight
      else b.write path key data := by
  by_cases h : 0 < deleteAtHeight
  · simp [set, write, record, Write.content, h]
  · simp [set, write, Write.content, h]

theorem del_true : b.del path key true = (b.forget key).remove path key := by
  simp only [del, forget, remove, ↓reduceIte]

/-- The height of a key of the blob is reached. -/
def Reaches (path : String → κ) (b : Blobs κ) (height : UInt64) (k : κ) : Prop :=
  ∃ e ∈ b.dah, e.2 ≤ height ∧ path e.1 = k

theorem blob_of_reaches {height : UInt64} {k : κ} (h : Reaches path b height k) :
    (b.setCurrentBlockHeight path height fun _ => true).blob k = none := by
  obtain ⟨e, he, hle, hk⟩ := h
  exact if_pos (List.any_eq_true.2 ⟨e, he, by simp [hle, hk]⟩)

theorem blob_of_not_reaches {height : UInt64} {k : κ} (h : ¬ Reaches path b height k) :
    (b.setCurrentBlockHeight path height fun _ => true).blob k = b.blob k := by
  refine if_neg fun hany => h ?_
  obtain ⟨e, he, hcond⟩ := List.any_eq_true.1 hany
  simp only [Bool.and_true, Bool.and_eq_true, decide_eq_true_eq] at hcond
  exact ⟨e, he, hcond⟩

theorem mem_dah_setCurrentBlockHeight {height : UInt64} {removed : String → Bool}
    {e : String × UInt64} :
    e ∈ (b.setCurrentBlockHeight path height removed).dah ↔ e ∈ b.dah ∧ height < e.2 := by
  simp [setCurrentBlockHeight]

end Blobs

namespace Concurrent

/-! ### The memory store -/

inductive Call where
  | set (key : String) (data : List UInt8) (deleteAtHeight : UInt64)
  | get (key : String)
  | del (key : String)
  | setCurrentBlockHeight (height : UInt64)
  deriving DecidableEq

inductive Answer where
  /-- No error; `SetCurrentBlockHeight` returns nothing. -/
  | ok
  /-- The blob; `none` is `ErrBlobNotFound`. -/
  | blob (data : Option (List UInt8))
  deriving DecidableEq

/-- `MemoryBlobStore`. -/
def memory : Mealy (Blobs String) Call Answer where
  step
    | b, .set key data deleteAtHeight => (b.set id key data deleteAtHeight .done, .ok)
    | b, .get key => (b, .blob (b.get id key))
    | b, .del key => (b.del id key true, .ok)
    | b, .setCurrentBlockHeight height => (b.setCurrentBlockHeight id height fun _ => true, .ok)

theorem step_set (a : Blobs String) (key : String) (data : List UInt8) (d : UInt64) :
    (memory.step a (.set key data d)).1 =
      if 0 < d then (a.write id key data).record key d else a.write id key data :=
  Blobs.set_done data d

theorem step_del (a : Blobs String) (key : String) :
    (memory.step a (.del key)).1 = (a.forget key).remove id key :=
  Blobs.del_true

/-! ### The file store -/

/-- How far a call has come. -/
inductive Progress where
  | invoked (call : Call)
  /-- `Set` has created the parent of the file. -/
  | parented (key : String) (data : List UInt8) (deleteAtHeight : UInt64)
  /-- `Set` has written the file and has a height to record; `n` writes came before. -/
  | written (key : String) (deleteAtHeight : UInt64) (n : ℕ)
  /-- `Del` has taken these heights out, and has a file to remove. -/
  | forgotten (key : String) (taken : List (String × UInt64))
  | finished (answer : Answer)
  | returned
  deriving DecidableEq

/-- The files and heights, the calls, the number of the writes, and what the clients have seen. -/
structure State where
  blobs : Blobs AbsPath
  calls : List Progress
  writes : ℕ
  history : List (Event Call Answer)

/-- `NewFileBlobStore` in an empty directory. -/
def State.init : State := ⟨.empty, [], 0, []⟩

/-- A call begins, takes its next step, or returns. -/
inductive Label where
  | invoke (call : Call)
  | step (i : ℕ)
  | ret (i : ℕ)
  deriving DecidableEq

namespace State

variable (dir : AbsPath) (s : State)

/-- `Set` writes the file. -/
def write (i : ℕ) (key : String) (data : List UInt8) (deleteAtHeight : UInt64) : State where
  blobs := s.blobs.write dir.join key data
  calls := s.calls.set i
    (if 0 < deleteAtHeight then .written key deleteAtHeight s.writes else .finished .ok)
  writes := s.writes + 1
  history := s.history

/-- The next step of call `i`. -/
def advance (i : ℕ) : Progress → Option State
  | .invoked (.set key data deleteAtHeight) =>
    if (dir.join key).dir ≠ dir then
      some { s with calls := s.calls.set i (.parented key data deleteAtHeight) }
    else some (s.write dir i key data deleteAtHeight)
  | .parented key data deleteAtHeight => some (s.write dir i key data deleteAtHeight)
  | .written key deleteAtHeight _ => some { s with
      blobs := s.blobs.record key deleteAtHeight
      calls := s.calls.set i (.finished .ok) }
  | .invoked (.get key) => some { s with
      calls := s.calls.set i (.finished (.blob (s.blobs.get dir.join key))) }
  | .invoked (.del key) => some { s with
      blobs := s.blobs.forget key
      calls := s.calls.set i (.forgotten key (s.blobs.dah.filter fun e => e.1 = key)) }
  | .forgotten key _ => some { s with
      blobs := s.blobs.remove dir.join key
      calls := s.calls.set i (.finished .ok) }
  | .invoked (.setCurrentBlockHeight height) => some { s with
      blobs := s.blobs.setCurrentBlockHeight dir.join height fun _ => true
      calls := s.calls.set i (.finished .ok) }
  | .finished _ => none
  | .returned => none

def step : Label → Option State
  | .invoke call => some { s with
      calls := s.calls ++ [.invoked call]
      history := s.history ++ [.invoked s.calls.length call] }
  | .step i => s.calls[i]?.bind (s.advance dir i)
  | .ret i =>
    match s.calls[i]? with
    | some (.finished answer) => some { s with
        calls := s.calls.set i .returned
        history := s.history ++ [.returned i answer] }
    | _ => none

end State

/-- The file store at `dir`. -/
def system (dir : AbsPath) : LTS State Label := ⟨State.step dir⟩

/-! ### Keys -/

/-- The id of a subtree, or the key of a STUMP. -/
def IsKey (key : String) : Prop :=
  Hex.IsDigits key ∨ ∃ ref, Hex.IsDigits ref ∧ key = stumpKeyPrefix ++ ref

def Call.Keyed : Call → Prop
  | set key _ _ => IsKey key
  | get key => IsKey key
  | del key => IsKey key
  | setCurrentBlockHeight _ => True

def Label.Keyed : Label → Prop
  | invoke call => call.Keyed
  | _ => True

theorem names_join_of_isDigits (dir : AbsPath) {key : String} (h : Hex.IsDigits key) :
    (dir.join key).names = dir.names ++ [key.toList].filter fun c => c ≠ [] := by
  have hcomponents : components key = [key.toList] :=
    List.splitOn_eq_singleton (h.notMem (by decide))
  change (components key).foldl push dir.names = _
  rw [hcomponents]
  exact foldl_push_eq (by simpa using h.notMem (by decide)) dir.names

theorem names_join_of_ref (dir : AbsPath) {ref : String} (h : Hex.IsDigits ref) :
    (dir.join (stumpKeyPrefix ++ ref)).names =
      dir.names ++ "stump".toList :: [ref.toList].filter fun c => c ≠ [] := by
  have hdot : '.' ∉ ref.toList := h.notMem (by decide)
  exact names_join_stump dir (fun heq => hdot (by simp [heq])) (fun heq => hdot (by simp [heq]))
    (h.notMem (by decide))

theorem join_ne_stumpKey (dir : AbsPath) {key ref : String} (hkey : Hex.IsDigits key)
    (href : Hex.IsDigits ref) : dir.join key ≠ dir.join (stumpKeyPrefix ++ ref) := by
  intro h
  have hnames := congrArg AbsPath.names h
  rw [names_join_of_isDigits dir hkey, names_join_of_ref dir href, List.append_right_inj]
    at hnames
  have hmem : "stump".toList ∈ [key.toList].filter fun c => c ≠ [] := by
    rw [hnames]
    exact List.mem_cons_self
  have heq : "stump".toList = key.toList := List.mem_singleton.1 (List.mem_of_mem_filter hmem)
  exact hkey.notMem (c := 's') (by decide) (heq ▸ by decide)

/-- **Different keys name different files.** -/
theorem join_inj (dir : AbsPath) {key key' : String} (h : IsKey key) (h' : IsKey key') :
    dir.join key = dir.join key' ↔ key = key' := by
  refine ⟨fun heq => ?_, congrArg dir.join⟩
  have hnames := congrArg AbsPath.names heq
  rcases h with h | ⟨ref, h, rfl⟩
  · rcases h' with h' | ⟨ref', h', rfl⟩
    · rw [names_join_of_isDigits dir h, names_join_of_isDigits dir h', List.append_right_inj]
        at hnames
      exact eq_of_filter_singleton hnames
    · exact absurd heq (join_ne_stumpKey dir h h')
  · rcases h' with h' | ⟨ref', h', rfl⟩
    · exact absurd heq.symm (join_ne_stumpKey dir h' h)
    · rw [names_join_of_ref dir h, names_join_of_ref dir h', List.append_right_inj,
        List.cons_inj_right] at hnames
      rw [eq_of_filter_singleton hnames]

/-! ### The condition -/

/-- A `Set` of the key has a height to record. -/
def Waits (calls : List Progress) (key : String) : Prop :=
  ∃ (i : ℕ) (d : UInt64) (n : ℕ), calls[i]? = some (.written key d n)

/-- Of the `Set`s of the key that have a height to record, the one that wrote last has this. -/
def Latest (calls : List Progress) (key : String) (deleteAtHeight : UInt64) : Prop :=
  ∃ (i n : ℕ), calls[i]? = some (.written key deleteAtHeight n) ∧
    ∀ (j : ℕ) (d : UInt64) (m : ℕ), calls[j]? = some (.written key d m) → m ≤ n

/-- A `Del` has taken the height out, and nothing else has happened to the heights of the key. -/
def Taken (b : Blobs AbsPath) (calls : List Progress) (key : String) (deleteAtHeight : UInt64) :
    Prop :=
  ¬ Waits calls key ∧ (∀ d, (key, d) ∉ b.dah) ∧
    ∃ (i : ℕ) (taken : List (String × UInt64)), calls[i]? = some (.forgotten key taken) ∧
      (key, deleteAtHeight) ∈ taken

/-- The step does not interfere with a call that is between two of its steps. -/
def Permits (dir : AbsPath) (s : State) : Progress → Prop
  -- A `Set` records its height: one that wrote before and is still to record has the same height.
  | .written key deleteAtHeight n =>
    ∀ (j : ℕ) (d : UInt64) (m : ℕ), s.calls[j]? = some (.written key d m) → m < n →
      d = deleteAtHeight
  -- A `Del` removes the file: no height of the key is recorded or still to be recorded.
  | .forgotten key _ => ¬ Waits s.calls key ∧ ∀ d, (key, d) ∉ s.blobs.dah
  -- `SetCurrentBlockHeight` reaches no recorded height of a key for which another height is still
  -- to be recorded; nor that height, nor one that a `Del` has taken out of a file that is there.
  | .invoked (.setCurrentBlockHeight height) =>
    (∀ key d, (key, d) ∈ s.blobs.dah → Waits s.calls key → height < d) ∧
      ∀ key d, Latest s.calls key d ∨ Taken s.blobs s.calls key d →
        s.blobs.blob (dir.join key) ≠ none → height < d
  | _ => True

def State.Permitted (dir : AbsPath) (s : State) : Label → Prop
  | .step i => ∀ p, s.calls[i]? = some p → Permits dir s p
  | _ => True

end Concurrent

end Store

end MerkleService
