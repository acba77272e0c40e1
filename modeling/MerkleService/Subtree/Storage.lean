import MerkleService.P2P.Relay
import MerkleService.Store.FileBlob
import MerkleService.Subtree.Processor

/-!
# Where an announced subtree is stored

The hash of an announced subtree is a text that a peer has sent.  `handleSubtreeMessage`
(`internal/p2p/client.go`) copies it to Kafka, and in the storage mode `realtime`
`Processor.handleMessage` (`internal/subtree/processor.go`) passes it to `StoreSubtree` as it is,
where it becomes the key of a blob.

* `storeCall` : the call of `StoreSubtree` that `handleMessage` makes, by `handleMessage_storeErr`.
* `announced_inside_iff` : **the files that are touched for an announcement are inside the directory
  of the blob store if and only if its hash, read as a path, stays inside**.
* `announced_outside` : an announcement with the hash `../x`.
-/

namespace MerkleService

namespace Subtree

open Kafka Store FilePath P2P

/-- The arguments of the call of `StoreSubtree` that `handleMessage` makes, if it makes one. -/
def storeCall (cfg : SubtreeConfig) (ans : Answers) (f : Fetcher)
    (decoded : Except String SubtreeMessage) : Option (String × List UInt8 × UInt64) :=
  match decoded with
  | .error _ => none
  | .ok subtreeMsg =>
    if f.contains subtreeMsg.hash then none
    else
      match ans.fetch with
      | .error _ => none
      | .ok rawData =>
        if cfg.storageMode = "realtime" then some (subtreeMsg.hash, rawData, 0) else none

/-- It is the call that `handleMessage` makes: if the store answers with an error, this is what is
handled when there is a call, and changes nothing when there is none. -/
theorem handleMessage_storeErr (sum64 : List UInt8 → UInt64) (cfg : SubtreeConfig) (ans : Answers)
    (f : Fetcher) (msg : SubtreeMessage) (err : String) :
    handleMessage sum64 cfg { ans with storeErr := some err } f (.ok msg) =
      if (storeCall cfg ans f (.ok msg)).isSome = true then
        some (handleTransientFailure cfg ans f msg)
      else handleMessage sum64 cfg { ans with storeErr := none } f (.ok msg) := by
  unfold handleMessage storeCall
  by_cases hseen : f.contains msg.hash = true
  · simp [hseen]
  · cases ans.fetch with
    | error =>
      simp only [hseen, if_false, Option.isSome_none, Bool.false_eq_true]
      rfl
    | ok rawData =>
      by_cases hmode : cfg.storageMode = "realtime"
      · simp only [hseen, hmode, Option.isSome_some, and_self, if_true, if_false,
          Bool.false_eq_true]
        rfl
      · simp only [hseen, hmode, false_and, if_false, Option.isSome_none, Bool.false_eq_true]
        rfl

/-- What is stored is what was fetched, under the hash as it was received, without a height. -/
theorem storeCall_eq {cfg : SubtreeConfig} {ans : Answers} {f : Fetcher} {msg : SubtreeMessage}
    {id : String} {data : List UInt8} {blockHeight : UInt64}
    (h : storeCall cfg ans f (.ok msg) = some (id, data, blockHeight)) :
    id = msg.hash ∧ ans.fetch = .ok data ∧ blockHeight = 0 ∧ cfg.storageMode = "realtime" := by
  unfold storeCall at h
  cases hfetch : ans.fetch with
  | error err => simp [hfetch] at h
  | ok rawData =>
    simp only [hfetch] at h
    split_ifs at h with hseen hmode
    simp only [Option.some.injEq, Prod.mk.injEq] at h
    obtain ⟨rfl, rfl, rfl⟩ := h
    exact ⟨rfl, rfl, rfl, hmode⟩

/-- **The files of an announced subtree are inside the directory of the blob store if and only if
its hash stays inside.**  The hash is arbitrary, and so is what else happens on its way; the
directory exists. -/
theorem announced_inside_iff (msg : SubtreeAnnouncement) (cfg : SubtreeConfig) (ans : Answers)
    (f : Fetcher) (id : String) (data : List UInt8) (blockHeight : UInt64)
    (hcall : storeCall cfg ans f (.ok msg.message) = some (id, data, blockHeight))
    (blobs : FileBlobStore) (existing : AbsPath → Bool)
    (hdir : ∀ i, existing (blobs.dir.take i) = true) (height : UInt64) :
    (∀ p ∈ blobs.touched existing id height, blobs.dir.StrictlyContains p) ↔
      StaysInside blobs.dir msg.hash := by
  obtain ⟨rfl, -, -, -⟩ := storeCall_eq hcall
  exact FileBlobStore.touched_inside_iff hdir

/-- A blob store in `/data/blobs`. -/
def sampleBlobs : FileBlobStore := ⟨⟨["data".toList, "blobs".toList], by decide⟩, []⟩

/-- An announcement with the given hash is stored, in a directory in which nothing else exists. -/
def sampleTouched (hash : String) : List AbsPath :=
  match storeCall ⟨"realtime", 10⟩ answersAB uncachedFetcher
    (.ok (SubtreeAnnouncement.message ⟨hash, "http://hub", "", ""⟩)) with
  | some (id, _, _) =>
    sampleBlobs.touched (fun p => p.names.isPrefixOf sampleBlobs.dir.names) id 0
  | none => []

theorem announced_inside_subdirectory :
    sampleTouched "a/../ab" ≠ [] ∧
      ∀ p ∈ sampleTouched "a/../ab", sampleBlobs.dir.StrictlyContains p := by
  refine ⟨by decide, (announced_inside_iff ⟨"a/../ab", "http://hub", "", ""⟩ ⟨"realtime", 10⟩
    answersAB uncachedFetcher "a/../ab" (List.replicate 32 0xab) 0 rfl sampleBlobs _ ?_ 0).2 ?_⟩
  · intro i
    rw [List.isPrefixOf_iff_prefix]
    exact List.take_prefix i _
  · rw [staysInside_of_ups_eq_zero _ (by decide)]
    decide

/-- The hash `../x` is stored beside the directory. -/
theorem announced_outside :
    ∃ p ∈ sampleTouched "../x", p.names = ["data".toList, "x".toList] ∧
      ¬ sampleBlobs.dir.StrictlyContains p := by
  refine ⟨⟨["data".toList, "x".toList], by decide⟩, by decide, rfl, ?_⟩
  rintro ⟨rest, -, hnames⟩
  have hsecond := congrArg (fun l : List (List Char) => l[1]?) hnames
  simp [sampleBlobs] at hsecond

end Subtree

end MerkleService
