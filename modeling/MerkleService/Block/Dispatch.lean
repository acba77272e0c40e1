import MerkleService.Block.SubtreeWorker
import MerkleService.Cache.DedupCache

/-!
# The dispatch of the work of a block

`Processor.handleMessage` (`internal/block/processor.go`) takes the announcement of a block, fetches
the hashes of its subtrees, initialises the counter of the block to their number, publishes one work
message for each and puts the hash of the block into the dedup cache.  A message that cannot be
encoded or published is only logged.

* `Dispatched` : one message was accepted for each subtree, as many as the counter counts.
* `dispatched_iff` : **a block that is acknowledged and marked was dispatched, if and only if all
  its work messages were encoded and published** (or the handler does not come to the mark).
* `lost_work` : the second of two messages is not published.
-/

namespace MerkleService

namespace BlockProcessor

open Cache Kafka

/-- The part of `BlockMetadata` that is used. -/
structure BlockMetadata where
  height : UInt32
  subtrees : List String

structure Processor where
  dedupCache : Option DedupCache
  /-- The counters of the blocks, if there is a counter store. -/
  subtreeCounter : Option (String → Option ℤ)
  /-- The height that the subtree store was told. -/
  currentBlockHeight : UInt64

/-- What `handleMessage` meets: DataHub, the counter store, and encoding and publishing by the index
of the subtree. -/
structure Answers where
  metadata : Except String BlockMetadata
  initErr : Option String
  encodeErr : ℕ → Option String
  publishErr : ℕ → Option String

structure Result where
  processor : Processor
  /-- The work messages that the producer has accepted. -/
  published : List SubtreeWorkMessage
  err : Option String

def Processor.contains (p : Processor) (hash : String) : Bool := p.dedupCache.any (·.contains hash)

/-- `subtreeCounter.Init`, if there is a counter store. -/
def Processor.initCounter (p : Processor) (hash : String) (count : ℕ) : Processor :=
  { p with subtreeCounter := p.subtreeCounter.map fun counters =>
      Function.update counters hash (some (count : ℤ)) }

def workMessage (blockMsg : BlockMessage) (metadata : BlockMetadata) (stHash : String) (i : ℕ) :
    SubtreeWorkMessage where
  blockHash := blockMsg.hash
  blockHeight := metadata.height.toNat
  subtreeHash := stHash
  subtreeIndex := i
  dataHubURL := blockMsg.dataHubURL

/-- The message of the subtree with index `i` is encoded and published. -/
def Answers.accepts (ans : Answers) (i : ℕ) : Bool :=
  (ans.encodeErr i).isNone && (ans.publishErr i).isNone

/-- The loop over the subtrees. -/
def publishWork (ans : Answers) (blockMsg : BlockMessage) (metadata : BlockMetadata) :
    List SubtreeWorkMessage :=
  (metadata.subtrees.zipIdx.filter fun p => ans.accepts p.2).map fun p =>
    workMessage blockMsg metadata p.1 p.2

def handleMessage (ans : Answers) (p : Processor) (decoded : Except String BlockMessage) : Result :=
  match decoded with
  | .error err => ⟨p, [], some err⟩
  | .ok blockMsg =>
    if p.contains blockMsg.hash then ⟨p, [], none⟩
    else
      match ans.metadata with
      | .error err =>
        ⟨p, [], some ("fetching block metadata " ++ blockMsg.hash ++ ": " ++ err)⟩
      | .ok metadata =>
        if metadata.subtrees.length = 0 then ⟨p, [], none⟩
        else
          match if p.subtreeCounter.isSome then ans.initErr else none with
          | some err => ⟨p, [],
              some ("failed to init subtree counter for block " ++ blockMsg.hash ++ ": " ++ err)⟩
          | none =>
            let p := p.initCounter blockMsg.hash metadata.subtrees.length
            let published := publishWork ans blockMsg metadata
            let p := { p with
              currentBlockHeight := metadata.height.toUInt64
              dedupCache := p.dedupCache.map fun c => (c.add blockMsg.hash).1 }
            ⟨p, published, none⟩

/-- The announcement is acknowledged, and its hash is put into the dedup cache. -/
def Handled (ans : Answers) (p : Processor) (blockMsg : BlockMessage) : Prop :=
  (handleMessage ans p (.ok blockMsg)).err = none ∧ p.contains blockMsg.hash = false ∧
    (handleMessage ans p (.ok blockMsg)).processor.contains blockMsg.hash = true

/-- For each of the `n` subtrees one work message was accepted, and when each is handled once the
counter comes from `n` to zero. -/
def Dispatched (n : ℕ) (blockHash : String) (r : Result) : Prop :=
  (∀ i < n, r.published.countP (fun w => w.subtreeIndex = (i : ℤ)) = 1) ∧
    ∀ counters, r.processor.subtreeCounter = some counters → ∃ count,
      counters blockHash = some count ∧
      count = n ∧ count - SubtreeWorker.subtreeCount r.published blockHash = 0

/-- The handler comes to the mark: there is a dedup cache without the hash, and the counter is
initialised. -/
def Marks (ans : Answers) (p : Processor) (blockMsg : BlockMessage) : Prop :=
  p.dedupCache.isSome = true ∧ p.contains blockMsg.hash = false ∧
    (p.subtreeCounter.isSome = true → ans.initErr = none)

/-! ### The loop -/

section

variable {ans : Answers} {p : Processor} {blockMsg : BlockMessage} {metadata : BlockMetadata}

theorem countP_publishWork (ans : Answers) (blockMsg : BlockMessage) {metadata : BlockMetadata}
    {i : ℕ} (hi : i < metadata.subtrees.length) :
    (publishWork ans blockMsg metadata).countP (fun w => w.subtreeIndex = (i : ℤ)) =
      if ans.accepts i then 1 else 0 := by
  have hrange : (publishWork ans blockMsg metadata).countP (fun w => w.subtreeIndex = (i : ℤ)) =
      (List.range metadata.subtrees.length).countP fun k => decide (k = i) && ans.accepts k := by
    have hsnd : List.range metadata.subtrees.length = metadata.subtrees.zipIdx.map Prod.snd := by
      simp [List.range_eq_range']
    rw [hsnd, publishWork, List.countP_map, List.countP_filter, List.countP_map]
    refine List.countP_congr fun q _ => ?_
    simp [workMessage]
  rw [hrange]
  split_ifs with hok
  · have hcount : (List.range metadata.subtrees.length).count i = 1 :=
      List.count_eq_one_of_mem List.nodup_range (List.mem_range.2 hi)
    rw [← hcount, List.count]
    refine List.countP_congr fun k _ => ?_
    simp only [Bool.and_eq_true, decide_eq_true_eq, beq_iff_eq]
    constructor
    · exact And.left
    · rintro rfl
      exact ⟨rfl, hok⟩
  · rw [List.countP_eq_zero]
    simp only [Bool.and_eq_true, decide_eq_true_eq, not_and]
    rintro k - rfl
    exact hok

theorem subtreeCount_publishWork (ans : Answers) (blockMsg : BlockMessage)
    (metadata : BlockMetadata) :
    SubtreeWorker.subtreeCount (publishWork ans blockMsg metadata) blockMsg.hash =
      (publishWork ans blockMsg metadata).length := by
  rw [SubtreeWorker.subtreeCount, List.countP_eq_length]
  intro w hw
  obtain ⟨q, -, rfl⟩ := List.mem_map.1 hw
  simp [workMessage]

theorem length_publishWork (hall : ∀ i < metadata.subtrees.length, ans.accepts i = true) :
    (publishWork ans blockMsg metadata).length = metadata.subtrees.length := by
  have hfilter : metadata.subtrees.zipIdx.filter (fun q => ans.accepts q.2) =
      metadata.subtrees.zipIdx := by
    rw [List.filter_eq_self]
    rintro ⟨stHash, i⟩ hmem
    refine hall i ?_
    have hget := List.mk_mem_zipIdx_iff_getElem?.1 hmem
    exact (List.getElem?_eq_some_iff.1 hget).1
  rw [publishWork, hfilter, List.length_map, List.length_zipIdx]

/-! ### The handler -/

theorem Marks.initErr (h : Marks ans p blockMsg) :
    (if p.subtreeCounter.isSome then ans.initErr else none) = none := by
  split_ifs with hsome
  · exact h.2.2 hsome
  · rfl

theorem handleMessage_of_marks (hmeta : ans.metadata = .ok metadata) (hne : metadata.subtrees ≠ [])
    (h : Marks ans p blockMsg) :
    (handleMessage ans p (.ok blockMsg)).published = publishWork ans blockMsg metadata ∧
      (handleMessage ans p (.ok blockMsg)).processor.subtreeCounter =
        (p.initCounter blockMsg.hash metadata.subtrees.length).subtreeCounter := by
  have hlen : metadata.subtrees.length ≠ 0 := by simpa using hne
  simp only [handleMessage, h.2.1, hmeta, hlen, h.initErr, Bool.false_eq_true, ↓reduceIte, and_self]

theorem handled_iff_marks (hmeta : ans.metadata = .ok metadata) (hne : metadata.subtrees ≠ []) :
    Handled ans p blockMsg ↔ Marks ans p blockMsg := by
  have hlen : metadata.subtrees.length ≠ 0 := by simpa using hne
  constructor
  · rintro ⟨herr, hnew, hadd⟩
    simp only [handleMessage, hnew, hmeta, hlen, Bool.false_eq_true, ↓reduceIte] at herr hadd
    cases hinit : if p.subtreeCounter.isSome then ans.initErr else none with
    | some err =>
      simp only [hinit] at herr
      cases herr
    | none =>
      refine ⟨?_, hnew, ?_⟩
      · simp only [hinit] at hadd
        cases hcache : p.dedupCache with
        | none => simp [Processor.contains, Processor.initCounter, hcache] at hadd
        | some c => rfl
      · intro hsome
        rwa [if_pos hsome] at hinit
  · intro h
    obtain ⟨c, hc⟩ := Option.isSome_iff_exists.1 h.1
    refine ⟨?_, h.2.1, ?_⟩
    · simp only [handleMessage, h.2.1, hmeta, hlen, h.initErr, Bool.false_eq_true, ↓reduceIte]
    · simp only [handleMessage, h.2.1, hmeta, hlen, h.initErr, Bool.false_eq_true, ↓reduceIte]
      simp only [Processor.contains, Processor.initCounter, hc, Option.map_some, Option.any_some]
      exact c.contains_add_self blockMsg.hash

/-- **A handled block was dispatched.**  For every list of subtrees and all patterns of failures: if
the announcement is acknowledged and its hash put into the dedup cache, then one work message was
accepted for each subtree and the counter of the block is their number; if and only if, when the
handler comes to the mark, every work message is encoded and published. -/
theorem dispatched_iff (hmeta : ans.metadata = .ok metadata) (hne : metadata.subtrees ≠ []) :
    (Handled ans p blockMsg →
      Dispatched metadata.subtrees.length blockMsg.hash (handleMessage ans p (.ok blockMsg))) ↔
    (Marks ans p blockMsg → ∀ i < metadata.subtrees.length,
      ans.encodeErr i = none ∧ ans.publishErr i = none) := by
  rw [handled_iff_marks hmeta hne]
  refine forall_congr' fun hmarks => ?_
  obtain ⟨hpublished, hcounter⟩ := handleMessage_of_marks hmeta hne hmarks
  have haccepts : ∀ i, ans.accepts i = true ↔ ans.encodeErr i = none ∧ ans.publishErr i = none := by
    intro i
    simp [Answers.accepts]
  simp only [← haccepts]
  constructor
  · rintro ⟨hone, -⟩ i hi
    have hcount := hone i hi
    rw [hpublished, countP_publishWork ans blockMsg hi] at hcount
    by_contra hnot
    rw [if_neg hnot] at hcount
    cases hcount
  · intro hall
    refine ⟨?_, ?_⟩
    · intro i hi
      rw [hpublished, countP_publishWork ans blockMsg hi, if_pos (hall i hi)]
    · intro counters hcounters
      rw [hcounter, Processor.initCounter] at hcounters
      obtain ⟨old, -, rfl⟩ := Option.map_eq_some_iff.1 hcounters
      refine ⟨metadata.subtrees.length, Function.update_self .., rfl, ?_⟩
      rw [hpublished, subtreeCount_publishWork, length_publishWork hall]
      omega

end

/-! ### A work message that is lost -/

def twoHashes : BlockMetadata := ⟨800000, ["s0", "s1"]⟩

def announcedBlock : BlockMessage := ⟨"b", 800000, "", "", "http://datahub", "", ""⟩

/-- A processor with a dedup cache and a counter store. -/
def freshProcessor : Processor := ⟨some (.new 10), some fun _ => none, 0⟩

def nothingFails : Answers := ⟨.ok twoHashes, none, fun _ => none, fun _ => none⟩

/-- Two subtrees, both of which are published. -/
theorem dispatched_two :
    Handled nothingFails freshProcessor announcedBlock ∧
      Dispatched 2 "b" (handleMessage nothingFails freshProcessor (.ok announcedBlock)) := by
  have hmeta : nothingFails.metadata = .ok twoHashes := rfl
  have hhandled : Handled nothingFails freshProcessor announcedBlock := ⟨rfl, rfl, by decide⟩
  refine ⟨hhandled, ?_⟩
  exact (dispatched_iff hmeta (by simp [twoHashes])).2 (fun _ _ _ => ⟨rfl, rfl⟩) hhandled

/-- The publish of the second message fails: the announcement is acknowledged and marked, and the
second subtree is never counted. -/
theorem lost_work :
    ¬ ∀ (ans : Answers) (p : Processor) (blockMsg : BlockMessage) (metadata : BlockMetadata),
      ans.metadata = .ok metadata → 1 ≤ metadata.subtrees.length → Handled ans p blockMsg →
      Dispatched metadata.subtrees.length blockMsg.hash (handleMessage ans p (.ok blockMsg)) := by
  intro h
  have hall := h
    ⟨.ok twoHashes, none, fun _ => none, fun i => if i = 1 then some "timeout" else none⟩
    freshProcessor announcedBlock twoHashes rfl (by decide) ⟨rfl, rfl, by decide⟩
  exact absurd (hall.1 1 (by decide)) (by decide)

end BlockProcessor

end MerkleService
