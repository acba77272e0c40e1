import MerkleService.Datahub.Client
import MerkleService.Stump.Codec
import MerkleService.Stump.Proof

/-!
# Processing one subtree of a block

`ProcessBlockSubtree` (`internal/block/subtree_processor.go`) gets the raw data of a subtree from
the blob store or, failing that, from the DataHub URL that a peer announced, looks up which of its
txids are registered, and builds the STUMP that is then published for the subtree.  Nothing compares
the data with the subtree hash under which it was found.

* `processBlockSubtree` : the code; what it calls is in `Env`, what it writes is in `Effect`.
* `stump_proves_records` : **what a published STUMP proves**: membership in the tree over the
  records that the data holds.
* `stump_of_other_subtree` : data that does not belong to the subtree hash is accepted.
-/

namespace MerkleService

namespace Block

open Stump Datahub

/-- What `ProcessBlockSubtree` calls.  A Go map is the list of its entries in the order in which it
is ranged over. -/
structure Env where
  /-- `subtreeStore.GetSubtree`; `none` for nil data without error. -/
  getSubtree : String → Except String (Option Bytes)
  /-- `dhClient.FetchSubtreeRaw`, from a URL. -/
  fetchSubtreeRaw : String → String → Except String Bytes
  /-- `regStore.BatchGet`. -/
  batchGet : List String → Except String (List (String × List String))
  /-- go-subtree's `BuildMerkleTreeStoreFromBytes`. -/
  buildMerkleTreeStoreFromBytes : List Bytes → Except String (List Bytes)
  /-- The order of the builder's maps. -/
  order : MapOrder

/-- What `ProcessBlockSubtree` writes; errors of these calls are only logged. -/
inductive Effect where
  | storeSubtree (subtreeHash : String) (rawData : Bytes) (blockHeight : ℕ)
  | batchUpdateTTL (txids : List String) (ttlSec : ℤ)
  deriving DecidableEq

/-- `SubtreeResult`. -/
structure SubtreeResult where
  callbackGroups : List (String × List String)
  subtreeHash : String
  stumpData : Bytes
  deriving DecidableEq

/-! ### The code -/

/-- `result[cb] = append(result[cb], txid)`. -/
def appendTo (cb txid : String) : List (String × List String) → List (String × List String)
  | [] => [(cb, [txid])]
  | (url, txids) :: rest =>
    if url = cb then (url, txids ++ [txid]) :: rest else (url, txids) :: appendTo cb txid rest

/-- `stump.GroupByCallback`. -/
def groupByCallback (registrations : List (String × List String)) : List (String × List String) :=
  registrations.foldl (fun result entry =>
    entry.2.foldl (fun result cb => appendTo cb entry.1 result) result) []

/-- `txidToIndex[txid]`: the index of the last node with this txid. -/
def txidToIndex (txids : List String) (txid : String) : Option ℕ :=
  (txids.zipIdx.reverse.find? fun entry => entry.1 = txid).map Prod.snd

theorem lt_of_txidToIndex {txids : List String} {txid : String} {i : ℕ}
    (h : txidToIndex txids txid = some i) : i < txids.length := by
  obtain ⟨entry, hentry, rfl⟩ := Option.map_eq_some_iff.1 h
  have hmem := List.mem_reverse.1 (List.mem_of_find?_eq_some hentry)
  exact (List.mem_zipIdx' hmem).1

/-- The map `registeredIndices`: the indices of the registered txids of the subtree. -/
def registeredIndices (nodes : List Bytes) (registrations : List (String × List String)) :
    RegisteredIndices nodes.length where
  keys := (registrations.filterMap fun entry =>
    txidToIndex (nodes.map hashString) entry.1).dedup
  nodup := List.nodup_dedup _
  lt := by
    intro i hi
    obtain ⟨entry, -, hentry⟩ := List.mem_filterMap.1 (List.mem_dedup.1 hi)
    simpa using lt_of_txidToIndex hentry

/-- Retrieval of the subtree data: from the blob store, falling back to the DataHub, whose answer is
stored for future use. -/
def retrieve (env : Env) (subtreeHash dataHubURL : String) (blockHeight : ℕ) :
    Except String (Bytes × List Effect) :=
  match env.getSubtree subtreeHash with
  | .ok (some rawData) => .ok (rawData, [])
  | _ =>
    match env.fetchSubtreeRaw dataHubURL subtreeHash with
    | .error err => .error s!"fetching subtree {subtreeHash} from DataHub: {err}"
    | .ok rawData => .ok (rawData, [.storeSubtree subtreeHash rawData blockHeight])

/-- The part of `ProcessBlockSubtree` from the parsed nodes to the encoded STUMP. -/
def processNodes (env : Env) (subtreeHash : String) (blockHeight : ℕ) (postMineTTLSec : ℤ)
    (nodes : List Bytes) : Except String (Option SubtreeResult × List Effect) :=
  if nodes.length = 0 then .ok (none, [])
  else
    let txids := nodes.map hashString
    match env.batchGet txids with
    | .error err => .error s!"batch get registrations for subtree {subtreeHash}: {err}"
    | .ok registrations =>
      if registrations.length = 0 then .ok (none, [])
      else
        match env.buildMerkleTreeStoreFromBytes nodes with
        | .error err => .error s!"building merkle tree for subtree {subtreeHash}: {err}"
        | .ok internalNodes =>
          match build nodes internalNodes (registeredIndices nodes registrations) env.order
            blockHeight with
          | none => .ok (none, [])
          | some s =>
            .ok (some ⟨groupByCallback registrations, subtreeHash, s.encode⟩,
              if 0 < postMineTTLSec then
                [.batchUpdateTTL (registrations.map Prod.fst) postMineTTLSec]
              else [])

/-- `ProcessBlockSubtree`. -/
def processBlockSubtree (env : Env) (subtreeHash : String) (blockHeight : ℕ) (dataHubURL : String)
    (postMineTTLSec : ℤ) : Except String (Option SubtreeResult × List Effect) := do
  let (rawData, stored) ← retrieve env subtreeHash dataHubURL blockHeight
  match parseRawNodes rawData with
  | .error err => .error s!"parsing subtree {subtreeHash}: {err}"
  | .ok nodes => do
    let (result, updated) ← processNodes env subtreeHash blockHeight postMineTTLSec nodes
    .ok (result, stored ++ updated)

/-! ### When a result is returned -/

section

variable {env : Env} {subtreeHash dataHubURL : String} {blockHeight : ℕ} {postMineTTLSec : ℤ}
  {res : SubtreeResult} {effects : List Effect}

theorem processNodes_some {nodes : List Bytes}
    (h : processNodes env subtreeHash blockHeight postMineTTLSec nodes = .ok (some res, effects)) :
    ∃ registrations internalNodes s, env.batchGet (nodes.map hashString) = .ok registrations ∧
      env.buildMerkleTreeStoreFromBytes nodes = .ok internalNodes ∧
      build nodes internalNodes (registeredIndices nodes registrations) env.order blockHeight =
        some s ∧
      res = ⟨groupByCallback registrations, subtreeHash, s.encode⟩ := by
  unfold processNodes at h
  by_cases hempty : nodes.length = 0
  · simp [hempty] at h
  simp only [hempty, ↓reduceIte] at h
  split at h
  · cases h
  rename_i registrations hreg
  by_cases hnone : registrations.length = 0
  · simp [hnone] at h
  simp only [hnone, ↓reduceIte] at h
  split at h
  · cases h
  rename_i internalNodes hint
  split at h
  · simp at h
  · rename_i s hs
    simp only [Except.ok.injEq, Prod.mk.injEq, Option.some.injEq] at h
    exact ⟨registrations, internalNodes, s, hreg, hint, hs, h.1.symm⟩

/-- **When a result is returned** it carries the STUMP that was built from the records of the
data. -/
theorem processBlockSubtree_some
    (h : processBlockSubtree env subtreeHash blockHeight dataHubURL postMineTTLSec =
      .ok (some res, effects)) :
    ∃ rawData stored registrations internalNodes s,
      retrieve env subtreeHash dataHubURL blockHeight = .ok (rawData, stored) ∧
      env.batchGet ((records rawData).map hashString) = .ok registrations ∧
      env.buildMerkleTreeStoreFromBytes (records rawData) = .ok internalNodes ∧
      build (records rawData) internalNodes (registeredIndices (records rawData) registrations)
        env.order blockHeight = some s ∧
      res = ⟨groupByCallback registrations, subtreeHash, s.encode⟩ := by
  unfold processBlockSubtree at h
  cases hret : retrieve env subtreeHash dataHubURL blockHeight with
  | error err => simp [hret, bind, Except.bind] at h
  | ok answer =>
    obtain ⟨rawData, stored⟩ := answer
    simp only [hret, bind, Except.bind] at h
    split at h
    · cases h
    rename_i nodes hnodes
    obtain rfl := parseRawNodes_ok hnodes
    cases hproc : processNodes env subtreeHash blockHeight postMineTTLSec (records rawData) with
    | error err => simp [hproc] at h
    | ok answer =>
      simp only [hproc, Except.ok.injEq, Prod.mk.injEq] at h
      obtain ⟨registrations, internalNodes, s, hreg, hint, hs, hres⟩ :=
        processNodes_some (hproc.trans (by rw [← h.1]))
      exact ⟨rawData, stored, registrations, internalNodes, s, rfl, hreg, hint, hs, hres⟩

/-- The root of the tree over the records of some subtree data. -/
def merkleRoot (hash : Bytes → Bytes → Bytes) (nodes : List Bytes) : Bytes :=
  treeNode hash nodes (treeHeight (nextPowerOfTwo nodes.length)) 0

/-- **What a published STUMP proves.**  Whatever data the blob store or the DataHub returned, the
STUMP decodes, and if no record of the data is zero the walk from each of its txid leaves ends in
the root of the tree over the records of that data.  (This is the hash named by `subtreeHash` only
if the data is that of the subtree.) -/
theorem stump_proves_records {hash : Bytes → Bytes → Bytes} (hhash : ∀ l r, hash l r ≠ zeroHash)
    (hlen : ∀ l r, (hash l r).length = 32)
    (hstore : ∀ nodes internalNodes, 2 ≤ nodes.length →
      env.buildMerkleTreeStoreFromBytes nodes = .ok internalNodes →
      internalNodes = merkleTreeStore hash nodes)
    (h : processBlockSubtree env subtreeHash blockHeight dataHubURL postMineTTLSec =
      .ok (some res, effects)) :
    ∃ rawData stored s, retrieve env subtreeHash dataHubURL blockHeight = .ok (rawData, stored) ∧
      res.stumpData = encode (some s) ∧
      (blockHeight < 2 ^ 53 → rawData.length < 2 ^ 53 →
        decode apiTexts res.stumpData = .ok (s.decoded, res.stumpData.length)) ∧
      ((∀ r ∈ records rawData, r ≠ zeroHash) → ∀ level leaf, s.paths[0]? = some level →
        leaf ∈ level.leaves → leaf.txID = true →
        s.walk hash leaf.offset = some (merkleRoot hash (records rawData))) := by
  obtain ⟨rawData, stored, registrations, internalNodes, s, hret, -, hint, hs, rfl⟩ :=
    processBlockSubtree_some h
  have hstore' := fun h2 => hstore (records rawData) internalNodes h2 hint
  refine ⟨rawData, stored, s, hret, rfl, fun hheight hdata => ?_, fun hzero level leaf => ?_⟩
  · have hcount : (records rawData).length < 2 ^ 52 := by
      simp only [records, hashSize, List.length_map, List.length_range]
      omega
    have hinner : 2 ≤ (records rawData).length → ∀ h ∈ internalNodes, h.length = 32 := by
      intro h2
      rw [hstore' h2]
      exact length_of_mem_merkleTreeStore hlen
    exact decode_encode_eq apiTexts (encodable_of_build
      (fun l hl => length_of_mem_records hl) hcount hinner hheight hs)
  · intro hlevel hleaf htx
    obtain rfl | ⟨htwo, rfl⟩ := build_cases hs
    · cases hlevel
    obtain rfl := hstore' htwo
    have hpos : 0 < Nat.clog 2 (records rawData).length := Nat.clog_pos (by omega) (by omega)
    rw [getElem?_paths hpos, Option.some.injEq] at hlevel
    subst hlevel
    rw [merkleRoot, treeHeight_nextPowerOfTwo]
    exact walk_levelOf hhash htwo hzero blockHeight (mem_keys_of_txID hleaf htx)

end

/-! ### Data of another subtree -/

/-- A hash that is double SHA-256 on the one pair that is hashed below. -/
def pairHash (l r : Bytes) : Bytes :=
  if l = List.replicate 32 1 ∧ r = List.replicate 32 2 then
    [57, 206, 32, 190, 222, 130, 201, 107, 137, 8, 190, 196, 161, 87, 176, 156, 84, 155, 61, 185,
      11, 155, 71, 75, 218, 154, 233, 185, 3, 3, 16, 180]
  else List.replicate 32 255

/-- A blob store that holds two records under every key, the first of them registered. -/
def twoRecords : Env where
  getSubtree _ := .ok (some (List.replicate 32 1 ++ List.replicate 32 2))
  fetchSubtreeRaw _ _ := .error "not found"
  batchGet txids := .ok (txids.take 1 |>.map fun txid => (txid, ["http://callback"]))
  buildMerkleTreeStoreFromBytes nodes := .ok (merkleTreeStore pairHash nodes)
  order := .insertion

/-- The STUMP that is built from these records. -/
def twoRecordsStump : STUMP :=
  ⟨5, 1, [⟨[{ offset := 0, hash := List.replicate 32 1, txID := true },
    { offset := 1, hash := List.replicate 32 2 }]⟩]⟩

theorem pairHash_ne_zero (l r : Bytes) : pairHash l r ≠ zeroHash := by
  unfold pairHash
  split_ifs <;> decide

theorem length_pairHash (l r : Bytes) : (pairHash l r).length = 32 := by
  unfold pairHash
  split_ifs <;> rfl

theorem processBlockSubtree_twoRecords (subtreeHash : String) :
    ∃ groups, processBlockSubtree twoRecords subtreeHash 5 "http://hub" 0 =
      .ok (some ⟨groups, subtreeHash, encode (some twoRecordsStump)⟩, []) :=
  ⟨_, rfl⟩

/-- The STUMP of the two records proves them under their own root, whatever the subtree hash. -/
theorem stump_proves_two_records :
    ∃ groups, ∃ s : STUMP, processBlockSubtree twoRecords "s" 5 "http://hub" 0 =
        .ok (some ⟨groups, "s", encode (some twoRecordsStump)⟩, []) ∧
      decode apiTexts (encode (some twoRecordsStump)) =
        .ok (s.decoded, (encode (some twoRecordsStump)).length) ∧
      ∀ level leaf, s.paths[0]? = some level → leaf ∈ level.leaves → leaf.txID = true →
        s.walk pairHash leaf.offset =
          some (merkleRoot pairHash [List.replicate 32 1, List.replicate 32 2]) := by
  obtain ⟨groups, h⟩ := processBlockSubtree_twoRecords "s"
  obtain ⟨rawData, stored, s, hret, -, hdecode, hwalk⟩ := stump_proves_records pairHash_ne_zero
    length_pairHash (fun nodes internalNodes _ hint => (Except.ok.inj hint).symm) h
  obtain ⟨rfl, -⟩ := Prod.mk.inj (Except.ok.inj hret)
  exact ⟨groups, s, h, hdecode (by decide) (by decide), hwalk (by decide)⟩

/-- The two records are published under the hash of another subtree: the walk over their STUMP does
not end in the hash whose text is the subtree hash. -/
theorem stump_of_other_subtree :
    ¬ ∀ (hash : Bytes → Bytes → Bytes) (env : Env), (∀ l r, hash l r ≠ zeroHash) →
      (∀ nodes internalNodes, env.buildMerkleTreeStoreFromBytes nodes = .ok internalNodes →
        internalNodes = merkleTreeStore hash nodes) →
      ∀ subtreeHash blockHeight dataHubURL postMineTTLSec res effects,
        processBlockSubtree env subtreeHash blockHeight dataHubURL postMineTTLSec =
          .ok (some res, effects) →
        ∀ s : STUMP, s.Encodable → res.stumpData = encode (some s) →
          ∀ level leaf, s.paths[0]? = some level → leaf ∈ level.leaves → leaf.txID = true →
            ∃ root, s.walk hash leaf.offset = some root ∧ hashString root = subtreeHash := by
  intro hall
  obtain ⟨groups, h⟩ := processBlockSubtree_twoRecords (hashString (List.replicate 32 3))
  have henc : twoRecordsStump.Encodable := by
    refine ⟨by decide, by decide, rfl, by decide, ?_⟩
    simp only [twoRecordsStump, List.mem_cons, List.not_mem_nil, or_false, forall_eq]
    rintro leaf (rfl | rfl) <;> exact ⟨by decide, by decide, by decide⟩
  obtain ⟨root, hwalk, hroot⟩ := hall pairHash twoRecords pairHash_ne_zero
    (fun nodes internalNodes hint => (Except.ok.inj hint).symm) _ _ _ _ _ _ h twoRecordsStump henc
    rfl _ _ rfl List.mem_cons_self rfl
  have hvalue : twoRecordsStump.walk pairHash 0 =
      some (pairHash (List.replicate 32 1) (List.replicate 32 2)) := by decide
  rw [hvalue, Option.some.injEq] at hwalk
  subst hwalk
  exact absurd (Hex.encode_injective hroot) (by decide)

end Block

end MerkleService
