import MerkleService.Stump.Merge
import MerkleService.Block.SubtreeProcessor

/-!
# What a subscriber finds in a result

From one answer of `BatchGet`, `ProcessBlockSubtree` derives the groups of txids by callback URL
(`GroupByCallback`) and, separately, the STUMP in which each subscriber looks for its txids.

* `groupOf_groupByCallback` : the group of a URL is the list of the txids registered with it.
* `mem_registeredIndices` : the indices of the registered txids, for distinct hashes.
* `mem_txidLeaves` : the leaves that a decoded STUMP marks as txids, for at least two hashes.
* `findable_iff` : **a subscriber finds its txids if and only if the subtree has two transactions or
  more**.  For a single one `Build` returns a STUMP without levels.
-/

namespace MerkleService

namespace Block

open Stump Datahub

/-! ### Groups -/

/-- The value of the map at a URL; Go's `nil` for a URL that is not a key. -/
def groupOf (groups : List (String × List String)) (url : String) : List String :=
  (groups.lookup url).getD []

theorem groupOf_cons (key : String) (txids : List String) (rest : List (String × List String))
    (url : String) :
    groupOf ((key, txids) :: rest) url = if url = key then txids else groupOf rest url := by
  rw [groupOf, List.lookup_cons]
  by_cases h : url = key
  · rw [beq_iff_eq.2 h, if_pos h]
    rfl
  · rw [beq_eq_false_iff_ne.2 h, if_neg h]
    rfl

theorem groupOf_appendTo (cb txid : String) (groups : List (String × List String)) (url : String) :
    groupOf (appendTo cb txid groups) url =
      groupOf groups url ++ if url = cb then [txid] else [] := by
  induction groups with
  | nil =>
    rw [appendTo, groupOf_cons]
    rfl
  | cons entry rest ih =>
    obtain ⟨key, txids⟩ := entry
    rw [appendTo]
    by_cases hkey : key = cb
    · subst hkey
      rw [if_pos rfl, groupOf_cons, groupOf_cons]
      by_cases hurl : url = key <;> simp [hurl]
    · rw [if_neg hkey, groupOf_cons, groupOf_cons, ih]
      by_cases hurl : url = key
      · subst hurl
        simp [hkey]
      · simp [hurl]

theorem groupOf_foldl_appendTo (txid : String) {urls : List String} (hnodup : urls.Nodup)
    (groups : List (String × List String)) (url : String) :
    groupOf (urls.foldl (fun result cb => appendTo cb txid result) groups) url =
      groupOf groups url ++ if url ∈ urls then [txid] else [] := by
  induction urls generalizing groups with
  | nil => simp
  | cons cb urls ih =>
    obtain ⟨hcb, hnodup⟩ := List.nodup_cons.1 hnodup
    rw [List.foldl_cons, ih hnodup, groupOf_appendTo, List.append_assoc]
    by_cases h : url = cb
    · subst h
      simp [hcb]
    · simp [h]

/-- **The group of a URL is the list of the txids registered with it.** -/
theorem groupOf_groupByCallback {registrations : List (String × List String)}
    (hnodup : ∀ entry ∈ registrations, entry.2.Nodup) (url : String) :
    groupOf (groupByCallback registrations) url =
      (registrations.filter fun entry => url ∈ entry.2).map Prod.fst := by
  have hfold : ∀ groups, groupOf (registrations.foldl (fun result entry =>
      entry.2.foldl (fun result cb => appendTo cb entry.1 result) result) groups) url =
      groupOf groups url ++ (registrations.filter fun entry => url ∈ entry.2).map Prod.fst := by
    induction registrations with
    | nil => simp
    | cons entry registrations ih =>
      intro groups
      rw [List.foldl_cons, ih (fun e he => hnodup e (List.mem_cons_of_mem _ he)),
        groupOf_foldl_appendTo _ (hnodup entry List.mem_cons_self), List.append_assoc]
      by_cases h : url ∈ entry.2 <;> simp [h]
  exact hfold []

/-! ### Indices -/

theorem hashString_injective : Function.Injective hashString :=
  Hex.encode_injective.comp List.reverse_injective

/-- In a list without duplicates the last index of a txid is its index. -/
theorem txidToIndex_eq_some {txids : List String} (hnodup : txids.Nodup) {txid : String} {i : ℕ} :
    txidToIndex txids txid = some i ↔ txids[i]? = some txid := by
  have hsound : ∀ j, txidToIndex txids txid = some j → txids[j]? = some txid := by
    intro j hj
    obtain ⟨entry, hentry, rfl⟩ := Option.map_eq_some_iff.1 hj
    have hmem := List.mem_zipIdx_iff_getElem?.1
      (List.mem_reverse.1 (List.mem_of_find?_eq_some hentry))
    rw [hmem]
    simpa using List.find?_some hentry
  refine ⟨hsound i, fun hi => ?_⟩
  have hsome : (txidToIndex txids txid).isSome := by
    rw [txidToIndex, Option.isSome_map, List.find?_isSome]
    exact ⟨(txid, i), List.mem_reverse.2 (List.mem_zipIdx_iff_getElem?.2 hi), by simp⟩
  obtain ⟨j, hj⟩ := Option.isSome_iff_exists.1 hsome
  have hlt : j < txids.length := (List.getElem?_eq_some_iff.1 (hsound j hj)).1
  rw [hj, (List.getElem?_inj hlt hnodup).1 ((hsound j hj).trans hi.symm)]

/-- **The registered indices are the indices of the registered txids.** -/
theorem mem_registeredIndices {nodes : List Bytes} (hnodup : nodes.Nodup)
    {registrations : List (String × List String)} {i : ℕ} :
    i ∈ (registeredIndices nodes registrations).keys ↔
      ∃ h, nodes[i]? = some h ∧ hashString h ∈ registrations.map Prod.fst := by
  have hnodup' := hnodup.map hashString_injective
  rw [registeredIndices, List.mem_dedup, List.mem_filterMap]
  simp only [txidToIndex_eq_some hnodup', List.getElem?_map, Option.map_eq_some_iff]
  constructor
  · rintro ⟨entry, hentry, h, hget, heq⟩
    exact ⟨h, hget, heq ▸ List.mem_map_of_mem hentry⟩
  · rintro ⟨h, hget, hmem⟩
    obtain ⟨entry, hentry, heq⟩ := List.mem_map.1 hmem
    exact ⟨entry, hentry, h, hget, heq.symm⟩

/-! ### Leaves -/

/-- The leaves of level 0 with flag `0x02`. -/
def txidLeaves (bump : DecodedBUMP) : List DecodedLeaf :=
  match bump.levels[0]? with
  | none => []
  | some level => level.leaves.filter fun leaf => leaf.flag = 0x02

theorem flag_decoded (leaf : Leaf) :
    leaf.decoded.flag = 0x02 ↔ leaf.txID = true ∧ leaf.duplicate = false := by
  simp only [Leaf.decoded, Leaf.flags]
  cases leaf.txID <;> cases leaf.duplicate <;> decide

section

variable {leaves internalNodes : List Bytes} {registeredIndices : RegisteredIndices leaves.length}
  (hn : 2 ≤ leaves.length) (blockHeight : ℕ)

include hn in
theorem txidLeaves_decoded :
    txidLeaves (STUMP.decoded ⟨blockHeight, Nat.clog 2 leaves.length,
        (List.range (Nat.clog 2 leaves.length)).map
          (levelOf leaves internalNodes registeredIndices)⟩) =
      ((levelOf leaves internalNodes registeredIndices 0).leaves.map Leaf.decoded).filter
        fun leaf => leaf.flag = 0x02 := by
  have hpos : 0 < Nat.clog 2 leaves.length := Nat.clog_pos (by omega) (by omega)
  simp only [txidLeaves, STUMP.decoded, List.getElem?_mapIdx, List.getElem?_map,
    List.getElem?_range hpos, Option.map_some]

include hn in
/-- **The leaves that a decoded STUMP marks as txids**, for at least two leaves. -/
theorem mem_txidLeaves {leaf : DecodedLeaf} :
    leaf ∈ txidLeaves (STUMP.decoded ⟨blockHeight, Nat.clog 2 leaves.length,
        (List.range (Nat.clog 2 leaves.length)).map
          (levelOf leaves internalNodes registeredIndices)⟩) ↔
      ∃ i ∈ registeredIndices.keys, ∃ h, leaves[i]? = some h ∧
        leaf = ⟨i, 0x02, some (Hex.encode h)⟩ := by
  rw [txidLeaves_decoded hn, List.mem_filter, List.mem_map, decide_eq_true_eq]
  constructor
  · rintro ⟨⟨l, hl, rfl⟩, hflag⟩
    have hmem := mem_keys_of_txID hl ((flag_decoded l).1 hflag).1
    obtain ⟨o, -, rfl⟩ := List.mem_map.1 hl
    rw [siblingLeaf_offset] at hmem
    refine ⟨o, hmem, _, List.getElem?_eq_getElem (registeredIndices.lt o hmem), ?_⟩
    rw [MerkleTree.realCount, siblingLeaf_registered _ hmem]
    rfl
  · rintro ⟨i, hi, h, hget, rfl⟩
    obtain ⟨hlt, rfl⟩ := List.getElem?_eq_some_iff.1 hget
    have hpath : i ∈ (pathOffsets registeredIndices.keys 0).sort :=
      (Finset.mem_sort _).2 (mem_pathOffsets.2 (.inr ⟨rfl, hi⟩))
    have hleaf := siblingLeaf_registered internalNodes hi
    exact ⟨⟨_, List.mem_map.2 ⟨i, hpath, hleaf⟩, rfl⟩, rfl⟩

include hn in
theorem nodup_txidLeaves :
    ((txidLeaves (STUMP.decoded ⟨blockHeight, Nat.clog 2 leaves.length,
        (List.range (Nat.clog 2 leaves.length)).map
          (levelOf leaves internalNodes registeredIndices)⟩)).map DecodedLeaf.offset).Nodup := by
  rw [txidLeaves_decoded hn]
  refine (List.filter_sublist.map DecodedLeaf.offset).nodup ?_
  have hoffsets : ((levelOf leaves internalNodes registeredIndices 0).leaves.map
      Leaf.decoded).map DecodedLeaf.offset = (pathOffsets registeredIndices.keys 0).sort := by
    rw [List.map_map, ← map_offset_levelOf]
    rfl
  rw [hoffsets]
  exact Finset.sort_nodup _ _

end

/-! ### Finding a txid -/

/-- What `BatchGet` answers when it is asked for some txids: entries of a map, for these txids only,
with URLs, none of them twice. -/
structure RegistrationContent (txids : List String) (registrations : List (String × List String)) :
    Prop where
  keys : (registrations.map Prod.fst).Nodup
  requested : ∀ entry ∈ registrations, entry.1 ∈ txids
  nonempty : ∀ entry ∈ registrations, entry.2 ≠ []
  urls : ∀ entry ∈ registrations, entry.2.Nodup

/-- Every subscriber can find its transactions: the group of a URL holds exactly the txids of the
subtree that are registered with it, each once; and the leaves that the decoded STUMP marks as txids
are exactly the registered ones, each at its index in the subtree. -/
structure Findable (nodes : List Bytes) (registrations : List (String × List String))
    (res : SubtreeResult) : Prop where
  nodup : ∀ url, (groupOf res.callbackGroups url).Nodup
  group : ∀ url txid, txid ∈ groupOf res.callbackGroups url ↔
    txid ∈ nodes.map hashString ∧ ∃ urls, (txid, urls) ∈ registrations ∧ url ∈ urls
  leaves : ∃ bump, stumpDecodeBUMP res.stumpData = .ok bump ∧
    ((txidLeaves bump).map DecodedLeaf.offset).Nodup ∧
    ∀ leaf, leaf ∈ txidLeaves bump ↔ ∃ i h, nodes[i]? = some h ∧
      hashString h ∈ registrations.map Prod.fst ∧ leaf = ⟨i, 0x02, some (Hex.encode h)⟩

section

variable {nodes : List Bytes} {registrations : List (String × List String)} {url : String}

theorem nodup_groupOf (h : RegistrationContent (nodes.map hashString) registrations) :
    (groupOf (groupByCallback registrations) url).Nodup := by
  rw [groupOf_groupByCallback h.urls]
  exact (List.filter_sublist.map Prod.fst).nodup h.keys

theorem mem_groupOf (h : RegistrationContent (nodes.map hashString) registrations)
    {txid : String} : txid ∈ groupOf (groupByCallback registrations) url ↔
      txid ∈ nodes.map hashString ∧ ∃ urls, (txid, urls) ∈ registrations ∧ url ∈ urls := by
  rw [groupOf_groupByCallback h.urls, List.mem_map]
  simp only [List.mem_filter, decide_eq_true_eq]
  constructor
  · rintro ⟨⟨t, urls⟩, ⟨hentry, hurl⟩, rfl⟩
    exact ⟨h.requested _ hentry, urls, hentry, hurl⟩
  · rintro ⟨-, urls, hentry, hurl⟩
    exact ⟨(txid, urls), ⟨hentry, hurl⟩, rfl⟩

/-- The leaves that are marked are those of the registered txids, if and only if there are levels at
all. -/
theorem txidLeaves_iff {internalNodes : List Bytes} (hdistinct : nodes.Nodup)
    (hkeys : (registeredIndices nodes registrations).keys ≠ []) (blockHeight : ℕ) :
    (∀ leaf, leaf ∈ txidLeaves (STUMP.decoded ⟨blockHeight, Nat.clog 2 nodes.length,
        (List.range (Nat.clog 2 nodes.length)).map
          (levelOf nodes internalNodes (registeredIndices nodes registrations))⟩) ↔
      ∃ i h, nodes[i]? = some h ∧ hashString h ∈ registrations.map Prod.fst ∧
        leaf = ⟨i, 0x02, some (Hex.encode h)⟩) ↔ 2 ≤ nodes.length := by
  constructor
  · intro hleaves
    by_contra htwo
    -- The STUMP has no levels, but some txid is registered.
    obtain ⟨i, hi⟩ := List.exists_mem_of_ne_nil _ hkeys
    obtain ⟨node, hnode, hmem⟩ := (mem_registeredIndices hdistinct).1 hi
    have hleaf := (hleaves _).2 ⟨i, node, hnode, hmem, rfl⟩
    have hclog : Nat.clog 2 nodes.length = 0 := Nat.clog_of_right_le_one (by omega) 2
    rw [hclog] at hleaf
    exact absurd hleaf List.not_mem_nil
  · intro htwo leaf
    rw [mem_txidLeaves htwo]
    constructor
    · rintro ⟨i, hi, node, hnode, rfl⟩
      obtain ⟨node', hnode', hmem⟩ := (mem_registeredIndices hdistinct).1 hi
      obtain rfl := Option.some.inj (hnode.symm.trans hnode')
      exact ⟨i, node, hnode, hmem, rfl⟩
    · rintro ⟨i, node, hnode, hmem, rfl⟩
      exact ⟨i, (mem_registeredIndices hdistinct).2 ⟨node, hnode, hmem⟩, node, hnode, rfl⟩

end

/-- **A subscriber finds its transactions if and only if the subtree has two or more.**  The
inner nodes have the size of a hash, and the data fits in the address space. -/
theorem findable_iff {env : Env} {subtreeHash dataHubURL : String} {blockHeight : ℕ}
    {postMineTTLSec : ℤ} {res : SubtreeResult} {effects stored : List Effect} {rawData : Bytes}
    {registrations : List (String × List String)}
    (hinner : ∀ nodes internalNodes, env.buildMerkleTreeStoreFromBytes nodes = .ok internalNodes →
      ∀ h ∈ internalNodes, h.length = hashSize)
    (hret : retrieve env subtreeHash dataHubURL blockHeight = .ok (rawData, stored))
    (hdistinct : (records rawData).Nodup)
    (hreg : env.batchGet ((records rawData).map hashString) = .ok registrations)
    (hcontent : RegistrationContent ((records rawData).map hashString) registrations)
    (hheight : blockHeight < 2 ^ 32) (hdata : rawData.length < 2 ^ 57)
    (h : processBlockSubtree env subtreeHash blockHeight dataHubURL postMineTTLSec =
      .ok (some res, effects)) :
    Findable (records rawData) registrations res ↔ 2 ≤ (records rawData).length := by
  obtain ⟨rawData', stored', registrations', internalNodes, s, hret', hreg', hint, hs, rfl⟩ :=
    processBlockSubtree_some h
  obtain ⟨rfl, rfl⟩ := Prod.mk.inj (Except.ok.inj (hret.symm.trans hret'))
  obtain rfl := Except.ok.inj (hreg.symm.trans hreg')
  have hcount : (records rawData).length < 2 ^ 52 := by
    simp only [records, hashSize, List.length_map, List.length_range]
    omega
  have hdecode : stumpDecodeBUMP s.encode = .ok s.decoded := by
    rw [stumpDecodeBUMP, decode_encode_eq apiTexts (encodable_of_build
      (fun l hl => length_of_mem_records hl) hcount (fun _ => hinner _ _ hint)
      (hheight.trans (by decide)) hs)]
    rfl
  have hpos : 1 ≤ (records rawData).length := by
    by_contra hzero
    simp [build, show (records rawData).length = 0 by omega] at hs
  have hkeys : (registeredIndices (records rawData) registrations).keys ≠ [] := by
    intro hnil
    simp [build, hnil] at hs
  rw [build_eq_of_pos hpos hkeys, Option.some.injEq] at hs
  subst hs
  have hleaves := @txidLeaves_iff _ _ internalNodes hdistinct hkeys blockHeight
  constructor
  · intro hfind
    obtain ⟨bump, hbump, -, hmarked⟩ := hfind.leaves
    obtain rfl := Except.ok.inj (hdecode.symm.trans hbump)
    exact hleaves.1 hmarked
  · intro htwo
    exact ⟨fun url => nodup_groupOf hcontent, fun url txid => mem_groupOf hcontent,
      _, hdecode, nodup_txidLeaves htwo blockHeight, hleaves.2 htwo⟩

theorem findable_two_records :
    Findable (records (List.replicate 32 1 ++ List.replicate 32 2))
      [(hashString (List.replicate 32 1), ["http://callback"])]
      ⟨[("http://callback", [hashString (List.replicate 32 1)])], "s",
        encode (some twoRecordsStump)⟩ := by
  refine (@findable_iff twoRecords "s" "http://hub" 5 0 _ [] [] _ _ ?_ rfl (by decide) rfl ?_
    (by decide) (by decide) rfl).2 (by decide)
  · intro nodes internalNodes hint h hmem
    rw [← Except.ok.inj hint] at hmem
    exact length_of_mem_merkleTreeStore length_pairHash h hmem
  · exact ⟨by decide, by decide, by decide, by decide⟩

/-- A blob store that holds one record under every key, which is registered. -/
def oneRecord : Env where
  getSubtree _ := .ok (some (List.replicate 32 1))
  fetchSubtreeRaw _ _ := .error "not found"
  batchGet txids := .ok (txids.map fun txid => (txid, ["http://callback"]))
  buildMerkleTreeStoreFromBytes nodes := .ok (merkleTreeStore pairHash nodes)
  order := .insertion

/-- The STUMP of a subtree with a single transaction names none. -/
theorem not_findable_single :
    ∃ res, processBlockSubtree oneRecord "s" 5 "http://hub" 0 = .ok (some res, []) ∧
      retrieve oneRecord "s" "http://hub" 5 = .ok (List.replicate 32 1, []) ∧
      oneRecord.batchGet ((records (List.replicate 32 1)).map hashString) =
        .ok [(hashString (List.replicate 32 1), ["http://callback"])] ∧
      ¬ Findable (records (List.replicate 32 1))
        [(hashString (List.replicate 32 1), ["http://callback"])] res := by
  refine ⟨_, rfl, rfl, rfl, fun hfind => ?_⟩
  obtain ⟨bump, hbump, -, hleaves⟩ := hfind.leaves
  obtain rfl : DecodedBUMP.mk 5 0 [] = bump := Except.ok.inj hbump
  have hleaf := (hleaves _).2 ⟨0, List.replicate 32 1, by decide, by decide, rfl⟩
  exact absurd hleaf List.not_mem_nil

end Block

end MerkleService
