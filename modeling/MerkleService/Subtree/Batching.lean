import Mathlib.Algebra.Order.Floor.Div
import MerkleService.Subtree.Processor

/-!
# Batches of SEEN callbacks

`emitBatchedSeenCallbacks` (`internal/subtree/processor.go`) turns the map from txids to URLs into
one from URLs to txids, cuts the txids of each URL into chunks of at most 5000 and publishes each
chunk as a message, with the URL as hash key.  Between the two kinds of messages it increments the
seen counter of every txid.

* `emitCalls` : the calls to the producer and to the seen counter, in order.
* `flatten_chunkTxIDs`, `length_chunkTxIDs` : the chunks of a list.
* `published_pairs` : the pairs of a txid and a URL in the messages are those of the map.
* `seen_batches` : **the messages are an exact partition** of the registered pairs.
-/

namespace MerkleService

namespace Subtree

open Kafka

/-! ### The calls -/

/-- A call that `emitBatchedSeenCallbacks` makes. -/
inductive SeenCall where
  | publishWithHashKey (key : String) (msg : CallbackTopicMessage)
  | increment (txid subtreeID : String)
  deriving DecidableEq

/-- The hash keys and messages of one kind, in the order of publishing. -/
def publishes (type : CallbackType) (urls : RangeOrder String)
    (entries : List (String × List String)) : List (String × CallbackTopicMessage) :=
  (urls.order (entries.flatMap Prod.snd).dedup).flatMap fun callbackURL =>
    (chunkTxIDs (txidsFor entries callbackURL) callbackBatchChunkSize).map fun chunk =>
      (callbackURL, { callbackURL := callbackURL, type := type, txIDs := chunk })

/-- A message that cannot be encoded is not published. -/
def publishCalls (faults : PublishFaults) (msgs : List (String × CallbackTopicMessage)) :
    List SeenCall :=
  msgs.zipIdx.filterMap fun p =>
    if (faults.encodeErr p.2).isNone then some (.publishWithHashKey p.1.1 p.1.2) else none

/-- The entries whose txid reached the threshold. -/
def reachedEntries (ans : EmitAnswers) (entries : List (String × List String)) :
    List (String × List String) :=
  entries.filter fun e =>
    match ans.increment e.1 with
    | .ok thresholdReached => thresholdReached
    | .error _ => false

/-- The calls of `emitBatchedSeenCallbacks`, in order. -/
def emitCalls (ans : EmitAnswers) (registeredTxids : List (String × List String))
    (subtreeID : String) : List SeenCall :=
  if registeredTxids.length = 0 then []
  else
    let counted := ans.countedTxids.order registeredTxids
    publishCalls ans.seenFaults
        (publishes .seenOnNetwork ans.seenURLs (ans.seenTxids.order registeredTxids)) ++
      counted.map (fun e => .increment e.1 subtreeID) ++
      publishCalls ans.thresholdFaults
        (publishes .seenMultipleNodes ans.thresholdURLs (reachedEntries ans counted))

/-- The messages of a type among some calls, with their hash keys. -/
def published (type : CallbackType) (calls : List SeenCall) :
    List (String × CallbackTopicMessage) :=
  calls.filterMap fun
    | .publishWithHashKey key msg => if msg.type = type then some (key, msg) else none
    | .increment _ _ => none

/-- The txids whose seen counter is incremented, with the subtree. -/
def incremented (calls : List SeenCall) : List (String × String) :=
  calls.filterMap fun
    | .publishWithHashKey _ _ => none
    | .increment txid subtreeID => some (txid, subtreeID)

/-- The pairs of a txid and a URL in some messages. -/
def messagePairs (msgs : List (String × CallbackTopicMessage)) : List (String × String) :=
  msgs.flatMap fun m => m.2.txIDs.map fun txid => (txid, m.2.callbackURL)

/-- The pairs of a txid and a URL in a map from txids to URLs. -/
def entryPairs (entries : List (String × List String)) : List (String × String) :=
  entries.flatMap fun e => e.2.map fun url => (e.1, url)

/-! ### Chunks -/

theorem flatten_map_take_drop {α : Type} (l : List α) (size m : ℕ) :
    ((List.range m).map fun i => (l.drop (i * size)).take size).flatten = l.take (m * size) := by
  induction m with
  | zero => simp
  | succ m ih =>
    rw [List.range_succ, List.map_append, List.flatten_append, ih, Nat.succ_mul, List.take_add]
    simp

theorem flatten_chunkTxIDs (txids : List String) {size : ℕ} (hsize : 0 < size) :
    (chunkTxIDs txids size).flatten = txids := by
  unfold chunkTxIDs
  split_ifs with hlen
  · simp
  · have hceil := Nat.lt_div_mul_add (a := txids.length + size - 1) hsize
    rw [flatten_map_take_drop, List.take_of_length_le (by omega)]

/-- A list that is not empty is cut into `⌈k / size⌉` chunks. -/
theorem length_chunkTxIDs {txids : List String} (hne : txids ≠ []) (size : ℕ) :
    (chunkTxIDs txids size).length = txids.length ⌈/⌉ size := by
  have hpos := List.length_pos_iff.2 hne
  unfold chunkTxIDs
  rw [Nat.ceilDiv_eq_add_pred_div]
  split_ifs with hlen
  · rw [List.length_singleton]
    refine (Nat.div_eq_of_lt_le ?_ ?_).symm <;> omega
  · rw [List.length_map, List.length_range]

/-- Every chunk of a list that is not empty holds between 1 and `size` elements. -/
theorem length_of_mem_chunkTxIDs {txids chunk : List String} (hne : txids ≠ []) {size : ℕ}
    (hsize : 0 < size) (hmem : chunk ∈ chunkTxIDs txids size) :
    1 ≤ chunk.length ∧ chunk.length ≤ size := by
  have hpos := List.length_pos_iff.2 hne
  unfold chunkTxIDs at hmem
  split_ifs at hmem with hlen
  · rw [List.mem_singleton.1 hmem]
    exact ⟨hpos, hlen⟩
  · obtain ⟨i, hi, rfl⟩ := List.mem_map.1 hmem
    -- chunk `i` starts inside the list
    have hlt : (i + 1) * size ≤ txids.length + size - 1 :=
      (Nat.le_div_iff_mul_le hsize).1 (List.mem_range.1 hi)
    rw [Nat.succ_mul] at hlt
    rw [List.length_take, List.length_drop]
    omega

/-! ### Grouping by URL -/

section

variable {entries : List (String × List String)}

/-- With URL lists free of duplicates, each txid stands once for its URL. -/
theorem txidsFor_eq (hurls : ∀ e ∈ entries, e.2.Nodup) (url : String) :
    txidsFor entries url = (entries.filter fun e => url ∈ e.2).map Prod.fst := by
  induction entries with
  | nil => rfl
  | cons e entries ih =>
    have hfilter : (e.2.filter (· = url)).map (fun _ => e.1) =
        if url ∈ e.2 then [e.1] else [] := by
      have hnodup := hurls e List.mem_cons_self
      rw [List.filter_eq]
      split_ifs with hmem
      · rw [List.count_eq_one_of_mem hnodup hmem]
        rfl
      · rw [List.count_eq_zero_of_not_mem hmem]
        rfl
    have hrest := ih fun e' he' => hurls e' (List.mem_cons_of_mem _ he')
    unfold txidsFor at hrest ⊢
    rw [List.flatMap_cons, hfilter, hrest, List.filter_cons]
    by_cases hmem : url ∈ e.2 <;> simp [hmem]

theorem nodup_txidsFor (hkeys : (entries.map Prod.fst).Nodup)
    (hurls : ∀ e ∈ entries, e.2.Nodup) (url : String) : (txidsFor entries url).Nodup := by
  rw [txidsFor_eq hurls]
  exact hkeys.sublist (List.filter_sublist.map _)

theorem mem_txidsFor_iff {txid url : String} :
    txid ∈ txidsFor entries url ↔ ∃ urls, (txid, urls) ∈ entries ∧ url ∈ urls := by
  constructor
  · intro h
    obtain ⟨e, he, hmem⟩ := List.mem_flatMap.1 h
    obtain ⟨u, hu, rfl⟩ := List.mem_map.1 hmem
    obtain ⟨hmem, heq⟩ := List.mem_filter.1 hu
    exact ⟨e.2, he, by simpa using (show u = url by simpa using heq) ▸ hmem⟩
  · rintro ⟨urls, hentry, hurl⟩
    exact mem_txidsFor hentry hurl

theorem mem_entryPairs {txid url : String} :
    (txid, url) ∈ entryPairs entries ↔ ∃ urls, (txid, urls) ∈ entries ∧ url ∈ urls := by
  simp [entryPairs]

theorem nodup_entryPairs (hkeys : (entries.map Prod.fst).Nodup)
    (hurls : ∀ e ∈ entries, e.2.Nodup) : (entryPairs entries).Nodup := by
  refine List.nodup_flatMap.2 ⟨fun e he => ?_, ?_⟩
  · exact (hurls e he).map fun _ _ h => (Prod.mk.inj h).2
  · refine (List.pairwise_map.1 hkeys).imp ?_
    intro e e' hne
    refine List.disjoint_left.2 fun p hp hp' => hne ?_
    obtain ⟨u, -, rfl⟩ := List.mem_map.1 hp
    obtain ⟨u', -, heq⟩ := List.mem_map.1 hp'
    exact (Prod.mk.inj heq).1.symm

variable (type : CallbackType) (urls : RangeOrder String)

theorem messagePairs_publishes :
    messagePairs (publishes type urls entries) =
      (urls.order (entries.flatMap Prod.snd).dedup).flatMap fun url =>
        (txidsFor entries url).map fun txid => (txid, url) := by
  unfold messagePairs publishes
  rw [List.flatMap_assoc]
  refine List.flatMap_congr fun url _ => ?_
  rw [List.flatMap_map]
  conv_rhs => rw [← flatten_chunkTxIDs (txidsFor entries url)
    (show 0 < callbackBatchChunkSize by decide)]
  rw [List.map_flatten, List.flatMap_def]

/-- **The pairs in the messages of one kind** are the pairs of the map. -/
theorem published_pairs (hkeys : (entries.map Prod.fst).Nodup)
    (hurls : ∀ e ∈ entries, e.2.Nodup) :
    (messagePairs (publishes type urls entries)).Perm (entryPairs entries) := by
  rw [messagePairs_publishes]
  have horder := urls.perm (entries.flatMap Prod.snd).dedup
  refine (List.perm_ext_iff_of_nodup ?_ (nodup_entryPairs hkeys hurls)).2 ?_
  · refine List.nodup_flatMap.2 ⟨fun url _ => ?_, ?_⟩
    · exact (nodup_txidsFor hkeys hurls url).map fun _ _ h => (Prod.mk.inj h).1
    · refine (horder.nodup_iff.2 (List.nodup_dedup _)).imp ?_
      intro url url' hne
      refine List.disjoint_left.2 fun p hp hp' => hne ?_
      obtain ⟨t, -, rfl⟩ := List.mem_map.1 hp
      obtain ⟨t', -, heq⟩ := List.mem_map.1 hp'
      exact (Prod.mk.inj heq).2.symm
  · rintro ⟨txid, url⟩
    rw [mem_entryPairs, List.mem_flatMap]
    constructor
    · rintro ⟨url', -, hmem⟩
      obtain ⟨t, ht, heq⟩ := List.mem_map.1 hmem
      obtain ⟨rfl, rfl⟩ := Prod.mk.inj heq
      exact mem_txidsFor_iff.1 ht
    · rintro ⟨us, hentry, hurl⟩
      refine ⟨url, ?_, List.mem_map.2 ⟨txid, mem_txidsFor hentry hurl, rfl⟩⟩
      rw [horder.mem_iff, List.mem_dedup]
      exact List.mem_flatMap.2 ⟨_, hentry, hurl⟩

theorem mem_order_iff {url : String} :
    url ∈ urls.order (entries.flatMap Prod.snd).dedup ↔ txidsFor entries url ≠ [] := by
  rw [(urls.perm _).mem_iff, List.mem_dedup, List.mem_flatMap]
  constructor
  · rintro ⟨e, he, hin⟩
    exact List.ne_nil_of_mem (mem_txidsFor (show (e.1, e.2) ∈ entries from he) hin)
  · intro hne
    obtain ⟨txid, htxid⟩ := List.exists_mem_of_ne_nil _ hne
    obtain ⟨us, hentry, hurl⟩ := mem_txidsFor_iff.1 htxid
    exact ⟨_, hentry, hurl⟩

/-- Every message carries between 1 and 5000 txids and is published with its URL as key. -/
theorem publishes_sound {key : String} {msg : CallbackTopicMessage}
    (hmem : (key, msg) ∈ publishes type urls entries) :
    key = msg.callbackURL ∧ msg.type = type ∧ 1 ≤ msg.txIDs.length ∧ msg.txIDs.length ≤ 5000 := by
  obtain ⟨url, hurl, hmem⟩ := List.mem_flatMap.1 hmem
  obtain ⟨chunk, hchunk, heq⟩ := List.mem_map.1 hmem
  obtain ⟨rfl, rfl⟩ := Prod.mk.inj heq
  have hlen := length_of_mem_chunkTxIDs ((mem_order_iff urls).1 hurl) (by decide) hchunk
  exact ⟨rfl, rfl, hlen.1, hlen.2⟩

theorem length_filter_publishes (url : String) :
    ((publishes type urls entries).filter fun m => m.2.callbackURL = url).length =
      (urls.order (entries.flatMap Prod.snd).dedup).count url *
        (chunkTxIDs (txidsFor entries url) callbackBatchChunkSize).length := by
  unfold publishes
  generalize urls.order (entries.flatMap Prod.snd).dedup = order
  induction order with
  | nil => simp
  | cons u order ih =>
    rw [List.flatMap_cons, List.filter_append, List.length_append, ih, List.filter_map,
      List.length_map, List.count_cons]
    by_cases hu : u = url
    · subst hu
      simp [Function.comp_def, Nat.add_mul, Nat.add_comm]
    · simp [hu, Function.comp_def]

/-- **A URL with `k` txids gets `⌈k / 5000⌉` messages.** -/
theorem length_publishes_url (hurls : ∀ e ∈ entries, e.2.Nodup) (url : String) :
    ((publishes type urls entries).filter fun m => m.2.callbackURL = url).length =
      (entries.filter fun e => url ∈ e.2).length ⌈/⌉ 5000 := by
  have hk : (entries.filter fun e => url ∈ e.2).length = (txidsFor entries url).length := by
    rw [txidsFor_eq hurls, List.length_map]
  have hnodup := (urls.perm (entries.flatMap Prod.snd).dedup).nodup_iff.2 (List.nodup_dedup _)
  rw [length_filter_publishes, hk]
  by_cases hne : txidsFor entries url = []
  · -- No txid has the URL, and it is not ranged over.
    rw [List.count_eq_zero_of_not_mem fun h => (mem_order_iff urls).1 h hne, hne]
    simp
  · rw [List.count_eq_one_of_mem hnodup ((mem_order_iff urls).2 hne), Nat.one_mul,
      length_chunkTxIDs hne]
    rfl

end

/-! ### The calls as a whole -/

section

variable {ans : EmitAnswers} {registeredTxids : List (String × List String)}

theorem published_publishCalls {faults : PublishFaults} (hfaults : ∀ i, faults.encodeErr i = none)
    (type type' : CallbackType) (urls : RangeOrder String) (entries : List (String × List String)) :
    published type' (publishCalls faults (publishes type urls entries)) =
      if type = type' then publishes type urls entries else [] := by
  have hcalls : publishCalls faults (publishes type urls entries) =
      (publishes type urls entries).map fun p => .publishWithHashKey p.1 p.2 := by
    unfold publishCalls
    simp only [hfaults, Option.isNone_none, ↓reduceIte]
    rw [List.filterMap_eq_map']
    conv_rhs => rw [← List.zipIdx_map_fst 0 (publishes type urls entries), List.map_map]
    rfl
  rw [hcalls, published, List.filterMap_map]
  split_ifs with htype
  · refine (List.filterMap_congr fun p hp => ?_).trans List.filterMap_some
    have hp' := (publishes_sound type urls (show (p.1, p.2) ∈ _ from hp)).2.1
    simp [hp', htype]
  · refine List.filterMap_eq_nil_iff.2 fun p hp => ?_
    have hp' := (publishes_sound type urls (show (p.1, p.2) ∈ _ from hp)).2.1
    simp [hp', htype]

/-- The producer takes every message. -/
structure PublishFaults.Quiet (faults : PublishFaults) : Prop where
  encodeErr : ∀ i, faults.encodeErr i = none
  publishErr : ∀ i, faults.publishErr i = none

/-- The messages `msgs`, given with their hash keys, report each pair of the map `entries` once. -/
structure ExactBatches (entries : List (String × List String))
    (msgs : List (String × CallbackTopicMessage)) : Prop where
  pairs : (messagePairs msgs).Perm (entryPairs entries)
  once : (messagePairs msgs).Nodup
  key : ∀ m ∈ msgs, m.1 = m.2.callbackURL
  size : ∀ m ∈ msgs, 1 ≤ m.2.txIDs.length ∧ m.2.txIDs.length ≤ 5000
  count : ∀ url, (msgs.filter fun m => m.2.callbackURL = url).length =
    (entries.filter fun e => url ∈ e.2).length ⌈/⌉ 5000

theorem exactBatches_publishes (type : CallbackType) (urls : RangeOrder String)
    {entries ranged : List (String × List String)} (hkeys : (entries.map Prod.fst).Nodup)
    (hurls : ∀ e ∈ entries, e.2.Nodup) (hperm : ranged.Perm entries) :
    ExactBatches entries (publishes type urls ranged) := by
  have hkeys' : (ranged.map Prod.fst).Nodup := (hperm.map _).nodup_iff.2 hkeys
  have hurls' : ∀ e ∈ ranged, e.2.Nodup := fun e he => hurls e (hperm.mem_iff.1 he)
  have hpairs := published_pairs type urls hkeys' hurls'
  refine ⟨hpairs.trans (hperm.flatMap_right _), hpairs.nodup_iff.2 (nodup_entryPairs hkeys' hurls'),
    ?_, ?_, ?_⟩
  · intro m hm
    exact (publishes_sound type urls (show (m.1, m.2) ∈ _ from hm)).1
  · intro m hm
    exact (publishes_sound type urls (show (m.1, m.2) ∈ _ from hm)).2.2
  · intro url
    rw [length_publishes_url type urls hurls', (hperm.filter _).length_eq]

theorem published_append (type : CallbackType) (a b : List SeenCall) :
    published type (a ++ b) = published type a ++ published type b :=
  List.filterMap_append

theorem published_increments (type : CallbackType) (entries : List (String × List String))
    (subtreeID : String) :
    published type (entries.map fun e => SeenCall.increment e.1 subtreeID) = [] := by
  rw [published, List.filterMap_map]
  exact List.filterMap_eq_nil_iff.2 fun e _ => rfl

theorem incremented_append (a b : List SeenCall) :
    incremented (a ++ b) = incremented a ++ incremented b :=
  List.filterMap_append

theorem incremented_publishCalls (faults : PublishFaults)
    (msgs : List (String × CallbackTopicMessage)) :
    incremented (publishCalls faults msgs) = [] := by
  rw [incremented, publishCalls, List.filterMap_filterMap]
  refine List.filterMap_eq_nil_iff.2 fun p _ => ?_
  split_ifs <;> rfl

theorem incremented_increments (entries : List (String × List String)) (subtreeID : String) :
    incremented (entries.map fun e => SeenCall.increment e.1 subtreeID) =
      entries.map fun e => (e.1, subtreeID) := by
  rw [incremented, List.filterMap_map]
  exact congrFun List.filterMap_eq_map' _

theorem emitCalls_eq (hseen : ans.seenFaults.Quiet) (hthreshold : ans.thresholdFaults.Quiet)
    (hne : registeredTxids ≠ []) (subtreeID : String) :
    published .seenOnNetwork (emitCalls ans registeredTxids subtreeID) =
        publishes .seenOnNetwork ans.seenURLs (ans.seenTxids.order registeredTxids) ∧
      incremented (emitCalls ans registeredTxids subtreeID) =
        (ans.countedTxids.order registeredTxids).map (fun e => (e.1, subtreeID)) ∧
      published .seenMultipleNodes (emitCalls ans registeredTxids subtreeID) =
        publishes .seenMultipleNodes ans.thresholdURLs
          (reachedEntries ans (ans.countedTxids.order registeredTxids)) := by
  rw [emitCalls, if_neg (by simpa using hne)]
  refine ⟨?_, ?_, ?_⟩
  · rw [published_append, published_append, published_increments,
      published_publishCalls hseen.encodeErr, published_publishCalls hthreshold.encodeErr,
      if_pos rfl, if_neg (by decide), List.append_nil, List.append_nil]
  · rw [incremented_append, incremented_append, incremented_publishCalls,
      incremented_publishCalls, incremented_increments, List.nil_append, List.append_nil]
  · rw [published_append, published_append, published_increments,
      published_publishCalls hseen.encodeErr, published_publishCalls hthreshold.encodeErr,
      if_pos rfl, if_neg (by decide), List.nil_append, List.nil_append]

theorem acceptedMessages_publishAll {faults : PublishFaults} (hfaults : faults.Quiet)
    (type : CallbackType) (urls : RangeOrder String) (entries : List (String × List String)) :
    acceptedMessages (publishAll faults (batches type urls entries)) =
      (publishes type urls entries).map Prod.snd := by
  have hbatches : batches type urls entries = (publishes type urls entries).map Prod.snd := by
    unfold batches publishes
    rw [List.map_flatMap]
    refine List.flatMap_congr fun url _ => ?_
    rw [List.map_map]
    rfl
  rw [acceptedMessages, publishAll]
  simp only [hfaults.encodeErr, hfaults.publishErr, Option.or_none]
  rw [List.filter_eq_self.2, List.map_map, hbatches]
  · conv_rhs => rw [← List.zipIdx_map_fst 0 ((publishes type urls entries).map Prod.snd)]
    rfl
  · intro m hm
    obtain ⟨p, -, rfl⟩ := List.mem_map.1 hm
    rfl

/-- **The messages are an exact partition.**  For every map from txids to duplicate-free URL lists,
every iteration order and every answer of the seen counter, when all publishes succeed: the seen
counter of every txid is incremented once; the SEEN_ON_NETWORK messages report the pairs of the map
and the SEEN_MULTIPLE_NODES messages the pairs of the txids that reached the threshold, each pair
once, in messages of at most 5000 txids, `⌈k / 5000⌉` for a URL with `k` txids. -/
theorem seen_batches (hkeys : (registeredTxids.map Prod.fst).Nodup)
    (hurls : ∀ e ∈ registeredTxids, e.2.Nodup) (hseen : ans.seenFaults.Quiet)
    (hthreshold : ans.thresholdFaults.Quiet) (subtreeID : String) :
    let calls := emitCalls ans registeredTxids subtreeID
    let emission := emitBatchedSeenCallbacks ans registeredTxids
    (incremented calls).Perm (registeredTxids.map fun e => (e.1, subtreeID)) ∧
      ExactBatches registeredTxids (published .seenOnNetwork calls) ∧
      acceptedMessages emission.seen = (published .seenOnNetwork calls).map Prod.snd ∧
      ExactBatches (reachedEntries ans registeredTxids) (published .seenMultipleNodes calls) ∧
      acceptedMessages emission.seenMultiple =
        (published .seenMultipleNodes calls).map Prod.snd := by
  intro calls emission
  by_cases hne : registeredTxids = []
  · subst hne
    have hempty : ExactBatches [] [] := by
      refine ⟨.refl _, List.nodup_nil, by simp, by simp, ?_⟩
      intro url
      simp
    exact ⟨.refl _, hempty, rfl, hempty, rfl⟩
  obtain ⟨hon, hinc, hmultiple⟩ := emitCalls_eq hseen hthreshold hne subtreeID
  have hcounted := ans.countedTxids.perm registeredTxids
  have hreached : (reachedEntries ans registeredTxids).Sublist registeredTxids :=
    List.filter_sublist
  have hemission : emission = ⟨publishAll ans.seenFaults
      (batches .seenOnNetwork ans.seenURLs (ans.seenTxids.order registeredTxids)),
      publishAll ans.thresholdFaults (batches .seenMultipleNodes ans.thresholdURLs
        (reachedEntries ans (ans.countedTxids.order registeredTxids)))⟩ := by
    simp only [emission, emitBatchedSeenCallbacks, if_neg (show ¬ registeredTxids.length = 0 by
      simpa using hne)]
    rfl
  refine ⟨?_, ?_, ?_, ?_, ?_⟩
  · rw [hinc]
    exact hcounted.map _
  · rw [hon]
    exact exactBatches_publishes _ _ hkeys hurls (ans.seenTxids.perm registeredTxids)
  · rw [hemission, hon, acceptedMessages_publishAll hseen]
  · rw [hmultiple]
    refine exactBatches_publishes _ _ (hkeys.sublist (hreached.map _)) ?_ (hcounted.filter _)
    intro e he
    exact hurls e (hreached.subset he)
  · rw [hemission, hmultiple, acceptedMessages_publishAll hthreshold]

end

/-- Two txids share a URL and one of them reaches the threshold. -/
theorem seen_batches_two :
    let ans : EmitAnswers := ⟨.insertion _, .insertion _, ⟨fun _ => none, fun _ => none⟩,
      .insertion _, fun txid => .ok (txid == "a"), .insertion _, ⟨fun _ => none, fun _ => none⟩⟩
    let registeredTxids := [("a", ["http://u", "http://v"]), ("b", ["http://u"])]
    let calls := emitCalls ans registeredTxids "s"
    ExactBatches registeredTxids (published .seenOnNetwork calls) ∧
      ExactBatches [("a", ["http://u", "http://v"])] (published .seenMultipleNodes calls) := by
  intro ans registeredTxids calls
  have h := @seen_batches ans registeredTxids (by decide) (by decide)
    ⟨fun _ => rfl, fun _ => rfl⟩ ⟨fun _ => rfl, fun _ => rfl⟩ "s"
  exact ⟨h.2.1, h.2.2.2.1⟩

end Subtree

end MerkleService
