import MerkleService.Subtree.Registrations
import MerkleService.Cache.DedupCache
import MerkleService.Datahub.Client
import MerkleService.Kafka.Messages

/-!
# The subtree processor

`Processor.handleMessage` (`internal/subtree/processor.go`) takes the announcement of a subtree,
fetches its txids, looks up which of them are registered, publishes SEEN_ON_NETWORK and
SEEN_MULTIPLE_NODES messages in batches, and puts the hash of the subtree into the dedup cache.
When the data cannot be fetched, stored, parsed or looked up, the announcement is published again
with a higher `AttemptCount`, or to a dead-letter queue.

What is outside answers in `Answers`: DataHub, the stores, the producers, and the order in which Go
ranges over a map.

* `findRegisteredTxidsOr_ok` : what is looked up when a call of `BatchGet` fails.
* `mem_emitted` : a txid with a URL is in a SEEN_ON_NETWORK message for that URL.
* `processed_notified` : **a subtree that is marked as processed has notified**, unless the cache
  holds a txid as not registered.
* `processed_hidden` : a txid is registered after a subtree with it was processed; the next subtree
  with it does not notify.
-/

namespace MerkleService

namespace Subtree

open Cache Kafka

/-! ### Looking up -/

/-- The errors of the two calls of `BatchGet`. -/
structure BatchGetErrs where
  uncached : Option String
  cachedRegistered : Option String

section

variable (sum64 : List UInt8 → UInt64)

/-- The txids to look up, and those for which only the URLs are missing. -/
def Processor.filterTxids (p : Processor) (txids : List String) :
    Option (List String × List String) :=
  match p.regCache with
  | some c => filterUncached sum64 c txids
  | none => some (txids, [])

/-- The cache after the lookup. -/
def Processor.cacheFound (errs : MmapErrs) (p : Processor) (uncached : List String)
    (registeredFromStore : URLMap) : Option (Option ImprovedCache) :=
  match p.regCache with
  | some c => (updateCache sum64 errs c uncached registeredFromStore).map some
  | none => some none

/-- `findRegisteredTxids`, with a registration store that can fail: an error of the second call is
logged. -/
def findRegisteredTxidsOr (errs : MmapErrs) (batchGet : BatchGetErrs) (p : Processor)
    (txids : List String) : Option (Processor × Except String URLMap) := do
  let (uncached, cachedRegistered) ← p.filterTxids sum64 txids
  match if 0 < uncached.length then batchGet.uncached else none with
  | some err => some (p, .error ("batch get registrations: " ++ err))
  | none => do
    let registeredFromStore := p.registrationStore.lookup uncached
    let regCache ← p.cacheFound sum64 errs uncached registeredFromStore
    let cachedURLs : URLMap := match batchGet.cachedRegistered with
      | some _ => fun _ => none
      | none => p.registrationStore.lookup cachedRegistered
    let allRegistered : URLMap := fun txid => (cachedURLs txid).or (registeredFromStore txid)
    some ({ p with regCache := regCache }, .ok allRegistered)

theorem findRegisteredTxidsOr_eq (errs : MmapErrs) (p : Processor) (txids : List String) :
    findRegisteredTxidsOr sum64 errs ⟨none, none⟩ p txids =
      (findRegisteredTxids sum64 errs p txids).map fun r => (r.1, .ok r.2) := by
  obtain ⟨r, regCache⟩ := p
  cases regCache with
  | none => simp [findRegisteredTxidsOr, findRegisteredTxids, Processor.filterTxids,
      Processor.cacheFound]
  | some c =>
    simp only [findRegisteredTxidsOr, findRegisteredTxids, Processor.filterTxids,
      Processor.cacheFound, ite_self, Option.bind_eq_bind, Option.map_bind]
    cases filterUncached sum64 c txids with
    | none => rfl
    | some split =>
      simp only [Option.bind_some, Function.comp_apply]
      cases updateCache sum64 errs c split.1 (r.lookup split.1) <;> rfl

/-- The cache holds the txid as registered. -/
def Processor.recalls (p : Processor) (txid : String) : Prop :=
  ∃ c, p.regCache = some c ∧ getCached sum64 c txid = some (true, true)

end

/-! ### Publishing -/

/-- The order in which Go ranges over a map. -/
structure RangeOrder (α : Type) where
  order : List α → List α
  perm : ∀ l, (order l).Perm l

/-- The errors of encoding and publishing the messages of one kind, by their number. -/
structure PublishFaults where
  encodeErr : ℕ → Option String
  publishErr : ℕ → Option String

/-- The messages, each with the error that was logged for it. -/
def publishAll (faults : PublishFaults) (msgs : List CallbackTopicMessage) :
    List (CallbackTopicMessage × Option String) :=
  msgs.zipIdx.map fun p => (p.1, (faults.encodeErr p.2).or (faults.publishErr p.2))

def callbackBatchChunkSize : ℕ := 5000

def chunkTxIDs (txids : List String) (size : ℕ) : List (List String) :=
  if txids.length ≤ size then [txids]
  else (List.range ((txids.length + size - 1) / size)).map fun i =>
    (txids.drop (i * size)).take size

/-- The txids to report to a URL. -/
def txidsFor (entries : List (String × List String)) (url : String) : List String :=
  entries.flatMap fun e => (e.2.filter (· = url)).map fun _ => e.1

/-- The batches of messages of one type: the map from URLs to txids is filled, and ranged over. -/
def batches (type : CallbackType) (urls : RangeOrder String)
    (entries : List (String × List String)) : List CallbackTopicMessage :=
  (urls.order (entries.flatMap Prod.snd).dedup).flatMap fun url =>
    (chunkTxIDs (txidsFor entries url) callbackBatchChunkSize).map fun chunk =>
      { callbackURL := url, type := type, txIDs := chunk }

/-- What `emitBatchedSeenCallbacks` meets. -/
structure EmitAnswers where
  seenTxids : RangeOrder (String × List String)
  seenURLs : RangeOrder String
  seenFaults : PublishFaults
  countedTxids : RangeOrder (String × List String)
  /-- `seenCounterStore.Increment`: whether the threshold was reached. -/
  increment : String → Except String Bool
  thresholdURLs : RangeOrder String
  thresholdFaults : PublishFaults

structure Emission where
  /-- The SEEN_ON_NETWORK messages, each with its error if it has one. -/
  seen : List (CallbackTopicMessage × Option String)
  /-- The SEEN_MULTIPLE_NODES messages. -/
  seenMultiple : List (CallbackTopicMessage × Option String)

/-- The messages that the producer has accepted. -/
def acceptedMessages (msgs : List (CallbackTopicMessage × Option String)) :
    List CallbackTopicMessage :=
  (msgs.filter fun m => m.2.isNone).map Prod.fst

def emitBatchedSeenCallbacks (ans : EmitAnswers) (registeredTxids : List (String × List String)) :
    Emission :=
  if registeredTxids.length = 0 then ⟨[], []⟩
  else
    let reached := (ans.countedTxids.order registeredTxids).filter fun e =>
      match ans.increment e.1 with
      | .ok thresholdReached => thresholdReached
      | .error _ => false
    { seen := publishAll ans.seenFaults
        (batches .seenOnNetwork ans.seenURLs (ans.seenTxids.order registeredTxids))
      seenMultiple := publishAll ans.thresholdFaults
        (batches .seenMultipleNodes ans.thresholdURLs reached) }

/-- The entries of a map whose keys are among `txids`. -/
def URLMap.entries (m : URLMap) (txids : List String) : List (String × List String) :=
  txids.dedup.filterMap fun txid => (m txid).map fun urls => (txid, urls)

/-! ### `handleMessage` -/

structure SubtreeConfig where
  storageMode : String
  maxAttempts : Int64

/-- The processor, with the dedup cache if there is one, and the counters. -/
structure Fetcher extends Processor where
  dedupCache : Option DedupCache
  messagesProcessed : ℕ := 0
  messagesRetried : ℕ := 0
  messagesDLQ : ℕ := 0

/-- The processor after `Init`. -/
def Fetcher.init (maxMB dedupCacheSize : ℤ) : Fetcher :=
  { Processor.init maxMB with
    dedupCache := if 0 < dedupCacheSize then some (.new dedupCacheSize) else none }

/-- What `handleMessage` meets. -/
structure Answers where
  fetch : Except String (List UInt8)
  storeErr : Option String
  mmap : MmapErrs
  batchGet : BatchGetErrs
  emit : EmitAnswers
  /-- Encoding and publishing the announcement again, or to the DLQ. -/
  encodeErr : Option String
  publishErr : Option String

/-- How `handleMessage` ends. -/
inductive Outcome where
  /-- It could not be decoded. -/
  | malformed
  | duplicate
  | processed (emission : Emission)
  /-- It was published again, or this failed. -/
  | republished (msg : SubtreeMessage) (err : Option String)
  /-- It was published to the DLQ, or this failed. -/
  | deadLettered (msg : SubtreeMessage) (err : Option String)

/-- The error that `handleMessage` returns. -/
def Outcome.err : Outcome → Option String
  | .republished _ err | .deadLettered _ err => err
  | _ => none

def Fetcher.contains (f : Fetcher) (hash : String) : Bool := f.dedupCache.any (·.contains hash)

/-- The end of `handleMessage`: the hash is put into the dedup cache. -/
def Fetcher.processed (f : Fetcher) (hash : String) : Fetcher :=
  { f with dedupCache := f.dedupCache.map fun c => (c.add hash).1
           messagesProcessed := f.messagesProcessed + 1 }

def SubtreeConfig.attempts (cfg : SubtreeConfig) : Int64 :=
  if cfg.maxAttempts ≤ 0 then 10 else cfg.maxAttempts

/-- The error of encoding, else of publishing. -/
def handOnErr (ans : Answers) (encoding publishing : String) : Option String :=
  match ans.encodeErr with
  | some err => some (encoding ++ err)
  | none => ans.publishErr.map (publishing ++ ·)

def handleTransientFailure (cfg : SubtreeConfig) (ans : Answers) (f : Fetcher)
    (subtreeMsg : SubtreeMessage) : Fetcher × Outcome :=
  let nextAttempt := subtreeMsg.attemptCount + 1
  let msg := { subtreeMsg with attemptCount := nextAttempt }
  if cfg.attempts ≤ nextAttempt then
    let err := handOnErr ans "encoding subtree message for DLQ: "
      "publishing subtree message to DLQ: "
    (if err.isNone then { f with messagesDLQ := f.messagesDLQ + 1 } else f, .deadLettered msg err)
  else
    let err := handOnErr ans "encoding subtree message for retry: "
      "re-publishing subtree message for retry: "
    (if err.isNone then { f with messagesRetried := f.messagesRetried + 1 } else f,
      .republished msg err)

/-- `handleMessage`; `none` is a panic. -/
def handleMessage (sum64 : List UInt8 → UInt64) (cfg : SubtreeConfig) (ans : Answers) (f : Fetcher)
    (decoded : Except String SubtreeMessage) : Option (Fetcher × Outcome) :=
  match decoded with
  | .error _ => some (f, .malformed)
  | .ok subtreeMsg =>
    if f.contains subtreeMsg.hash then some (f, .duplicate)
    else
      match ans.fetch with
      | .error _ => some (handleTransientFailure cfg ans f subtreeMsg)
      | .ok rawData =>
        if cfg.storageMode = "realtime" ∧ ans.storeErr.isSome then
          some (handleTransientFailure cfg ans f subtreeMsg)
        else
          match Datahub.parseRawTxids rawData with
          | .error _ => some (handleTransientFailure cfg ans f subtreeMsg)
          | .ok txids =>
            if txids.length = 0 then some (f.processed subtreeMsg.hash, .processed ⟨[], []⟩)
            else do
              let (p, found) ← findRegisteredTxidsOr sum64 ans.mmap ans.batchGet f.toProcessor txids
              let f := { f with toProcessor := p }
              match found with
              | .error _ => some (handleTransientFailure cfg ans f subtreeMsg)
              | .ok registeredTxids =>
                let emission := emitBatchedSeenCallbacks ans.emit (registeredTxids.entries txids)
                some (f.processed subtreeMsg.hash, .processed emission)

/-! ### What is looked up -/

section

variable {sum64 : List UInt8 → UInt64}

theorem mem_filterUncached {c : ImprovedCache} {txids uncached cachedRegistered : List String}
    (h : filterUncached sum64 c txids = some (uncached, cachedRegistered)) {txid : String}
    (hmem : txid ∈ txids) :
    ∃ isReg isCached, getCached sum64 c txid = some (isReg, isCached) ∧
      (isCached = false → txid ∈ uncached) ∧
      (isCached = true → isReg = true → txid ∈ cachedRegistered) := by
  induction txids generalizing uncached cachedRegistered with
  | nil => cases hmem
  | cons x txids ih =>
    simp only [filterUncached, Option.bind_eq_bind, Option.bind_eq_some_iff] at h
    obtain ⟨⟨isReg, isCached⟩, hget, ⟨u, cr⟩, hrest, hpair⟩ := h
    rcases List.mem_cons.1 hmem with rfl | hmem
    · refine ⟨isReg, isCached, hget, ?_, ?_⟩
      · rintro rfl
        obtain ⟨rfl, rfl⟩ := Prod.mk.inj (Option.some.inj hpair)
        exact List.mem_cons_self
      · rintro rfl rfl
        obtain ⟨rfl, rfl⟩ := Prod.mk.inj (Option.some.inj hpair)
        exact List.mem_cons_self
    · obtain ⟨isReg', isCached', hget', hu, hcr⟩ := ih hrest hmem
      refine ⟨isReg', isCached', hget', ?_, ?_⟩
      · intro hcached
        have hold := hu hcached
        simp only [Option.some.injEq] at hpair
        split_ifs at hpair <;> obtain ⟨rfl, rfl⟩ := Prod.mk.inj hpair
        · exact List.mem_cons_of_mem _ hold
        · exact hold
        · exact hold
      · intro hcached hreg
        have hold := hcr hcached hreg
        simp only [Option.some.injEq] at hpair
        split_ifs at hpair <;> obtain ⟨rfl, rfl⟩ := Prod.mk.inj hpair
        · exact hold
        · exact List.mem_cons_of_mem _ hold
        · exact hold

theorem lookup_of_mem {r : Registrations} {txids : List String} {txid : String}
    (hmem : txid ∈ txids) (hreg : r txid ≠ []) : r.lookup txids txid = some (r txid) := by
  rw [Registrations.lookup, if_pos (List.length_pos_of_mem hmem), Registrations.batchGet,
    if_pos ⟨hmem, hreg⟩]

theorem lookup_cases (r : Registrations) (txids : List String) (txid : String) :
    r.lookup txids txid = none ∨ r.lookup txids txid = some (r txid) := by
  unfold Registrations.lookup Registrations.batchGet
  by_cases hlen : 0 < txids.length
  · rw [if_pos hlen]
    by_cases hreg : txid ∈ txids ∧ r txid ≠ []
    · exact Or.inr (if_pos hreg)
    · exact Or.inl (if_neg hreg)
  · exact Or.inl (by rw [if_neg hlen])

/-- **What is looked up**: the URLs of a registered txid are found, unless the cache holds it as not
registered, or as registered and the second call of `BatchGet` failed. -/
theorem findRegisteredTxidsOr_ok {errs : MmapErrs} {batchGet : BatchGetErrs} {p p' : Processor}
    {txids : List String} {urls : URLMap}
    (h : findRegisteredTxidsOr sum64 errs batchGet p txids = some (p', .ok urls)) {txid : String}
    (hmem : txid ∈ txids) (hreg : p.registrationStore txid ≠ []) (hhides : ¬ p.hides sum64 txid)
    (hrecalls : p.recalls sum64 txid → batchGet.cachedRegistered = none) :
    urls txid = some (p.registrationStore txid) := by
  simp only [findRegisteredTxidsOr, Option.bind_eq_bind, Option.bind_eq_some_iff] at h
  obtain ⟨⟨uncached, cachedRegistered⟩, hfilter, h⟩ := h
  dsimp only at h
  split at h
  · simp at h
  obtain ⟨regCache, -, h⟩ := Option.bind_eq_some_iff.1 h
  obtain ⟨-, hurls⟩ := Prod.mk.inj (Option.some.inj h)
  obtain rfl := Except.ok.inj hurls
  -- where the txid was looked up
  have hasked : txid ∈ uncached ∨
      batchGet.cachedRegistered = none ∧ txid ∈ cachedRegistered := by
    unfold Processor.filterTxids at hfilter
    cases hcache : p.regCache with
    | none =>
      rw [hcache] at hfilter
      obtain ⟨rfl, rfl⟩ := Prod.mk.inj (Option.some.inj hfilter)
      exact Or.inl hmem
    | some c =>
      rw [hcache] at hfilter
      obtain ⟨isReg, isCached, hget, huncached, hcached⟩ := mem_filterUncached hfilter hmem
      cases isCached with
      | false => exact Or.inl (huncached rfl)
      | true =>
        cases isReg with
        | false => exact absurd ⟨c, hcache, hget⟩ hhides
        | true => exact Or.inr ⟨hrecalls ⟨c, hcache, hget⟩, hcached rfl rfl⟩
  rcases hasked with hu | ⟨hnone, hcr⟩
  · dsimp only
    rw [lookup_of_mem hu hreg]
    cases batchGet.cachedRegistered with
    | some err => rfl
    | none =>
      dsimp only
      rcases lookup_cases p.registrationStore cachedRegistered txid with hc | hc <;> rw [hc] <;> rfl
  · dsimp only
    rw [hnone]
    dsimp only
    rw [lookup_of_mem hcr hreg]
    rfl

end

/-! ### What is published -/

theorem mem_chunkTxIDs {txids : List String} {size : ℕ} (hsize : 0 < size) {txid : String}
    (hmem : txid ∈ txids) : ∃ chunk ∈ chunkTxIDs txids size, txid ∈ chunk := by
  unfold chunkTxIDs
  split_ifs with hlen
  · exact ⟨txids, List.mem_singleton_self _, hmem⟩
  · obtain ⟨k, hk, rfl⟩ := List.mem_iff_getElem.1 hmem
    refine ⟨_, List.mem_map.2 ⟨k / size, ?_, rfl⟩, ?_⟩
    · rw [List.mem_range, Nat.div_lt_iff_lt_mul hsize]
      have hceil := Nat.lt_div_mul_add (a := txids.length + size - 1) hsize
      omega
    · -- element `k` is element `k % size` of its chunk
      have hdiv := Nat.div_add_mod' k size
      have hlt := Nat.mod_lt k hsize
      refine List.mem_iff_getElem?.2 ⟨k % size, ?_⟩
      rw [List.getElem?_take_of_lt hlt, List.getElem?_drop, hdiv, List.getElem?_eq_getElem hk]

theorem mem_txidsFor {entries : List (String × List String)} {txid url : String}
    {urls : List String} (hentry : (txid, urls) ∈ entries) (hurl : url ∈ urls) :
    txid ∈ txidsFor entries url := by
  refine List.mem_flatMap.2 ⟨_, hentry, List.mem_map.2 ⟨url, ?_, rfl⟩⟩
  exact List.mem_filter.2 ⟨hurl, by simp⟩

theorem mem_batches (type : CallbackType) (order : RangeOrder String)
    {entries : List (String × List String)} {txid url : String} {urls : List String}
    (hentry : (txid, urls) ∈ entries) (hurl : url ∈ urls) :
    ∃ m ∈ batches type order entries, m.type = type ∧ m.callbackURL = url ∧ txid ∈ m.txIDs := by
  obtain ⟨chunk, hchunk, htxid⟩ := mem_chunkTxIDs (by decide : 0 < callbackBatchChunkSize)
    (mem_txidsFor hentry hurl)
  refine ⟨{ callbackURL := url, type := type, txIDs := chunk }, ?_, rfl, rfl, htxid⟩
  refine List.mem_flatMap.2 ⟨url, ?_, List.mem_map.2 ⟨chunk, hchunk, rfl⟩⟩
  rw [(order.perm _).mem_iff, List.mem_dedup]
  exact List.mem_flatMap.2 ⟨_, hentry, hurl⟩

theorem mem_publishAll (faults : PublishFaults) {msgs : List CallbackTopicMessage}
    {m : CallbackTopicMessage} (hmem : m ∈ msgs) : ∃ err, (m, err) ∈ publishAll faults msgs := by
  obtain ⟨i, hi⟩ := List.getElem?_of_mem hmem
  exact ⟨_, List.mem_map.2 ⟨(m, i), List.mk_mem_zipIdx_iff_getElem?.2 hi, rfl⟩⟩

/-- **What is published**: a txid with a URL is in a SEEN_ON_NETWORK message to the URL. -/
theorem mem_emitted (ans : EmitAnswers) {entries : List (String × List String)}
    {txid url : String} {urls : List String} (hentry : (txid, urls) ∈ entries) (hurl : url ∈ urls) :
    ∃ m err, (m, err) ∈ (emitBatchedSeenCallbacks ans entries).seen ∧ m.type = .seenOnNetwork ∧
      m.callbackURL = url ∧ txid ∈ m.txIDs := by
  have hentry' : (txid, urls) ∈ ans.seenTxids.order entries :=
    (ans.seenTxids.perm _).mem_iff.2 hentry
  obtain ⟨m, hm, htype, hto, htxid⟩ :=
    mem_batches .seenOnNetwork ans.seenURLs hentry' hurl
  obtain ⟨err, herr⟩ := mem_publishAll ans.seenFaults hm
  have hlen : entries.length ≠ 0 := List.length_pos_of_mem hentry |>.ne'
  refine ⟨m, err, ?_, htype, hto, htxid⟩
  unfold emitBatchedSeenCallbacks
  rw [if_neg hlen]
  exact herr

theorem mem_entries {m : URLMap} {txids : List String} {txid : String} {urls : List String}
    (hmem : txid ∈ txids) (hurls : m txid = some urls) : (txid, urls) ∈ m.entries txids :=
  List.mem_filterMap.2 ⟨txid, List.mem_dedup.2 hmem, by rw [hurls]; rfl⟩

/-! ### A subtree that is marked as processed -/

theorem contains_handleTransientFailure (cfg : SubtreeConfig) (ans : Answers) (f : Fetcher)
    (msg : SubtreeMessage) (hash : String) :
    (handleTransientFailure cfg ans f msg).1.contains hash = f.contains hash := by
  unfold handleTransientFailure
  dsimp only
  split_ifs <;> rfl

/-- `handleMessage` puts the hash into the dedup cache only at its end. -/
theorem handleMessage_adds {sum64 : List UInt8 → UInt64} {cfg : SubtreeConfig} {ans : Answers}
    {f f' : Fetcher} {msg : SubtreeMessage} {out : Outcome}
    (h : handleMessage sum64 cfg ans f (.ok msg) = some (f', out))
    (hnew : f.contains msg.hash = false) (hadd : f'.contains msg.hash = true) :
    ∃ rawData txids emission, ans.fetch = .ok rawData ∧ Datahub.parseRawTxids rawData = .ok txids ∧
      out = .processed emission ∧
      (txids = [] ∨ ∃ p urls,
        findRegisteredTxidsOr sum64 ans.mmap ans.batchGet f.toProcessor txids = some (p, .ok urls) ∧
        emission = emitBatchedSeenCallbacks ans.emit (urls.entries txids)) := by
  have hfail : ∀ {f₁ : Fetcher}, f₁.dedupCache = f.dedupCache →
      some (handleTransientFailure cfg ans f₁ msg) ≠ some (f', out) := by
    intro f₁ hcache heq
    have hcontains := contains_handleTransientFailure cfg ans f₁ msg msg.hash
    rw [Option.some.inj heq, hadd, Fetcher.contains, hcache] at hcontains
    rw [Fetcher.contains, ← hcontains] at hnew
    cases hnew
  unfold handleMessage at h
  dsimp only at h
  rw [if_neg (by simp [hnew])] at h
  split at h
  · exact absurd h (hfail rfl)
  rename_i rawData hfetch
  split_ifs at h
  · exact absurd h (hfail rfl)
  split at h
  · exact absurd h (hfail rfl)
  rename_i txids hparse
  split_ifs at h with hlen
  · obtain ⟨-, rfl⟩ := Prod.mk.inj (Option.some.inj h)
    exact ⟨rawData, txids, _, hfetch, hparse, rfl, Or.inl (List.length_eq_zero_iff.1 hlen)⟩
  · obtain ⟨⟨p, found⟩, hfind, h⟩ := Option.bind_eq_some_iff.1 h
    dsimp only at h
    split at h
    · exact absurd h (hfail rfl)
    · rename_i urls
      obtain ⟨-, rfl⟩ := Prod.mk.inj (Option.some.inj h)
      exact ⟨rawData, txids, _, hfetch, hparse, rfl, Or.inr ⟨p, urls, hfind, rfl⟩⟩

/-- **A subtree that is marked as processed has notified.**  For any contents of the subtree, the
registration store and the cache and any failures: when `handleMessage` puts the hash of the subtree
into the dedup cache, each txid of the subtree, with each URL that the store has for it, is in a
SEEN_ON_NETWORK message, which the producer has accepted if encoding and publishing it gave no
error.  Excepted are the txids that the cache holds as not registered; and those that it holds as
registered, when the call of `BatchGet` for their URLs failed. -/
theorem processed_notified {sum64 : List UInt8 → UInt64} {cfg : SubtreeConfig} {ans : Answers}
    {f f' : Fetcher} {msg : SubtreeMessage} {out : Outcome}
    (h : handleMessage sum64 cfg ans f (.ok msg) = some (f', out))
    (hnew : f.contains msg.hash = false) (hadd : f'.contains msg.hash = true) :
    ∃ rawData txids emission, ans.fetch = .ok rawData ∧ Datahub.parseRawTxids rawData = .ok txids ∧
      out = .processed emission ∧
      ∀ txid ∈ txids, ∀ url ∈ f.registrationStore txid, ¬ f.hides sum64 txid →
        (f.recalls sum64 txid → ans.batchGet.cachedRegistered = none) →
        ∃ m err, (m, err) ∈ emission.seen ∧ m.type = .seenOnNetwork ∧ m.callbackURL = url ∧
          txid ∈ m.txIDs ∧ (err = none → m ∈ acceptedMessages emission.seen) := by
  obtain ⟨rawData, txids, emission, hfetch, hparse, hout, hemitted⟩ :=
    handleMessage_adds h hnew hadd
  refine ⟨rawData, txids, emission, hfetch, hparse, hout, ?_⟩
  intro txid hmem url hurl hhides hrecalls
  rcases hemitted with rfl | ⟨p, urls, hfind, rfl⟩
  · cases hmem
  · have hreg : f.registrationStore txid ≠ [] := List.ne_nil_of_mem hurl
    have hfound := findRegisteredTxidsOr_ok hfind hmem hreg hhides hrecalls
    obtain ⟨m, err, hm, htype, hto, htxid⟩ := mem_emitted ans.emit (mem_entries hmem hfound) hurl
    refine ⟨m, err, hm, htype, hto, htxid, ?_⟩
    rintro rfl
    exact List.mem_map.2 ⟨(m, none), List.mem_filter.2 ⟨hm, rfl⟩, rfl⟩

/-- The maps are ranged over in the order of insertion. -/
def RangeOrder.insertion (α : Type) : RangeOrder α := ⟨id, fun l => .refl l⟩

/-- No call fails, and the data is the record of `txidAB`. -/
def answersAB : Answers where
  fetch := .ok (List.replicate 32 0xab)
  storeErr := none
  mmap := noErrs
  batchGet := ⟨none, none⟩
  emit := ⟨.insertion _, .insertion _, ⟨fun _ => none, fun _ => none⟩, .insertion _,
    fun _ => .ok false, .insertion _, ⟨fun _ => none, fun _ => none⟩⟩
  encodeErr := none
  publishErr := none

theorem parseRawTxids_AB : Datahub.parseRawTxids (List.replicate 32 0xab) = .ok [txidAB] := by
  decide +kernel

def tenAttempts : SubtreeConfig := ⟨"deferred", 10⟩

/-- The processor without caches. -/
def uncachedFetcher : Fetcher where
  registrationStore := fun _ => []
  regCache := none
  dedupCache := none

/-- `txidAB` is registered, and there is no registration cache. -/
def fetcherAB : Fetcher where
  registrationStore := fun txid => if txid = txidAB then ["http://arcade/callback"] else []
  regCache := none
  dedupCache := some (.new 100)

/-- The subtree of one registered txid. -/
theorem processed_notified_AB :
    ∃ f' emission, handleMessage sum64AB tenAttempts answersAB fetcherAB
      (.ok ⟨"s", "", "", "", 0⟩) =
        some (f', .processed emission) ∧
      f'.contains "s" = true ∧ ∃ m ∈ acceptedMessages emission.seen, m.type = .seenOnNetwork ∧
        m.callbackURL = "http://arcade/callback" ∧ txidAB ∈ m.txIDs := by
  have hrun : (handleMessage sum64AB tenAttempts answersAB fetcherAB (.ok ⟨"s", "", "", "", 0⟩)).any
      (fun r => r.1.contains "s" && match r.2 with
        | .processed emission => emission.seen.all fun m => m.2.isNone
        | _ => false) = true := by
    decide +kernel
  obtain ⟨⟨f', out⟩, hhandle, hboth⟩ := (Option.any_eq_true _ _).1 hrun
  obtain ⟨hadd, hall⟩ := (Bool.and_eq_true _ _).mp hboth
  obtain ⟨rawData, txids, emission, hfetch, hparse, rfl, hnotified⟩ :=
    processed_notified hhandle (by decide) hadd
  obtain rfl := Except.ok.inj hfetch
  obtain rfl := Except.ok.inj (parseRawTxids_AB.symm.trans hparse)
  obtain ⟨m, err, hm, htype, hto, htxid, haccepted⟩ := hnotified txidAB (by simp)
    "http://arcade/callback" (by simp [fetcherAB]) (by rintro ⟨c, hc, -⟩; cases hc) fun _ => rfl
  have hnone : err = none := Option.isNone_iff_eq_none.1 (List.all_eq_true.1 hall _ hm)
  exact ⟨f', emission, hhandle, hadd, m, haccepted hnone, htype, hto, htxid⟩

/-! ### A registration that is not notified -/

/-- Announcements that are handled, and registrations through the API. -/
inductive FetcherEvent where
  | add (txid url : String)
  | handle (ans : Answers) (msg : SubtreeMessage)

def Fetcher.step (sum64 : List UInt8 → UInt64) (cfg : SubtreeConfig) (f : Fetcher) :
    FetcherEvent → Option Fetcher
  | .add txid url => some { f with registrationStore := f.registrationStore.add txid url }
  | .handle ans msg => (handleMessage sum64 cfg ans f (.ok msg)).map Prod.fst

def fetcherMachine (sum64 : List UInt8 → UInt64) (cfg : SubtreeConfig) : LTS Fetcher FetcherEvent :=
  ⟨Fetcher.step sum64 cfg⟩

/-- What has happened when an announcement was handled after a run: whether the hash was in the
dedup cache before and after, the URLs in the store, and the messages. -/
def notifiedAfter (events : List FetcherEvent) (msg : SubtreeMessage) :
    Option (Bool × Bool × List String × List CallbackTopicMessage) := do
  let f ← (fetcherMachine sum64AB tenAttempts).exec (.init 64 100) events
  let (f', out) ← handleMessage sum64AB tenAttempts answersAB f (.ok msg)
  match out with
  | .processed emission => some (f.contains msg.hash, f'.contains msg.hash,
      f.registrationStore txidAB, acceptedMessages emission.seen)
  | _ => none

theorem exists_of_notifiedAfter {events : List FetcherEvent} {msg : SubtreeMessage}
    {before after : Bool} {urls : List String} {msgs : List CallbackTopicMessage}
    (h : notifiedAfter events msg = some (before, after, urls, msgs)) :
    ∃ f f' emission, (fetcherMachine sum64AB tenAttempts).exec (.init 64 100) events = some f ∧
      handleMessage sum64AB tenAttempts answersAB f (.ok msg) = some (f', .processed emission) ∧
      f.contains msg.hash = before ∧ f'.contains msg.hash = after ∧
      f.registrationStore txidAB = urls ∧ acceptedMessages emission.seen = msgs := by
  obtain ⟨f, hexec, h⟩ := Option.bind_eq_some_iff.1 h
  obtain ⟨⟨f', out⟩, hhandle, h⟩ := Option.bind_eq_some_iff.1 h
  cases out with
  | processed emission =>
    simp only [Option.some.injEq, Prod.mk.injEq] at h
    exact ⟨f, f', emission, hexec, hhandle, h⟩
  | _ => cases h

/-- A subtree with the txid is processed, then the txid is registered, then another subtree with it
is processed: its hash is put into the dedup cache and nothing is published. -/
theorem processed_hidden :
    ¬ ∀ (sum64 : List UInt8 → UInt64) (cfg : SubtreeConfig) (maxMB dedupCacheSize : ℤ)
      (events : List FetcherEvent) (f f' : Fetcher) (ans : Answers) (msg : SubtreeMessage)
      (emission : Emission) (rawData : List UInt8) (txids : List String),
      (fetcherMachine sum64 cfg).exec (.init maxMB dedupCacheSize) events = some f →
      handleMessage sum64 cfg ans f (.ok msg) = some (f', .processed emission) →
      f.contains msg.hash = false → f'.contains msg.hash = true →
      ans.fetch = .ok rawData → Datahub.parseRawTxids rawData = .ok txids →
      ∀ txid ∈ txids, ∀ url ∈ f.registrationStore txid,
        ∃ m ∈ acceptedMessages emission.seen, m.type = .seenOnNetwork ∧ m.callbackURL = url ∧
          txid ∈ m.txIDs := by
  intro h
  have hrun : notifiedAfter [.handle answersAB ⟨"s", "", "", "", 0⟩,
    .add txidAB "http://arcade/callback"]
      ⟨"t", "", "", "", 0⟩ = some (false, true, ["http://arcade/callback"], []) := by
    decide +kernel
  obtain ⟨f, f', emission, hexec, hhandle, hbefore, hafter, hurls, hnone⟩ :=
    exists_of_notifiedAfter hrun
  have hnotified := h sum64AB tenAttempts 64 100 _ f f' answersAB _ emission
    (List.replicate 32 0xab) [txidAB] hexec hhandle hbefore hafter rfl parseRawTxids_AB
  obtain ⟨m, hm, -⟩ := hnotified txidAB (List.mem_singleton_self _) "http://arcade/callback"
    (by rw [hurls]; exact List.mem_singleton_self _)
  rw [hnone] at hm
  cases hm

end Subtree

end MerkleService
