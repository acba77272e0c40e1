import MerkleService.Data.List
import MerkleService.Data.JsonPrint
import MerkleService.Callback.Delivery

/-!
# The keys of a callback

A callback has two keys: the one under which the dedup store records its delivery (`dedupKey` of
`internal/store/callback_dedup.go` and of its SQL twin, applied to `dedupKeyForMessage`), and the
value of the header `X-Idempotency-Key` (`buildIdempotencyKey`).  Both are texts whose fields are
joined by `:`, although a URL and the pair of a block and a subtree index contain `:` as well.

* `keyText_inj` : the text that is hashed can be taken apart, from its end on: the type has no `:`,
  and it tells how many of the fields before the URL there are.
* `storeKey_identifies` : the keys identify callbacks.
-/

namespace MerkleService

namespace Callback

open Kafka

/-- `dedupKey` of both dedup stores. -/
def dedupKey (sha256 : String → List UInt8) (txid callbackURL statusType : String) : String :=
  Hex.encode (sha256 (txid ++ ":" ++ callbackURL ++ ":" ++ statusType))

variable (cfg : Config)

/-- The key with which `processDelivery` calls `Exists` and `Record`. -/
def storeKey (msg : CallbackTopicMessage) : String :=
  dedupKey cfg.sha256 (dedupKeyForMessage cfg msg) msg.callbackURL msg.type.text

def buildIdempotencyKey (msg : CallbackTopicMessage) : String :=
  match msg.type with
  | .blockProcessed => msg.blockHash ++ ":" ++ msg.type.text
  | .stump => msg.blockHash ++ ":" ++ toString msg.subtreeIndex ++ ":STUMP"
  | _ =>
    if 0 < msg.txIDs.length then hashTxIDs cfg msg.txIDs ++ ":" ++ msg.type.text
    else if msg.txID ≠ "" then msg.txID ++ ":" ++ msg.type.text
    else ""

/-! ### What a key should identify -/

/-- A transaction id as it stands in a message. -/
def IsTxID (t : String) : Prop := t.length = 64 ∧ Hex.IsDigits t

instance (t : String) : Decidable (IsTxID t) := inferInstanceAs (Decidable (_ ∧ _))

/-- The messages that the service publishes.  Nothing is asked of the URL. -/
structure WellFormed (msg : CallbackTopicMessage) : Prop where
  blockHash : Hex.IsDigits msg.blockHash
  txIDs : ∀ t ∈ msg.txIDs, IsTxID t
  txID : msg.txID = "" ∨ IsTxID msg.txID
  /-- The SEEN types carry transactions. -/
  seen : msg.type = .seenOnNetwork ∨ msg.type = .seenMultipleNodes → msg.txIDs ≠ [] ∨ msg.txID ≠ ""

/-- Two messages of one type are about the same thing. -/
def SameSubject (m₁ m₂ : CallbackTopicMessage) : Prop :=
  match m₁.type with
  | .blockProcessed => m₁.blockHash = m₂.blockHash
  | .stump => m₁.blockHash = m₂.blockHash ∧ m₁.subtreeIndex = m₂.subtreeIndex
  | _ => if m₁.txIDs = [] then m₂.txIDs = [] ∧ m₁.txID = m₂.txID else m₁.txIDs.Perm m₂.txIDs

/-- Two messages are the same callback, at whatever attempt. -/
def SameCallback (m₁ m₂ : CallbackTopicMessage) : Prop :=
  m₁.type = m₂.type ∧ m₁.callbackURL = m₂.callbackURL ∧ SameSubject m₁ m₂

/-- The text that `dedupKey` hashes for a message. -/
def keyText (msg : CallbackTopicMessage) : String :=
  dedupKeyForMessage cfg msg ++ ":" ++ msg.callbackURL ++ ":" ++ msg.type.text

/-- The text that `hashTxIDs` hashes. -/
def joinedTxIDs (txids : List String) : String :=
  ",".intercalate (txids.insertionSort (· ≤ ·))

/-- SHA-256 has 32 bytes, and neither it nor its first eight bytes collide on the texts that are
hashed for the two messages. -/
structure CollisionFree (m₁ m₂ : CallbackTopicMessage) : Prop where
  length : ∀ s, (cfg.sha256 s).length = 32
  keys : Set.InjOn cfg.sha256 {keyText cfg m₁, keyText cfg m₂}
  txIDs : Set.InjOn (fun s => (cfg.sha256 s).take 8) {joinedTxIDs m₁.txIDs, joinedTxIDs m₂.txIDs}

/-! ### Fields without a separator -/

variable {cfg} {m₁ m₂ msg : CallbackTopicMessage}

theorem colon_notMem_text (t : CallbackType) : ':' ∉ t.text.toList := by
  cases t <;> decide

theorem text_inj {t₁ t₂ : CallbackType} : t₁.text = t₂.text ↔ t₁ = t₂ := by
  cases t₁ <;> cases t₂ <;> decide

theorem colon_notMem_repr (n : ℤ) : ':' ∉ n.repr.toList := by
  have hnat : ∀ k : ℕ, ':' ∉ k.repr.toList := by
    intro k hk
    rw [Nat.toList_repr] at hk
    exact absurd (Nat.isDigit_of_mem_toDigits (by decide) (by decide) hk) (by decide)
  rw [Int.repr_eq_if]
  split_ifs with hn
  · exact hnat _
  · rw [String.toList_append, List.mem_append, not_or]
    exact ⟨by decide, hnat _⟩

theorem hashTxIDs_eq (txids : List String) :
    hashTxIDs cfg txids = Hex.encode ((cfg.sha256 (joinedTxIDs txids)).take 8) :=
  rfl

theorem colon_notMem_hashTxIDs (txids : List String) : ':' ∉ (hashTxIDs cfg txids).toList :=
  (Hex.isDigits_encode _).notMem (by decide)

/-! ### The transactions of a message -/

theorem insertionSort_eq_iff {l₁ l₂ : List String} :
    l₁.insertionSort (· ≤ ·) = l₂.insertionSort (· ≤ ·) ↔ l₁.Perm l₂ := by
  constructor
  · intro h
    exact (List.perm_insertionSort _ l₁).symm.trans (h ▸ List.perm_insertionSort _ l₂)
  · intro h
    refine List.Perm.eq_of_pairwise' (List.pairwise_insertionSort _ l₁)
      (List.pairwise_insertionSort _ l₂) ?_
    exact (List.perm_insertionSort _ l₁).trans (h.trans (List.perm_insertionSort _ l₂).symm)

/-- Joined lists of transaction ids differ unless they are permutations of each other. -/
theorem joinedTxIDs_inj {l₁ l₂ : List String} (h₁ : ∀ t ∈ l₁, IsTxID t) (h₂ : ∀ t ∈ l₂, IsTxID t)
    (hne₁ : l₁ ≠ []) (hne₂ : l₂ ≠ []) : joinedTxIDs l₁ = joinedTxIDs l₂ ↔ l₁.Perm l₂ := by
  have hcomma : ∀ l : List String, (∀ t ∈ l, IsTxID t) →
      ∀ x ∈ (l.insertionSort (· ≤ ·)).map String.toList, ',' ∉ x := by
    intro l hl x hx
    obtain ⟨t, ht, rfl⟩ := List.mem_map.1 hx
    exact (hl t ((List.mem_insertionSort _).1 ht)).2.notMem (by decide)
  have hsorted : ∀ l : List String, l ≠ [] → (l.insertionSort (· ≤ ·)).map String.toList ≠ [] := by
    intro l hl h
    rw [List.map_eq_nil_iff, ← List.length_eq_zero_iff, List.length_insertionSort,
      List.length_eq_zero_iff] at h
    exact hl h
  rw [← insertionSort_eq_iff, joinedTxIDs, joinedTxIDs, ← String.toList_inj,
    String.toList_intercalate, String.toList_intercalate]
  refine (List.intercalate_inj (hcomma l₁ h₁) (hcomma l₂ h₂) (hsorted l₁ hne₁)
    (hsorted l₂ hne₂)).trans ?_
  exact (List.map_injective_iff.2 fun s t h => String.toList_inj.1 h).eq_iff

theorem length_hashTxIDs (hlen : ∀ s, (cfg.sha256 s).length = 32) (txids : List String) :
    (hashTxIDs cfg txids).length = 16 := by
  rw [hashTxIDs_eq, Hex.encode, String.length_ofList, Hex.length_encodeChars, List.length_take,
    hlen]
  decide

theorem hashTxIDs_ne_txID (hlen : ∀ s, (cfg.sha256 s).length = 32) (txids : List String)
    {t : String} (ht : IsTxID t) : hashTxIDs cfg txids ≠ t := by
  intro h
  have := ht.1
  rw [← h, length_hashTxIDs hlen] at this
  exact absurd this (by decide)

theorem hashTxIDs_inj (hfree : CollisionFree cfg m₁ m₂) (h₁ : WellFormed m₁) (h₂ : WellFormed m₂)
    (hne₁ : m₁.txIDs ≠ []) (hne₂ : m₂.txIDs ≠ []) :
    hashTxIDs cfg m₁.txIDs = hashTxIDs cfg m₂.txIDs ↔ m₁.txIDs.Perm m₂.txIDs := by
  rw [← joinedTxIDs_inj h₁.txIDs h₂.txIDs hne₁ hne₂, hashTxIDs_eq, hashTxIDs_eq,
    Hex.encode_injective.eq_iff]
  exact hfree.txIDs.eq_iff (Set.mem_insert _ _) (Set.mem_insert_of_mem _ rfl)

/-! ### Taking a key apart -/

theorem append_text_inj {s₁ s₂ : String} {t₁ t₂ : CallbackType} :
    s₁ ++ ":" ++ t₁.text = s₂ ++ ":" ++ t₂.text ↔ s₁ = s₂ ∧ t₁ = t₂ := by
  rw [← String.toList_inj]
  simp only [String.toList_append, List.append_assoc]
  change s₁.toList ++ ':' :: t₁.text.toList = s₂.toList ++ ':' :: t₂.text.toList ↔ _
  rw [List.append_cons_inj_of_last (colon_notMem_text t₁) (colon_notMem_text t₂),
    String.toList_inj, String.toList_inj, text_inj]

theorem append_inj_of_colon_notMem {s₁ s₂ u₁ u₂ : String} (h₁ : ':' ∉ s₁.toList)
    (h₂ : ':' ∉ s₂.toList) : s₁ ++ ":" ++ u₁ = s₂ ++ ":" ++ u₂ ↔ s₁ = s₂ ∧ u₁ = u₂ := by
  rw [← String.toList_inj]
  simp only [String.toList_append, List.append_assoc]
  change s₁.toList ++ ':' :: u₁.toList = s₂.toList ++ ':' :: u₂.toList ↔ _
  rw [List.append_cons_inj_of_first h₁ h₂, String.toList_inj, String.toList_inj]

theorem dedupKeyForMessage_blockProcessed (h : msg.type = .blockProcessed) :
    dedupKeyForMessage cfg msg = msg.blockHash := by
  rw [dedupKeyForMessage, h]

theorem dedupKeyForMessage_stump (h : msg.type = .stump) :
    dedupKeyForMessage cfg msg = msg.blockHash ++ ":" ++ msg.subtreeIndex.repr := by
  rw [dedupKeyForMessage, h, Int.toString_eq_repr]

theorem dedupKeyForMessage_seen (h : msg.type = .seenOnNetwork ∨ msg.type = .seenMultipleNodes) :
    dedupKeyForMessage cfg msg =
      if msg.txIDs = [] then msg.txID else hashTxIDs cfg msg.txIDs := by
  rcases h with h | h <;>
  · rw [dedupKeyForMessage, h]
    simp only [List.length_pos_iff, ne_eq, ite_not]

theorem seen_or (msg : CallbackTopicMessage) :
    msg.type = .blockProcessed ∨ msg.type = .stump ∨
      msg.type = .seenOnNetwork ∨ msg.type = .seenMultipleNodes := by
  cases msg.type <;> decide

theorem WellFormed.isTxID (h : WellFormed msg)
    (hseen : msg.type = .seenOnNetwork ∨ msg.type = .seenMultipleNodes) (hnil : msg.txIDs = []) :
    IsTxID msg.txID := by
  have hne := (h.seen hseen).resolve_left (not_not_intro hnil)
  exact h.txID.resolve_left hne

theorem colon_notMem_seen (h : WellFormed msg)
    (hseen : msg.type = .seenOnNetwork ∨ msg.type = .seenMultipleNodes) :
    ':' ∉ (dedupKeyForMessage cfg msg).toList := by
  rw [dedupKeyForMessage_seen hseen]
  split_ifs with hnil
  · exact (h.isTxID hseen hnil).2.notMem (by decide)
  · exact colon_notMem_hashTxIDs _

/-- Given the type, the URL and what stands before it can be told apart. -/
theorem dedupKeyForMessage_append_inj (h₁ : WellFormed m₁) (h₂ : WellFormed m₂)
    (htype : m₁.type = m₂.type) {u₁ u₂ : String} :
    dedupKeyForMessage cfg m₁ ++ ":" ++ u₁ = dedupKeyForMessage cfg m₂ ++ ":" ++ u₂ ↔
      dedupKeyForMessage cfg m₁ = dedupKeyForMessage cfg m₂ ∧ u₁ = u₂ := by
  rcases seen_or m₁ with ht | ht | ht
  · rw [dedupKeyForMessage_blockProcessed ht, dedupKeyForMessage_blockProcessed (htype ▸ ht)]
    exact append_inj_of_colon_notMem (h₁.blockHash.notMem (by decide))
      (h₂.blockHash.notMem (by decide))
  · -- Two fields stand before the URL, the block hash and the index.
    have hb₁ := h₁.blockHash.notMem (c := ':') (by decide)
    have hb₂ := h₂.blockHash.notMem (c := ':') (by decide)
    have hassoc : ∀ b i u : String, b ++ ":" ++ i ++ ":" ++ u = b ++ ":" ++ (i ++ ":" ++ u) := by
      intro b i u
      simp only [String.append_assoc]
    rw [dedupKeyForMessage_stump ht, dedupKeyForMessage_stump (htype ▸ ht), hassoc, hassoc,
      append_inj_of_colon_notMem hb₁ hb₂,
      append_inj_of_colon_notMem (colon_notMem_repr _) (colon_notMem_repr _),
      append_inj_of_colon_notMem hb₁ hb₂, and_assoc]
  · exact append_inj_of_colon_notMem (colon_notMem_seen h₁ ht) (colon_notMem_seen h₂ (htype ▸ ht))

theorem repr_int_inj {i j : ℤ} : i.repr = j.repr ↔ i = j := by
  rw [← String.toList_inj, Json.toList_repr, Json.toList_repr, Json.intLit_inj]

/-- Given the type, the first part of a key identifies what the message is about. -/
theorem dedupKeyForMessage_inj (hfree : CollisionFree cfg m₁ m₂) (h₁ : WellFormed m₁)
    (h₂ : WellFormed m₂) (htype : m₁.type = m₂.type) :
    dedupKeyForMessage cfg m₁ = dedupKeyForMessage cfg m₂ ↔ SameSubject m₁ m₂ := by
  rcases seen_or m₁ with ht | ht | ht
  · rw [dedupKeyForMessage_blockProcessed ht, dedupKeyForMessage_blockProcessed (htype ▸ ht),
      SameSubject, ht]
  · rw [dedupKeyForMessage_stump ht, dedupKeyForMessage_stump (htype ▸ ht),
      append_inj_of_colon_notMem (h₁.blockHash.notMem (by decide))
        (h₂.blockHash.notMem (by decide)), repr_int_inj, SameSubject, ht]
  · have hsubject : SameSubject m₁ m₂ ↔
        if m₁.txIDs = [] then m₂.txIDs = [] ∧ m₁.txID = m₂.txID else m₁.txIDs.Perm m₂.txIDs := by
      rcases ht with ht | ht <;> rw [SameSubject, ht]
    have ht₂ := htype ▸ ht
    rw [dedupKeyForMessage_seen ht, dedupKeyForMessage_seen ht₂, hsubject]
    split_ifs with hnil₁ hnil₂ hnil₂
    · simp only [hnil₂, true_and]
    · -- A single id is longer than the hash of a list.
      refine iff_of_false (fun h => ?_) (fun h => hnil₂ h.1)
      exact hashTxIDs_ne_txID hfree.length _ (h₁.isTxID ht hnil₁) h.symm
    · refine iff_of_false (hashTxIDs_ne_txID hfree.length _ (h₂.isTxID ht₂ hnil₂)) (fun h => ?_)
      rw [hnil₂] at h
      exact hnil₁ h.eq_nil
    · exact hashTxIDs_inj hfree h₁ h₂ hnil₁ hnil₂

/-- **The text that is hashed for a message determines its type, its URL and what it is about.** -/
theorem keyText_inj (hfree : CollisionFree cfg m₁ m₂) (h₁ : WellFormed m₁) (h₂ : WellFormed m₂) :
    keyText cfg m₁ = keyText cfg m₂ ↔ SameCallback m₁ m₂ := by
  rw [keyText, keyText, append_text_inj, SameCallback]
  constructor
  · rintro ⟨hkey, htype⟩
    obtain ⟨hkey, hurl⟩ := (dedupKeyForMessage_append_inj h₁ h₂ htype).1 hkey
    exact ⟨htype, hurl, (dedupKeyForMessage_inj hfree h₁ h₂ htype).1 hkey⟩
  · rintro ⟨htype, hurl, hsame⟩
    rw [(dedupKeyForMessage_inj hfree h₁ h₂ htype).2 hsame, hurl]
    exact ⟨rfl, htype⟩

theorem storeKey_inj (hfree : CollisionFree cfg m₁ m₂) :
    storeKey cfg m₁ = storeKey cfg m₂ ↔ keyText cfg m₁ = keyText cfg m₂ := by
  rw [storeKey, storeKey, dedupKey, dedupKey, Hex.encode_injective.eq_iff]
  exact hfree.keys.eq_iff (Set.mem_insert _ _) (Set.mem_insert_of_mem _ rfl)

/-- The header has the same first part as the text of the store's key, and no URL. -/
theorem buildIdempotencyKey_eq (h : WellFormed msg) :
    buildIdempotencyKey cfg msg = dedupKeyForMessage cfg msg ++ ":" ++ msg.type.text := by
  rcases seen_or msg with ht | ht | ht
  · rw [buildIdempotencyKey, dedupKeyForMessage_blockProcessed ht, ht]
  · have htext : ":STUMP" = ":" ++ CallbackType.stump.text := by decide
    rw [buildIdempotencyKey, dedupKeyForMessage_stump ht, ht, Int.toString_eq_repr,
      htext, ← String.append_assoc]
  · rw [dedupKeyForMessage_seen ht]
    have hseen := h.seen ht
    rcases ht with ht | ht <;>
    · rw [buildIdempotencyKey, ht]
      simp only [List.length_pos_iff, ne_eq, ite_not]
      split_ifs with hnil hid
      · exact absurd hid (hseen.resolve_left (not_not_intro hnil))
      · rfl
      · rfl

/-- **The keys identify callbacks.**  Two messages have the same key in the dedup store if and only
if they are the same callback, at whatever attempt; and two messages to one URL have the same
`X-Idempotency-Key` if and only if they have the same key in the store. -/
theorem storeKey_identifies (cfg : Config) (m₁ m₂ : CallbackTopicMessage)
    (h₁ : WellFormed m₁) (h₂ : WellFormed m₂) (hfree : CollisionFree cfg m₁ m₂) :
    (storeKey cfg m₁ = storeKey cfg m₂ ↔ SameCallback m₁ m₂) ∧
    (∀ retryCount nextRetryAt, storeKey cfg
        { m₁ with retryCount := retryCount, nextRetryAt := nextRetryAt } = storeKey cfg m₁) ∧
    (m₁.callbackURL = m₂.callbackURL →
      (buildIdempotencyKey cfg m₁ = buildIdempotencyKey cfg m₂ ↔
        storeKey cfg m₁ = storeKey cfg m₂)) := by
  have hstore : storeKey cfg m₁ = storeKey cfg m₂ ↔ SameCallback m₁ m₂ :=
    (storeKey_inj hfree).trans (keyText_inj hfree h₁ h₂)
  refine ⟨hstore, fun _ _ => rfl, fun hurl => ?_⟩
  rw [hstore, buildIdempotencyKey_eq h₁, buildIdempotencyKey_eq h₂, append_text_inj, SameCallback]
  constructor
  · rintro ⟨hkey, htype⟩
    exact ⟨htype, hurl, (dedupKeyForMessage_inj hfree h₁ h₂ htype).1 hkey⟩
  · rintro ⟨htype, -, hsame⟩
    exact ⟨(dedupKeyForMessage_inj hfree h₁ h₂ htype).2 hsame, htype⟩

/-- SHA-256 on the texts that are hashed for the two messages below. -/
def sampleConfig : Config where
  workers := 1
  capacity := 1
  maxRetries := 3
  backoffBaseSec := 1
  dedupStore := true
  stumpStore := true
  sha256 := fun s =>
    if s = "00ff:3:https://a/cb:1:STUMP" then
      [0xee, 0x69, 0x73, 0x0b, 0xe0, 0x33, 0x2c, 0x71,
       0xd0, 0x9a, 0x4c, 0x6b, 0xf2, 0x39, 0xd6, 0xe4,
       0x2d, 0xe5, 0xc4, 0x19, 0x54, 0xb3, 0x5b, 0x11,
       0xb9, 0xa3, 0x4c, 0x65, 0x52, 0x17, 0x32, 0xe2]
    else if s = "00ff:https://a/cb:1:BLOCK_PROCESSED" then
      [0x51, 0x19, 0x3e, 0x8a, 0xb4, 0x3d, 0xf4, 0x8c,
       0x5c, 0xff, 0x07, 0xe2, 0x5b, 0xc6, 0x86, 0x1d,
       0x40, 0x33, 0x2d, 0xcf, 0xec, 0x22, 0x25, 0x1c,
       0x2f, 0xb8, 0x61, 0x49, 0xb9, 0x95, 0x1a, 0x1f]
    else if s = "" then
      [0xe3, 0xb0, 0xc4, 0x42, 0x98, 0xfc, 0x1c, 0x14,
       0x9a, 0xfb, 0xf4, 0xc8, 0x99, 0x6f, 0xb9, 0x24,
       0x27, 0xae, 0x41, 0xe4, 0x64, 0x9b, 0x93, 0x4c,
       0xa4, 0x95, 0x99, 0x1b, 0x78, 0x52, 0xb8, 0x55]
    else List.replicate 32 0

/-- The STUMP of a subtree and the end of its block, to a URL that has colons of its own. -/
theorem storeKey_identifies_stump :
    storeKey sampleConfig
        { callbackURL := "https://a/cb:1", type := .stump, blockHash := "00ff",
          subtreeIndex := 3 } ≠
      storeKey sampleConfig
        { callbackURL := "https://a/cb:1", type := .blockProcessed, blockHash := "00ff" } := by
  intro h
  have hlen : ∀ s, (sampleConfig.sha256 s).length = 32 := by
    intro s
    simp only [sampleConfig]
    split_ifs <;> rfl
  have hsame := (storeKey_identifies sampleConfig _ _
    ⟨by decide, by decide, by decide, by decide⟩ ⟨by decide, by decide, by decide, by decide⟩
    ⟨hlen, ?_, ?_⟩).1.1 h
  · exact absurd hsame.1 (by decide)
  · rw [Set.injOn_pair]
    decide
  · rw [Set.injOn_pair]
    decide

end Callback

end MerkleService
