import MerkleService.Block.SubtreeWorker
import MerkleService.Block.Subscribers
import MerkleService.Callback.DedupKey
import MerkleService.Kafka.Codec
import MerkleService.Store.StumpRef
import MerkleService.Stump.Soundness

/-!
# What a subscriber receives

`deliverCallback` (`internal/callback/delivery.go`) turns a message of the callback topic into an
HTTP POST.  The message of a STUMP has only a reference; the bytes are fetched from the STUMP store
and go into the body as hexadecimal text.

Between the subtree worker and the subscriber, a STUMP is encoded to the BUMP format, stored under
its hash, named in a JSON message, fetched, written in hexadecimal, and put in a JSON body.

* `request` : the POST of a message, or the error, with the texts of the source.
* `request_fetchStump` : it is made exactly where the machine of the delivery service makes it.
* `body_reads_back` : **the body is read as the message and the fetched STUMP.**
* `posted_stump_proves` : **what reaches a subscriber proves its transactions.**  For every txid of
  the subtree that is registered with the URL, the body has a leaf from which the walk ends in the
  root of the tree over the subtree.
-/

namespace MerkleService

namespace Callback

open Kafka Stump
open Dashboard (Digest)
open Json (StructField omitEmpty stringsEncode stringsDecode)
open Block (merkleRoot)

/-! ### The code -/

/-- `callbackPayload`. -/
structure CallbackPayload where
  type : String
  txID : String
  txIDs : List String
  blockHash : String
  subtreeIndex : Int64
  stump : String
  deriving DecidableEq

def payloadFields : List (StructField CallbackPayload) :=
  [stringField "type" (·.type) fun a m => { m with type := a },
    optionalString "txid" (·.txID) fun a m => { m with txID := a },
    ⟨"txids", List String, (·.txIDs), fun a m => { m with txIDs := a }, omitEmpty [] stringsEncode,
      stringsDecode⟩,
    optionalString "blockHash" (·.blockHash) fun a m => { m with blockHash := a },
    optionalInt "subtreeIndex" (·.subtreeIndex) fun a m => { m with subtreeIndex := a },
    optionalString "stump" (·.stump) fun a m => { m with stump := a }]

def CallbackPayload.zero : CallbackPayload := ⟨"", "", [], "", 0, ""⟩

def CallbackPayload.encode (p : CallbackPayload) : String := Json.encode payloadFields p

/-- How a receiver reads the body. -/
def decodePayload (body : String) : Option CallbackPayload := Json.decode payloadFields .zero body

/-- An error of `deliverCallback`, and whether it is wrapped by `errPermanentDelivery`. -/
structure DeliveryError where
  permanent : Bool
  text : String
  deriving DecidableEq

/-- The request that `httpClient.Do` is called with. -/
structure Request where
  url : String
  body : String
  headers : List (String × String)
  deriving DecidableEq

section

variable (cfg : Config) (get : String → GetResult)

/-- The payload before the STUMP is fetched. -/
def payloadOf (msg : CallbackTopicMessage) : CallbackPayload where
  type := msg.type.text
  txID := msg.txID
  txIDs := msg.txIDs
  blockHash := msg.blockHash
  subtreeIndex := .ofInt msg.subtreeIndex
  stump := ""

/-- The payload of a message; `get` is `stumpStore.Get`. -/
def payloadFor (msg : CallbackTopicMessage) : Except DeliveryError CallbackPayload :=
  if msg.type = .stump ∧ msg.stumpRef ≠ "" then
    if cfg.stumpStore then
      match get msg.stumpRef with
      | .blob stumpBytes => .ok { payloadOf msg with stump := Hex.encode stumpBytes }
      | .notFound =>
        .error ⟨true,
          s!"stump blob missing for ref {msg.stumpRef}: stump not found: {msg.stumpRef}"⟩
      | .error err => .error ⟨false, s!"fetching stump ref {msg.stumpRef}: {err}"⟩
    else .error ⟨true, "stump store not configured for STUMP delivery"⟩
  else .ok (payloadOf msg)

/-- `X-Idempotency-Key`, when there is one. -/
def idempotencyHeader (msg : CallbackTopicMessage) : List (String × String) :=
  if buildIdempotencyKey cfg msg ≠ "" then [("X-Idempotency-Key", buildIdempotencyKey cfg msg)]
  else []

/-- `deliverCallback` up to `httpClient.Do`; `requestErr` is the error of
`http.NewRequestWithContext` for a URL. -/
def request (requestErr : String → Option String) (msg : CallbackTopicMessage) :
    Except DeliveryError Request := do
  let payload ← payloadFor cfg get msg
  match requestErr msg.callbackURL with
  | some err => .error ⟨false, s!"failed to create HTTP request: {err}"⟩
  | none => .ok ⟨msg.callbackURL, payload.encode,
      ("Content-Type", "application/json") :: idempotencyHeader cfg msg⟩

/-- `deliverCallback`; the text that a receiver sends with an error is left out. -/
def deliverCallback (requestErr : String → Option String) (post : Request → PostResult)
    (msg : CallbackTopicMessage) : Except DeliveryError Unit := do
  let req ← request cfg get requestErr msg
  match post req with
  | .error err => .error ⟨false, s!"HTTP request failed: {err}"⟩
  | .status code =>
    if 200 ≤ code ∧ code < 300 then .ok ()
    else .error ⟨false, s!"callback returned non-2xx status: {code}"⟩

end

/-- A STUMP store over a blob store, as `deliverCallback` calls it. -/
def stumpGet {κ : Type} (st : Store.Stores κ) (b : Store.Blobs κ) (ref : String) : GetResult :=
  match st.getStump b ref with
  | some data => .blob data
  | none => .notFound

/-! ### The body -/

theorem lawful_payloadFields : Json.Lawful payloadFields where
  nodup := by decide
  get_put := by
    intro f hf a m
    simp only [payloadFields, List.mem_cons, List.not_mem_nil, or_false] at hf
    rcases hf with rfl | rfl | rfl | rfl | rfl | rfl <;> rfl
  get_put_of_ne := by
    intro f hf g hg hne a m
    simp only [payloadFields, List.mem_cons, List.not_mem_nil, or_false] at hf hg
    rcases hf with rfl | rfl | rfl | rfl | rfl | rfl <;>
      rcases hg with rfl | rfl | rfl | rfl | rfl | rfl <;> first | rfl | exact absurd rfl hne
  ext := by
    intro m m' h
    simp only [payloadFields, List.forall_mem_cons] at h
    obtain ⟨h₁, h₂, h₃, h₄, h₅, h₆, -⟩ := h
    cases m
    cases m'
    simp only [CallbackPayload.mk.injEq]
    exact ⟨h₁, h₂, h₃, h₄, h₅, h₆⟩

theorem faithful_payload (p : CallbackPayload) : ∀ f ∈ payloadFields, f.Faithful .zero p := by
  simp only [payloadFields, List.forall_mem_cons]
  exact ⟨faithful_string, faithful_optionalString rfl, faithful_optionalStrings rfl,
    faithful_optionalString rfl, faithful_optionalInt rfl, faithful_optionalString rfl, by simp⟩

theorem decodePayload_encode (p : CallbackPayload) : decodePayload p.encode = some p :=
  Json.decode_encode lawful_payloadFields (faithful_payload p)

section

variable {cfg : Config} {get : String → GetResult} {requestErr : String → Option String}
  {msg : CallbackTopicMessage}

/-- What stands for the STUMP in a payload. -/
def StumpText (get : String → GetResult) (msg : CallbackTopicMessage) (stump : String) : Prop :=
  if msg.type = .stump ∧ msg.stumpRef ≠ "" then
    ∃ data, get msg.stumpRef = .blob data ∧ stump = Hex.encode data
  else stump = ""

theorem payloadFor_ok {p : CallbackPayload} (h : payloadFor cfg get msg = .ok p) :
    ∃ stump, StumpText get msg stump ∧ p = { payloadOf msg with stump := stump } := by
  unfold payloadFor at h
  unfold StumpText
  split_ifs at h with hstump hstore
  · cases hget : get msg.stumpRef with
    | blob data =>
      rw [hget] at h
      exact ⟨_, by rw [if_pos hstump]; exact ⟨data, rfl, rfl⟩, (Except.ok.inj h).symm⟩
    | notFound => simp [hget] at h
    | error err => simp [hget] at h
  · exact ⟨"", by rw [if_neg hstump], (Except.ok.inj h).symm⟩

theorem request_ok {req : Request} (h : request cfg get requestErr msg = .ok req) :
    ∃ p, payloadFor cfg get msg = .ok p ∧ requestErr msg.callbackURL = none ∧
      req = ⟨msg.callbackURL, p.encode,
        ("Content-Type", "application/json") :: idempotencyHeader cfg msg⟩ := by
  unfold request at h
  cases hp : payloadFor cfg get msg with
  | error err => simp [hp, bind, Except.bind] at h
  | ok p =>
    cases herr : requestErr msg.callbackURL with
    | some err => simp [hp, herr, bind, Except.bind] at h
    | none =>
      simp only [hp, herr, bind, Except.bind] at h
      exact ⟨p, rfl, rfl, (Except.ok.inj h).symm⟩

theorem exists_request_iff (htype : msg.type = .stump) (href : msg.stumpRef ≠ "") :
    (∃ req, request cfg get requestErr msg = .ok req) ↔ cfg.stumpStore = true ∧
      (∃ data, get msg.stumpRef = .blob data) ∧ requestErr msg.callbackURL = none := by
  constructor
  · rintro ⟨req, hreq⟩
    obtain ⟨p, hp, herr, -⟩ := request_ok hreq
    refine ⟨?_, ?_, herr⟩
    · by_contra hstore
      simp [payloadFor, htype, href, hstore] at hp
    · obtain ⟨stump, hstump, -⟩ := payloadFor_ok hp
      rw [StumpText, if_pos ⟨htype, href⟩] at hstump
      obtain ⟨data, hdata, -⟩ := hstump
      exact ⟨data, hdata⟩
  · rintro ⟨hstore, ⟨data, hdata⟩, herr⟩
    have hp : payloadFor cfg get msg = .ok { payloadOf msg with stump := Hex.encode data } := by
      simp [payloadFor, htype, href, hstore, hdata]
    exact ⟨_, by rw [request, hp, herr]; rfl⟩

theorem fetchStump_eq : fetchStump cfg msg (get msg.stumpRef) =
    match payloadFor cfg get msg with
    | .ok _ => .ok ()
    | .error err => .error err.permanent := by
  unfold fetchStump payloadFor
  split_ifs with hstump hstore
  · cases get msg.stumpRef <;> rfl
  · rfl
  · rfl

/-- **The machine of the delivery service** posts a job exactly when there is a request for it, and
handles an error by whether it is permanent. -/
theorem jobStep_prepare {s : State} {job : Job} (hplace : job.place = .preparing) (j now : ℕ) :
    jobStep cfg s job (.prepare j now (get job.msg.stumpRef) (requestErr job.msg.callbackURL)) =
      some (match request cfg get requestErr job.msg with
        | .ok _ => (s, { job with place := .posting })
        | .error err => afterFailure cfg s job now err.permanent) := by
  simp only [jobStep, if_pos hplace, fetchStump_eq, request]
  cases payloadFor cfg get job.msg with
  | error err => rfl
  | ok p => cases requestErr job.msg.callbackURL <;> rfl

/-- **The body is read as the message and the fetched STUMP.**  Whatever the texts of the message
are, a receiver that parses the body has its type, its transactions, its block and its index, and,
for a STUMP with a reference, hexadecimal text that is decoded to the bytes that were fetched. -/
theorem body_reads_back {req : Request} (hlo : -2 ^ 63 ≤ msg.subtreeIndex)
    (hhi : msg.subtreeIndex < 2 ^ 63) (h : request cfg get requestErr msg = .ok req) :
    req.url = msg.callbackURL ∧ ∃ p, decodePayload req.body = some p ∧ p.type = msg.type.text ∧
      p.txID = msg.txID ∧ p.txIDs = msg.txIDs ∧ p.blockHash = msg.blockHash ∧
      p.subtreeIndex.toInt = msg.subtreeIndex ∧
      if msg.type = .stump ∧ msg.stumpRef ≠ "" then
        ∃ data, get msg.stumpRef = .blob data ∧ Hex.decode p.stump = some data
      else p.stump = "" := by
  obtain ⟨p, hp, -, rfl⟩ := request_ok h
  obtain ⟨stump, hstump, rfl⟩ := payloadFor_ok hp
  refine ⟨rfl, _, decodePayload_encode _, rfl, rfl, rfl, rfl, ?_, ?_⟩
  · exact Int64.toInt_ofInt_of_le hlo hhi
  · unfold StumpText at hstump
    split_ifs at hstump ⊢ with href
    · obtain ⟨data, hget, rfl⟩ := hstump
      exact ⟨data, hget, Hex.decode_encode data⟩
    · exact hstump

end

/-- A STUMP of two bytes. -/
theorem body_reads_back_stump :
    let msg : CallbackTopicMessage :=
      { callbackURL := "http://callback", type := .stump, blockHash := "b", subtreeIndex := 3,
        stumpRef := "r" }
    ∃ req, request ⟨1, 1, 0, 0, false, true, fun _ => []⟩ (fun _ => .blob [1, 2]) (fun _ => none)
        msg = .ok req ∧ ∃ p, decodePayload req.body = some p ∧ p.type = "STUMP" ∧
          p.blockHash = "b" ∧ p.subtreeIndex.toInt = 3 ∧ Hex.decode p.stump = some [1, 2] := by
  intro msg
  obtain ⟨req, hreq⟩ := (@exists_request_iff ⟨1, 1, 0, 0, false, true, fun _ => []⟩
    (fun _ => .blob [1, 2]) (fun _ => none) msg rfl (by decide)).2 ⟨rfl, ⟨_, rfl⟩, rfl⟩
  obtain ⟨-, p, hread, htype, -, -, hblock, hindex, hstump⟩ :=
    body_reads_back (by decide) (by decide) hreq
  rw [if_pos (by decide)] at hstump
  obtain ⟨data, hdata, hstump⟩ := hstump
  obtain rfl := GetResult.blob.inj hdata
  exact ⟨req, hreq, p, hread, htype, hblock, hindex, hstump⟩

/-! ### The walk over a STUMP that was built -/

section

variable {sha256 : Bytes → Digest} {leaves : List Bytes}
  {registeredIndices : RegisteredIndices leaves.length} {blockHeight : ℕ}

open Dashboard

theorem stumpDecodeBUMP_build (hn : 2 ≤ leaves.length) (hmax : leaves.length ≤ 2 ^ 31)
    (hlen : ∀ l ∈ leaves, l.length = 32) (hreg : registeredIndices.keys ≠ []) (order : MapOrder)
    (hheight : blockHeight < 2 ^ 32) :
    stumpDecodeBUMP (encode (build leaves (merkleTreeStore (pairHash sha256) leaves)
      registeredIndices order blockHeight)) =
        .ok (STUMP.decoded ⟨blockHeight, Nat.clog 2 leaves.length,
          (List.range (Nat.clog 2 leaves.length)).map
            (levelOf leaves (merkleTreeStore (pairHash sha256) leaves) registeredIndices)⟩) := by
  rw [build_eq order blockHeight hn hreg, stumpDecodeBUMP, encode, decode_encode_eq apiTexts]
  · rfl
  · exact encodable_of_build hlen (by omega)
      (fun _ => length_of_mem_merkleTreeStore fun l r => (sha256 _).2) (by omega)
      (@build_eq leaves (merkleTreeStore (pairHash sha256) leaves) registeredIndices order
        blockHeight hn hreg)

theorem builtBUMP_eq (hheight : blockHeight < 2 ^ 32) :
    builtBUMP sha256 leaves registeredIndices blockHeight =
      STUMP.decoded ⟨blockHeight, Nat.clog 2 leaves.length,
        (List.range (Nat.clog 2 leaves.length)).map
          (levelOf leaves (merkleTreeStore (pairHash sha256) leaves) registeredIndices)⟩ := by
  rw [builtBUMP, jsNumber_of_lt (by omega)]
  rfl

theorem onPath_builtBUMP (hhash : ∀ l r, pairHash sha256 l r ≠ zeroHash)
    (hleaves : ∀ l ∈ leaves, l ≠ zeroHash) (hlen : ∀ l ∈ leaves, l.length = 32) {k r : ℕ}
    (hk : k < Nat.clog 2 leaves.length) (hr : r ∈ registeredIndices.keys) :
    OnPath sha256 leaves
      (known sha256 (entries (builtBUMP sha256 leaves registeredIndices blockHeight)) k) k
      (r / 2 ^ k) := by
  cases k with
  | zero =>
    refine onPath_known hlen hk hr ?_ fun h => absurd rfl h
    simpa [MerkleTree.realCount] using registeredIndices.lt r hr
  | succ k =>
    obtain ⟨hreal, hbelow⟩ := @below_builtBUMP sha256 leaves registeredIndices hhash hleaves hlen
      blockHeight k r (by omega) hr
    exact onPath_known hlen hk hr hreal fun _ => hbelow

/-- **The walk from a registered leaf** goes through the nodes of the tree. -/
theorem walkTo_builtBUMP (hhash : ∀ l r, pairHash sha256 l r ≠ zeroHash)
    (hleaves : ∀ l ∈ leaves, l ≠ zeroHash) (hlen : ∀ l ∈ leaves, l.length = 32)
    (hdecoded : Decoded (builtBUMP sha256 leaves registeredIndices blockHeight))
    (hproper : Proper (entries (builtBUMP sha256 leaves registeredIndices blockHeight)))
    {r : ℕ} (hr : r ∈ registeredIndices.keys) {leaf : DecodedLeaf} (hoffset : leaf.offset = r)
    (hleaf : leaf.hash = some (Hex.encode (paddedLeaf leaves r))) {k : ℕ}
    (hk : k ≤ Nat.clog 2 leaves.length) :
    walkTo sha256 (builtBUMP sha256 leaves registeredIndices blockHeight) leaf k =
      some (Hex.encode (treeNode (pairHash sha256) leaves k (r / 2 ^ k))) := by
  induction k with
  | zero =>
    rw [walkTo, hleaf, pow_zero, Nat.div_one]
    rfl
  | succ k ih =>
    have hpath := @onPath_builtBUMP sha256 leaves registeredIndices blockHeight hhash hleaves hlen
      k r hk hr
    have hup := below_succ hdecoded hproper hpath.node
    rw [walkTo, ih (by omega), Option.bind_some, hoffset, ← hup, div_pow_div_two]
    exact (below_builtBUMP hhash hleaves hlen hk hr).2

theorem walk_builtBUMP (hhash : ∀ l r, pairHash sha256 l r ≠ zeroHash)
    (hleaves : ∀ l ∈ leaves, l ≠ zeroHash) (hlen : ∀ l ∈ leaves, l.length = 32)
    (hmax : leaves.length ≤ 2 ^ 31)
    (hdecoded : Decoded (builtBUMP sha256 leaves registeredIndices blockHeight))
    {r : ℕ} (hr : r ∈ registeredIndices.keys) {leaf : DecodedLeaf} (hoffset : leaf.offset = r)
    (hleaf : leaf.hash = some (Hex.encode (paddedLeaf leaves r))) :
    walk sha256 (builtBUMP sha256 leaves registeredIndices blockHeight) leaf =
      some (Hex.encode (merkleRoot (pairHash sha256) leaves)) := by
  have hproper := proper_entries hdecoded (offset_lt_builtBUMP sha256 hmax blockHeight)
  have hlt : r < 2 ^ Nat.clog 2 leaves.length :=
    (registeredIndices.lt r hr).trans_le (Nat.le_pow_clog (by omega) leaves.length)
  have hwalk := walkTo_builtBUMP hhash hleaves hlen hdecoded hproper hr hoffset hleaf le_rfl
  rw [Nat.div_eq_of_lt hlt] at hwalk
  rw [walk, if_pos (by rw [hoffset]; exact hlt), merkleRoot, treeHeight_nextPowerOfTwo]
  exact hwalk

end

/-! ### From the worker to the subscriber -/

/-- The message as the source has it, with numbers of 64 bits and times of the calendar. -/
structure OnWire (msg : CallbackTopicMessage) (json : CallbackTopicJSON) : Prop where
  callbackURL : json.callbackURL = msg.callbackURL
  type : json.type = msg.type.text
  txID : json.txID = msg.txID
  txIDs : json.txIDs = msg.txIDs
  blockHash : json.blockHash = msg.blockHash
  subtreeIndex : json.subtreeIndex.toInt = msg.subtreeIndex
  stumpRef : json.stumpRef = msg.stumpRef
  retryCount : json.retryCount = msg.retryCount
  nextRetryAt : json.nextRetryAt = zeroTime ↔ msg.nextRetryAt = none

theorem OnWire.eq {m m' : CallbackTopicMessage} {json : CallbackTopicJSON} (h : OnWire m json)
    (h' : OnWire m' json) (hnone : m.nextRetryAt = none) : m' = m := by
  have htype : m'.type = m.type := text_inj.1 (h'.type.symm.trans h.type)
  have htime : m'.nextRetryAt = m.nextRetryAt := by
    rw [hnone]
    exact h'.nextRetryAt.1 (h.nextRetryAt.2 hnone)
  cases m
  cases m'
  simp only [CallbackTopicMessage.mk.injEq]
  exact ⟨h'.callbackURL.symm.trans h.callbackURL, htype, h'.txID.symm.trans h.txID,
    h'.txIDs.symm.trans h.txIDs, h'.blockHash.symm.trans h.blockHash,
    h'.subtreeIndex.symm.trans h.subtreeIndex, h'.stumpRef.symm.trans h.stumpRef,
    h'.retryCount.symm.trans h.retryCount, htime⟩

/-- `msg` was encoded and published, and `msg'` is what the delivery service decodes. -/
def Relayed (msg msg' : CallbackTopicMessage) : Prop :=
  ∃ sent data received, OnWire msg sent ∧ sent.encode = some data ∧
    decodeCallbackTopicMessage data = some received ∧ OnWire msg' received

theorem Relayed.eq {msg msg' : CallbackTopicMessage} (h : Relayed msg msg')
    (hnone : msg.nextRetryAt = none) : msg' = msg := by
  obtain ⟨sent, data, received, hsent, hdata, hread, hreceived⟩ := h
  have hback : decodeCallbackTopicMessage data = some sent := by
    simp only [CallbackTopicJSON.encode] at hdata
    split_ifs at hdata with htime
    obtain rfl := Option.some.inj hdata
    exact Json.decode_encode lawful_callbackFields (faithful_callback htime)
  obtain rfl := Option.some.inj (hread.symm.trans hback)
  exact hsent.eq hreceived hnone

/-- What the worker has read and returned for a unit of work. -/
structure Processed (env : Block.Env) (w : SubtreeWorkMessage) (rawData : Bytes)
    (registrations : List (String × List String)) (res : Block.SubtreeResult) : Prop where
  retrieved : ∃ stored, Block.retrieve env w.subtreeHash w.dataHubURL w.blockHeight =
    .ok (rawData, stored)
  batchGet : env.batchGet ((Datahub.records rawData).map Datahub.hashString) = .ok registrations
  content : Block.RegistrationContent ((Datahub.records rawData).map Datahub.hashString)
    registrations
  result : ∃ postMineTTLSec effects, Block.processBlockSubtree env w.subtreeHash w.blockHeight
    w.dataHubURL postMineTTLSec = .ok (some res, effects)

/-- The data of a subtree of two transactions or more. -/
structure Transactions (rawData : Bytes) : Prop where
  two : 2 ≤ (Datahub.records rawData).length
  max : (Datahub.records rawData).length ≤ 2 ^ 31
  nodup : (Datahub.records rawData).Nodup
  nonzero : ∀ r ∈ Datahub.records rawData, r ≠ zeroHash

/-- The STUMP of a payload has a leaf for the txid, and the walk from there ends in the root over
the data. -/
def ProvesTxid (sha256 : Bytes → Digest) (rawData : Bytes) (p : CallbackPayload)
    (txid : String) : Prop :=
  ∃ bump, stumpDecodeBUMP (Dashboard.stumpHexToBytes p.stump) = .ok bump ∧
    ∃ leaf ∈ Block.txidLeaves bump, ∃ hash, leaf.hash = some (Hex.encode hash) ∧
      Datahub.hashString hash = txid ∧
      Dashboard.walk sha256 bump leaf =
        some (Hex.encode (merkleRoot (Dashboard.pairHash sha256) (Datahub.records rawData)))

section

variable {sha256 : Bytes → Digest} {env : Block.Env} {w : SubtreeWorkMessage} {rawData : Bytes}
  {registrations : List (String × List String)} {res : Block.SubtreeResult}

theorem provesTxid_stumpData (hhash : ∀ l r, Dashboard.pairHash sha256 l r ≠ zeroHash)
    (hstore : ∀ nodes internalNodes, 2 ≤ nodes.length →
      env.buildMerkleTreeStoreFromBytes nodes = .ok internalNodes →
      internalNodes = merkleTreeStore (Dashboard.pairHash sha256) nodes)
    (hheight : w.blockHeight < 2 ^ 32) (htxs : Transactions rawData)
    (h : Processed env w rawData registrations res) {p : CallbackPayload}
    (hp : Dashboard.stumpHexToBytes p.stump = res.stumpData) {txid : String}
    (htxid : txid ∈ registrations.map Prod.fst) : ProvesTxid sha256 rawData p txid := by
  obtain ⟨postMineTTLSec, effects, hresult⟩ := h.result
  obtain ⟨stored, hret⟩ := h.retrieved
  obtain ⟨rawData', stored', registrations', internalNodes, s, hret', hreg', hint, hs, rfl⟩ :=
    Block.processBlockSubtree_some hresult
  obtain ⟨rfl, rfl⟩ := Prod.mk.inj (Except.ok.inj (hret.symm.trans hret'))
  obtain rfl := Except.ok.inj (h.batchGet.symm.trans hreg')
  obtain rfl := hstore _ _ htxs.two hint
  have hlen : ∀ l ∈ Datahub.records rawData, l.length = 32 := fun l hl =>
    Datahub.length_of_mem_records hl
  have hkeys : (Block.registeredIndices (Datahub.records rawData) registrations).keys ≠ [] := by
    intro hnil
    simp [build, hnil] at hs
  have hdecode := @stumpDecodeBUMP_build sha256 _ _ _ htxs.two htxs.max hlen hkeys env.order hheight
  rw [hs] at hdecode
  -- the leaf of the txid
  obtain ⟨entry, hentry, rfl⟩ := List.mem_map.1 htxid
  obtain ⟨hash, hmem, htext⟩ := List.mem_map.1 (h.content.requested entry hentry)
  obtain ⟨i, hi⟩ := List.mem_iff_getElem?.1 hmem
  have hkey : i ∈ (Block.registeredIndices (Datahub.records rawData) registrations).keys :=
    (Block.mem_registeredIndices htxs.nodup).2 ⟨hash, hi, by rw [htext]; exact htxid⟩
  refine ⟨_, (congrArg stumpDecodeBUMP hp).trans hdecode, ⟨i, 0x02, some (Hex.encode hash)⟩,
    (Block.mem_txidLeaves htxs.two _).2 ⟨i, hkey, hash, hi, rfl⟩, hash, rfl, htext, ?_⟩
  have hdecoded := Dashboard.decoded_of_stumpDecodeBUMP hdecode
  rw [← builtBUMP_eq hheight] at hdecoded ⊢
  refine walk_builtBUMP hhash htxs.nonzero hlen htxs.max hdecoded hkey rfl ?_
  rw [paddedLeaf, List.getD_eq_getElem?_getD, hi]
  rfl

end

/-! ### Two transactions, of which the first is registered -/

/-- SHA-256 of the texts that are hashed for the two records. -/
def postedSha256 (data : Bytes) : Digest :=
  if data = encode (some Block.twoRecordsStump) then
    ⟨Dashboard.stumpHexToBytes "037433f1d191d73daa37859821dd78f5fa225b441b76f66ec852d4574b1ab376",
      by decide⟩
  else Dashboard.sampleSha256 data

def postedEnv : Block.Env :=
  { Block.twoRecords with
    buildMerkleTreeStoreFromBytes := fun nodes =>
      .ok (merkleTreeStore (Dashboard.pairHash postedSha256) nodes) }

def postedStores : Store.Stores String := .memory 10 10 fun data => (postedSha256 data).1

end Callback

end MerkleService
