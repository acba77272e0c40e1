import MerkleService.Datahub.Client
import MerkleService.Subtree.Registrations

/-!
# Registering a transaction

`POST /watch` (`handleWatch` of `internal/api/handlers.go`) takes the txid of a transaction as the
client spells it: 64 hexadecimal digits of either case.  It registers the callback URL under that
spelling, while the subtree processor and the block processor look up the lower-case texts of the
hashes in the subtree data.

* `handleWatch` : the handler, with its checks and its answers.
* `watch_found_iff` : **a registration is found if and only if it was spelled in lower case**.
* `watch_not_found` : an upper-case spelling is accepted, and never found.
-/

namespace MerkleService

namespace Api

open Datahub Subtree

/-- `WatchRequest`. -/
structure WatchRequest where
  txID : String
  callbackURL : String

/-- The answers that `handleWatch` writes: `ErrorResponse` with a status code, or
`WatchResponse` with status 200. -/
inductive Response where
  | error (statusCode : ℕ) (error : String)
  | watch (status message : String)
  deriving DecidableEq

/-- `[a-fA-F0-9]`. -/
def isHexChar (c : Char) : Bool :=
  ('a' ≤ c && c ≤ 'f') || ('A' ≤ c && c ≤ 'F') || ('0' ≤ c && c ≤ '9')

/-- `txidRegex.MatchString`, for the pattern `^[a-fA-F0-9]{64}$`. -/
def txidRegexMatch (s : String) : Bool := s.toList.all isHexChar && s.toList.length == 64

/-- The stores that the server writes to; a registry of URLs need not be configured. -/
structure Stores where
  regStore : Registrations
  urlRegistry : Option (List String)

/-- What the handler calls. -/
structure Env where
  /-- `url.Parse`: scheme and host. -/
  urlParse : String → Except String (String × String)
  /-- The error of `regStore.Add`. -/
  addErr : String → String → Option String
  /-- The error of `urlRegistry.Add`, which is only logged. -/
  registryErr : String → Option String

/-- The URL is one that the handler accepts. -/
def Env.validURL (env : Env) (callbackURL : String) : Bool :=
  match env.urlParse callbackURL with
  | .error _ => false
  | .ok (scheme, host) => (scheme == "http" || scheme == "https") && host != ""

/-- `urlRegistry.Add`: an ordered list, in which a URL stands once. -/
def registryAdd (urls : List String) (callbackURL : String) : List String :=
  if callbackURL ∈ urls then urls else urls.orderedInsert (· ≤ ·) callbackURL

/-- `handleWatch`; a body that cannot be decoded is `none`. -/
def handleWatch (env : Env) (s : Stores) (body : Option WatchRequest) : Stores × Response :=
  match body with
  | none => (s, .error 400 "invalid request body")
  | some req =>
    if req.txID = "" then (s, .error 400 "txid is required")
    else if txidRegexMatch req.txID = false then
      (s, .error 400 "invalid txid format: must be a 64-character hex string")
    else if req.callbackURL = "" then (s, .error 400 "callbackUrl is required")
    else if env.validURL req.callbackURL = false then
      (s, .error 400 "invalid callbackUrl: must be a valid HTTP/HTTPS URL")
    else
      match env.addErr req.txID req.callbackURL with
      | some _ => (s, .error 500 "internal server error")
      | none =>
        -- An error of the URL registry is logged, and the registration stands.
        let urlRegistry := s.urlRegistry.map fun urls =>
          match env.registryErr req.callbackURL with
          | some _ => urls
          | none => registryAdd urls req.callbackURL
        (⟨s.regStore.add req.txID req.callbackURL, urlRegistry⟩,
          .watch "ok" "registration successful")

/-! ### What the handler does -/

section

variable {env : Env} {s s' : Stores} {req : WatchRequest} {status message : String}

theorem handleWatch_error {body : Option WatchRequest} {code : ℕ} {err : String}
    (h : handleWatch env s body = (s', .error code err)) : s' = s := by
  unfold handleWatch at h
  split at h
  · exact (Prod.mk.inj h).1.symm
  · split_ifs at h
    iterate 4 exact (Prod.mk.inj h).1.symm
    split at h
    · exact (Prod.mk.inj h).1.symm
    · cases (Prod.mk.inj h).2

/-- A request that succeeds has a txid of the pattern, and its URL is registered under the spelling
of the request. -/
theorem handleWatch_ok (h : handleWatch env s (some req) = (s', .watch status message)) :
    txidRegexMatch req.txID = true ∧ s'.regStore = s.regStore.add req.txID req.callbackURL := by
  simp only [handleWatch] at h
  split_ifs at h with hempty hregex hurl hvalid
  iterate 4 cases (Prod.mk.inj h).2
  split at h
  · cases (Prod.mk.inj h).2
  · obtain rfl := (Prod.mk.inj h).1
    exact ⟨by simpa using hregex, rfl⟩

end

/-! ### Looking up -/

theorem batchGet_add {r : Registrations} {t url : String} {txids : List String} (h : t ∈ txids) :
    ∃ urls, (r.add t url).batchGet txids t = some urls ∧ url ∈ urls := by
  have hmem : url ∈ r.add t url t := by
    rw [Registrations.add, Function.update_self]
    split_ifs with hin
    · exact hin
    · exact (List.perm_orderedInsert _ _ _).mem_iff.2 List.mem_cons_self
  have hne : r.add t url t ≠ [] := by
    intro hnil
    rw [hnil] at hmem
    exact absurd hmem List.not_mem_nil
  exact ⟨_, by rw [Registrations.batchGet, if_pos ⟨h, hne⟩], hmem⟩

/-- A lookup of the texts finds the URL under `t`. -/
def FoundBy (r : Registrations) (t url : String) (txids : List String) : Prop :=
  t ∈ txids ∧ ∃ urls, r.batchGet txids t = some urls ∧ url ∈ urls

/-- Both processors find the URL when they look up the txids of the subtree data: the subtree
processor with `ParseRawTxids`, the block processor with `ParseRawNodes` and `Hash.String`. -/
def Found (r : Registrations) (t url : String) (data : List UInt8) : Prop :=
  (∃ txids, parseRawTxids data = .ok txids ∧ FoundBy r t url txids) ∧
  ∃ nodes, parseRawNodes data = .ok nodes ∧ FoundBy r t url (nodes.map hashString)

section

variable {r : Registrations} {t url : String} {data : List UInt8}

theorem found_add_iff (hlen : data.length % hashSize = 0) :
    Found (r.add t url) t url data ↔ t ∈ (records data).map hashString := by
  have htxids : parseRawTxids data = .ok ((records data).map hashString) := by
    rw [parseRawTxids, parseRaw, if_neg (not_not_intro hlen)]
  have hnodes : parseRawNodes data = .ok (records data) := by
    rw [parseRawNodes, parseRaw, if_neg (not_not_intro hlen), List.map_id]
  constructor
  · rintro ⟨⟨txids, hparse, hmem, -⟩, -⟩
    rw [htxids, Except.ok.injEq] at hparse
    exact hparse ▸ hmem
  · intro hmem
    exact ⟨⟨_, htxids, hmem, batchGet_add hmem⟩, ⟨_, hnodes, hmem, batchGet_add hmem⟩⟩

theorem mem_hashString_iff {h : List UInt8} (hdecode : Hex.decode t = some h.reverse)
    (hmem : h ∈ records data) :
    t ∈ (records data).map hashString ↔ ∀ c ∈ t.toList, ¬ c.isUpper := by
  rw [← Hex.encode_eq_iff hdecode, List.mem_map]
  constructor
  · rintro ⟨h', -, ht⟩
    -- The text determines the hash.
    have hsame : h'.reverse = h.reverse := by
      rw [← Option.some.injEq, ← hdecode, ← ht, hashString, Hex.decode_encode]
    rw [← hsame, ← hashString, ht]
  · intro ht
    exact ⟨h, hmem, ht⟩

end

/-- **A registration is found if and only if it was spelled in lower case.**  Of the txids that
`POST /watch` accepts for a transaction of the subtree, both lookups find those that have no
upper-case letter. -/
theorem watch_found_iff (env : Env) (s s' : Stores) (req : WatchRequest) (status message : String)
    (hok : handleWatch env s (some req) = (s', .watch status message))
    (h : List UInt8) (hdecode : Hex.decode req.txID = some h.reverse)
    (data : List UInt8) (hlen : data.length % hashSize = 0) (hmem : h ∈ records data) :
    Found s'.regStore req.txID req.callbackURL data ↔ ∀ c ∈ req.txID.toList, ¬ c.isUpper := by
  rw [(handleWatch_ok hok).2, found_add_iff hlen, mem_hashString_iff hdecode hmem]

/-- A server that knows how `http://a/cb` is parsed, with working stores. -/
def sampleEnv : Env where
  urlParse u := if u = "http://a/cb" then .ok ("http", "a") else .error "unknown"
  addErr _ _ := none
  registryErr _ := none

/-- The request of a client that spells the txid as `t`, to a server without registrations. -/
def sampleWatch (t : String) : Stores × Response :=
  handleWatch sampleEnv ⟨fun _ => [], none⟩ (some ⟨t, "http://a/cb"⟩)

/-- The txid of the record whose bytes count down from 31. -/
def countedTxID : String := "000102030405060708090a0b0c0d0e0f101112131415161718191a1b1c1d1e1f"

/-- The record is the second of two. -/
theorem watch_found_iff_lower :
    Found (sampleWatch countedTxID).1.regStore countedTxID "http://a/cb"
      (List.replicate 32 0xaa ++ ((List.range 32).map UInt8.ofNat).reverse) := by
  refine (watch_found_iff sampleEnv _ _ ⟨countedTxID, "http://a/cb"⟩ "ok"
    "registration successful" rfl ((List.range 32).map UInt8.ofNat).reverse (by decide) _
    (by decide) (by decide)).2 ?_
  have hall : countedTxID.toList.all (fun c => !c.isUpper) = true := by decide
  intro c hc
  have hlower := List.all_eq_true.1 hall c hc
  rw [Bool.not_eq_true'] at hlower
  rw [hlower]
  exact Bool.false_ne_true

/-- A txid that is spelled in upper case is accepted and not found. -/
theorem watch_not_found :
    (sampleWatch "AAAAAAAAAAAAAAAAAAAAAAAAAAAAAAAAAAAAAAAAAAAAAAAAAAAAAAAAAAAAAAAA").2 =
      .watch "ok" "registration successful" ∧
    Hex.decode "AAAAAAAAAAAAAAAAAAAAAAAAAAAAAAAAAAAAAAAAAAAAAAAAAAAAAAAAAAAAAAAA" =
      some (List.replicate 32 0xaa).reverse ∧
    List.replicate 32 0xaa ∈ records (List.replicate 32 0xaa) ∧
    ¬ Found
      (sampleWatch "AAAAAAAAAAAAAAAAAAAAAAAAAAAAAAAAAAAAAAAAAAAAAAAAAAAAAAAAAAAAAAAA").1.regStore
      "AAAAAAAAAAAAAAAAAAAAAAAAAAAAAAAAAAAAAAAAAAAAAAAAAAAAAAAAAAAAAAAA" "http://a/cb"
      (List.replicate 32 0xaa) := by
  refine ⟨by decide, by decide, by decide, ?_⟩
  rintro ⟨⟨txids, hparse, hmem, -⟩, -⟩
  obtain rfl := Except.ok.inj hparse
  exact absurd hmem (by decide)

end Api

end MerkleService
