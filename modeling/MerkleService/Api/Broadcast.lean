import MerkleService.Api.Watch
import MerkleService.Block.SubtreeWorker

/-!
# Registrations and the broadcast of BLOCK_PROCESSED

`POST /watch` writes to two stores: the registrations, by which a subscriber learns where its
transaction is, and the registry of URLs, to which `emitBlockProcessed`
(`internal/block/subtree_worker.go`) publishes BLOCK_PROCESSED after every block.  The handler
reports a failure of the first write and only logs one of the second.

* `exec_emitBlockProcessed` : the workers publish what the function `emitBlockProcessed` says.
* `server` : the handler over any sequence of requests, with the requests it answered with 200.
* `Subscribed` : both notifications reach the subscriber.
* `always_subscribed_iff` : every accepted subscriber is in both stores if and only if every
  accepted request finds a registry that takes its URL or has it already.
* `accepted_subscribed` : **what a response with status 200 promises**, for each request by itself.
-/

namespace MerkleService

namespace Api

open Kafka Subtree SubtreeWorker

/-! ### The broadcast -/

/-- `urlRegistry.GetAll`, of a registry that is configured. -/
def Stores.getAll (s : Stores) : List String := s.urlRegistry.getD []

/-- The body of the loop of `emitBlockProcessed`; `publishErr` is the error of
`PublishWithHashKey`, which is logged. -/
def emitTo (producer : Producer) (publishErr : String → Option String) (blockHash : String)
    (topic : Topic CallbackTopicMessage) (callbackURL : String) : Topic CallbackTopicMessage :=
  match publishErr callbackURL with
  | some _ => topic
  | none =>
    producer.publishWithHashKey topic callbackURL (blockProcessedMessage blockHash callbackURL)

/-- `emitBlockProcessed`; an error of `GetAll` is logged, too. -/
def emitBlockProcessed (producer : Producer) (getAllErr : Option String)
    (publishErr : String → Option String) (s : Stores) (topic : Topic CallbackTopicMessage)
    (blockHash : String) : Topic CallbackTopicMessage :=
  match s.urlRegistry, getAllErr with
  | none, _ => topic
  | some _, some _ => topic
  | some urls, none => urls.foldl (emitTo producer publishErr blockHash) topic

/-- A BLOCK_PROCESSED message for the URL is in the topic after the emission for the block, when
the calls of the worker succeed. -/
def Receives (producer : Producer) (s : Stores) (url : String) : Prop :=
  ∀ topic blockHash, ∃ p, blockProcessedMessage blockHash url ∈
    emitBlockProcessed producer none (fun _ => none) s topic blockHash p

section

variable (producer : Producer) (blockHash : String)

theorem mem_foldl_emitTo {urls : List String} {topic : Topic CallbackTopicMessage} {p : ℕ}
    {m : CallbackTopicMessage} :
    m ∈ urls.foldl (emitTo producer (fun _ => none) blockHash) topic p ↔
      m ∈ topic p ∨
        ∃ u ∈ urls, producer.partitionOf u = p ∧ m = blockProcessedMessage blockHash u := by
  induction urls generalizing topic with
  | nil => simp
  | cons u urls ih =>
    have hone : m ∈ emitTo producer (fun _ => none) blockHash topic u p ↔
        m ∈ topic p ∨ producer.partitionOf u = p ∧ m = blockProcessedMessage blockHash u := by
      by_cases hp : p = producer.partitionOf u
      · subst hp
        simp [emitTo, Producer.publishWithHashKey]
      · simp [emitTo, Producer.publishWithHashKey, Function.update_of_ne hp, Ne.symm hp]
    rw [List.foldl_cons, ih, hone]
    simp [or_assoc]

theorem receives_iff (s : Stores) (url : String) :
    Receives producer s url ↔ ∃ urls, s.urlRegistry = some urls ∧ url ∈ urls := by
  constructor
  · intro h
    obtain ⟨p, hp⟩ := h (fun _ => []) ""
    cases hreg : s.urlRegistry with
    | none => simp [emitBlockProcessed, hreg] at hp
    | some urls =>
      simp only [emitBlockProcessed, hreg, mem_foldl_emitTo, List.not_mem_nil, false_or] at hp
      obtain ⟨u, hu, -, heq⟩ := hp
      have hurl : url = u := congrArg CallbackTopicMessage.callbackURL heq
      exact ⟨urls, rfl, hurl ▸ hu⟩
  · rintro ⟨urls, hreg, hmem⟩ topic blockHash
    refine ⟨producer.partitionOf url, ?_⟩
    simp only [emitBlockProcessed, hreg, mem_foldl_emitTo]
    exact .inr ⟨url, hmem, rfl, rfl⟩

end

/-! ### The loop of a worker -/

section

variable {work : List SubtreeWorkMessage} {producer : Producer} {w : SubtreeWorkMessage}
variable {d item : ℕ}

/-- The steps that a worker makes in the loop, for the URLs that are left. -/
def emitLabels (publishErr : String → Option String) (d : ℕ) (urls : List String) : List Label :=
  urls.map fun u => .emit d (publishErr u).isNone

/-- A worker in the loop comes to its end, and publishes what the loop publishes. -/
theorem exec_emitRest (publishErr : String → Option String) (hwork : work[item]? = some w)
    (rest : List String) (e : Emission) (s : State)
    (hd : s.deliveries[d]? = some ⟨item, .emitRest e rest, false⟩) :
    ∃ s', (machine work producer).exec s (emitLabels publishErr d rest) = some s' ∧
      s'.topic = rest.foldl (emitTo producer publishErr w.blockHash) s.topic := by
  induction rest generalizing e s with
  | nil => exact ⟨s, rfl, rfl⟩
  | cons u rest ih =>
    obtain ⟨hlt, -⟩ := List.getElem?_eq_some_iff.1 hd
    have hstep : ∃ e' s₁, (machine work producer).step s (.emit d (publishErr u).isNone) = some s₁ ∧
        s₁.deliveries[d]? = some ⟨item, .emitRest e' rest, false⟩ ∧
        s₁.topic = emitTo producer publishErr w.blockHash s.topic u := by
      cases herr : publishErr u with
      | some err =>
        refine ⟨e, { s with deliveries := s.deliveries.set d ⟨item, .emitRest e rest, false⟩ }, ?_,
          by simp [hlt], by simp [emitTo, herr]⟩
        simp [machine, step, Label.mover, hd, hwork, Phase.emitRest, deliveryStep]
      | none =>
        refine ⟨⟨e.urls, e.sent ++ [u]⟩, { s.publish producer u
          (blockProcessedMessage w.blockHash u) with
            deliveries :=
              s.deliveries.set d ⟨item, .emitRest ⟨e.urls, e.sent ++ [u]⟩ rest, false⟩ },
          ?_, by simp [hlt], by simp [emitTo, herr, State.publish]⟩
        simp [machine, step, Label.mover, hd, hwork, Phase.emitRest, deliveryStep]
    obtain ⟨e', s₁, hst, hd₁, htopic⟩ := hstep
    obtain ⟨s', hexec, htopic'⟩ := ih e' s₁ hd₁
    refine ⟨s', ?_, by rw [htopic', htopic, List.foldl_cons]⟩
    rw [emitLabels, List.map_cons, LTS.exec, hst]
    exact hexec

/-- **What a worker publishes is what `emitBlockProcessed` says.**  The worker saw the counter at
zero and got the URLs of the registry. -/
theorem exec_emitBlockProcessed (publishErr : String → Option String) (stores : Stores)
    {urls : List String} (hreg : stores.urlRegistry = some urls) (hnodup : urls.Nodup)
    (hwork : work[item]? = some w) (s : State)
    (hd : s.deliveries[d]? = some ⟨item, .emitting, false⟩) :
    ∃ s', (machine work producer).exec s
        (.getAll d (some urls) :: emitLabels publishErr d urls) = some s' ∧
      s'.topic = emitBlockProcessed producer none publishErr stores s.topic w.blockHash := by
  obtain ⟨hlt, -⟩ := List.getElem?_eq_some_iff.1 hd
  have hst : (machine work producer).step s (.getAll d (some urls)) =
      some { s with deliveries :=
        s.deliveries.set d ⟨item, .emitRest ⟨urls, []⟩ urls, false⟩ } := by
    simp [machine, step, Label.mover, hd, hwork, deliveryStep, hnodup, afterGetAll]
  obtain ⟨s', hexec, htopic⟩ := @exec_emitRest work producer w d item publishErr hwork urls
    ⟨urls, []⟩ { s with deliveries := s.deliveries.set d ⟨item, .emitRest ⟨urls, []⟩ urls, false⟩ }
    (by simp [hlt])
  refine ⟨s', ?_, by simp only [htopic, emitBlockProcessed, hreg]⟩
  rw [LTS.exec, hst]
  exact hexec

end

/-! ### The server -/

/-- The stores, and the requests that were answered with status 200. -/
structure Server where
  stores : Stores
  accepted : List WatchRequest

/-- A request, with what the calls of its handler return. -/
structure Request where
  env : Env
  body : Option WatchRequest

/-- The requests that a response with status 200 answers. -/
def Response.accepts : Response → Option WatchRequest → List WatchRequest
  | .watch _ _, some req => [req]
  | _, _ => []

/-- One `POST /watch`. -/
def serve (s : Server) (r : Request) : Server :=
  let (stores, response) := handleWatch r.env s.stores r.body
  ⟨stores, s.accepted ++ response.accepts r.body⟩

def server : LTS Server Request := ⟨fun s r => some (serve s r)⟩

/-- The request passes the checks of the handler, and its registration is stored. -/
def Env.accepts (env : Env) (req : WatchRequest) : Bool :=
  req.txID != "" && txidRegexMatch req.txID && req.callbackURL != "" &&
    env.validURL req.callbackURL && (env.addErr req.txID req.callbackURL).isNone

/-- The registry takes the URL, or has it. -/
def Stores.takesURL (s : Stores) (env : Env) (url : String) : Prop :=
  ∃ urls, s.urlRegistry = some urls ∧ (env.registryErr url = none ∨ url ∈ urls)

/-- Every request that is going to be accepted finds a registry that takes its URL. -/
def Registers (s : Server) (r : Request) : Prop :=
  ∀ req, r.body = some req → r.env.accepts req = true →
    s.stores.takesURL r.env req.callbackURL

/-- The URL is registered for the txid and in the registry, and blocks are announced to it. -/
def Subscribed (producer : Producer) (s : Stores) (req : WatchRequest) : Prop :=
  req.callbackURL ∈ s.regStore req.txID ∧ req.callbackURL ∈ s.getAll ∧
    Receives producer s req.callbackURL

/-- So it is for all requests that were answered with status 200. -/
def AllSubscribed (producer : Producer) (s : Server) : Prop :=
  ∀ req ∈ s.accepted, Subscribed producer s.stores req

theorem mem_registryAdd {urls : List String} {u url : String} :
    u ∈ registryAdd urls url ↔ u = url ∨ u ∈ urls := by
  unfold registryAdd
  split_ifs with h
  · constructor
    · exact Or.inr
    · rintro (rfl | hu)
      · exact h
      · exact hu
  · rw [(List.perm_orderedInsert _ _ _).mem_iff, List.mem_cons]

/-- The registry after an accepted request. -/
def Stores.register (s : Stores) (env : Env) (req : WatchRequest) : Stores where
  regStore := s.regStore.add req.txID req.callbackURL
  urlRegistry := s.urlRegistry.map fun urls =>
    match env.registryErr req.callbackURL with
    | some _ => urls
    | none => registryAdd urls req.callbackURL

/-- The handler registers the requests that it accepts, and no others. -/
theorem serve_cases (s : Server) (r : Request) :
    (∃ req, r.body = some req ∧ r.env.accepts req = true ∧
      serve s r = ⟨s.stores.register r.env req, s.accepted ++ [req]⟩) ∨
    (∀ req, r.body = some req → r.env.accepts req = false) ∧ serve s r = s := by
  obtain ⟨env, body⟩ := r
  cases body with
  | none => exact .inr ⟨by simp, by simp [serve, handleWatch, Response.accepts]⟩
  | some req =>
    by_cases hacc : env.accepts req = true
    · refine .inl ⟨req, rfl, hacc, ?_⟩
      simp only [Env.accepts, Bool.and_eq_true, bne_iff_ne, Option.isNone_iff_eq_none] at hacc
      obtain ⟨⟨⟨⟨hid, hregex⟩, hurl⟩, hvalid⟩, hadd⟩ := hacc
      have hwatch : handleWatch env s.stores (some req) =
          (s.stores.register env req, .watch "ok" "registration successful") := by
        simp only [handleWatch, if_neg hid, hregex, if_neg hurl, hvalid, hadd, Bool.true_eq_false,
          if_false]
        rfl
      simp only [serve, hwatch, Response.accepts]
    · refine .inr ⟨by simpa using hacc, ?_⟩
      simp only [Env.accepts, Bool.and_eq_true, bne_iff_ne, Option.isNone_iff_eq_none] at hacc
      simp only [serve, handleWatch]
      split_ifs with hid hregex hurl hvalid
      iterate 4 simp [Response.accepts]
      cases hadd : env.addErr req.txID req.callbackURL with
      | some err => simp [Response.accepts]
      | none =>
        rw [Bool.not_eq_false] at hregex hvalid
        exact absurd ⟨⟨⟨⟨hid, hregex⟩, hurl⟩, hvalid⟩, hadd⟩ hacc

section

variable {producer : Producer} {s : Stores} {env : Env} {req : WatchRequest}

theorem mem_add_iff {r : Registrations} {t url t' u : String} :
    u ∈ r.add t url t' ↔ u ∈ r t' ∨ t' = t ∧ u = url := by
  rw [Registrations.add]
  by_cases ht : t' = t
  · subst ht
    rw [Function.update_self]
    split_ifs with hin
    · constructor
      · exact Or.inl
      · rintro (hu | ⟨-, rfl⟩)
        · exact hu
        · exact hin
    · rw [(List.perm_orderedInsert _ _ _).mem_iff, List.mem_cons]
      tauto
  · rw [Function.update_of_ne ht]
    tauto

theorem mem_register_iff {u : String} :
    (∃ urls, (s.register env req).urlRegistry = some urls ∧ u ∈ urls) ↔
      ∃ urls, s.urlRegistry = some urls ∧
        (u ∈ urls ∨ u = req.callbackURL ∧ env.registryErr req.callbackURL = none) := by
  cases hreg : s.urlRegistry with
  | none => simp [Stores.register, hreg]
  | some urls =>
    cases herr : env.registryErr req.callbackURL with
    | some err => simp [Stores.register, hreg, herr]
    | none => simp [Stores.register, hreg, herr, mem_registryAdd, or_comm]

theorem subscribed_iff : Subscribed producer s req ↔
    req.callbackURL ∈ s.regStore req.txID ∧
      ∃ urls, s.urlRegistry = some urls ∧ req.callbackURL ∈ urls := by
  rw [Subscribed, receives_iff]
  constructor
  · rintro ⟨hreg, -, hurl⟩
    exact ⟨hreg, hurl⟩
  · rintro ⟨hreg, urls, hsome, hmem⟩
    exact ⟨hreg, by rwa [Stores.getAll, hsome], urls, hsome, hmem⟩

theorem Subscribed.register {req' : WatchRequest} (h : Subscribed producer s req') :
    Subscribed producer (s.register env req) req' := by
  rw [subscribed_iff] at h ⊢
  obtain ⟨hreg, urls, hsome, hmem⟩ := h
  exact ⟨mem_add_iff.2 (.inl hreg), mem_register_iff.2 ⟨urls, hsome, .inl hmem⟩⟩

/-- An accepted request is subscribed exactly if the registry takes its URL. -/
theorem subscribed_register_iff :
    Subscribed producer (s.register env req) req ↔ s.takesURL env req.callbackURL := by
  rw [subscribed_iff, mem_register_iff, Stores.takesURL]
  constructor
  · rintro ⟨-, urls, hsome, hurl⟩
    exact ⟨urls, hsome, hurl.symm.imp And.right id⟩
  · rintro ⟨urls, hsome, hurl⟩
    exact ⟨mem_add_iff.2 (.inr ⟨rfl, rfl⟩), urls, hsome, hurl.symm.imp_right fun h => ⟨rfl, h⟩⟩

end

/-- After one request all accepted requests are subscribed exactly if this one is. -/
theorem registers_iff {producer : Producer} {s : Server} (r : Request)
    (h : AllSubscribed producer s) :
    Registers s r ↔ AllSubscribed producer (serve s r) := by
  obtain ⟨req, hbody, hacc, hserve⟩ | ⟨hnot, hserve⟩ := serve_cases s r
  · have hreg : Registers s r ↔ s.stores.takesURL r.env req.callbackURL := by
      constructor
      · intro hr
        exact hr req hbody hacc
      · intro htakes req' hbody' _
        rwa [← Option.some.inj (hbody.symm.trans hbody')]
    rw [hreg, ← @subscribed_register_iff producer, hserve, AllSubscribed]
    simp only [List.forall_mem_append, List.forall_mem_singleton]
    constructor
    · intro hsub
      exact ⟨fun req' hmem => (h req' hmem).register, hsub⟩
    · exact And.right
  · rw [hserve]
    refine iff_of_true ?_ h
    intro req hbody hacc
    rw [hnot req hbody] at hacc
    exact absurd hacc Bool.false_ne_true

/-- **Every subscriber that is told it succeeded gets both notifications, if and only if the
registry takes the URLs of the requests that are accepted** (or has them already).  This is over
all sequences of requests, whatever the stores held before and whichever of their calls fail. -/
theorem always_subscribed_iff (producer : Producer) (stores : Stores) (requests : List Request) :
    server.Always (AllSubscribed producer) ⟨stores, []⟩ requests ↔
      server.Along Registers ⟨stores, []⟩ requests := by
  have hstart : AllSubscribed producer ⟨stores, []⟩ := List.forall_mem_nil _
  refine LTS.always_iff_along ?_ ?_ hstart hstart (LTS.isSome_exec (fun _ _ => rfl) _ _)
  · intro s r s' hI hst
    obtain rfl := Option.some.inj hst
    exact registers_iff r hI
  · intro s r s' hI hreg hst
    obtain rfl := Option.some.inj hst
    exact (registers_iff r hI).1 hreg

theorem registered_serve {s : Server} {url txid : String} (h : url ∈ s.stores.regStore txid)
    (r : Request) : url ∈ (serve s r).stores.regStore txid := by
  obtain ⟨req, -, -, hserve⟩ | ⟨-, hserve⟩ := serve_cases s r
  · rw [hserve]
    exact mem_add_iff.2 (.inl h)
  · rwa [hserve]

theorem Subscribed.serve {producer : Producer} {s : Server} {req : WatchRequest}
    (h : Subscribed producer s.stores req) (r : Request) :
    Subscribed producer (serve s r).stores req := by
  obtain ⟨req', -, -, hserve⟩ | ⟨-, hserve⟩ := serve_cases s r
  · rw [hserve]
    exact h.register
  · rwa [hserve]

/-- A response with status 200 says that the request is registered, and then it is subscribed
exactly if the registry takes its URL. -/
theorem serve_ok {producer : Producer} {s : Server} {r : Request} {req : WatchRequest}
    {status message : String} (hbody : r.body = some req)
    (hok : (handleWatch r.env s.stores r.body).2 = .watch status message) :
    req.callbackURL ∈ (serve s r).stores.regStore req.txID ∧
      (Subscribed producer (serve s r).stores req ↔
        s.stores.takesURL r.env req.callbackURL) := by
  have haccepted : (serve s r).accepted = s.accepted ++ [req] := by
    rw [hbody] at hok
    simp only [serve, hbody, hok, Response.accepts]
  obtain ⟨req', hbody', -, hserve⟩ | ⟨-, hserve⟩ := serve_cases s r
  · obtain rfl := Option.some.inj (hbody.symm.trans hbody')
    rw [hserve]
    exact ⟨mem_add_iff.2 (.inr ⟨rfl, rfl⟩), subscribed_register_iff⟩
  · rw [hserve] at haccepted
    simp at haccepted

/-- **What a response with status 200 promises.**  After a request that is so answered, and whatever
requests come before and after it and whichever of their calls fail: the URL is registered for the
txid; and if the registry takes the URL, or has it, then the URL is in it and blocks are announced
to it.  So all subscribers get both notifications if and only if that was so for each of them. -/
theorem accepted_subscribed (producer : Producer) (stores : Stores) (requests : List Request) :
    (∀ before r after s t req status message, requests = before ++ r :: after →
      server.exec ⟨stores, []⟩ before = some s → server.exec s (r :: after) = some t →
      r.body = some req → (handleWatch r.env s.stores r.body).2 = .watch status message →
      req.callbackURL ∈ t.stores.regStore req.txID ∧
        (s.stores.takesURL r.env req.callbackURL →
          req.callbackURL ∈ t.stores.getAll ∧ Receives producer t.stores req.callbackURL)) ∧
    (server.Always (AllSubscribed producer) ⟨stores, []⟩ requests ↔
      server.Along Registers ⟨stores, []⟩ requests) := by
  refine ⟨?_, always_subscribed_iff producer stores requests⟩
  intro before r after s t req status message _ _ hafter hbody hok
  obtain ⟨s', hst, hexec⟩ := Option.bind_eq_some_iff.1 hafter
  obtain rfl := Option.some.inj hst
  obtain ⟨hregistered, hsubscribed⟩ := @serve_ok producer s r req status message hbody hok
  constructor
  · refine LTS.exec_invariant (I := fun s => req.callbackURL ∈ s.stores.regStore req.txID) ?_
      hregistered hexec
    intro s r s' hs hst
    obtain rfl := Option.some.inj hst
    exact registered_serve hs r
  · intro htakes
    have hlast : Subscribed producer t.stores req := by
      refine LTS.exec_invariant (I := fun s => Subscribed producer s.stores req) ?_
        (hsubscribed.2 htakes) hexec
      intro s r s' hs hst
      obtain rfl := Option.some.inj hst
      exact hs.serve r
    exact hlast.2

/-- `sampleEnv` with a registry that does not answer in time. -/
def failingEnv : Env := { sampleEnv with registryErr := fun _ => some "timeout" }

def sampleRequest : WatchRequest :=
  ⟨"aaaaaaaaaaaaaaaaaaaaaaaaaaaaaaaaaaaaaaaaaaaaaaaaaaaaaaaaaaaaaaaa", "http://a/cb"⟩

/-- The registry takes the first request, and fails at the second one. -/
theorem accepted_subscribed_first :
    ∃ t, server.exec ⟨⟨fun _ => [], some []⟩, []⟩
        [⟨sampleEnv, some sampleRequest⟩, ⟨failingEnv, some sampleRequest⟩] = some t ∧
      sampleRequest.callbackURL ∈ t.stores.getAll := by
  refine ⟨_, rfl, ?_⟩
  have hfirst := (accepted_subscribed ⟨fun s => s.toUTF8.toList, fun _ => 0⟩
    ⟨fun _ => [], some []⟩ [⟨sampleEnv, some sampleRequest⟩, ⟨failingEnv, some sampleRequest⟩]).1
    [] ⟨sampleEnv, some sampleRequest⟩ [⟨failingEnv, some sampleRequest⟩] _ _ sampleRequest "ok"
    "registration successful" rfl rfl rfl rfl (by decide)
  exact (hfirst.2 ⟨[], rfl, .inl rfl⟩).1

/-- The registry fails once: the request is answered with status 200, and the URL is not in the
registry. -/
theorem accepted_not_subscribed :
    (handleWatch failingEnv ⟨fun _ => [], some []⟩ (some sampleRequest)).2 =
      .watch "ok" "registration successful" ∧
    ¬ server.Always (AllSubscribed ⟨fun s => s.toUTF8.toList, fun _ => 0⟩)
      ⟨⟨fun _ => [], some []⟩, []⟩ [⟨failingEnv, some sampleRequest⟩] := by
  refine ⟨by decide, ?_⟩
  rintro ⟨-, h⟩
  obtain ⟨-, hmem, -⟩ := h _ rfl sampleRequest (List.mem_singleton.2 rfl)
  exact absurd hmem (by decide)

end Api

end MerkleService
