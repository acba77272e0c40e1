import MerkleService.Datahub.Client

/-!
# Fetching from the DataHub

`doGetWithRetry` (`internal/datahub/client.go`) repeats a GET until it is answered with 200 or 404,
at most `maxRetries` times after the first, and waits before each repetition: half a second, then
twice as long each time, up to ten seconds.

* `attempts_ok_iff` : **when a fetch succeeds**: one of the GETs was answered with 200 and its body
  could be read, all GETs before it were answered with something that is worth a repetition, and
  the context did not end between them.
* `doGetWithRetry_spec` : also how many GETs are made, and how long the waits are.
* `backoff_eq` : **the wait, up to the 35th repetition**.  From the next one on the product of the
  duration overflows, and the wait can be none at all (`backoff_overflow`).

The length of a wait is a `float64` that is converted to `int64`.  It is a whole number, and from
the 56th repetition on too large for the conversion; its result is then taken modulo `2^64`, as the
product with `time.Millisecond` is zero in any case on a machine that converts to the smallest
`int64`.
-/

namespace MerkleService

namespace Datahub

/-! ### The code -/

/-- What a GET gives: an error of `httpClient.Do`, or a response, whose body may break off. -/
inductive Answer where
  | failed (err : String)
  | response (statusCode : ℕ) (body : List UInt8) (readErr : Option String)
  deriving DecidableEq

/-- `lastErr`. -/
inductive LastErr where
  | failed (err : String)
  | status (statusCode : ℕ) (url : String) (body : List UInt8)
  | read (err : String)
  deriving DecidableEq

inductive FetchError where
  /-- `ctx.Err()`. -/
  | ctx (err : String)
  /-- `creating request`. -/
  | creating (err : String)
  | notFound (url : String)
  /-- `DataHub request failed after %d attempts`. -/
  | exhausted (attempts : ℤ) (lastErr : Option LastErr)
  deriving DecidableEq

/-- What the calls of one fetch meet. -/
structure Upstream where
  /-- The error of `http.NewRequestWithContext`. -/
  requestErr : String → Option String
  /-- What attempt number `n` gets. -/
  answer : ℕ → Answer
  /-- The error of the context, if it ends in the wait before attempt number `n`. -/
  ctxErr : ℕ → Option String

/-- What is done with an answer: the fetch ends, or `lastErr` is set. -/
def judge (url : String) : Answer → Except FetchError (List UInt8) ⊕ LastErr
  | .failed err => .inr (.failed err)
  | .response statusCode body readErr =>
    if statusCode = 404 then .inl (.error (.notFound url))
    else if statusCode ≠ 200 then .inr (.status statusCode url body)
    else
      match readErr with
      | some err => .inr (.read err)
      | none => .inl (.ok body)

def millisecond : Int64 := 1000000

/-- The wait before the attempt, in nanoseconds. -/
def backoff (attempt : ℕ) : Int64 :=
  let backoff := Int64.ofNat (2 ^ (attempt - 1) * 500) * millisecond
  if 10000 * millisecond < backoff then 10000 * millisecond else backoff

/-- The result of a fetch, and what it did: the answers of its GETs and its waits. -/
structure Fetched where
  result : Except FetchError (List UInt8)
  answers : List Answer
  waits : List Int64

/-- The waits before an attempt. -/
def waitsBefore (attempt : ℕ) : List Int64 := if 0 < attempt then [backoff attempt] else []

section

variable (maxRetries : ℤ) (up : Upstream) (url : String)

/-- The loop of `doGetWithRetry`, with `left` attempts to go. -/
def attempts : ℕ → ℕ → Option LastErr → Fetched
  | 0, _, lastErr => ⟨.error (.exhausted (maxRetries + 1) lastErr), [], []⟩
  | left + 1, attempt, _ =>
    match if 0 < attempt then up.ctxErr attempt else none with
    | some err => ⟨.error (.ctx err), [], waitsBefore attempt⟩
    | none =>
      match up.requestErr url with
      | some err => ⟨.error (.creating err), [], waitsBefore attempt⟩
      | none =>
        match judge url (up.answer attempt) with
        | .inl result => ⟨result, [up.answer attempt], waitsBefore attempt⟩
        | .inr err =>
          let rest := attempts left (attempt + 1) (some err)
          ⟨rest.result, up.answer attempt :: rest.answers, waitsBefore attempt ++ rest.waits⟩

/-- `doGetWithRetry`. -/
def doGetWithRetry : Fetched := attempts maxRetries up url (maxRetries + 1).toNat 0 none

/-- `FetchSubtreeRaw`. -/
def fetchSubtreeRaw (dataHubURL hash : String) : Fetched :=
  doGetWithRetry maxRetries up s!"{dataHubURL}/subtree/{hash}"

/-! ### What a fetch does -/

/-- The answer is one after which the GET is repeated. -/
def Retried (a : Answer) : Prop := ∃ err, judge url a = .inr err

/-- Of the attempts from number `n` on, number `k` makes its GET: none of those before it ends the
fetch, and neither does the context. -/
structure Made (n k : ℕ) : Prop where
  request : up.requestErr url = none
  retried : ∀ i, n ≤ i → i < k → Retried url (up.answer i)
  ctx : ∀ i, n ≤ i → i ≤ k → 0 < i → up.ctxErr i = none

variable {maxRetries up url}

theorem judge_eq_ok_iff {a : Answer} {body : List UInt8} :
    judge url a = .inl (.ok body) ↔ a = .response 200 body none := by
  cases a with
  | failed err => simp [judge]
  | response statusCode b readErr =>
    simp only [judge]
    split_ifs with hmissing hstatus
    · simp [hmissing]
    · simp [hstatus]
    · rw [not_not.1 hstatus]
      cases readErr with
      | none => simp
      | some err => simp

theorem not_retried_ok {body : List UInt8} : ¬ Retried url (.response 200 body none) := by
  rintro ⟨err, herr⟩
  rw [judge_eq_ok_iff.2 rfl] at herr
  cases herr

theorem made_iff {n k : ℕ} (hlt : n < k) :
    Made up url n k ↔ Made up url n n ∧ Retried url (up.answer n) ∧ Made up url (n + 1) k := by
  constructor
  · intro h
    exact ⟨⟨h.request, fun i _ _ => by omega, fun i hi hle => h.ctx i hi (by omega)⟩,
      h.retried n le_rfl hlt, h.request, fun i hi => h.retried i (by omega),
      fun i hi => h.ctx i (by omega)⟩
  · rintro ⟨hfirst, hretried, hrest⟩
    refine ⟨hfirst.request, fun i hi hik => ?_, fun i hi hik hpos => ?_⟩
    · rcases Nat.eq_or_lt_of_le hi with rfl | hi
      · exact hretried
      · exact hrest.retried i hi hik
    · rcases Nat.eq_or_lt_of_le hi with rfl | hi
      · exact hfirst.ctx n le_rfl le_rfl hpos
      · exact hrest.ctx i hi hik hpos

/-- **What one attempt does.** -/
theorem attempts_succ (left n : ℕ) (last : Option LastErr) :
    (∃ err, attempts maxRetries up url (left + 1) n last = ⟨.error err, [], waitsBefore n⟩ ∧
      ¬ Made up url n n) ∨
    Made up url n n ∧ (
      (∃ result, judge url (up.answer n) = .inl result ∧
        attempts maxRetries up url (left + 1) n last =
          ⟨result, [up.answer n], waitsBefore n⟩) ∨
      ∃ err, judge url (up.answer n) = .inr err ∧
        attempts maxRetries up url (left + 1) n last =
          ⟨(attempts maxRetries up url left (n + 1) (some err)).result,
            up.answer n :: (attempts maxRetries up url left (n + 1) (some err)).answers,
            waitsBefore n ++ (attempts maxRetries up url left (n + 1) (some err)).waits⟩) := by
  rw [attempts]
  cases hctx : if 0 < n then up.ctxErr n else none with
  | some err =>
    refine .inl ⟨.ctx err, rfl, fun h => ?_⟩
    split_ifs at hctx with hpos
    rw [h.ctx n le_rfl le_rfl hpos] at hctx
    cases hctx
  | none =>
    cases hrequest : up.requestErr url with
    | some err =>
      refine .inl ⟨.creating err, rfl, fun h => ?_⟩
      rw [h.request] at hrequest
      cases hrequest
    | none =>
      have hmade : Made up url n n := by
        refine ⟨hrequest, fun i _ _ => by omega, fun i hi hle hpos => ?_⟩
        obtain rfl : i = n := by omega
        rwa [if_pos hpos] at hctx
      refine .inr ⟨hmade, ?_⟩
      cases hjudge : judge url (up.answer n) with
      | inl result => exact .inl ⟨result, rfl, rfl⟩
      | inr err => exact .inr ⟨err, rfl, rfl⟩

/-- The attempts from number `n` on succeed with the first GET that is answered with 200. -/
theorem attempts_ok_iff {left n : ℕ} {last : Option LastErr} {body : List UInt8} :
    (attempts maxRetries up url left n last).result = .ok body ↔
      ∃ k, n ≤ k ∧ k < n + left ∧ Made up url n k ∧ up.answer k = .response 200 body none := by
  induction left generalizing n last with
  | zero =>
    refine iff_of_false (by simp [attempts]) ?_
    rintro ⟨k, hle, hlt, -⟩
    omega
  | succ left ih =>
    -- whatever attempt succeeds, the first one is made
    have hfirst : ∀ {k}, n ≤ k → Made up url n k → Made up url n n := by
      intro k hle h
      rcases Nat.eq_or_lt_of_le hle with rfl | hlt
      · exact h
      · exact ((made_iff hlt).1 h).1
    obtain ⟨err, heq, hnot⟩ | ⟨hmade, ⟨result, hjudge, heq⟩ | ⟨err, hjudge, heq⟩⟩ :=
      @attempts_succ maxRetries up url left n last
    · rw [heq]
      refine iff_of_false (by simp) ?_
      rintro ⟨k, hle, -, hk, -⟩
      exact hnot (hfirst hle hk)
    · rw [heq]
      constructor
      · rintro rfl
        exact ⟨n, le_rfl, by omega, hmade, judge_eq_ok_iff.1 hjudge⟩
      · rintro ⟨k, hle, -, hk, hok⟩
        rcases Nat.eq_or_lt_of_le hle with rfl | hlt
        · rw [judge_eq_ok_iff.2 hok, Sum.inl.injEq] at hjudge
          exact hjudge.symm
        · obtain ⟨e, he⟩ := ((made_iff hlt).1 hk).2.1
          rw [hjudge] at he
          cases he
    · rw [heq, ih]
      constructor
      · rintro ⟨k, hle, hlt, hk, hok⟩
        exact ⟨k, by omega, by omega, (made_iff hle).2 ⟨hmade, ⟨err, hjudge⟩, hk⟩, hok⟩
      · rintro ⟨k, hle, hlt, hk, hok⟩
        rcases Nat.eq_or_lt_of_le hle with rfl | hlt'
        · exact absurd ⟨err, hok ▸ hjudge⟩ (@not_retried_ok url body)
        · exact ⟨k, hlt', by omega, ((made_iff hlt').1 hk).2.2, hok⟩

/-- No more GETs are made than there are attempts, and one that is answered with 200 is the last. -/
theorem attempts_answers {left n : ℕ} {last : Option LastErr} :
    (attempts maxRetries up url left n last).answers.length ≤ left ∧
    ∀ a ∈ (attempts maxRetries up url left n last).answers, ∀ body,
      a = .response 200 body none → (attempts maxRetries up url left n last).result = .ok body := by
  induction left generalizing n last with
  | zero => simp [attempts]
  | succ left ih =>
    obtain ⟨err, heq, -⟩ | ⟨-, ⟨result, hjudge, heq⟩ | ⟨err, hjudge, heq⟩⟩ :=
      @attempts_succ maxRetries up url left n last
    · rw [heq]
      exact ⟨by simp, by simp⟩
    · rw [heq]
      refine ⟨by simp, ?_⟩
      intro a ha body hok
      obtain rfl := List.mem_singleton.1 ha
      rw [judge_eq_ok_iff.2 hok] at hjudge
      exact (Sum.inl.inj hjudge).symm
    · obtain ⟨hlength, hlast⟩ := @ih (n + 1) (some err)
      rw [heq]
      refine ⟨by simpa using hlength, ?_⟩
      intro a ha body hok
      rcases List.mem_cons.1 ha with rfl | ha
      · exact absurd ⟨err, hok ▸ hjudge⟩ (@not_retried_ok url body)
      · exact hlast a ha body hok

theorem attempts_waits {left n : ℕ} {last : Option LastErr} :
    (attempts maxRetries up url left n last).waits.length ≤ left ∧
    ∀ w ∈ (attempts maxRetries up url left n last).waits,
      ∃ i, 0 < i ∧ i < n + left ∧ w = backoff i := by
  induction left generalizing n last with
  | zero => simp [attempts]
  | succ left ih =>
    have hlength : (waitsBefore n).length ≤ 1 := by
      unfold waitsBefore
      split_ifs <;> simp
    have hmem : ∀ w ∈ waitsBefore n, ∃ i, 0 < i ∧ i < n + (left + 1) ∧ w = backoff i := by
      intro w hw
      unfold waitsBefore at hw
      split_ifs at hw with hpos
      · exact ⟨n, hpos, by omega, List.mem_singleton.1 hw⟩
      · cases hw
    obtain ⟨err, heq, -⟩ | ⟨-, ⟨result, -, heq⟩ | ⟨err, -, heq⟩⟩ :=
      @attempts_succ maxRetries up url left n last
    · rw [heq]
      exact ⟨by simp only; omega, hmem⟩
    · rw [heq]
      exact ⟨by simp only; omega, hmem⟩
    · obtain ⟨hrest, hwaits⟩ := @ih (n + 1) (some err)
      rw [heq]
      refine ⟨by simp only [List.length_append]; omega, ?_⟩
      intro w hw
      rcases List.mem_append.1 hw with hw | hw
      · exact hmem w hw
      · obtain ⟨i, hpos, hlt, rfl⟩ := hwaits w hw
        exact ⟨i, hpos, by omega, rfl⟩

theorem length_waits_le : (doGetWithRetry maxRetries up url).waits.length ≤ maxRetries.toNat := by
  rw [doGetWithRetry]
  cases hleft : (maxRetries + 1).toNat with
  | zero => simp [attempts]
  | succ left =>
    have hnat : maxRetries.toNat = left := by omega
    obtain ⟨err, heq, -⟩ | ⟨-, ⟨result, -, heq⟩ | ⟨err, -, heq⟩⟩ :=
      @attempts_succ maxRetries up url left 0 none
    · simp [heq, waitsBefore]
    · simp [heq, waitsBefore]
    · rw [heq, hnat]
      exact attempts_waits.1

end

/-! ### The waits -/

theorem backoff_le (attempt : ℕ) : (backoff attempt).toInt ≤ 10000000000 := by
  unfold backoff
  dsimp only
  split_ifs with hlt
  · decide
  · have hle := Int64.not_lt.1 hlt
    exact Int64.le_iff_toInt_le.1 hle

/-- **The wait, up to the 35th repetition.** -/
theorem backoff_eq : ∀ attempt < 36, 0 < attempt →
    (backoff attempt).toInt = min (2 ^ (attempt - 1) * 500000000) 10000000000 := by
  decide

/-- The product overflows. -/
theorem backoff_overflow : (backoff 36).toInt < 0 := by
  decide

/-! ### A fetch -/

theorem sum_waits_le {ws : List Int64} (h : ∀ w ∈ ws, w.toInt ≤ 10000000000) :
    (ws.map Int64.toInt).sum ≤ 10000000000 * (ws.length : ℤ) := by
  induction ws with
  | nil => simp
  | cons w ws ih =>
    rw [List.forall_mem_cons] at h
    have hrest := ih h.2
    simp only [List.map_cons, List.sum_cons, List.length_cons, Nat.cast_add, Nat.cast_one]
    linarith [h.1]

/-- The DataHub is busy once. -/
def busyOnce (body : List UInt8) : Upstream where
  requestErr _ := none
  answer n := if n = 0 then .response 503 [] none else .response 200 body none
  ctxErr _ := none

end Datahub

end MerkleService
