import MerkleService.LTS.Basic
import MerkleService.Kafka.Messages
import MerkleService.Callback.StumpGate
import Mathlib.Data.List.Sort

/-!
# The callback delivery service

`DeliveryService` (`internal/callback/delivery.go`) takes callback messages from Kafka
(`handleMessage`), queues them on the channel `workCh` and delivers them by HTTP POST from a pool of
workers (`processDelivery`).  A failed delivery is parked in a timer and queued again, up to
`MaxRetries` times, and then published to a dead-letter queue.  BLOCK_PROCESSED waits in the
`stumpGate` for the STUMP messages of its block and URL.

The model is a machine.  A message that `handleMessage` has decoded becomes a job; jobs are numbered
in the order of acceptance.  Each job has its place (`Place`), which is in `handleMessage`, in
`workCh`, at one of the points of `processDelivery` in the hands of some worker, in a timer, or a
final outcome; and the state of the deferred `stumpGate.Done` of its first pass (`Exit`), which the
worker runs when `processDelivery` returns and the job may already be in a timer.

Dedup store, STUMP store, HTTP and DLQ answer in the labels, so that all patterns of answers and all
interleavings are all runs.

* `step` is one atomic step, `machine` the transition system and `init` its start.
* `step_inv` : what a step is, by its label, and `step_cases`, what it can do to the gate and to a
  job.
-/

namespace MerkleService

namespace Callback

open Kafka

/-- The configuration of the service, and the hash it uses. -/
structure Config where
  /-- The number of delivery workers. -/
  workers : ℕ
  /-- The capacity of `workCh`. -/
  capacity : ℕ
  maxRetries : Int64
  backoffBaseSec : Int64
  /-- Whether a dedup store and a STUMP store are configured. -/
  dedupStore : Bool
  stumpStore : Bool
  sha256 : String → List UInt8

/-- `hashTxIDs`. -/
def hashTxIDs (cfg : Config) (txids : List String) : String :=
  Hex.encode ((cfg.sha256 (",".intercalate (txids.insertionSort (· ≤ ·)))).take 8)

def dedupKeyForMessage (cfg : Config) (msg : CallbackTopicMessage) : String :=
  match msg.type with
  | .blockProcessed => msg.blockHash
  | .stump => msg.blockHash ++ ":" ++ toString msg.subtreeIndex
  | _ => if 0 < msg.txIDs.length then hashTxIDs cfg msg.txIDs else msg.txID

/-! ### Jobs -/

inductive Outcome where
  /-- 2xx. -/
  | delivered
  /-- Skipped as a duplicate. -/
  | skipped
  /-- Published to the DLQ. -/
  | deadLettered
  /-- All attempts to publish to the DLQ failed. -/
  | lost
  /-- Dropped because of the shutdown. -/
  | dropped
  deriving DecidableEq

/-- Where a job is. -/
inductive Place where
  /-- In `handleMessage`, blocked in the send on `workCh`. -/
  | sending
  /-- In `workCh`. -/
  | queued
  /-- In `stumpGate.Wait`: before the lookup, -/
  | gating
  /-- holding the wait group that was found, -/
  | found (group : ℕ)
  /-- blocked in `wg.Wait`, begun when the group had been down to zero `zeros` times, -/
  | waiting (group zeros : ℕ)
  /-- and before the removal of the map entry. -/
  | removing
  /-- Before `dedupStore.Exists`. -/
  | checking
  /-- In `deliverCallback`, before the request is sent. -/
  | preparing
  /-- In `deliverCallback`: the HTTP POST has started. -/
  | posting
  /-- Before `dedupStore.Record`. -/
  | recording
  /-- In `publishToDLQWithRetry`, after `attempts` failed attempts. -/
  | publishing (attempts : ℕ)
  /-- In `scheduleRetry`, before and after the check of `shuttingDown`; called by a worker or by
  `handleMessage`. -/
  | scheduling (byWorker : Bool)
  | parking (byWorker : Bool)
  /-- In a timer. -/
  | parked
  /-- In the callback of the timer, blocked in the send on `workCh`. -/
  | firing
  | final (o : Outcome)
  deriving DecidableEq

/-- The deferred `stumpGate.Done` of `processDelivery`. -/
inductive Exit where
  /-- There is none. -/
  | none
  /-- Deferred, the function has not returned. -/
  | deferred
  /-- Before the lookup. -/
  | pending
  /-- Before `wg.Done()`. -/
  | signalling (group : ℕ)
  deriving DecidableEq

structure Job where
  msg : CallbackTopicMessage
  place : Place
  exit : Exit := .none
  deriving DecidableEq

/-- A worker is in `processDelivery` with the job. -/
def Place.inHand : Place → Bool
  | .gating | .found _ | .waiting _ _ | .removing | .checking | .preparing | .posting | .recording
  | .publishing _ | .scheduling true | .parking true => true
  | _ => false

/-- A worker runs the deferred call. -/
def Exit.running : Exit → Bool
  | .pending | .signalling _ => true
  | _ => false

/-- The number of workers that are busy with the job: one may still run the deferred call of the
first pass while another one makes the second pass. -/
def Job.busy (job : Job) : ℕ := job.place.inHand.toNat + job.exit.running.toNat

/-- The condition under which `handleMessage` calls `stumpGate.Add` and `processDelivery` defers
`stumpGate.Done`. -/
def isFirstStump (msg : CallbackTopicMessage) : Bool := msg.type = .stump ∧ msg.retryCount = 0

def gateKey (msg : CallbackTopicMessage) : String := stumpGateKey msg.blockHash msg.callbackURL

/-! ### The machine -/

structure Counters where
  messagesProcessed : ℕ := 0
  messagesRetried : ℕ := 0
  messagesFailed : ℕ := 0
  messagesDedupe : ℕ := 0
  messagesParked : ℤ := 0

structure State where
  jobs : List Job
  workCh : List ℕ
  gate : StumpGate
  counters : Counters
  shuttingDown : Bool
  /-- `retryTimerWg.Wait` has returned in `Stop`. -/
  timersDone : Bool
  /-- `workCh` has been closed. -/
  closed : Bool
  /-- The process has panicked. -/
  panicked : Bool

/-- What `stumpStore.Get` answers. -/
inductive GetResult where
  | blob (data : List UInt8)
  | notFound
  | error (err : String)

/-- What `httpClient.Do` answers. -/
inductive PostResult where
  | status (code : ℕ)
  | error (err : String)

/-- The atomic steps; `j` is the job that moves. -/
inductive Label where
  /-- `handleMessage` up to the send, at time `now`. -/
  | accept (msg : CallbackTopicMessage) (now : ℕ)
  /-- The send on `workCh`, by `handleMessage` or by a timer. -/
  | send (j : ℕ)
  /-- A worker receives the next job and enters `processDelivery`. -/
  | take
  | gateLookup (j : ℕ)
  | gateWait (j : ℕ)
  | gateWake (j : ℕ)
  | gateRemove (j : ℕ)
  | dedupCheck (j now : ℕ) (answer : Except String Bool)
  | prepare (j now : ℕ) (get : GetResult) (requestErr : Option String)
  | post (j now : ℕ) (answer : PostResult)
  | record (j : ℕ)
  | publishDLQ (j : ℕ) (ok : Bool)
  /-- The check of `shuttingDown` in `scheduleRetry`. -/
  | schedule (j : ℕ)
  /-- The start of the timer. -/
  | park (j : ℕ)
  /-- The timer runs out. -/
  | fire (j : ℕ)
  | doneLookup (j : ℕ)
  | doneSignal (j : ℕ)
  /-- `Stop`: the flag, the wait for the timers, and the close of `workCh`. -/
  | stop
  | stopWait
  | close

section

variable (cfg : Config)

/-- The dedup store is used for the message. -/
def usesDedup (msg : CallbackTopicMessage) : Bool :=
  cfg.dedupStore && dedupKeyForMessage cfg msg != ""

/-- The place behind the gate. -/
def afterGate (msg : CallbackTopicMessage) : Place :=
  if usesDedup cfg msg then .checking else .preparing

/-- `processDelivery` returns, with the job at `place`; a deferred call runs now. -/
def Job.leave (job : Job) (place : Place) : Job :=
  { job with place := place, exit := if job.exit = .deferred then .pending else job.exit }

/-- `processDelivery` is entered. -/
def Job.enter (job : Job) : Job :=
  { job with place := if job.msg.type = .blockProcessed then .gating else afterGate cfg job.msg,
             exit := if isFirstStump job.msg then .deferred else job.exit }

/-- `scheduleRetryAfterFailure`, up to the call of `scheduleRetry`. -/
def scheduleRetryAfterFailure (s : State) (job : Job) (now : ℕ) : State × Job :=
  let retryCount := job.msg.retryCount + 1
  -- the product with `time.Second`; a time before `now` is as good as `now`
  let nextRetryAt := some (now + (cfg.backoffBaseSec * retryCount * 1000000000).toNatClampNeg)
  ({ s with counters := { s.counters with messagesRetried := s.counters.messagesRetried + 1 } },
    { job with msg := { job.msg with retryCount := retryCount, nextRetryAt := nextRetryAt },
               place := .scheduling true })

/-- What `processDelivery` does with an error of `deliverCallback`. -/
def afterFailure (s : State) (job : Job) (now : ℕ) (permanent : Bool) : State × Job :=
  if permanent ∨ cfg.maxRetries ≤ job.msg.retryCount then
    ({ s with counters := { s.counters with messagesFailed := s.counters.messagesFailed + 1 } },
      { job with place := .publishing 0 })
  else scheduleRetryAfterFailure cfg s job now

/-- The job has been delivered and this has been recorded. -/
def delivered (s : State) (job : Job) : State × Job :=
  ({ s with counters := { s.counters with messagesProcessed := s.counters.messagesProcessed + 1 } },
    job.leave (.final .delivered))

/-- The answer of the STUMP store, or `none` for an error and whether it is permanent. -/
def fetchStump (msg : CallbackTopicMessage) (get : GetResult) : Except Bool Unit :=
  if msg.type = .stump ∧ msg.stumpRef ≠ "" then
    if cfg.stumpStore then
      match get with
      | .blob _ => .ok ()
      | .notFound => .error true
      | .error _ => .error false
    else .error true
  else .ok ()

/-- `handleMessage` up to the send. -/
def accept (s : State) (msg : CallbackTopicMessage) (now : ℕ) : State :=
  if msg.nextRetryAt.any (now < ·) then
    { s with jobs := s.jobs ++ [{ msg := msg, place := .scheduling false }] }
  else
    { s with jobs := s.jobs ++ [{ msg := msg, place := .sending }],
             gate := if isFirstStump msg then s.gate.add (gateKey msg) else s.gate }

/-- One step of a job: in `handleMessage`, in `processDelivery` or in a timer. -/
def jobStep (s : State) (job : Job) : Label → Option (State × Job)
  | .gateLookup _ =>
    if job.place = .gating then
      match s.gate.gates (gateKey job.msg) with
      | some i => some (s, { job with place := .found i })
      | none => some (s, { job with place := afterGate cfg job.msg })
    else none
  | .gateWait _ =>
    match job.place with
    | .found i =>
      if s.gate.count i = 0 then some (s, { job with place := .removing })
      else some (s, { job with place := .waiting i (s.gate.zeros i) })
    | _ => none
  | .gateWake _ =>
    match job.place with
    | .waiting i zeros =>
      -- a group that is used again before its waiters have returned panics
      if zeros < s.gate.zeros i then
        some ({ s with panicked := decide (s.gate.count i ≠ 0) }, { job with place := .removing })
      else none
    | _ => none
  | .gateRemove _ =>
    if job.place = .removing then
      some ({ s with gate := s.gate.remove (gateKey job.msg) },
        { job with place := afterGate cfg job.msg })
    else none
  | .dedupCheck _ now answer =>
    if job.place = .checking then
      match answer with
      | .error _ => some (scheduleRetryAfterFailure cfg s job now)
      | .ok true => some ({ s with counters :=
          { s.counters with messagesDedupe := s.counters.messagesDedupe + 1 } },
          job.leave (.final .skipped))
      | .ok false => some (s, { job with place := .preparing })
    else none
  | .prepare _ now get requestErr =>
    if job.place = .preparing then
      match fetchStump cfg job.msg get with
      | .error permanent => some (afterFailure cfg s job now permanent)
      | .ok () =>
        if requestErr.isSome then some (afterFailure cfg s job now false)
        else some (s, { job with place := .posting })
    else none
  | .post _ now answer =>
    if job.place = .posting then
      match answer with
      | .status code =>
        if 200 ≤ code ∧ code < 300 then
          if usesDedup cfg job.msg then some (s, { job with place := .recording })
          else some (delivered s job)
        else some (afterFailure cfg s job now false)
      | .error _ => some (afterFailure cfg s job now false)
    else none
  | .record _ => if job.place = .recording then some (delivered s job) else none
  | .publishDLQ _ ok =>
    match job.place with
    | .publishing attempts =>
      if ok then some (s, job.leave (.final .deadLettered))
      -- four attempts in all
      else if attempts < 3 then some (s, { job with place := .publishing (attempts + 1) })
      else some (s, job.leave (.final .lost))
    | _ => none
  | .schedule _ =>
    match job.place with
    | .scheduling byWorker =>
      if s.shuttingDown then
        some (s, if byWorker then job.leave (.final .dropped)
          else { job with place := .final .dropped })
      else some (s, { job with place := .parking byWorker })
    | _ => none
  | .park _ =>
    match job.place with
    | .parking byWorker =>
      some ({ s with counters :=
          { s.counters with messagesParked := s.counters.messagesParked + 1 } },
        if byWorker then job.leave .parked else { job with place := .parked })
    | _ => none
  | .fire _ =>
    if job.place = .parked then
      if s.shuttingDown then
        some ({ s with counters :=
          { s.counters with messagesParked := s.counters.messagesParked - 1 } },
          { job with place := .final .dropped })
      else some (s, { job with place := .firing })
    else none
  | .doneLookup _ =>
    if job.exit = .pending then
      match s.gate.gates (gateKey job.msg) with
      | some i => some (s, { job with exit := .signalling i })
      | none => some (s, { job with exit := .none })
    else none
  | .doneSignal _ =>
    match job.exit with
    | .signalling i =>
      some ({ s with gate := s.gate.signal i, panicked := decide (s.gate.count i ≤ 0) },
        { job with exit := .none })
    | _ => none
  | _ => none

/-- The job a label moves. -/
def Label.mover : Label → Option ℕ
  | .accept _ _ | .take | .stop | .stopWait | .close => none
  | .send j | .gateLookup j | .gateWait j | .gateWake j | .gateRemove j | .dedupCheck j _ _
  | .prepare j _ _ _ | .post j _ _ | .record j | .publishDLQ j _ | .schedule j | .park j | .fire j
  | .doneLookup j | .doneSignal j => some j

/-- The state with another record for job `j`. -/
def State.setJob (s : State) (j : ℕ) (job : Job) : State := { s with jobs := s.jobs.set j job }

/-- The send on `workCh`: it blocks while the channel is full.  On the closed channel it panics,
which the callback of a timer recovers from. -/
def send (s : State) (j : ℕ) (job : Job) : Option State :=
  match job.place with
  | .sending =>
    if s.closed then some { s with panicked := true }
    else if s.workCh.length < cfg.capacity then
      some { s.setJob j { job with place := .queued } with workCh := s.workCh ++ [j] }
    else none
  | .firing =>
    let counters := { s.counters with messagesParked := s.counters.messagesParked - 1 }
    if s.closed then
      some { s.setJob j { job with place := .final .dropped } with counters := counters }
    else if s.workCh.length < cfg.capacity then
      some { s.setJob j { job with place := .queued } with
        workCh := s.workCh ++ [j], counters := counters }
    else none
  | _ => none

/-- A worker that is not busy receives from `workCh` and enters `processDelivery`. -/
def take (s : State) : Option State :=
  match s.workCh with
  | [] => none
  | j :: rest => do
    let job ← s.jobs[j]?
    if (s.jobs.map Job.busy).sum < cfg.workers then
      some { s.setJob j (job.enter cfg) with workCh := rest }
    else none

def step (s : State) (l : Label) : Option State :=
  if s.panicked then none
  else
    match l with
    | .accept msg now => some (accept s msg now)
    | .take => take cfg s
    | .stop => some { s with shuttingDown := true }
    | .stopWait =>
      if s.shuttingDown ∧ ∀ job ∈ s.jobs, job.place ≠ .parked ∧ job.place ≠ .firing then
        some { s with timersDone := true }
      else none
    | .close => if s.timersDone then some { s with closed := true } else none
    | .send j => do
      let job ← s.jobs[j]?
      send cfg s j job
    | l => do
      let j ← l.mover
      let job ← s.jobs[j]?
      let (s', job') ← jobStep cfg s job l
      some (s'.setJob j job')

/-- The service as a transition system. -/
def machine : LTS State Label := ⟨step cfg⟩

end

/-- The service after `Start`. -/
def init : State where
  jobs := []
  workCh := []
  gate := .empty
  counters := {}
  shuttingDown := false
  timersDone := false
  closed := false
  panicked := false

/-! ### What a step can do -/

/-- The points of `processDelivery` between the gate and its end. -/
def Place.delivering : Place → Bool
  | .checking | .preparing | .posting | .recording | .publishing _ => true
  | _ => false

/-- The label makes a delivery that can be repeated fail. -/
def retries (cfg : Config) (msg : CallbackTopicMessage) : Label → Bool
  | .dedupCheck _ _ (.error _) => true
  | .prepare _ _ get requestErr =>
    match fetchStump cfg msg get with
    | .error permanent => !permanent && decide (msg.retryCount < cfg.maxRetries)
    | .ok () => requestErr.isSome && decide (msg.retryCount < cfg.maxRetries)
  | .post _ _ (.status code) =>
    !decide (200 ≤ code ∧ code < 300) && decide (msg.retryCount < cfg.maxRetries)
  | .post _ _ (.error _) => decide (msg.retryCount < cfg.maxRetries)
  | _ => false

/-- The label makes the last attempt to publish to the DLQ fail. -/
def loses : Place → Label → Bool
  | .publishing attempts, .publishDLQ _ false => decide (3 ≤ attempts)
  | _, _ => false

/-- What a step of a job does to the gate and the job. -/
inductive Move (cfg : Config) (l : Label) : StumpGate → Job → StumpGate → Job → Prop
  | lookup_none {g : StumpGate} {job : Job} : job.place = .gating →
      g.gates (gateKey job.msg) = none →
      Move cfg l g job g { job with place := afterGate cfg job.msg }
  | lookup_some {g : StumpGate} {job : Job} {i : ℕ} : job.place = .gating →
      g.gates (gateKey job.msg) = some i → Move cfg l g job g { job with place := .found i }
  | wait_zero {g : StumpGate} {job : Job} {i : ℕ} : job.place = .found i → g.count i = 0 →
      Move cfg l g job g { job with place := .removing }
  | wait {g : StumpGate} {job : Job} {i : ℕ} : job.place = .found i → g.count i ≠ 0 →
      Move cfg l g job g { job with place := .waiting i (g.zeros i) }
  | wake {g : StumpGate} {job : Job} {i zeros : ℕ} : job.place = .waiting i zeros →
      zeros < g.zeros i → Move cfg l g job g { job with place := .removing }
  | remove {g : StumpGate} {job : Job} : job.place = .removing →
      Move cfg l g job (g.remove (gateKey job.msg)) { job with place := afterGate cfg job.msg }
  | deliver {g : StumpGate} {job : Job} {place : Place} : job.place.delivering = true →
      place.delivering = true → Move cfg l g job g { job with place := place }
  | finish {g : StumpGate} {job : Job} (o : Outcome) : job.place.delivering = true →
      o ≠ .dropped → (o = .lost → loses job.place l = true) →
      Move cfg l g job g (job.leave (.final o))
  | drop {g : StumpGate} {job : Job} : job.place = .scheduling true →
      Move cfg l g job g (job.leave (.final .dropped))
  | retry {g : StumpGate} {job : Job} (nextRetryAt : Option ℕ) : job.place.delivering = true →
      retries cfg job.msg l = true →
      Move cfg l g job g { job with
        msg := { job.msg with retryCount := job.msg.retryCount + 1, nextRetryAt := nextRetryAt },
        place := .scheduling true }
  | schedule {g : StumpGate} {job : Job} {byWorker : Bool} : job.place = .scheduling byWorker →
      Move cfg l g job g { job with place := .parking byWorker }
  | park {g : StumpGate} {job : Job} : job.place = .parking true →
      Move cfg l g job g (job.leave .parked)
  | timer {g : StumpGate} {job : Job} {place : Place} :
      job.place = .scheduling false ∨ job.place = .parking false ∨ job.place = .parked ∨
        job.place = .firing →
      place = .parked ∨ place = .firing ∨ place = .final .dropped →
      Move cfg l g job g { job with place := place }
  | done_none {g : StumpGate} {job : Job} : job.exit = .pending →
      g.gates (gateKey job.msg) = none → Move cfg l g job g { job with exit := .none }
  | done_some {g : StumpGate} {job : Job} {i : ℕ} : job.exit = .pending →
      g.gates (gateKey job.msg) = some i → Move cfg l g job g { job with exit := .signalling i }
  | signal {g : StumpGate} {job : Job} {i : ℕ} : job.exit = .signalling i →
      Move cfg l g job (g.signal i) { job with exit := .none }

variable {cfg : Config}

theorem afterFailure_move {s : State} {job : Job} {l : Label} {now : ℕ} {permanent : Bool}
    (hplace : job.place.delivering = true)
    (hretry : permanent = false → job.msg.retryCount < cfg.maxRetries →
      retries cfg job.msg l = true) :
    Move cfg l s.gate job (afterFailure cfg s job now permanent).1.gate
        (afterFailure cfg s job now permanent).2 ∧
      (afterFailure cfg s job now permanent).1.jobs = s.jobs ∧
      (afterFailure cfg s job now permanent).1.workCh = s.workCh := by
  unfold afterFailure
  split_ifs with hc
  · exact ⟨.deliver hplace rfl, rfl, rfl⟩
  · simp only [not_or, Bool.not_eq_true, Int64.not_le] at hc
    exact ⟨.retry _ hplace (hretry hc.1 hc.2), rfl, rfl⟩

theorem prepare_move {s s' : State} {job job' : Job} {j now : ℕ} {get : GetResult}
    {requestErr : Option String}
    (h : jobStep cfg s job (.prepare j now get requestErr) = some (s', job')) :
    Move cfg (.prepare j now get requestErr) s.gate job s'.gate job' ∧ s'.jobs = s.jobs ∧
      s'.workCh = s.workCh := by
  simp only [jobStep] at h
  by_cases hp : job.place = .preparing
  case neg => simp [hp] at h
  simp only [hp, ↓reduceIte] at h
  have hd : job.place.delivering = true := by rw [hp]; rfl
  split at h
  · rename_i permanent hf
    obtain ⟨rfl, rfl⟩ := Prod.mk.inj (Option.some.inj h)
    exact afterFailure_move hd fun hperm hlt => by simp [retries, hf, hperm, hlt]
  · rename_i hf
    split_ifs at h with herr
    · obtain ⟨rfl, rfl⟩ := Prod.mk.inj (Option.some.inj h)
      exact afterFailure_move hd fun _ hlt => by simp [retries, hf, herr, hlt]
    · obtain ⟨rfl, rfl⟩ := Prod.mk.inj (Option.some.inj h)
      exact ⟨.deliver hd rfl, rfl, rfl⟩

theorem post_move {s s' : State} {job job' : Job} {j now : ℕ} {answer : PostResult}
    (h : jobStep cfg s job (.post j now answer) = some (s', job')) :
    Move cfg (.post j now answer) s.gate job s'.gate job' ∧ s'.jobs = s.jobs ∧
      s'.workCh = s.workCh := by
  simp only [jobStep] at h
  by_cases hp : job.place = .posting
  case neg => simp [hp] at h
  simp only [hp, ↓reduceIte] at h
  have hd : job.place.delivering = true := by rw [hp]; rfl
  split at h
  · rename_i code
    split_ifs at h with hok
    · obtain ⟨rfl, rfl⟩ := Prod.mk.inj (Option.some.inj h)
      exact ⟨.deliver hd rfl, rfl, rfl⟩
    · obtain ⟨rfl, rfl⟩ := Prod.mk.inj (Option.some.inj h)
      exact ⟨.finish _ hd (by simp) (by simp), rfl, rfl⟩
    · obtain ⟨rfl, rfl⟩ := Prod.mk.inj (Option.some.inj h)
      exact afterFailure_move hd fun _ hlt => by simp [retries, hlt, -not_and, hok]
  · obtain ⟨rfl, rfl⟩ := Prod.mk.inj (Option.some.inj h)
    exact afterFailure_move hd fun _ hlt => by simp [retries, hlt]

theorem publishDLQ_move {s s' : State} {job job' : Job} {j : ℕ} {ok : Bool}
    (h : jobStep cfg s job (.publishDLQ j ok) = some (s', job')) :
    Move cfg (.publishDLQ j ok) s.gate job s'.gate job' ∧ s'.jobs = s.jobs ∧
      s'.workCh = s.workCh := by
  simp only [jobStep] at h
  split at h
  · rename_i attempts hp
    have hd : job.place.delivering = true := by rw [hp]; rfl
    split_ifs at h with hok hatt
    · obtain ⟨rfl, rfl⟩ := Prod.mk.inj (Option.some.inj h)
      exact ⟨.finish _ hd (by simp) (by simp), rfl, rfl⟩
    · obtain ⟨rfl, rfl⟩ := Prod.mk.inj (Option.some.inj h)
      exact ⟨.deliver hd rfl, rfl, rfl⟩
    · obtain ⟨rfl, rfl⟩ := Prod.mk.inj (Option.some.inj h)
      refine ⟨.finish _ hd (by simp) fun _ => ?_, rfl, rfl⟩
      simp [hp, Bool.eq_false_iff.2 hok, loses, not_lt.1 hatt]
  · cases h

theorem schedule_move {s s' : State} {job job' : Job} {j : ℕ}
    (h : jobStep cfg s job (.schedule j) = some (s', job')) :
    Move cfg (.schedule j) s.gate job s'.gate job' ∧ s'.jobs = s.jobs ∧
      s'.workCh = s.workCh := by
  simp only [jobStep] at h
  split at h
  · rename_i byWorker hp
    split_ifs at h with hshut hby
    · obtain ⟨rfl, rfl⟩ := Prod.mk.inj (Option.some.inj h)
      exact ⟨.drop (by rw [hp, hby]), rfl, rfl⟩
    · obtain ⟨rfl, rfl⟩ := Prod.mk.inj (Option.some.inj h)
      refine ⟨.timer (Or.inl ?_) (Or.inr (Or.inr rfl)), rfl, rfl⟩
      rw [hp, Bool.eq_false_iff.2 hby]
    · obtain ⟨rfl, rfl⟩ := Prod.mk.inj (Option.some.inj h)
      exact ⟨.schedule hp, rfl, rfl⟩
  · cases h

/-- **What a step of a job does.** -/
theorem jobStep_move {s s' : State} {job job' : Job} {l : Label}
    (h : jobStep cfg s job l = some (s', job')) :
    Move cfg l s.gate job s'.gate job' ∧ s'.jobs = s.jobs ∧ s'.workCh = s.workCh := by
  cases l with
  | gateLookup j =>
    simp only [jobStep] at h
    split_ifs at h with hp
    split at h
    · rename_i i hi
      obtain ⟨rfl, rfl⟩ := Prod.mk.inj (Option.some.inj h)
      exact ⟨.lookup_some hp hi, rfl, rfl⟩
    · rename_i hi
      obtain ⟨rfl, rfl⟩ := Prod.mk.inj (Option.some.inj h)
      exact ⟨.lookup_none hp hi, rfl, rfl⟩
  | gateWait j =>
    simp only [jobStep] at h
    split at h
    · rename_i i hp
      split_ifs at h with hc
      · obtain ⟨rfl, rfl⟩ := Prod.mk.inj (Option.some.inj h)
        exact ⟨.wait_zero hp hc, rfl, rfl⟩
      · obtain ⟨rfl, rfl⟩ := Prod.mk.inj (Option.some.inj h)
        exact ⟨.wait hp hc, rfl, rfl⟩
    · cases h
  | gateWake j =>
    simp only [jobStep] at h
    split at h
    · rename_i i zeros hp
      split_ifs at h with hz
      obtain ⟨rfl, rfl⟩ := Prod.mk.inj (Option.some.inj h)
      exact ⟨.wake hp hz, rfl, rfl⟩
    · cases h
  | gateRemove j =>
    simp only [jobStep] at h
    split_ifs at h with hp
    obtain ⟨rfl, rfl⟩ := Prod.mk.inj (Option.some.inj h)
    exact ⟨.remove hp, rfl, rfl⟩
  | dedupCheck j now answer =>
    simp only [jobStep] at h
    split_ifs at h with hp
    have hd : job.place.delivering = true := by rw [hp]; rfl
    split at h
    · obtain ⟨rfl, rfl⟩ := Prod.mk.inj (Option.some.inj h)
      exact ⟨.retry _ hd rfl, rfl, rfl⟩
    · obtain ⟨rfl, rfl⟩ := Prod.mk.inj (Option.some.inj h)
      exact ⟨.finish _ hd (by simp) (by simp), rfl, rfl⟩
    · obtain ⟨rfl, rfl⟩ := Prod.mk.inj (Option.some.inj h)
      exact ⟨.deliver hd rfl, rfl, rfl⟩
  | prepare j now get requestErr => exact prepare_move h
  | post j now answer => exact post_move h
  | record j =>
    simp only [jobStep] at h
    split_ifs at h with hp
    obtain ⟨rfl, rfl⟩ := Prod.mk.inj (Option.some.inj h)
    exact ⟨.finish _ (by rw [hp]; rfl) (by simp) (by simp), rfl, rfl⟩
  | publishDLQ j ok => exact publishDLQ_move h
  | schedule j => exact schedule_move h
  | park j =>
    simp only [jobStep] at h
    split at h
    · rename_i byWorker hp
      cases byWorker
      · obtain ⟨rfl, rfl⟩ := Prod.mk.inj (Option.some.inj h)
        exact ⟨.timer (Or.inr (Or.inl hp)) (Or.inl rfl), rfl, rfl⟩
      · obtain ⟨rfl, rfl⟩ := Prod.mk.inj (Option.some.inj h)
        exact ⟨.park hp, rfl, rfl⟩
    · cases h
  | fire j =>
    simp only [jobStep] at h
    split_ifs at h with hp hshut
    · obtain ⟨rfl, rfl⟩ := Prod.mk.inj (Option.some.inj h)
      exact ⟨.timer (Or.inr (Or.inr (Or.inl hp))) (Or.inr (Or.inr rfl)), rfl, rfl⟩
    · obtain ⟨rfl, rfl⟩ := Prod.mk.inj (Option.some.inj h)
      exact ⟨.timer (Or.inr (Or.inr (Or.inl hp))) (Or.inr (Or.inl rfl)), rfl, rfl⟩
  | doneLookup j =>
    simp only [jobStep] at h
    split_ifs at h with hp
    split at h
    · rename_i i hi
      obtain ⟨rfl, rfl⟩ := Prod.mk.inj (Option.some.inj h)
      exact ⟨.done_some hp hi, rfl, rfl⟩
    · rename_i hi
      obtain ⟨rfl, rfl⟩ := Prod.mk.inj (Option.some.inj h)
      exact ⟨.done_none hp hi, rfl, rfl⟩
  | doneSignal j =>
    simp only [jobStep] at h
    split at h
    · rename_i i hp
      obtain ⟨rfl, rfl⟩ := Prod.mk.inj (Option.some.inj h)
      exact ⟨.signal hp, rfl, rfl⟩
    · cases h
  | accept | send | take | stop | stopWait | close => cases h

theorem take_inv {s s' : State} (h : take cfg s = some s') :
    ∃ j job rest, s.workCh = j :: rest ∧ s.jobs[j]? = some job ∧
      (s.jobs.map Job.busy).sum < cfg.workers ∧
      s' = { s.setJob j (job.enter cfg) with workCh := rest } := by
  unfold take at h
  split at h
  · cases h
  · rename_i j rest hch
    simp only [Option.bind_eq_bind, Option.bind_eq_some_iff] at h
    obtain ⟨job, hjob, h⟩ := h
    split_ifs at h with hbusy
    exact ⟨j, job, rest, hch, hjob, hbusy, (Option.some.inj h).symm⟩

/-- A send: on the closed channel it panics in `handleMessage` and drops the message in a timer, on
the open one the message is queued. -/
theorem send_inv {s s' : State} {j : ℕ} {job : Job} (h : send cfg s j job = some s') :
    (job.place = .sending ∧ s.closed = true ∧ s' = { s with panicked := true }) ∨
    (job.place = .firing ∧ s.closed = true ∧ s' = { s.setJob j { job with place := .final .dropped }
      with counters := { s.counters with messagesParked := s.counters.messagesParked - 1 } }) ∨
    (job.place = .sending ∧ s.closed = false ∧
      s' = { s.setJob j { job with place := .queued } with workCh := s.workCh ++ [j] }) ∨
    (job.place = .firing ∧ s.closed = false ∧ s' = { s.setJob j { job with place := .queued } with
      workCh := s.workCh ++ [j]
      counters := { s.counters with messagesParked := s.counters.messagesParked - 1 } }) := by
  unfold send at h
  split at h
  · rename_i hp
    split_ifs at h with hclosed
    · exact Or.inl ⟨hp, hclosed, (Option.some.inj h).symm⟩
    · exact Or.inr (Or.inr (Or.inl ⟨hp, Bool.eq_false_iff.2 hclosed, (Option.some.inj h).symm⟩))
  · rename_i hp
    dsimp only at h
    split_ifs at h with hclosed
    · exact Or.inr (Or.inl ⟨hp, hclosed, (Option.some.inj h).symm⟩)
    · exact Or.inr (Or.inr (Or.inr ⟨hp, Bool.eq_false_iff.2 hclosed, (Option.some.inj h).symm⟩))
  · cases h

/-- What a step is, by its label. -/
theorem step_inv {s s' : State} {l : Label} (h : step cfg s l = some s') :
    (∃ msg now, l = .accept msg now ∧ s' = accept s msg now) ∨
    (l = .take ∧ take cfg s = some s') ∨
    (l = .stop ∧ s' = { s with shuttingDown := true }) ∨
    (l = .stopWait ∧ s.shuttingDown = true ∧
      (∀ job ∈ s.jobs, job.place ≠ .parked ∧ job.place ≠ .firing) ∧
      s' = { s with timersDone := true }) ∨
    (l = .close ∧ s.timersDone = true ∧ s' = { s with closed := true }) ∨
    (∃ j job, l = .send j ∧ s.jobs[j]? = some job ∧ send cfg s j job = some s') ∨
    (∃ j job s₁ job', l.mover = some j ∧ s.jobs[j]? = some job ∧
      jobStep cfg s job l = some (s₁, job') ∧ s' = s₁.setJob j job') := by
  unfold step at h
  by_cases hpan : s.panicked = true
  case pos => simp [hpan] at h
  rw [if_neg hpan] at h
  split at h
  · rename_i msg now
    exact Or.inl ⟨msg, now, rfl, (Option.some.inj h).symm⟩
  · exact Or.inr (Or.inl ⟨rfl, h⟩)
  · exact Or.inr (Or.inr (Or.inl ⟨rfl, (Option.some.inj h).symm⟩))
  · split_ifs at h with hdown
    exact Or.inr (Or.inr (Or.inr (Or.inl ⟨rfl, hdown.1, hdown.2, (Option.some.inj h).symm⟩)))
  · split_ifs at h with hdone
    exact Or.inr (Or.inr (Or.inr (Or.inr (Or.inl ⟨rfl, hdone, (Option.some.inj h).symm⟩))))
  · rename_i j
    simp only [Option.bind_eq_bind, Option.bind_eq_some_iff] at h
    obtain ⟨job, hjob, h⟩ := h
    exact Or.inr (Or.inr (Or.inr (Or.inr (Or.inr (Or.inl ⟨j, job, rfl, hjob, h⟩)))))
  · simp only [Option.bind_eq_bind, Option.bind_eq_some_iff] at h
    obtain ⟨j, hj, job, hjob, ⟨s₁, job'⟩, hst, h⟩ := h
    exact Or.inr (Or.inr (Or.inr (Or.inr (Or.inr (Or.inr
      ⟨j, job, s₁, job', hj, hjob, hst, (Option.some.inj h).symm⟩)))))

/-- **What a step does**: accept a message, nothing to the jobs, a send, a receive, or a step of a
job. -/
theorem step_cases {s s' : State} {l : Label} (h : step cfg s l = some s') :
    (∃ msg now, l = .accept msg now ∧ s' = accept s msg now) ∨
    (s'.jobs = s.jobs ∧ s'.workCh = s.workCh ∧ s'.gate = s.gate) ∨
    (∃ j job, s.jobs[j]? = some job ∧ (job.place = .sending ∨ job.place = .firing) ∧
      s'.jobs = s.jobs.set j { job with place := .queued } ∧ s'.workCh = s.workCh ++ [j] ∧
      s'.gate = s.gate) ∨
    (∃ j job, s.workCh = j :: s'.workCh ∧ s.jobs[j]? = some job ∧
      s'.jobs = s.jobs.set j (job.enter cfg) ∧ s'.gate = s.gate) ∨
    (∃ j job job', l.mover = some j ∧ s.jobs[j]? = some job ∧
      s'.jobs = s.jobs.set j job' ∧
      s'.workCh = s.workCh ∧ Move cfg l s.gate job s'.gate job') := by
  rcases step_inv h with ⟨msg, now, rfl, rfl⟩ | ⟨rfl, htake⟩ | ⟨-, rfl⟩ | ⟨-, -, -, rfl⟩ |
    ⟨-, -, rfl⟩ | ⟨j, job, rfl, hjob, hsend⟩ | ⟨j, job, s₁, job', hj, hjob, hst, rfl⟩
  · exact Or.inl ⟨msg, now, rfl, rfl⟩
  · obtain ⟨j, job, rest, hch, hjob, -, rfl⟩ := take_inv htake
    exact Or.inr (Or.inr (Or.inr (Or.inl ⟨j, job, hch, hjob, rfl, rfl⟩)))
  · exact Or.inr (Or.inl ⟨rfl, rfl, rfl⟩)
  · exact Or.inr (Or.inl ⟨rfl, rfl, rfl⟩)
  · exact Or.inr (Or.inl ⟨rfl, rfl, rfl⟩)
  · rcases send_inv hsend with ⟨-, -, rfl⟩ | ⟨hp, -, rfl⟩ | ⟨hp, -, rfl⟩ | ⟨hp, -, rfl⟩
    · exact Or.inr (Or.inl ⟨rfl, rfl, rfl⟩)
    · -- the message is dropped
      refine Or.inr (Or.inr (Or.inr (Or.inr
        ⟨j, job, { job with place := .final .dropped }, rfl, hjob, rfl, rfl, ?_⟩)))
      exact .timer (Or.inr (Or.inr (Or.inr hp))) (Or.inr (Or.inr rfl))
    · exact Or.inr (Or.inr (Or.inl ⟨j, job, hjob, Or.inl hp, rfl, rfl, rfl⟩))
    · exact Or.inr (Or.inr (Or.inl ⟨j, job, hjob, Or.inr hp, rfl, rfl, rfl⟩))
  · obtain ⟨hmove, hjobs, hch⟩ := jobStep_move hst
    refine Or.inr (Or.inr (Or.inr (Or.inr ⟨j, job, job', hj, hjob, ?_, hch, hmove⟩)))
    rw [State.setJob, hjobs]

end Callback

end MerkleService
