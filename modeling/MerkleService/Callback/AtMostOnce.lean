import MerkleService.Callback.Conservation
import MerkleService.Callback.DedupKey

/-!
# How often a callback is delivered

`processDelivery` (`internal/callback/delivery.go`) asks the dedup store before the POST and tells
it after.  Nothing is locked in between, so that workers which hold the same callback may all find
nothing recorded and all deliver it; a `Record` that fails is only logged; and a record expires.

For one key of the store a ledger is kept beside the machine: whether the key has been recorded,
how many POSTs with it were answered with 2xx, how many `Record`s failed, and how many checks did
not find what had been recorded.

* `Bounded.step` : **the invariant**: before the key is recorded, every POST of it that succeeded is
  on its way to `Record`, or its `Record` failed; afterwards, only the workers that are past the
  check can add to them.
* `deliveries_le` : **in every run a callback is delivered at most once per worker**, and once more
  for every `Record` that failed and for every check that missed the record.
* `skipped_delivered` : a callback is skipped only after a delivery under its key.
-/

namespace MerkleService

namespace Callback

open Kafka

/-! ### The ledger of a key -/

/-- What has happened under one key of the dedup store. -/
structure KeyLedger where
  /-- A `Record` has succeeded. -/
  recorded : Bool := false
  /-- The POSTs that were answered with 2xx. -/
  posts : ℕ := 0
  /-- The `Record`s that failed. -/
  failed : ℕ := 0
  /-- The checks that did not find the record. -/
  missed : ℕ := 0
  deriving DecidableEq

/-- `processDelivery` uses the dedup store, with this key. -/
def tracked (cfg : Config) (key : String) (msg : CallbackTopicMessage) : Bool :=
  usesDedup cfg msg && storeKey cfg msg == key

/-- A step of a message with the key; `ok` is whether `Record` succeeds. -/
def KeyLedger.note (h : KeyLedger) : Label → Bool → KeyLedger
  | .dedupCheck _ _ (.ok false), _ => if h.recorded then { h with missed := h.missed + 1 } else h
  | .post _ _ (.status code), _ =>
    if 200 ≤ code ∧ code < 300 then { h with posts := h.posts + 1 } else h
  | .record _, ok =>
    if ok then { h with recorded := true } else { h with failed := h.failed + 1 }
  | _, _ => h

def KeyLedger.update (cfg : Config) (key : String) (s : State) (l : Label) (ok : Bool)
    (h : KeyLedger) : KeyLedger :=
  match l.mover.bind (s.jobs[·]?) with
  | some job => if tracked cfg key job.msg then h.note l ok else h
  | none => h

/-- The service and the ledger of the key; the label says of a `Record` whether it succeeds. -/
def keyLedgered (cfg : Config) (key : String) : LTS (State × KeyLedger) (Label × Bool) where
  step p l := (step cfg p.1 l.1).map fun s' => (s', p.2.update cfg key p.1 l.1 l.2)

/-! ### The stages of a delivery -/

/-- Where a delivery is with respect to the dedup store. -/
inductive Stage where
  | outside
  /-- The check has found nothing, and the POST has not succeeded. -/
  | opened
  /-- The POST has succeeded, and `Record` has not been called. -/
  | recording
  deriving DecidableEq

def Place.stage : Place → Stage
  | .preparing | .posting => .opened
  | .recording => .recording
  | _ => .outside

/-- What a step of a message that uses the dedup store does to its stage. -/
inductive Staged : Label → Stage → Stage → Prop
  | check {j now : ℕ} : Staged (.dedupCheck j now (.ok false)) .outside .opened
  | post {j now code : ℕ} : 200 ≤ code ∧ code < 300 →
      Staged (.post j now (.status code)) .opened .recording
  | record {j : ℕ} : Staged (.record j) .recording .outside
  | quiet {l : Label} {st : Stage} : (∀ h ok, KeyLedger.note h l ok = h) → Staged l st st
  | close {l : Label} : (∀ h ok, KeyLedger.note h l ok = h) → Staged l .opened .outside

variable {cfg : Config} {key : String}

theorem stage_afterGate {msg : CallbackTopicMessage} (h : usesDedup cfg msg = true) :
    (afterGate cfg msg).stage = .outside := by
  rw [afterGate, if_pos h]
  rfl

theorem stage_enter {job : Job} (h : usesDedup cfg job.msg = true) :
    (job.enter cfg).place.stage = .outside := by
  simp only [Job.enter]
  split_ifs
  · rfl
  · exact stage_afterGate h

theorem stage_afterFailure {s s' : State} {job job' : Job} {now : ℕ} {permanent : Bool}
    (h : some (afterFailure cfg s job now permanent) = some (s', job')) :
    job'.place.stage = .outside := by
  unfold afterFailure at h
  split_ifs at h
  · obtain ⟨-, rfl⟩ := Prod.mk.inj (Option.some.inj h)
    rfl
  · obtain ⟨-, rfl⟩ := Prod.mk.inj (Option.some.inj h)
    rfl

theorem post_staged {s s' : State} {job job' : Job} {j now : ℕ} {answer : PostResult}
    (hst : jobStep cfg s job (.post j now answer) = some (s', job'))
    (huses : usesDedup cfg job.msg = true) :
    Staged (.post j now answer) job.place.stage job'.place.stage := by
  simp only [jobStep] at hst
  split_ifs at hst with hp
  rw [hp]
  cases answer with
  | status code =>
    simp only at hst
    split_ifs at hst with hok
    · obtain ⟨-, rfl⟩ := Prod.mk.inj (Option.some.inj hst)
      exact .post hok
    · rw [stage_afterFailure hst]
      exact .close fun h ok => if_neg hok
  | error err =>
    rw [stage_afterFailure hst]
    exact .close fun h ok => rfl

theorem prepare_staged {s s' : State} {job job' : Job} {j now : ℕ} {get : GetResult}
    {requestErr : Option String}
    (hst : jobStep cfg s job (.prepare j now get requestErr) = some (s', job')) :
    Staged (.prepare j now get requestErr) job.place.stage job'.place.stage := by
  simp only [jobStep] at hst
  by_cases hp : job.place = .preparing
  case neg => simp [hp] at hst
  rw [if_pos hp] at hst
  rw [hp]
  cases hf : fetchStump cfg job.msg get with
  | error permanent =>
    rw [hf] at hst
    rw [stage_afterFailure hst]
    exact .close fun h ok => rfl
  | ok u =>
    rw [hf] at hst
    dsimp only at hst
    split_ifs at hst with herr
    · rw [stage_afterFailure hst]
      exact .close fun h ok => rfl
    · obtain ⟨-, rfl⟩ := Prod.mk.inj (Option.some.inj hst)
      exact .quiet fun h ok => rfl

/-- The steps before the check and after a failure. -/
def Label.elsewhere : Label → Bool
  | .gateLookup _ | .gateWait _ | .gateWake _ | .gateRemove _ | .publishDLQ _ _ | .schedule _
  | .park _ | .fire _ => true
  | _ => false

theorem stage_elsewhere {s s' : State} {job job' : Job} {l : Label}
    (hst : jobStep cfg s job l = some (s', job')) (huses : usesDedup cfg job.msg = true)
    (hl : l.elsewhere = true) : job.place.stage = .outside ∧ job'.place.stage = .outside := by
  have hgate := stage_afterGate huses
  cases l with
  | gateLookup j =>
    simp only [jobStep] at hst
    split_ifs at hst with hp
    split at hst
    · obtain ⟨-, rfl⟩ := Prod.mk.inj (Option.some.inj hst)
      exact ⟨by rw [hp]; rfl, rfl⟩
    · obtain ⟨-, rfl⟩ := Prod.mk.inj (Option.some.inj hst)
      exact ⟨by rw [hp]; rfl, hgate⟩
  | gateWait j =>
    simp only [jobStep] at hst
    split at hst
    next i hp =>
      split_ifs at hst
      · obtain ⟨-, rfl⟩ := Prod.mk.inj (Option.some.inj hst)
        exact ⟨by rw [hp]; rfl, rfl⟩
      · obtain ⟨-, rfl⟩ := Prod.mk.inj (Option.some.inj hst)
        exact ⟨by rw [hp]; rfl, rfl⟩
    next => cases hst
  | gateWake j =>
    simp only [jobStep] at hst
    split at hst
    next i zeros hp =>
      split_ifs at hst
      obtain ⟨-, rfl⟩ := Prod.mk.inj (Option.some.inj hst)
      exact ⟨by rw [hp]; rfl, rfl⟩
    next => cases hst
  | gateRemove j =>
    simp only [jobStep] at hst
    split_ifs at hst with hp
    obtain ⟨-, rfl⟩ := Prod.mk.inj (Option.some.inj hst)
    exact ⟨by rw [hp]; rfl, hgate⟩
  | publishDLQ j ok =>
    simp only [jobStep] at hst
    split at hst
    next attempts hp =>
      split_ifs at hst
      all_goals
        obtain ⟨-, rfl⟩ := Prod.mk.inj (Option.some.inj hst)
        exact ⟨by rw [hp]; rfl, rfl⟩
    next => cases hst
  | schedule j =>
    simp only [jobStep] at hst
    split at hst
    next byWorker hp =>
      split_ifs at hst
      all_goals
        obtain ⟨-, rfl⟩ := Prod.mk.inj (Option.some.inj hst)
        exact ⟨by rw [hp]; rfl, rfl⟩
    next => cases hst
  | park j =>
    simp only [jobStep] at hst
    split at hst
    next byWorker hp =>
      split_ifs at hst
      all_goals
        obtain ⟨-, rfl⟩ := Prod.mk.inj (Option.some.inj hst)
        exact ⟨by rw [hp]; rfl, rfl⟩
    next => cases hst
  | fire j =>
    simp only [jobStep] at hst
    split_ifs at hst with hp
    all_goals
      obtain ⟨-, rfl⟩ := Prod.mk.inj (Option.some.inj hst)
      exact ⟨by rw [hp]; rfl, rfl⟩
  | _ => cases hl

/-- **What a step does to the stage.** -/
theorem jobStep_staged {s s' : State} {job job' : Job} {l : Label}
    (hst : jobStep cfg s job l = some (s', job')) (huses : usesDedup cfg job.msg = true) :
    Staged l job.place.stage job'.place.stage := by
  cases l with
  | post j now answer => exact post_staged hst huses
  | prepare j now get requestErr => exact prepare_staged hst
  | dedupCheck j now answer =>
    simp only [jobStep] at hst
    split_ifs at hst with hp
    rw [hp]
    rcases answer with err | _ | _
    · obtain ⟨-, rfl⟩ := Prod.mk.inj (Option.some.inj hst)
      exact .quiet fun h ok => rfl
    · obtain ⟨-, rfl⟩ := Prod.mk.inj (Option.some.inj hst)
      exact .check
    · obtain ⟨-, rfl⟩ := Prod.mk.inj (Option.some.inj hst)
      exact .quiet fun h ok => rfl
  | record j =>
    simp only [jobStep] at hst
    split_ifs at hst with hp
    obtain ⟨-, rfl⟩ := Prod.mk.inj (Option.some.inj hst)
    rw [hp]
    exact .record
  | accept | send | take | stop | stopWait | close => cases hst
  | doneLookup j =>
    simp only [jobStep] at hst
    split_ifs at hst
    split at hst
    · obtain ⟨-, rfl⟩ := Prod.mk.inj (Option.some.inj hst)
      exact .quiet fun h ok => rfl
    · obtain ⟨-, rfl⟩ := Prod.mk.inj (Option.some.inj hst)
      exact .quiet fun h ok => rfl
  | doneSignal j =>
    simp only [jobStep] at hst
    split at hst
    · obtain ⟨-, rfl⟩ := Prod.mk.inj (Option.some.inj hst)
      exact .quiet fun h ok => rfl
    · cases hst
  | gateLookup | gateWait | gateWake | gateRemove | publishDLQ | schedule | park | fire =>
    -- the job is outside before and after
    obtain ⟨hbefore, hafter⟩ := stage_elsewhere hst huses rfl
    rw [hbefore, hafter]
    exact .quiet fun h ok => rfl

/-! ### The bound -/

/-- The job has the key and is at the stage. -/
def Job.inStage (cfg : Config) (key : String) (st : Stage) (job : Job) : ℕ :=
  if tracked cfg key job.msg = true ∧ job.place.stage = st then 1 else 0

/-- The number of deliveries with the key at the stage. -/
def State.inStage (cfg : Config) (key : String) (st : Stage) (s : State) : ℕ :=
  (s.jobs.map (Job.inStage cfg key st)).sum

theorem Move.tracked_eq {l : Label} {g g' : StumpGate} {job job' : Job}
    (h : Move cfg l g job g' job') : tracked cfg key job'.msg = tracked cfg key job.msg := by
  cases h with
  | _ => rfl

theorem inStage_of_stage {job : Job} {st : Stage} (hne : job.place.stage ≠ st) :
    job.inStage cfg key st = 0 :=
  if_neg fun h => hne h.2

theorem inStage_of_not_tracked {job : Job} {st : Stage}
    (hno : ¬ tracked cfg key job.msg = true) : job.inStage cfg key st = 0 :=
  if_neg fun h => hno h.1

theorem inStage_set {s : State} {j : ℕ} {job : Job} (hjob : s.jobs[j]? = some job) (job' : Job)
    (st : Stage) {s' : State} (hjobs : s'.jobs = s.jobs.set j job') :
    s'.inStage cfg key st + job.inStage cfg key st =
      s.inStage cfg key st + job'.inStage cfg key st := by
  rw [State.inStage, hjobs]
  exact List.sum_map_set (Job.inStage cfg key st) hjob job'

theorem inStage_le_busy (s : State) :
    s.inStage cfg key .opened + s.inStage cfg key .recording ≤ (s.jobs.map Job.busy).sum := by
  rw [State.inStage, State.inStage, ← List.sum_map_add]
  refine List.sum_le_sum fun job _ => ?_
  simp only [Job.inStage, Job.busy]
  cases hp : job.place with
  | _ => simp [Place.stage, Place.inHand] <;> split_ifs <;> omega

/-- **The invariant.** -/
structure Bounded (cfg : Config) (key : String) (p : State × KeyLedger) : Prop where
  queue : QueueInv p.1
  busy : (p.1.jobs.map Job.busy).sum ≤ cfg.workers
  open_le : p.2.recorded = true →
    p.2.posts + p.1.inStage cfg key .opened ≤ cfg.workers + p.2.failed + p.2.missed
  recording_eq : p.2.recorded = false → p.2.posts = p.1.inStage cfg key .recording + p.2.failed

theorem bounded_init : Bounded cfg key (init, {}) where
  queue := ⟨List.nodup_nil, by simp [init]⟩
  busy := Nat.zero_le _
  open_le := nofun
  recording_eq := fun _ => rfl

namespace Bounded

variable {s s' : State} {h : KeyLedger}

theorem posts_le (hb : Bounded cfg key (s, h)) : h.posts ≤ cfg.workers + h.failed + h.missed := by
  cases hrec : h.recorded with
  | true =>
    have hle := hb.open_le hrec
    dsimp only at hle
    omega
  | false =>
    have heq := hb.recording_eq hrec
    have hstage := @inStage_le_busy cfg key s
    have hbusy := hb.busy
    dsimp only at heq hbusy
    omega

theorem same (hb : Bounded cfg key (s, h)) (hqueue : QueueInv s')
    (hbusy : (s'.jobs.map Job.busy).sum ≤ cfg.workers)
    (hstage : ∀ st, st ≠ .outside → s'.inStage cfg key st = s.inStage cfg key st) :
    Bounded cfg key (s', h) where
  queue := hqueue
  busy := hbusy
  open_le := by
    intro hrec
    rw [hstage _ (by decide)]
    exact hb.open_le hrec
  recording_eq := by
    intro hrec
    rw [hstage _ (by decide)]
    exact hb.recording_eq hrec

/-- A job moves on that is not past the check, and does not get there. -/
theorem move_outside (hb : Bounded cfg key (s, h)) (hqueue : QueueInv s')
    (hbusy : (s'.jobs.map Job.busy).sum ≤ cfg.workers) {j : ℕ} {job job' : Job}
    (hjob : s.jobs[j]? = some job) (hjobs : s'.jobs = s.jobs.set j job')
    (hbefore : ∀ st, st ≠ .outside → job.inStage cfg key st = 0)
    (hafter : ∀ st, st ≠ .outside → job'.inStage cfg key st = 0) : Bounded cfg key (s', h) := by
  refine hb.same hqueue hbusy fun st hst => ?_
  have hset := @inStage_set cfg key s j job hjob job' st s' hjobs
  rw [hbefore st hst, hafter st hst] at hset
  exact hset

theorem staged (hb : Bounded cfg key (s, h)) (hqueue : QueueInv s')
    (hbusy : (s'.jobs.map Job.busy).sum ≤ cfg.workers) {j : ℕ} {job job' : Job} {l : Label}
    (hjob : s.jobs[j]? = some job) (hjobs : s'.jobs = s.jobs.set j job')
    (htracked : tracked cfg key job.msg = true) (htracked' : tracked cfg key job'.msg = true)
    (hst : Staged l job.place.stage job'.place.stage) (ok : Bool) :
    Bounded cfg key (s', h.note l ok) := by
  have hset : ∀ st, s'.inStage cfg key st + (if job.place.stage = st then 1 else 0) =
      s.inStage cfg key st + if job'.place.stage = st then 1 else 0 := by
    intro st
    have hset := @inStage_set cfg key s j job hjob job' st s' hjobs
    simpa only [Job.inStage, htracked, htracked', true_and] using hset
  have hopen_le := hb.open_le
  have hrecording_eq := hb.recording_eq
  have hsum := @inStage_le_busy cfg key s
  have hle := hb.busy
  dsimp only at hopen_le hrecording_eq hle
  generalize job.place.stage = st at hst hset
  generalize job'.place.stage = st' at hst hset
  have hopen := hset .opened
  have hrecording := hset .recording
  cases hst with
  | check =>
    simp only [reduceCtorEq, ↓reduceIte] at hopen hrecording
    cases hrec : h.recorded with
    | true =>
      have hpast := hopen_le hrec
      simp only [KeyLedger.note, hrec, ↓reduceIte]
      refine ⟨hqueue, hbusy, fun _ => ?_, nofun⟩
      dsimp only
      omega
    | false =>
      have hposts := hrecording_eq hrec
      simp only [KeyLedger.note, hrec, Bool.false_eq_true, ↓reduceIte]
      refine ⟨hqueue, hbusy, fun hyes => absurd (hrec.symm.trans hyes) (by decide), fun _ => ?_⟩
      dsimp only
      omega
  | post hok =>
    simp only [reduceCtorEq, ↓reduceIte] at hopen hrecording
    simp only [KeyLedger.note, if_pos hok]
    refine ⟨hqueue, hbusy, fun hrec => ?_, fun hrec => ?_⟩
    · have hpast := hopen_le hrec
      dsimp only
      omega
    · have hposts := hrecording_eq hrec
      dsimp only
      omega
  | record =>
    simp only [reduceCtorEq, ↓reduceIte] at hopen hrecording
    cases ok with
    | true =>
      simp only [KeyLedger.note, ↓reduceIte]
      refine ⟨hqueue, hbusy, fun _ => ?_, nofun⟩
      dsimp only
      cases hrec : h.recorded with
      | true =>
        have hpast := hopen_le hrec
        omega
      | false =>
        -- all that were delivered are about to be recorded, or their `Record` failed
        have hposts := hrecording_eq hrec
        omega
    | false =>
      simp only [KeyLedger.note, Bool.false_eq_true, ↓reduceIte]
      refine ⟨hqueue, hbusy, fun hrec => ?_, fun hrec => ?_⟩
      · have hpast := hopen_le hrec
        dsimp only
        omega
      · have hposts := hrecording_eq hrec
        dsimp only
        omega
  | quiet hquiet =>
    rw [hquiet]
    exact hb.same hqueue hbusy fun st _ => Nat.add_right_cancel (hset st)
  | close hquiet =>
    rw [hquiet]
    simp only [reduceCtorEq, ↓reduceIte] at hopen hrecording
    refine ⟨hqueue, hbusy, fun hrec => ?_, fun hrec => ?_⟩
    · have hpast := hopen_le hrec
      dsimp only
      omega
    · have hposts := hrecording_eq hrec
      dsimp only
      omega

/-- **Every step keeps the invariant.** -/
theorem step (hb : Bounded cfg key (s, h)) {l : Label} (ok : Bool)
    (hst : Callback.step cfg s l = some s') : Bounded cfg key (s', h.update cfg key s l ok) := by
  have hqueue : QueueInv s' := queueInv_step hb.queue hst
  have hbusy := busy_step hst hb.busy
  have hout : ∀ {job : Job}, job.place.stage = .outside →
      ∀ st, st ≠ .outside → job.inStage cfg key st = 0 :=
    fun h st hne => inStage_of_stage (by rw [h]; exact hne.symm)
  obtain ⟨msg, now, rfl, rfl⟩ | ⟨rfl, htake⟩ | ⟨rfl, rfl⟩ | ⟨rfl, -, -, rfl⟩ | ⟨rfl, -, rfl⟩ |
    ⟨j, job, rfl, hjob, hsend⟩ | ⟨j, job, s₁, job', hl, hjob, hjs, rfl⟩ := step_inv hst
  · refine hb.same hqueue hbusy fun st hne => ?_
    have hnew : ∀ new : Job, new.place.stage = .outside →
        ((s.jobs ++ [new]).map (Job.inStage cfg key st)).sum = s.inStage cfg key st := by
      intro new hnew
      simp [State.inStage, hout hnew st hne]
    unfold accept
    split_ifs
    · exact hnew _ rfl
    · exact hnew _ rfl
    · exact hnew _ rfl
  · obtain ⟨j, job, rest, hch, hjob, -, rfl⟩ := take_inv htake
    obtain ⟨x, hx, hq⟩ := hb.queue.queued j (hch ▸ List.mem_cons_self)
    obtain rfl := Option.some.inj (hjob.symm.trans hx)
    refine hb.move_outside hqueue hbusy hjob rfl (hout (by rw [hq]; rfl)) fun st hne => ?_
    by_cases htracked : tracked cfg key (job.enter cfg).msg = true
    · exact hout (stage_enter (Bool.and_eq_true_iff.1 htracked).1) st hne
    · exact inStage_of_not_tracked htracked
  · exact hb.same hqueue hbusy fun _ _ => rfl
  · exact hb.same hqueue hbusy fun _ _ => rfl
  · exact hb.same hqueue hbusy fun _ _ => rfl
  · have hnote : h.update cfg key s (.send j) ok = h := by
      simp only [KeyLedger.update]
      split
      · exact ite_self _
      · rfl
    rw [hnote]
    obtain ⟨-, -, rfl⟩ | ⟨hp, -, rfl⟩ | ⟨hp, -, rfl⟩ | ⟨hp, -, rfl⟩ := send_inv hsend
    · exact hb.same hqueue hbusy fun _ _ => rfl
    all_goals
      exact hb.move_outside hqueue hbusy hjob rfl (hout (by rw [hp]; rfl)) (hout rfl)
  · obtain ⟨hmove, hjobs, -⟩ := jobStep_move hjs
    have hset : (s₁.setJob j job').jobs = s.jobs.set j job' := by rw [State.setJob, hjobs]
    have hsame : tracked cfg key job'.msg = tracked cfg key job.msg := hmove.tracked_eq
    have hfind : l.mover.bind (s.jobs[·]?) = some job := by
      rw [hl]
      exact hjob
    simp only [KeyLedger.update, hfind]
    split_ifs with htracked
    · have huses := (Bool.and_eq_true_iff.1 htracked).1
      exact hb.staged hqueue hbusy hjob hset htracked (hsame.trans htracked)
        (jobStep_staged hjs huses) ok
    · refine hb.move_outside hqueue hbusy hjob hset ?_ ?_
      · intro st _
        exact inStage_of_not_tracked htracked
      · intro st _
        exact inStage_of_not_tracked (by rwa [hsame])

end Bounded

/-- **A callback is delivered at most once per worker**, and once more for every `Record` that
failed and every check that did not find the record. -/
theorem deliveries_le (cfg : Config) (key : String) (s : State) (h : KeyLedger)
    (hrun : (keyLedgered cfg key).Reachable (init, {}) (s, h)) :
    h.posts ≤ cfg.workers + h.failed + h.missed := by
  have hb : Bounded cfg key (s, h) := by
    refine hrun.invariant bounded_init ?_
    rintro ⟨s, h⟩ ⟨l, ok⟩ p' hb - hledger
    obtain ⟨s', hst, rfl⟩ := Option.map_eq_some_iff.1 hledger
    exact hb.step ok hst
  exact hb.posts_le

/-- Two workers, and a dedup store. -/
def twoDeduping : Config := ⟨2, 4, 3, 1, true, true, fun _ => []⟩

/-- Two copies of one message are checked before either is recorded. -/
def overlappingRun : List (Label × Bool) :=
  [.accept processedMessage 0, .accept processedMessage 0, .send 0, .send 1, .take, .take,
    .gateLookup 0, .gateLookup 1, .dedupCheck 0 0 (.ok false), .dedupCheck 1 0 (.ok false),
    .prepare 0 0 .notFound none, .prepare 1 0 .notFound none, .post 0 0 (.status 200),
    .post 1 0 (.status 200), .record 0, .record 1].map (·, true)

/-- Both are delivered: the bound is reached. -/
theorem deliveries_le_overlapping :
    ∃ s, (keyLedgered twoDeduping (storeKey twoDeduping processedMessage)).exec (init, {})
        overlappingRun = some (s, ⟨true, 2, 0, 0⟩) ∧ 2 ≤ twoDeduping.workers + 0 + 0 := by
  obtain ⟨s, hs⟩ : ∃ s, (keyLedgered twoDeduping (storeKey twoDeduping processedMessage)).exec
      (init, {}) overlappingRun = some (s, ⟨true, 2, 0, 0⟩) := ⟨_, rfl⟩
  refine ⟨s, hs, ?_⟩
  refine deliveries_le twoDeduping (storeKey twoDeduping processedMessage) s ⟨true, 2, 0, 0⟩ ?_
  exact LTS.Run.exec .start (LTS.Along.of_forall (fun _ _ => trivial) _ overlappingRun) hs

/-! ### What is skipped -/

theorem jobStep_skipped {s s' : State} {job job' : Job} {l : Label}
    (hst : jobStep cfg s job l = some (s', job')) (hskip : job'.place = .final .skipped) :
    (∃ j now, l = .dedupCheck j now (.ok true)) ∨ job.place = .final .skipped := by
  cases l with
  | dedupCheck j now answer =>
    rcases answer with err | _ | _
    · simp only [jobStep] at hst
      grind [scheduleRetryAfterFailure]
    · simp only [jobStep] at hst
      grind
    · exact .inl ⟨j, now, rfl⟩
  | _ =>
    simp only [jobStep] at hst
    grind [scheduleRetryAfterFailure, afterFailure, delivered, Job.leave, afterGate]

theorem step_skipped {s s' : State} {l : Label} (hst : step cfg s l = some s') {job' : Job}
    (hmem : job' ∈ s'.jobs) (hskip : job'.place = .final .skipped) :
    ∃ job ∈ s.jobs, tracked cfg key job.msg = tracked cfg key job'.msg ∧
      (job.place = .final .skipped ∨ ∃ j now, l = .dedupCheck j now (.ok true) ∧
        s.jobs[j]? = some job) := by
  have hset : ∀ {j : ℕ} {job new : Job}, s.jobs[j]? = some job → job' ∈ s.jobs.set j new →
      (new.place = .final .skipped → tracked cfg key job.msg = tracked cfg key new.msg ∧
        (job.place = .final .skipped ∨ ∃ k now, l = .dedupCheck k now (.ok true) ∧
          s.jobs[k]? = some job)) →
      ∃ job ∈ s.jobs, tracked cfg key job.msg = tracked cfg key job'.msg ∧
        (job.place = .final .skipped ∨ ∃ j now, l = .dedupCheck j now (.ok true) ∧
          s.jobs[j]? = some job) := by
    intro j job new hjob hmem hnew
    rcases List.mem_or_eq_of_mem_set hmem with hold | rfl
    · exact ⟨job', hold, rfl, .inl hskip⟩
    · exact ⟨job, List.mem_of_getElem? hjob, hnew hskip⟩
  obtain ⟨msg, now, rfl, rfl⟩ | ⟨-, htake⟩ | ⟨-, rfl⟩ | ⟨-, -, -, rfl⟩ | ⟨-, -, rfl⟩ |
    ⟨j, job, -, hjob, hsend⟩ | ⟨j, job, s₁, new, hl, hjob, hjs, rfl⟩ := step_inv hst
  · have hold : job' ∈ s.jobs := by
      unfold accept at hmem
      split_ifs at hmem
      all_goals
        rcases List.mem_append.1 hmem with hold | hnew
        · exact hold
        · rw [List.mem_singleton.1 hnew] at hskip
          cases hskip
    exact ⟨job', hold, rfl, .inl hskip⟩
  · obtain ⟨j, job, rest, -, hjob, -, rfl⟩ := take_inv htake
    refine hset hjob hmem fun hplace => ?_
    simp only [Job.enter, afterGate] at hplace
    split_ifs at hplace
  · exact ⟨job', hmem, rfl, .inl hskip⟩
  · exact ⟨job', hmem, rfl, .inl hskip⟩
  · exact ⟨job', hmem, rfl, .inl hskip⟩
  · obtain ⟨-, -, rfl⟩ | ⟨-, -, rfl⟩ | ⟨-, -, rfl⟩ | ⟨-, -, rfl⟩ := send_inv hsend
    · exact ⟨job', hmem, rfl, .inl hskip⟩
    all_goals
      refine hset hjob hmem fun hplace => ?_
      cases hplace
  · obtain ⟨hmove, hjobs, -⟩ := jobStep_move hjs
    rw [State.setJob, hjobs] at hmem
    refine hset hjob hmem fun hplace => ⟨hmove.tracked_eq.symm, ?_⟩
    rcases jobStep_skipped hjs hplace with ⟨k, now, rfl⟩ | hp
    · obtain rfl : k = j := Option.some.inj hl
      exact .inr ⟨k, now, rfl, hjob⟩
    · exact .inl hp

/-- The store finds only what was recorded. -/
def Truthful (cfg : Config) (key : String) (p : State × KeyLedger) (l : Label × Bool) : Prop :=
  ∀ j now job, l.1 = .dedupCheck j now (.ok true) → p.1.jobs[j]? = some job →
    tracked cfg key job.msg = true → p.2.recorded = true

namespace KeyLedger

variable {h : KeyLedger} {l : Label} {ok : Bool}

theorem recorded_note (hrec : h.recorded = true) : (h.note l ok).recorded = true := by
  unfold note
  split
  all_goals first | exact hrec | (split_ifs <;> first | exact hrec | rfl)

theorem posts_le_note : h.posts ≤ (h.note l ok).posts := by
  unfold note
  split
  all_goals first | exact le_rfl | (split_ifs <;> simp)

theorem update_cases (cfg : Config) (key : String) (s : State) (l : Label) (ok : Bool)
    (h : KeyLedger) : h.update cfg key s l ok = h ∨ h.update cfg key s l ok = h.note l ok := by
  unfold update
  split
  · split_ifs
    · exact .inr rfl
    · exact .inl rfl
  · exact .inl rfl

theorem record_of_update {s : State} (hno : h.recorded = false)
    (hrec : (h.update cfg key s l ok).recorded = true) :
    ∃ j job, l = .record j ∧ s.jobs[j]? = some job ∧ tracked cfg key job.msg = true := by
  unfold update at hrec
  split at hrec
  next job hfind =>
    split_ifs at hrec with htracked
    · cases l with
      | record j => exact ⟨j, job, rfl, hfind, htracked⟩
      | dedupCheck j now answer =>
        rcases answer with err | _ | _
        all_goals simp [note, hno] at hrec
      | post j now answer =>
        rcases answer with code | err
        · simp only [note] at hrec
          split_ifs at hrec <;> simp [hno] at hrec
        · simp [note, hno] at hrec
      | _ => simp [note, hno] at hrec
    · simp [hno] at hrec
  next => simp [hno] at hrec

end KeyLedger

/-- **The invariant of a truthful store.** -/
structure Answered (cfg : Config) (key : String) (p : State × KeyLedger) : Prop where
  bounded : Bounded cfg key p
  posts : p.2.recorded = true → 0 < p.2.posts
  skipped : ∀ job ∈ p.1.jobs, tracked cfg key job.msg = true → job.place = .final .skipped →
    p.2.recorded = true

theorem answered_init : Answered cfg key (init, {}) where
  bounded := bounded_init
  posts := nofun
  skipped := by simp [init]

theorem Bounded.posts_pos {s : State} {h : KeyLedger} (hb : Bounded cfg key (s, h))
    (hno : h.recorded = false) {j : ℕ} {job : Job} (hjob : s.jobs[j]? = some job)
    (htracked : tracked cfg key job.msg = true) (hp : job.place = .recording) : 0 < h.posts := by
  have hposts := hb.recording_eq hno
  have hone : job.inStage cfg key .recording = 1 := if_pos ⟨htracked, by rw [hp]; rfl⟩
  have hle : job.inStage cfg key .recording ≤ s.inStage cfg key .recording :=
    List.le_sum_map (Job.inStage cfg key .recording) (List.mem_of_getElem? hjob)
  dsimp only at hposts
  omega

theorem place_of_record {s s' : State} {j : ℕ} {job : Job} (hjob : s.jobs[j]? = some job)
    (hst : step cfg s (.record j) = some s') : job.place = .recording := by
  obtain ⟨_, _, hl, -⟩ | ⟨hl, -⟩ | ⟨hl, -⟩ | ⟨hl, -⟩ | ⟨hl, -⟩ | ⟨_, _, hl, -⟩ |
    ⟨k, x, s₁, x', hl, hx, hjs, -⟩ := step_inv hst
  case inr.inr.inr.inr.inr.inr =>
    obtain rfl : j = k := Option.some.inj hl
    obtain rfl := Option.some.inj (hjob.symm.trans hx)
    simp only [jobStep] at hjs
    split_ifs at hjs with hp
    exact hp
  all_goals cases hl

theorem Answered.step {s s' : State} {h : KeyLedger} (ha : Answered cfg key (s, h)) {l : Label}
    {ok : Bool} (htruth : Truthful cfg key (s, h) (l, ok))
    (hst : Callback.step cfg s l = some s') :
    Answered cfg key (s', h.update cfg key s l ok) := by
  have hmono : h.recorded = true → (h.update cfg key s l ok).recorded = true := by
    intro hrec
    rcases KeyLedger.update_cases cfg key s l ok h with heq | heq
    · rw [heq]
      exact hrec
    · rw [heq]
      exact KeyLedger.recorded_note hrec
  have hposts : h.posts ≤ (h.update cfg key s l ok).posts := by
    rcases KeyLedger.update_cases cfg key s l ok h with heq | heq
    · rw [heq]
    · rw [heq]
      exact KeyLedger.posts_le_note
  refine ⟨ha.bounded.step ok hst, fun hrec => lt_of_lt_of_le ?_ hposts, ?_⟩
  · cases hold : h.recorded with
    | true => exact ha.posts hold
    | false =>
      obtain ⟨j, job, rfl, hjob, htracked⟩ := KeyLedger.record_of_update hold hrec
      exact ha.bounded.posts_pos hold hjob htracked (place_of_record hjob hst)
  · intro job' hmem htracked hskip
    obtain ⟨job, hjob, hsame, hplace | ⟨j, now, rfl, hfind⟩⟩ :=
      @step_skipped cfg key s s' l hst job' hmem hskip
    · exact hmono (ha.skipped job hjob (hsame.trans htracked) hplace)
    · exact hmono (htruth j now job rfl hfind (hsame.trans htracked))

/-- **What is skipped was delivered**: if the dedup store finds only what was recorded, a callback
is skipped only after a POST under its key was answered with 2xx. -/
theorem skipped_delivered (cfg : Config) (key : String) (s : State) (h : KeyLedger)
    (hrun : (keyLedgered cfg key).Run (Truthful cfg key) (init, {}) (s, h)) (job : Job)
    (hjob : job ∈ s.jobs) (htracked : tracked cfg key job.msg = true)
    (hskip : job.place = .final .skipped) : 0 < h.posts := by
  have ha : Answered cfg key (s, h) := by
    refine hrun.invariant answered_init ?_
    rintro ⟨s, h⟩ ⟨l, ok⟩ p' ha htruth hledger
    obtain ⟨s', hst, rfl⟩ := Option.map_eq_some_iff.1 hledger
    exact ha.step htruth hst
  exact ha.posts (ha.skipped job hjob htracked hskip)

/-- The second copy of a message is accepted after the first one has been recorded. -/
def repeatedRun : List (Label × Bool) :=
  [.accept processedMessage 0, .send 0, .take, .gateLookup 0, .dedupCheck 0 0 (.ok false),
    .prepare 0 0 .notFound none, .post 0 0 (.status 200), .record 0, .accept processedMessage 0,
    .send 1, .take, .gateLookup 1].map (·, true)

theorem along_repeatedRun (key : String) (p : State × KeyLedger) (ls : List (Label × Bool))
    (hls : ∀ l ∈ ls, ∀ j now, l.1 ≠ .dedupCheck j now (.ok true)) :
    (keyLedgered twoDeduping key).Along (Truthful twoDeduping key) p ls := by
  induction ls generalizing p with
  | nil => trivial
  | cons l ls ih =>
    refine ⟨?_, fun p' _ => ih p' fun l' hl' => hls l' (List.mem_cons_of_mem _ hl')⟩
    intro j now job hl
    exact absurd hl (hls l List.mem_cons_self j now)

theorem skipped_delivered_repeated :
    ∃ p p', (keyLedgered twoDeduping (storeKey twoDeduping processedMessage)).exec (init, {})
        repeatedRun = some p ∧
      (keyLedgered twoDeduping (storeKey twoDeduping processedMessage)).step p
        (.dedupCheck 1 0 (.ok true), true) = some p' ∧
      p'.1.jobs = [⟨processedMessage, .final .delivered, .none⟩,
        ⟨processedMessage, .final .skipped, .none⟩] ∧ 0 < p'.2.posts := by
  obtain ⟨p, hp, hrec, p', hp', hjobs⟩ :
      ∃ p, (keyLedgered twoDeduping (storeKey twoDeduping processedMessage)).exec (init, {})
          repeatedRun = some p ∧ p.2.recorded = true ∧
        ∃ p', (keyLedgered twoDeduping (storeKey twoDeduping processedMessage)).step p
            (.dedupCheck 1 0 (.ok true), true) = some p' ∧
          p'.1.jobs = [⟨processedMessage, .final .delivered, .none⟩,
            ⟨processedMessage, .final .skipped, .none⟩] := ⟨_, rfl, rfl, _, rfl, rfl⟩
  have hnone : ∀ l ∈ repeatedRun, ∀ j now, l.1 ≠ .dedupCheck j now (.ok true) := by
    intro l hl j now heq
    obtain ⟨x, hx, rfl⟩ := List.mem_map.1 hl
    simp only [List.mem_cons, List.not_mem_nil, or_false] at hx
    subst heq
    simp at hx
  have hrun := LTS.Run.exec .start (along_repeatedRun _ _ _ hnone) hp
  have hrun' := hrun.next (fun _ _ _ _ _ _ => hrec) hp'
  refine ⟨p, p', hp, hp', hjobs, ?_⟩
  refine skipped_delivered twoDeduping _ p'.1 p'.2 hrun'
    ⟨processedMessage, .final .skipped, .none⟩ ?_ rfl rfl
  rw [hjobs]
  exact List.mem_cons_of_mem _ List.mem_cons_self

end Callback

end MerkleService
