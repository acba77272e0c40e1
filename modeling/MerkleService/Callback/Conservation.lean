import MerkleService.Callback.Ordering

/-!
# Conservation of callback messages

Before `Stop`, a message that `handleMessage` has accepted is in `workCh`, in the hands of a worker,
in a retry timer, or has been delivered, skipped as a duplicate or given up.  The counters of the
service say how many messages there are of each kind, since every counter is moved with the message.

* `Place.whereabouts` : the kinds.
* `Accounted` : how the counters follow a job.
* `Slots` : the queue and the workers, in every run.
* `messages_conserved` : **the sum of the counters and of the jobs under way is the number of
  accepted messages**, and a message that is done with stays so.
-/

namespace MerkleService

namespace Callback

open Kafka

/-! ### Where a message is -/

inductive Whereabouts where
  /-- In `handleMessage`, which has not returned. -/
  | handling
  | queued
  | inHand
  | timer
  | delivered
  | skipped
  /-- Counted in `messagesFailed` and offered to the DLQ. -/
  | failed
  | dropped
  deriving DecidableEq

def Place.whereabouts : Place → Whereabouts
  | .sending | .scheduling false | .parking false => .handling
  | .queued => .queued
  | .gating | .found _ | .waiting _ _ | .removing | .checking | .preparing | .posting | .recording
  | .scheduling true | .parking true => .inHand
  | .parked | .firing => .timer
  | .publishing _ | .final .deadLettered | .final .lost => .failed
  | .final .delivered => .delivered
  | .final .skipped => .skipped
  | .final .dropped => .dropped

/-- Delivered, skipped or failed. -/
def Whereabouts.done : Whereabouts → Bool
  | .delivered | .skipped | .failed => true
  | _ => false

def Job.isAt (w : Whereabouts) (job : Job) : ℕ := if job.place.whereabouts = w then 1 else 0

/-- The number of jobs of a kind. -/
def State.census (s : State) (w : Whereabouts) : ℕ := (s.jobs.map (Job.isAt w)).sum

/-- The number of messages that `handleMessage` has accepted: it has returned. -/
def State.accepted (s : State) : ℕ := s.jobs.countP fun job => job.place.whereabouts ≠ .handling

variable {cfg : Config}

/-! ### A step of a job -/

/-- How the counters and the flags follow a step of a job. -/
structure Accounted (s : State) (job : Job) (s' : State) (job' : Job) : Prop where
  processed : s'.counters.messagesProcessed + job.isAt .delivered =
    s.counters.messagesProcessed + job'.isAt .delivered
  deduped : s'.counters.messagesDedupe + job.isAt .skipped =
    s.counters.messagesDedupe + job'.isAt .skipped
  failed : s'.counters.messagesFailed + job.isAt .failed =
    s.counters.messagesFailed + job'.isAt .failed
  parked : s'.counters.messagesParked + job.isAt .timer =
    s.counters.messagesParked + job'.isAt .timer
  flags : s'.shuttingDown = s.shuttingDown ∧ s'.timersDone = s.timersDone ∧ s'.closed = s.closed
  dropped : s.shuttingDown = false → job'.place.whereabouts = .dropped →
    job.place.whereabouts = .dropped
  /-- Nothing is sent that was not sent before, but for a timer that runs out. -/
  sending : job'.place = .sending → job.place = .sending
  firing : job'.place = .firing → job.place = .firing ∨ s.shuttingDown = false
  done : job.place.whereabouts.done = true → job'.place.whereabouts = job.place.whereabouts

theorem Accounted.same {s s' : State} {job job' : Job}
    (hw : job'.place.whereabouts = job.place.whereabouts) (hc : s'.counters = s.counters)
    (hflags : s'.shuttingDown = s.shuttingDown ∧ s'.timersDone = s.timersDone ∧
      s'.closed = s.closed)
    (hsending : job'.place = .sending → job.place = .sending)
    (hfiring : job'.place = .firing → job.place = .firing ∨ s.shuttingDown = false) :
    Accounted s job s' job' where
  processed := by rw [hc, Job.isAt, Job.isAt, hw]
  deduped := by rw [hc, Job.isAt, Job.isAt, hw]
  failed := by rw [hc, Job.isAt, Job.isAt, hw]
  parked := by rw [hc, Job.isAt, Job.isAt, hw]
  flags := hflags
  dropped := fun _ h => hw ▸ h
  sending := hsending
  firing := hfiring
  done := fun _ => hw

theorem Accounted.inHand {s s' : State} {job job' : Job} (hp : job.place.whereabouts = .inHand)
    (hp' : job'.place.whereabouts = .inHand) (hc : s'.counters = s.counters)
    (hflags : s'.shuttingDown = s.shuttingDown ∧ s'.timersDone = s.timersDone ∧
      s'.closed = s.closed) : Accounted s job s' job' := by
  refine .same (hp'.trans hp.symm) hc hflags ?_ ?_
  · intro hsend
    simp [hsend, Place.whereabouts] at hp'
  · intro hfire
    simp [hfire, Place.whereabouts] at hp'

theorem whereabouts_afterGate (msg : CallbackTopicMessage) :
    (afterGate cfg msg).whereabouts = .inHand := by
  unfold afterGate
  split_ifs <;> rfl

theorem scheduleRetryAfterFailure_accounted {s : State} {job : Job}
    (hp : job.place.whereabouts = .inHand) (now : ℕ) :
    Accounted s job (scheduleRetryAfterFailure cfg s job now).1
      (scheduleRetryAfterFailure cfg s job now).2 := by
  have hp' : Place.whereabouts (.scheduling true) = .inHand := rfl
  constructor <;> simp [scheduleRetryAfterFailure, Job.isAt, hp, hp', Whereabouts.done]

/-- A failed delivery is given up, which is counted, or scheduled again. -/
theorem afterFailure_accounted {s : State} {job : Job} (hp : job.place.whereabouts = .inHand)
    (now : ℕ) (permanent : Bool) :
    Accounted s job (afterFailure cfg s job now permanent).1
      (afterFailure cfg s job now permanent).2 := by
  unfold afterFailure
  split_ifs
  · have hp' : Place.whereabouts (.publishing 0) = .failed := rfl
    constructor <;> simp [Job.isAt, hp, hp', Whereabouts.done]
  · exact scheduleRetryAfterFailure_accounted hp now

theorem delivered_accounted {s : State} {job : Job} (hp : job.place.whereabouts = .inHand) :
    Accounted s job (delivered s job).1 (delivered s job).2 := by
  have hp' : Place.whereabouts (.final .delivered) = .delivered := rfl
  constructor <;> simp [delivered, Job.leave, Job.isAt, hp, hp', Whereabouts.done]

theorem dedupCheck_accounted {s s' : State} {job job' : Job} {j now : ℕ}
    {answer : Except String Bool}
    (h : jobStep cfg s job (.dedupCheck j now answer) = some (s', job')) :
    Accounted s job s' job' := by
  simp only [jobStep] at h
  split_ifs at h with hp
  have hw : job.place.whereabouts = .inHand := by rw [hp]; rfl
  split at h
  · obtain ⟨rfl, rfl⟩ := Prod.mk.inj (Option.some.inj h)
    exact scheduleRetryAfterFailure_accounted hw now
  · obtain ⟨rfl, rfl⟩ := Prod.mk.inj (Option.some.inj h)
    have hw' : Place.whereabouts (.final .skipped) = .skipped := rfl
    constructor <;> simp [Job.leave, Job.isAt, hw, hw', Whereabouts.done]
  · obtain ⟨rfl, rfl⟩ := Prod.mk.inj (Option.some.inj h)
    exact .inHand hw rfl rfl ⟨rfl, rfl, rfl⟩

theorem prepare_accounted {s s' : State} {job job' : Job} {j now : ℕ} {get : GetResult}
    {requestErr : Option String}
    (h : jobStep cfg s job (.prepare j now get requestErr) = some (s', job')) :
    Accounted s job s' job' := by
  simp only [jobStep] at h
  by_cases hp : job.place = .preparing
  case neg => simp [hp] at h
  have hw : job.place.whereabouts = .inHand := by rw [hp]; rfl
  simp only [hp, ↓reduceIte] at h
  split at h
  · obtain ⟨rfl, rfl⟩ := Prod.mk.inj (Option.some.inj h)
    exact afterFailure_accounted hw _ _
  · split_ifs at h
    · obtain ⟨rfl, rfl⟩ := Prod.mk.inj (Option.some.inj h)
      exact afterFailure_accounted hw _ _
    · obtain ⟨rfl, rfl⟩ := Prod.mk.inj (Option.some.inj h)
      exact .inHand hw rfl rfl ⟨rfl, rfl, rfl⟩

theorem post_accounted {s s' : State} {job job' : Job} {j now : ℕ} {answer : PostResult}
    (h : jobStep cfg s job (.post j now answer) = some (s', job')) : Accounted s job s' job' := by
  simp only [jobStep] at h
  by_cases hp : job.place = .posting
  case neg => simp [hp] at h
  have hw : job.place.whereabouts = .inHand := by rw [hp]; rfl
  simp only [hp, ↓reduceIte] at h
  split at h
  · split_ifs at h
    · obtain ⟨rfl, rfl⟩ := Prod.mk.inj (Option.some.inj h)
      exact .inHand hw rfl rfl ⟨rfl, rfl, rfl⟩
    · obtain ⟨rfl, rfl⟩ := Prod.mk.inj (Option.some.inj h)
      exact delivered_accounted hw
    · obtain ⟨rfl, rfl⟩ := Prod.mk.inj (Option.some.inj h)
      exact afterFailure_accounted hw _ _
  · obtain ⟨rfl, rfl⟩ := Prod.mk.inj (Option.some.inj h)
    exact afterFailure_accounted hw _ _

/-- An attempt to publish to the DLQ; the failure has been counted before. -/
theorem publishDLQ_accounted {s s' : State} {job job' : Job} {j : ℕ} {ok : Bool}
    (h : jobStep cfg s job (.publishDLQ j ok) = some (s', job')) : Accounted s job s' job' := by
  simp only [jobStep] at h
  split at h
  · rename_i attempts hp
    have hw : job.place.whereabouts = .failed := by rw [hp]; rfl
    split_ifs at h
    · obtain ⟨rfl, rfl⟩ := Prod.mk.inj (Option.some.inj h)
      exact .same hw.symm rfl ⟨rfl, rfl, rfl⟩ (by simp [Job.leave]) (by simp [Job.leave])
    · obtain ⟨rfl, rfl⟩ := Prod.mk.inj (Option.some.inj h)
      exact .same hw.symm rfl ⟨rfl, rfl, rfl⟩ (by simp) (by simp)
    · obtain ⟨rfl, rfl⟩ := Prod.mk.inj (Option.some.inj h)
      exact .same hw.symm rfl ⟨rfl, rfl, rfl⟩ (by simp [Job.leave]) (by simp [Job.leave])
  · cases h

theorem schedule_accounted {s s' : State} {job job' : Job} {j : ℕ}
    (h : jobStep cfg s job (.schedule j) = some (s', job')) : Accounted s job s' job' := by
  simp only [jobStep] at h
  split at h
  · rename_i byWorker hp
    split_ifs at h with hshut hby
    · obtain ⟨rfl, rfl⟩ := Prod.mk.inj (Option.some.inj h)
      constructor <;> simp [Job.leave, Job.isAt, hp, hby, hshut, Place.whereabouts,
        Whereabouts.done]
    · obtain ⟨rfl, rfl⟩ := Prod.mk.inj (Option.some.inj h)
      constructor <;> simp [Job.isAt, hp, hby, hshut, Place.whereabouts, Whereabouts.done]
    · obtain ⟨rfl, rfl⟩ := Prod.mk.inj (Option.some.inj h)
      refine .same ?_ rfl ⟨rfl, rfl, rfl⟩ (by simp) (by simp)
      rw [hp]
      cases byWorker <;> rfl
  · cases h

theorem park_accounted {s s' : State} {job job' : Job} {j : ℕ}
    (h : jobStep cfg s job (.park j) = some (s', job')) : Accounted s job s' job' := by
  simp only [jobStep] at h
  split at h
  · rename_i byWorker hp
    cases byWorker
    · obtain ⟨rfl, rfl⟩ := Prod.mk.inj (Option.some.inj h)
      constructor <;> simp [Job.isAt, hp, Place.whereabouts, Whereabouts.done]
    · obtain ⟨rfl, rfl⟩ := Prod.mk.inj (Option.some.inj h)
      constructor <;> simp [Job.leave, Job.isAt, hp, Place.whereabouts, Whereabouts.done]
  · cases h

theorem fire_accounted {s s' : State} {job job' : Job} {j : ℕ}
    (h : jobStep cfg s job (.fire j) = some (s', job')) : Accounted s job s' job' := by
  simp only [jobStep] at h
  split_ifs at h with hp hshut
  · obtain ⟨rfl, rfl⟩ := Prod.mk.inj (Option.some.inj h)
    constructor <;> simp [Job.isAt, hp, hshut, Place.whereabouts, Whereabouts.done]
  · obtain ⟨rfl, rfl⟩ := Prod.mk.inj (Option.some.inj h)
    refine .same (by rw [hp]; rfl) rfl ⟨rfl, rfl, rfl⟩ (by simp) fun _ => ?_
    exact Or.inr (Bool.eq_false_iff.2 hshut)

/-- **The counters follow the job.** -/
theorem jobStep_accounted {s s' : State} {job job' : Job} {l : Label}
    (h : jobStep cfg s job l = some (s', job')) : Accounted s job s' job' := by
  cases l with
  | gateLookup j =>
    simp only [jobStep] at h
    split_ifs at h with hp
    have hw : job.place.whereabouts = .inHand := by rw [hp]; rfl
    split at h
    · obtain ⟨rfl, rfl⟩ := Prod.mk.inj (Option.some.inj h)
      exact .inHand hw rfl rfl ⟨rfl, rfl, rfl⟩
    · obtain ⟨rfl, rfl⟩ := Prod.mk.inj (Option.some.inj h)
      exact .inHand hw (whereabouts_afterGate _) rfl ⟨rfl, rfl, rfl⟩
  | gateWait j =>
    simp only [jobStep] at h
    split at h
    · rename_i i hp
      have hw : job.place.whereabouts = .inHand := by rw [hp]; rfl
      split_ifs at h
      · obtain ⟨rfl, rfl⟩ := Prod.mk.inj (Option.some.inj h)
        exact .inHand hw rfl rfl ⟨rfl, rfl, rfl⟩
      · obtain ⟨rfl, rfl⟩ := Prod.mk.inj (Option.some.inj h)
        exact .inHand hw rfl rfl ⟨rfl, rfl, rfl⟩
    · cases h
  | gateWake j =>
    simp only [jobStep] at h
    split at h
    · rename_i i zeros hp
      have hw : job.place.whereabouts = .inHand := by rw [hp]; rfl
      split_ifs at h
      obtain ⟨rfl, rfl⟩ := Prod.mk.inj (Option.some.inj h)
      exact .inHand hw rfl rfl ⟨rfl, rfl, rfl⟩
    · cases h
  | gateRemove j =>
    simp only [jobStep] at h
    split_ifs at h with hp
    have hw : job.place.whereabouts = .inHand := by rw [hp]; rfl
    obtain ⟨rfl, rfl⟩ := Prod.mk.inj (Option.some.inj h)
    exact .inHand hw (whereabouts_afterGate _) rfl ⟨rfl, rfl, rfl⟩
  | dedupCheck j now answer => exact dedupCheck_accounted h
  | prepare j now get requestErr => exact prepare_accounted h
  | post j now answer => exact post_accounted h
  | record j =>
    simp only [jobStep] at h
    split_ifs at h with hp
    obtain ⟨rfl, rfl⟩ := Prod.mk.inj (Option.some.inj h)
    exact delivered_accounted (by rw [hp]; rfl)
  | publishDLQ j ok => exact publishDLQ_accounted h
  | schedule j => exact schedule_accounted h
  | park j => exact park_accounted h
  | fire j => exact fire_accounted h
  | doneLookup j =>
    simp only [jobStep] at h
    split_ifs at h with hp
    split at h
    · obtain ⟨rfl, rfl⟩ := Prod.mk.inj (Option.some.inj h)
      exact .same rfl rfl ⟨rfl, rfl, rfl⟩ id Or.inl
    · obtain ⟨rfl, rfl⟩ := Prod.mk.inj (Option.some.inj h)
      exact .same rfl rfl ⟨rfl, rfl, rfl⟩ id Or.inl
  | doneSignal j =>
    simp only [jobStep] at h
    split at h
    · obtain ⟨rfl, rfl⟩ := Prod.mk.inj (Option.some.inj h)
      exact .same rfl rfl ⟨rfl, rfl, rfl⟩ id Or.inl
    · cases h
  | accept | send | take | stop | stopWait | close => cases h

theorem inHand_of_delivering {place : Place} (h : place.delivering = true) :
    place.inHand = true := by
  cases place <;> simp_all [Place.delivering, Place.inHand]

theorem busy_place_le {job : Job} (hp : job.place.inHand = true) (place : Place) :
    ({ job with place := place } : Job).busy ≤ job.busy := by
  have hle := Bool.toNat_le place.inHand
  simp only [Job.busy, hp, Bool.toNat_true]
  omega

/-- A worker that leaves `processDelivery` has at most the deferred call to run. -/
theorem busy_leave_le {job : Job} (hp : job.place.inHand = true) {place : Place}
    (hp' : place.inHand = false) : (job.leave place).busy ≤ job.busy := by
  simp only [Job.busy, Job.leave, hp, hp']
  cases job.exit <;> simp [Exit.running]

theorem Move.busy_le {l : Label} {g g' : StumpGate} {job job' : Job}
    (h : Move cfg l g job g' job') : job'.busy ≤ job.busy := by
  cases h with
  | lookup_none hp _ => exact busy_place_le (by rw [hp]; rfl) _
  | lookup_some hp _ => exact busy_place_le (by rw [hp]; rfl) _
  | wait_zero hp _ => exact busy_place_le (by rw [hp]; rfl) _
  | wait hp _ => exact busy_place_le (by rw [hp]; rfl) _
  | wake hp _ => exact busy_place_le (by rw [hp]; rfl) _
  | remove hp => exact busy_place_le (by rw [hp]; rfl) _
  | deliver hp _ => exact busy_place_le (inHand_of_delivering hp) _
  | finish o hp _ _ => exact busy_leave_le (inHand_of_delivering hp) rfl
  | drop hp => exact busy_leave_le (by rw [hp]; rfl) rfl
  | retry _ hp _ => exact busy_place_le (inHand_of_delivering hp) _
  | @schedule byWorker hp => cases byWorker <;> simp [Job.busy, hp, Place.inHand]
  | park hp => exact busy_leave_le (by rw [hp]; rfl) rfl
  | timer hp hp' => rcases hp' with rfl | rfl | rfl <;> simp [Job.busy, Place.inHand]
  | done_none hexit _ => simp [Job.busy, hexit, Exit.running]
  | done_some hexit _ => simp [Job.busy, hexit, Exit.running]
  | signal hexit => simp [Job.busy, hexit, Exit.running]

theorem Move.of_queued {l : Label} {g g' : StumpGate} {job job' : Job}
    (h : Move cfg l g job g' job') (hq : job'.place = .queued) : job.place = .queued := by
  have hgate : (afterGate cfg job.msg) ≠ .queued := by
    intro hq
    have hdel : (afterGate cfg job.msg).delivering = true := afterGate_delivering _
    simp [hq, Place.delivering] at hdel
  cases h <;> simp_all [Place.delivering, Job.leave]

/-! ### The queue and the workers -/

theorem busy_set_le {s : State} {j : ℕ} {job job' : Job} (hjob : s.jobs[j]? = some job)
    (hle : job'.busy ≤ job.busy) :
    ((s.jobs.set j job').map Job.busy).sum ≤ (s.jobs.map Job.busy).sum := by
  have := List.sum_map_set Job.busy hjob job'
  omega

theorem busy_enter_le (job : Job) : (job.enter cfg).busy ≤ job.busy + 1 := by
  have hplace := Bool.toNat_le (job.enter cfg).place.inHand
  have hexit : (job.enter cfg).exit.running.toNat ≤ job.exit.running.toNat := by
    simp only [Job.enter]
    split_ifs
    · exact Nat.zero_le _
    · exact le_rfl
  simp only [Job.busy]
  omega

/-- There are never more jobs in hand than workers, also while the service is stopped. -/
theorem busy_step {s s' : State} {l : Label} (hst : step cfg s l = some s')
    (hbusy : (s.jobs.map Job.busy).sum ≤ cfg.workers) :
    (s'.jobs.map Job.busy).sum ≤ cfg.workers := by
  obtain ⟨msg, now, rfl, rfl⟩ | ⟨-, htake⟩ | ⟨-, rfl⟩ | ⟨-, -, -, rfl⟩ | ⟨-, -, rfl⟩ |
    ⟨j, job, -, hjob, hsend⟩ | ⟨j, job, s₁, job', -, hjob, hjs, rfl⟩ := step_inv hst
  · unfold accept
    split_ifs
    all_goals simpa [Job.busy, Place.inHand, Exit.running] using hbusy
  · obtain ⟨j, job, rest, -, hjob, hlt, rfl⟩ := take_inv htake
    have hsum := List.sum_map_set Job.busy hjob (job.enter cfg)
    have hle : (job.enter cfg).busy ≤ job.busy + 1 := busy_enter_le job
    simp only [State.setJob]
    omega
  · exact hbusy
  · exact hbusy
  · exact hbusy
  · obtain ⟨-, -, rfl⟩ | ⟨hp, -, rfl⟩ | ⟨hp, -, rfl⟩ | ⟨hp, -, rfl⟩ := send_inv hsend
    · exact hbusy
    all_goals
      refine (busy_set_le hjob ?_).trans hbusy
      simp [Job.busy, hp, Place.inHand]
  · obtain ⟨hmove, hjobs, -⟩ := jobStep_move hjs
    rw [State.setJob, hjobs]
    exact (busy_set_le hjob hmove.busy_le).trans hbusy

theorem whereabouts_enter (job : Job) : (job.enter cfg).place.whereabouts = .inHand := by
  unfold Job.enter
  dsimp only
  split_ifs
  · rfl
  · exact whereabouts_afterGate _

/-- The queue holds the queued jobs, and there are enough workers for those in hand. -/
structure Slots (cfg : Config) (s : State) : Prop where
  queue : QueueInv s
  queued : ∀ (j : ℕ) (job : Job), s.jobs[j]? = some job → job.place = .queued → j ∈ s.workCh
  busy : (s.jobs.map Job.busy).sum ≤ cfg.workers

theorem slots_init : Slots cfg init where
  queue := ⟨List.nodup_nil, by simp [init]⟩
  queued := by simp [init]
  busy := Nat.zero_le _

theorem Slots.queued_set {s : State} (h : Slots cfg s) {j : ℕ} {job' : Job} {ch : List ℕ}
    (hch : ∀ k ∈ s.workCh, k ≠ j → k ∈ ch) (hj : job'.place = .queued → j ∈ ch) :
    ∀ k x, (s.jobs.set j job')[k]? = some x → x.place = .queued → k ∈ ch := by
  intro k x hx hq
  obtain ⟨rfl, rfl⟩ | ⟨hk, hx⟩ := List.getElem?_set_cases hx
  · exact hj hq
  · exact hch k (h.queued k x hx hq) hk

theorem Slots.queued_append {s : State} (h : Slots cfg s) {new : Job}
    (hplace : new.place ≠ .queued) :
    ∀ k x, (s.jobs ++ [new])[k]? = some x → x.place = .queued → k ∈ s.workCh := by
  intro k x hx hq
  rcases Nat.lt_or_ge k s.jobs.length with hk | hk
  · rw [List.getElem?_append_left hk] at hx
    exact h.queued k x hx hq
  · rw [List.getElem?_append_right hk, List.getElem?_singleton] at hx
    split_ifs at hx
    obtain rfl := Option.some.inj hx
    exact absurd hq hplace

theorem slots_step {s s' : State} {l : Label} (h : Slots cfg s) (hst : step cfg s l = some s') :
    Slots cfg s' := by
  refine ⟨queueInv_step h.queue hst, ?_, busy_step hst h.busy⟩
  obtain ⟨msg, now, rfl, rfl⟩ | ⟨-, htake⟩ | ⟨-, rfl⟩ | ⟨-, -, -, rfl⟩ | ⟨-, -, rfl⟩ |
    ⟨j, job, -, hjob, hsend⟩ | ⟨j, job, s₁, job', -, hjob, hjs, rfl⟩ := step_inv hst
  · unfold accept
    split_ifs
    all_goals exact h.queued_append nofun
  · obtain ⟨j, job, rest, hch, hjob, -, rfl⟩ := take_inv htake
    refine h.queued_set ?_ ?_
    · intro k hk hne
      rw [hch] at hk
      exact (List.mem_cons.1 hk).resolve_left hne
    · intro hq
      have hw : (job.enter cfg).place.whereabouts = .inHand := whereabouts_enter job
      rw [hq] at hw
      cases hw
  · exact h.queued
  · exact h.queued
  · exact h.queued
  · obtain ⟨-, -, rfl⟩ | ⟨-, -, rfl⟩ | ⟨-, -, rfl⟩ | ⟨-, -, rfl⟩ := send_inv hsend
    · exact h.queued
    · exact h.queued_set (fun k hk _ => hk) nofun
    all_goals exact h.queued_set (fun k hk _ => List.mem_append_left _ hk) fun _ => by simp
  · obtain ⟨hmove, hjobs, hch⟩ := jobStep_move hjs
    rw [State.setJob, hjobs, hch]
    exact h.queued_set (fun k hk _ => hk) fun hq => h.queued j job hjob (hmove.of_queued hq)

/-! ### The census -/

theorem whereabouts_eq_queued_iff {place : Place} :
    place.whereabouts = .queued ↔ place = .queued := by
  cases place with
  | scheduling byWorker => cases byWorker <;> simp [Place.whereabouts]
  | parking byWorker => cases byWorker <;> simp [Place.whereabouts]
  | final o => cases o <;> simp [Place.whereabouts]
  | _ => simp [Place.whereabouts]

theorem isAt_inHand_le_busy (job : Job) : job.isAt .inHand ≤ job.busy := by
  unfold Job.isAt Job.busy
  split_ifs with hw
  · have hhand : job.place.inHand = true := by
      cases hp : job.place with
      | scheduling byWorker => cases byWorker <;> simp_all [Place.whereabouts, Place.inHand]
      | parking byWorker => cases byWorker <;> simp_all [Place.whereabouts, Place.inHand]
      | final o => cases o <;> simp_all [Place.whereabouts]
      | _ => simp_all [Place.whereabouts, Place.inHand]
    simp [hhand]
  · exact Nat.zero_le _

theorem census_append (s : State) (job : Job) (w : Whereabouts) :
    ((s.jobs ++ [job]).map (Job.isAt w)).sum = s.census w + job.isAt w := by
  simp [State.census]

theorem census_set {s : State} {j : ℕ} {job : Job} (h : s.jobs[j]? = some job) (job' : Job)
    (w : Whereabouts) :
    ((s.jobs.set j job').map (Job.isAt w)).sum + job.isAt w = s.census w + job'.isAt w :=
  List.sum_map_set (Job.isAt w) h job'

theorem accepted_eq (s : State) : s.accepted = s.census .queued + s.census .inHand +
    s.census .timer + s.census .delivered + s.census .skipped + s.census .failed +
    s.census .dropped := by
  unfold State.accepted State.census
  induction s.jobs with
  | nil => rfl
  | cons job jobs ih =>
    rw [List.countP_cons, ih]
    simp only [List.map_cons, List.sum_cons, Job.isAt]
    cases job.place.whereabouts <;> simp <;> omega

/-- **The invariant of the runs before `Stop`.** -/
structure Conserved (cfg : Config) (s : State) : Prop extends Slots cfg s where
  flags : s.shuttingDown = false ∧ s.timersDone = false ∧ s.closed = false
  length : s.workCh.length = s.census .queued
  processed : s.counters.messagesProcessed = s.census .delivered
  deduped : s.counters.messagesDedupe = s.census .skipped
  failed : s.counters.messagesFailed = s.census .failed
  parked : s.counters.messagesParked = s.census .timer
  dropped : s.census .dropped = 0

theorem conserved_init : Conserved cfg init where
  toSlots := slots_init
  flags := ⟨rfl, rfl, rfl⟩
  length := rfl
  processed := rfl
  deduped := rfl
  failed := rfl
  parked := rfl
  dropped := rfl

theorem Conserved.append {s s' : State} (h : Conserved cfg s) (hslots : Slots cfg s') (new : Job)
    (hw : new.place.whereabouts = .handling)
    (hjobs : s'.jobs = s.jobs ++ [new]) (hch : s'.workCh = s.workCh)
    (hcounters : s'.counters = s.counters) (hflags : s'.shuttingDown = s.shuttingDown ∧
      s'.timersDone = s.timersDone ∧ s'.closed = s.closed) : Conserved cfg s' := by
  have hcensus : ∀ w, w ≠ .handling → s'.census w = s.census w := by
    intro w hne
    rw [State.census, hjobs, census_append, Job.isAt, hw, if_neg hne.symm, add_zero]
  refine ⟨hslots, ?_, ?_, ?_, ?_, ?_, ?_, ?_⟩
  · rw [hflags.1, hflags.2.1, hflags.2.2]
    exact h.flags
  · rw [hch, hcensus _ (by simp), h.length]
  · rw [hcounters, hcensus _ (by simp), h.processed]
  · rw [hcounters, hcensus _ (by simp), h.deduped]
  · rw [hcounters, hcensus _ (by simp), h.failed]
  · rw [hcounters, hcensus _ (by simp), h.parked]
  · rw [hcensus _ (by simp), h.dropped]

theorem Conserved.set {s s' : State} (h : Conserved cfg s) (hslots : Slots cfg s') {j : ℕ}
    {job job' : Job} (hjob : s.jobs[j]? = some job) (hjobs : s'.jobs = s.jobs.set j job')
    (hacc : Accounted s job s' job')
    (hlen : s'.workCh.length + job.isAt .queued = s.workCh.length + job'.isAt .queued) :
    Conserved cfg s' := by
  have hcensus : ∀ w, s'.census w + job.isAt w = s.census w + job'.isAt w := by
    intro w
    rw [State.census, hjobs]
    exact census_set hjob job' w
  obtain ⟨hdown, htimers, hclosed⟩ := hacc.flags
  refine ⟨hslots, ?_, ?_, ?_, ?_, ?_, ?_, ?_⟩
  · rw [hdown, htimers, hclosed]
    exact h.flags
  · have := hcensus .queued
    have := h.length
    omega
  · have := hcensus .delivered
    have := hacc.processed
    have := h.processed
    omega
  · have := hcensus .skipped
    have := hacc.deduped
    have := h.deduped
    omega
  · have := hcensus .failed
    have := hacc.failed
    have := h.failed
    omega
  · have := hcensus .timer
    have := hacc.parked
    have := h.parked
    omega
  · -- nothing is dropped before `Stop`
    have hdrop : job'.isAt .dropped ≤ job.isAt .dropped := by
      unfold Job.isAt
      split_ifs with hnew hold
      · exact le_rfl
      · exact absurd (hacc.dropped h.flags.1 hnew) hold
      · exact Nat.zero_le _
      · exact le_rfl
    have := hcensus .dropped
    have := h.dropped
    omega

theorem Conserved.send {s s' : State} (h : Conserved cfg s) (hslots : Slots cfg s') {j : ℕ}
    {job : Job} (hjob : s.jobs[j]? = some job) (hst : Callback.send cfg s j job = some s') :
    Conserved cfg s' := by
  have hopen := h.flags.2.2
  obtain ⟨-, hclosed, -⟩ | ⟨-, hclosed, -⟩ | ⟨hp, -, rfl⟩ | ⟨hp, -, rfl⟩ := send_inv hst
  · simp [hopen] at hclosed
  · simp [hopen] at hclosed
  all_goals
    refine h.set hslots hjob rfl ?_ ?_
    · constructor <;> simp [Job.isAt, hp, Place.whereabouts, Whereabouts.done, State.setJob]
    · simp [Job.isAt, hp, Place.whereabouts]

theorem Conserved.take {s s' : State} (h : Conserved cfg s) (hslots : Slots cfg s')
    (hst : Callback.take cfg s = some s') : Conserved cfg s' := by
  obtain ⟨j, job, rest, hch, hjob, -, rfl⟩ := take_inv hst
  have hplace : job.place = .queued := by
    obtain ⟨x, hx, hq⟩ := h.queue.queued j (hch ▸ List.mem_cons_self)
    rw [hjob, Option.some.injEq] at hx
    exact hx ▸ hq
  have hw : job.place.whereabouts = .queued := by rw [hplace]; rfl
  have hw' : (job.enter cfg).place.whereabouts = .inHand := whereabouts_enter job
  refine h.set hslots hjob rfl ?_ ?_
  · constructor
    case sending =>
      intro hsend
      simp [hsend, Place.whereabouts] at hw'
    case firing =>
      intro hfire
      simp [hfire, Place.whereabouts] at hw'
    all_goals simp [Job.isAt, hw, hw', Whereabouts.done, State.setJob]
  · simp [Job.isAt, hw, hw', hch]

theorem Conserved.move {s s₁ s' : State} (h : Conserved cfg s) (hslots : Slots cfg s') {l : Label}
    {j : ℕ} {job job' : Job} (hjob : s.jobs[j]? = some job)
    (hst : jobStep cfg s job l = some (s₁, job')) (hs' : s' = s₁.setJob j job') :
    Conserved cfg s' := by
  have hacc := jobStep_accounted hst
  obtain ⟨hmove, hjobs, hch⟩ := jobStep_move hst
  have hsame : job'.isAt .queued = job.isAt .queued := by
    have hboth : job'.place = .queued ↔ job.place = .queued := ⟨hmove.of_queued, hmove.queued⟩
    simp only [Job.isAt, whereabouts_eq_queued_iff, hboth]
  subst hs'
  refine h.set hslots hjob (by rw [State.setJob, hjobs]) ?_ ?_
  · exact ⟨hacc.processed, hacc.deduped, hacc.failed, hacc.parked, hacc.flags, hacc.dropped,
      hacc.sending, hacc.firing, hacc.done⟩
  · rw [hsame, State.setJob, hch]

theorem conserved_step {s s' : State} {l : Label} (h : Conserved cfg s) (hl : l ≠ .stop)
    (hst : step cfg s l = some s') : Conserved cfg s' := by
  have hslots := slots_step h.toSlots hst
  obtain ⟨msg, now, rfl, rfl⟩ | ⟨-, htake⟩ | ⟨rfl, -⟩ | ⟨-, hdown, -⟩ | ⟨-, hdone, -⟩ |
    ⟨j, job, -, hjob, hsend⟩ | ⟨j, job, s₁, job', -, hjob, hjs, hs'⟩ := step_inv hst
  · unfold accept at hslots ⊢
    split_ifs at hslots ⊢ with hnow
    · exact h.append hslots { msg := msg, place := .scheduling false } rfl rfl rfl rfl
        ⟨rfl, rfl, rfl⟩
    · exact h.append hslots { msg := msg, place := .sending } rfl rfl rfl rfl ⟨rfl, rfl, rfl⟩
    · exact h.append hslots { msg := msg, place := .sending } rfl rfl rfl rfl ⟨rfl, rfl, rfl⟩
  · exact h.take hslots htake
  · exact absurd rfl hl
  · simp [h.flags.1] at hdown
  · simp [h.flags.2.1] at hdone
  · exact h.send hslots hjob hsend
  · exact h.move hslots hjob hjs hs'

/-! ### What is done with stays done with -/

theorem done_step {s s' : State} {l : Label} (hst : step cfg s l = some s') {j : ℕ} {job : Job}
    (hqueue : QueueInv s) (hjob : s.jobs[j]? = some job)
    (hdone : job.place.whereabouts.done = true) :
    ∃ job', s'.jobs[j]? = some job' ∧ job'.place.whereabouts = job.place.whereabouts := by
  have hset : ∀ k x x', s.jobs[k]? = some x →
      (x.place.whereabouts.done = true → x'.place.whereabouts = x.place.whereabouts) →
      ∃ job', (s.jobs.set k x')[j]? = some job' ∧
        job'.place.whereabouts = job.place.whereabouts := by
    intro k x x' hx hsame
    by_cases hkj : k = j
    · subst hkj
      obtain rfl : job = x := Option.some.inj (hjob.symm.trans hx)
      exact ⟨x', List.getElem?_set_self (List.getElem?_eq_some_iff.1 hx).1, hsame hdone⟩
    · exact ⟨job, (List.getElem?_set_ne hkj).trans hjob, rfl⟩
  obtain ⟨msg, now, rfl, rfl⟩ | ⟨-, htake⟩ | ⟨rfl, rfl⟩ | ⟨-, -, -, rfl⟩ | ⟨-, -, rfl⟩ |
    ⟨k, x, -, hx, hsend⟩ | ⟨k, x, s₁, x', -, hx, hjs, rfl⟩ := step_inv hst
  · have happ : ∀ new : Job, (s.jobs ++ [new])[j]? = some job := fun new => by
      rw [List.getElem?_append_left (List.getElem?_eq_some_iff.1 hjob).1]
      exact hjob
    unfold accept
    split_ifs
    · exact ⟨job, happ _, rfl⟩
    · exact ⟨job, happ _, rfl⟩
    · exact ⟨job, happ _, rfl⟩
  · obtain ⟨k, x, rest, hch, hx, -, rfl⟩ := take_inv htake
    refine hset k x _ hx fun hd => ?_
    obtain ⟨y, hy, hq⟩ := hqueue.queued k (hch ▸ List.mem_cons_self)
    obtain rfl : x = y := Option.some.inj (hx.symm.trans hy)
    simp [hq, Place.whereabouts, Whereabouts.done] at hd
  · exact ⟨job, hjob, rfl⟩
  · exact ⟨job, hjob, rfl⟩
  · exact ⟨job, hjob, rfl⟩
  · obtain ⟨-, -, rfl⟩ | ⟨hp, -, rfl⟩ | ⟨hp, -, rfl⟩ | ⟨hp, -, rfl⟩ := send_inv hsend
    · exact ⟨job, hjob, rfl⟩
    all_goals
      refine hset k x _ hx fun hd => ?_
      simp [hp, Place.whereabouts, Whereabouts.done] at hd
  · obtain ⟨-, hjobs, -⟩ := jobStep_move hjs
    rw [State.setJob, hjobs]
    exact hset k x x' hx (jobStep_accounted hjs).done

/-- Before `Stop`. -/
def BeforeStop (_ : State) (l : Label) : Prop := l ≠ .stop

/-- **Messages are conserved.**  In every state before `Stop`:

* every accepted message is in `workCh`, in the hands of a worker, in a timer, delivered, skipped or
  failed: it has not been dropped;
* the jobs in `workCh` are in it once, and there are no more jobs in hand than workers;
* the counters say how many messages have been delivered, skipped and failed and how many are in
  timers;
* the number of accepted messages is the sum of these numbers and of those in `workCh` and in hand;
* whatever happens later, a message that was delivered, skipped or failed is so for ever. -/
theorem messages_conserved {s : State} (h : (machine cfg).Run BeforeStop init s) :
    (∀ job ∈ s.jobs, job.place.whereabouts ≠ .dropped) ∧
    s.workCh.Nodup ∧
    (∀ j, j ∈ s.workCh ↔ ∃ job, s.jobs[j]? = some job ∧ job.place.whereabouts = .queued) ∧
    s.census .inHand ≤ cfg.workers ∧
    s.counters.messagesProcessed = s.census .delivered ∧
    s.counters.messagesDedupe = s.census .skipped ∧
    s.counters.messagesFailed = s.census .failed ∧
    s.counters.messagesParked = s.census .timer ∧
    (s.accepted : ℤ) = s.counters.messagesProcessed + s.counters.messagesDedupe +
      s.counters.messagesFailed + s.workCh.length + s.census .inHand + s.counters.messagesParked ∧
    ∀ s', (machine cfg).Reachable s s' → ∀ (j : ℕ) (job : Job), s.jobs[j]? = some job →
      job.place.whereabouts.done = true →
      ∃ job', s'.jobs[j]? = some job' ∧ job'.place.whereabouts = job.place.whereabouts := by
  have hinv : Conserved cfg s := h.invariant conserved_init fun _ _ _ hs hl hst =>
    conserved_step hs hl hst
  have hhand : s.census .inHand ≤ (s.jobs.map Job.busy).sum :=
    List.sum_le_sum fun job _ => isAt_inHand_le_busy job
  refine ⟨?_, hinv.queue.nodup, ?_, hhand.trans hinv.busy, hinv.processed, hinv.deduped,
    hinv.failed, hinv.parked, ?_, ?_⟩
  · intro job hmem hdrop
    have hle : job.isAt .dropped ≤ s.census .dropped := List.le_sum_map (Job.isAt .dropped) hmem
    rw [hinv.dropped, Job.isAt, if_pos hdrop] at hle
    omega
  · intro j
    constructor
    · intro hj
      obtain ⟨job, hjob, hq⟩ := hinv.queue.queued j hj
      exact ⟨job, hjob, by rw [hq]; rfl⟩
    · rintro ⟨job, hjob, hq⟩
      exact hinv.queued j job hjob (whereabouts_eq_queued_iff.1 hq)
  · have hsum := accepted_eq s
    rw [hinv.dropped] at hsum
    rw [hinv.processed, hinv.deduped, hinv.failed, hinv.parked, hinv.length]
    omega
  · intro s' hs' j job hjob hdone
    have hkeep : QueueInv s' ∧ ∃ job', s'.jobs[j]? = some job' ∧
        job'.place.whereabouts = job.place.whereabouts := by
      refine hs'.invariant (I := fun s' => QueueInv s' ∧ ∃ job', s'.jobs[j]? = some job' ∧
        job'.place.whereabouts = job.place.whereabouts) ⟨hinv.queue, job, hjob, rfl⟩ ?_
      rintro s₁ l s₂ ⟨hqueue, job₁, hjob₁, hw₁⟩ - hst
      obtain ⟨job₂, hjob₂, hw₂⟩ := done_step hst hqueue hjob₁ (hw₁ ▸ hdone)
      exact ⟨queueInv_step hqueue hst, job₂, hjob₂, hw₂.trans hw₁⟩
    exact hkeep.2

/-- Two messages have been accepted, of which one has been delivered. -/
theorem messages_conserved_two :
    ∃ s, (machine twoWorkers).Run BeforeStop init s ∧ s.accepted = 2 ∧ s.workCh = [1] ∧
      s.counters.messagesProcessed = 1 ∧ s.census .delivered = 1 ∧
      (s.accepted : ℤ) = s.counters.messagesProcessed + s.counters.messagesDedupe +
        s.counters.messagesFailed + s.workCh.length + s.census .inHand +
        s.counters.messagesParked := by
  have h₁ : (machine twoWorkers).Run BeforeStop init _ :=
    LTS.Run.start.next (l := Label.accept stumpMessage 0) nofun rfl
  have h₂ := h₁.next (l := Label.send 0) nofun rfl
  have h₃ := h₂.next (l := Label.take) nofun rfl
  have h₄ := h₃.next (l := Label.prepare 0 0 (.blob []) none) nofun rfl
  have h₅ := h₄.next (l := Label.post 0 0 (.status 200)) nofun rfl
  have h₆ := h₅.next (l := Label.accept processedMessage 0) nofun rfl
  have h₇ := h₆.next (l := Label.send 1) nofun rfl
  have hall := messages_conserved h₇
  exact ⟨_, h₇, rfl, rfl, rfl, hall.2.2.2.2.1.symm, hall.2.2.2.2.2.2.2.2.1⟩

end Callback

end MerkleService
