import MerkleService.Callback.Conservation

/-!
# The pool of workers at the gate

A worker that takes a BLOCK_PROCESSED from `workCh` blocks in `stumpGate.Wait` until the STUMPs of
the block and URL are done.  When all workers are blocked, nothing in `workCh` is taken any more; if
the STUMPs they wait for are in `workCh`, or in `handleMessage` before it, the pool is wedged.

In the runs in which a STUMP is never accepted behind a BLOCK_PROCESSED of its pair that is in
`workCh` or at the gate, the queue has each BLOCK_PROCESSED behind all its STUMPs.

* `StumpsAhead` : the condition.
* `PassInv`, `GateCounts`, `Ordered` : the parts of the invariant beside `Slots`: the place of a job
  and its deferred call, the counters of the gate, and the order in the queue.
* `pool_not_wedged` : **in these runs the pool is never wedged**; there is always a worker that is
  not blocked.
* `pool_wedged` : a STUMP is published again after its BLOCK_PROCESSED.
-/

namespace MerkleService

namespace Callback

open Kafka

/-- In `stumpGate.Wait`. -/
def Place.atGate : Place → Bool
  | .gating | .found _ | .waiting _ _ | .removing => true
  | _ => false

/-- Whether a worker is blocked in `wg.Wait` with the job: the group has not come to zero since. -/
def Job.blocked (g : StumpGate) (job : Job) : ℕ :=
  match job.place with
  | .waiting i zeros => if zeros < g.zeros i then 0 else 1
  | _ => 0

/-- The number of workers that are blocked in `wg.Wait`. -/
def State.blockedWorkers (s : State) : ℕ := (s.jobs.map (Job.blocked s.gate)).sum

/-- All workers are blocked in `wg.Wait`, and each job whose `Done` they wait for is in `workCh` or
in `handleMessage` before it. -/
def Wedged (cfg : Config) (s : State) : Prop :=
  s.blockedWorkers = cfg.workers ∧ ∀ job ∈ s.jobs, job.blocked s.gate = 1 →
    ∀ stump ∈ s.jobs, gateKey stump.msg = gateKey job.msg → stump.owes = true →
      stump.place = .sending ∨ stump.place = .queued

/-- If the step schedules a retry of a STUMP, this does not bring its `RetryCount` back to zero. -/
def KeepsRetried (cfg : Config) (l : Label) (job : Job) : Prop :=
  job.msg.type = .stump → retries cfg job.msg l = true → job.msg.retryCount + 1 ≠ 0

/-- A STUMP comes without a `NextRetryAt` to wait for at its first attempt, and no retry brings its
`RetryCount` back to zero.  It is not accepted for its first attempt while a BLOCK_PROCESSED of the
pair is in `workCh` or at the gate, and a BLOCK_PROCESSED is not sent to `workCh` while a STUMP of
the pair is in `handleMessage` for its first attempt. -/
def StumpsAhead (cfg : Config) (s : State) : Label → Prop
  | .accept msg now => isFirstStump msg = true → msg.nextRetryAt.any (now < ·) = false ∧
      ∀ job ∈ s.jobs, job.msg.type = .blockProcessed → gateKey job.msg = gateKey msg →
        job.place ≠ .queued ∧ job.place.atGate = false
  | .send j => ∀ job, s.jobs[j]? = some job → job.msg.type = .blockProcessed →
      ∀ stump ∈ s.jobs, isFirstStump stump.msg = true → gateKey stump.msg = gateKey job.msg →
        stump.place ≠ .sending
  | l => ∀ (j : ℕ) (job : Job), l.mover = some j → s.jobs[j]? = some job → KeepsRetried cfg l job

variable {cfg : Config}

theorem StumpsAhead.keepsRetried {s : State} {l : Label} {j : ℕ} {job : Job}
    (h : StumpsAhead cfg s l) (hl : l.mover = some j) (hjob : s.jobs[j]? = some job) :
    KeepsRetried cfg l job := by
  cases l with
  | accept => cases hl
  | send => exact fun _ hretry => nomatch hretry
  | _ => exact h j job hl hjob

/-! ### Passes and deferred calls -/

/-- On the way to a timer, in it or back. -/
def Place.inTimer : Place → Bool
  | .scheduling _ | .parking _ | .parked | .firing => true
  | _ => false

structure PassInv (job : Job) : Prop where
  /-- Only STUMPs have a deferred call. -/
  exit : job.exit ≠ .none → job.msg.type = .stump
  deferred : job.exit = .deferred → job.place.inHand = true
  gate : job.place.atGate = true → job.msg.type = .blockProcessed
  /-- A STUMP that has not been attempted is not retried and has no deferred call before its
  pass. -/
  first : isFirstStump job.msg = true → job.place.inTimer = false ∧
    (job.place = .sending ∨ job.place = .queued → job.exit = .none)

theorem inHand_afterGate (msg : CallbackTopicMessage) : (afterGate cfg msg).inHand = true :=
  inHand_of_delivering (afterGate_delivering msg)

theorem atGate_afterGate (msg : CallbackTopicMessage) : (afterGate cfg msg).atGate = false := by
  unfold afterGate
  split_ifs <;> rfl

theorem inTimer_afterGate (msg : CallbackTopicMessage) : (afterGate cfg msg).inTimer = false := by
  unfold afterGate
  split_ifs <;> rfl

theorem type_of_isFirstStump {msg : CallbackTopicMessage} (h : isFirstStump msg = true) :
    msg.type = .stump := by
  simp only [isFirstStump, decide_eq_true_eq] at h
  exact h.1

theorem PassInv.place {job : Job} (h : PassInv job) {place : Place} (hhand : place.inHand = true)
    (hgate : place.atGate = true → job.place.atGate = true) (htimer : place.inTimer = false) :
    PassInv { job with place := place } where
  exit := h.exit
  deferred := fun _ => hhand
  gate := fun hat => h.gate (hgate hat)
  first := by
    refine fun _ => ⟨htimer, ?_⟩
    rintro (rfl | rfl) <;> cases hhand

theorem PassInv.leave {job : Job} (h : PassInv job) {place : Place} (hgate : place.atGate = false)
    (hfirst : isFirstStump job.msg = true →
      place.inTimer = false ∧ place ≠ .sending ∧ place ≠ .queued) : PassInv (job.leave place) where
  exit := by
    intro hexit
    refine h.exit ?_
    intro hnone
    simp [Job.leave, hnone] at hexit
  deferred := by
    intro hexit
    simp only [Job.leave] at hexit
    split_ifs at hexit with hdef
    exact absurd hexit hdef
  gate := by
    intro hat
    simp [Job.leave, hgate] at hat
  first := by
    intro hf
    obtain ⟨htimer, hsend, hqueue⟩ := hfirst hf
    refine ⟨htimer, ?_⟩
    rintro (hp | hp)
    · exact absurd hp hsend
    · exact absurd hp hqueue

theorem PassInv.signalled {job : Job} (h : PassInv job) {exit : Exit} (hold : job.exit ≠ .none)
    (hnew : exit ≠ .deferred) : PassInv { job with exit := exit } where
  exit := fun _ => h.exit hold
  deferred := fun hdef => absurd hdef hnew
  gate := h.gate
  first := by
    intro hf
    obtain ⟨htimer, hnone⟩ := h.first hf
    exact ⟨htimer, fun hp => absurd (hnone hp) hold⟩

theorem inHand_enter (job : Job) : (job.enter cfg).place.inHand = true := by
  unfold Job.enter
  dsimp only
  split_ifs
  · rfl
  · exact inHand_afterGate _

theorem PassInv.enter {job : Job} (h : PassInv job) : PassInv (job.enter cfg) := by
  have hhand : (job.enter cfg).place.inHand = true := inHand_enter job
  refine ⟨?_, fun _ => hhand, ?_, ?_⟩
  · intro hexit
    by_cases hf : isFirstStump job.msg = true
    · exact type_of_isFirstStump hf
    · refine h.exit ?_
      simpa [Job.enter, hf] using hexit
  · intro hat
    by_contra hne
    have hplace : (job.enter cfg).place = afterGate cfg job.msg := if_neg hne
    rw [hplace, atGate_afterGate] at hat
    cases hat
  · intro hf
    have hstump : job.msg.type = .stump := type_of_isFirstStump hf
    have hne : job.msg.type ≠ .blockProcessed := by
      rw [hstump]
      simp
    have hplace : (job.enter cfg).place = afterGate cfg job.msg := if_neg hne
    rw [hplace] at hhand ⊢
    refine ⟨inTimer_afterGate _, ?_⟩
    rintro (hp | hp) <;> rw [hp] at hhand <;> cases hhand

theorem delivering_not_atGate {place : Place} (h : place.delivering = true) :
    place.atGate = false ∧ place.inTimer = false := by
  cases place <;> first | exact ⟨rfl, rfl⟩ | cases h

theorem atGate_of_gated {place : Place} (h : place.gated = true) : place.atGate = true := by
  cases place <;> first | rfl | cases h

theorem PassInv.move {l : Label} {g g' : StumpGate} {job job' : Job} (h : PassInv job)
    (hok : KeepsRetried cfg l job) (hmove : Move cfg l g job g' job') : PassInv job' := by
  -- a job in a timer is not at its first attempt
  have hretried : job.place.inTimer = true → isFirstStump job.msg ≠ true := by
    intro htimer hf
    rw [(h.first hf).1] at htimer
    cases htimer
  cases hmove with
  | lookup_none hp | remove hp =>
    refine h.place (inHand_afterGate _) ?_ (inTimer_afterGate _)
    rw [atGate_afterGate]
    simp
  | lookup_some hp | wait_zero hp | wait hp | wake hp =>
    exact h.place rfl (fun _ => by rw [hp]; rfl) rfl
  | deliver hp hp' =>
    obtain ⟨hgate, htimer⟩ := delivering_not_atGate hp'
    refine h.place (inHand_of_delivering hp') ?_ htimer
    rw [hgate]
    simp
  | finish o hp => exact h.leave rfl fun _ => ⟨rfl, by simp, by simp⟩
  | drop hp => exact h.leave rfl fun _ => ⟨rfl, by simp, by simp⟩
  | retry nextRetryAt hp hretry =>
    refine ⟨h.exit, fun _ => rfl, by simp [Place.atGate], fun hf => ?_⟩
    simp only [isFirstStump, decide_eq_true_eq] at hf
    exact absurd hf.2 (hok hf.1 hretry)
  | @schedule byWorker hp =>
    have hnot := hretried (by rw [hp]; rfl)
    refine ⟨h.exit, fun hdef => ?_, by simp [Place.atGate], fun hf => absurd hf hnot⟩
    have hhand := h.deferred hdef
    rw [hp] at hhand
    cases byWorker
    · cases hhand
    · rfl
  | park hp => exact h.leave rfl fun hf => absurd hf (hretried (by rw [hp]; rfl))
  | timer hp hp' =>
    have hnot := hretried (by rcases hp with hp | hp | hp | hp <;> rw [hp] <;> rfl)
    refine ⟨h.exit, fun hdef => ?_, fun hat => ?_, fun hf => absurd hf hnot⟩
    · have hhand := h.deferred hdef
      rcases hp with hp | hp | hp | hp <;> rw [hp] at hhand <;> cases hhand
    · rcases hp' with rfl | rfl | rfl <;> cases hat
  | done_none hexit => exact h.signalled (by rw [hexit]; simp) (by simp)
  | done_some hexit => exact h.signalled (by rw [hexit]; simp) (by simp)
  | signal hexit => exact h.signalled (by rw [hexit]; simp) (by simp)

theorem PassInv.accepted {msg : CallbackTopicMessage} {place : Place} (hgate : place.atGate = false)
    (hfirst : isFirstStump msg = true → place.inTimer = false) :
    PassInv { msg := msg, place := place } where
  exit := fun hexit => absurd rfl hexit
  deferred := by simp
  gate := by simp [hgate]
  first := fun hf => ⟨hfirst hf, fun _ => rfl⟩

/-- **The passes** of the jobs. -/
theorem passInv_step {s s' : State} {l : Label} (h : ∀ job ∈ s.jobs, PassInv job)
    (hok : StumpsAhead cfg s l) (hst : step cfg s l = some s') : ∀ job ∈ s'.jobs, PassInv job := by
  have hset : ∀ {j : ℕ} {job' : Job}, s'.jobs = s.jobs.set j job' → PassInv job' →
      ∀ job ∈ s'.jobs, PassInv job := by
    intro j job' hjobs hjob' x hx
    rw [hjobs] at hx
    rcases List.mem_or_eq_of_mem_set hx with hx | rfl
    · exact h x hx
    · exact hjob'
  obtain ⟨msg, now, rfl, rfl⟩ | ⟨hjobs, -⟩ | ⟨j, job, hjob, hplace, hjobs, -⟩ |
    ⟨j, job, hch, hjob, hjobs, -⟩ | ⟨j, job, job', hl, hjob, hjobs, -, hmove⟩ := step_cases hst
  · have happ : ∀ {new : Job}, PassInv new → ∀ job ∈ s.jobs ++ [new], PassInv job := by
      intro new hnew x hx
      rcases List.mem_append.1 hx with hx | hx
      · exact h x hx
      · obtain rfl := List.mem_singleton.1 hx
        exact hnew
    unfold accept
    split_ifs with hnow
    · refine happ (.accepted rfl fun hf => ?_)
      rw [(hok hf).1] at hnow
      cases hnow
    · exact happ (.accepted rfl fun _ => rfl)
    · exact happ (.accepted rfl fun _ => rfl)
  · rw [hjobs]
    exact h
  · have hinv := h job (List.mem_of_getElem? hjob)
    refine hset hjobs ⟨hinv.exit, fun hdef => ?_, by simp [Place.atGate],
      fun hf => ⟨rfl, fun _ => ?_⟩⟩
    · have hhand := hinv.deferred hdef
      rcases hplace with hp | hp <;> rw [hp] at hhand <;> cases hhand
    · rcases hplace with hp | hp
      · exact (hinv.first hf).2 (Or.inl hp)
      · have htimer := (hinv.first hf).1
        rw [hp] at htimer
        cases htimer
  · exact hset hjobs (h job (List.mem_of_getElem? hjob)).enter
  · exact hset hjobs ((h job (List.mem_of_getElem? hjob)).move (hok.keepsRetried hl hjob) hmove)

/-! ### The counters of the gate -/

/-- The counter of a gate is the number of jobs that owe a `Done`. -/
structure GateCounts (g : StumpGate) (jobs : List Job) : Prop where
  wf : g.WellFormed
  job : ∀ job ∈ jobs, GateJob g (owed jobs (gateKey job.msg)) job
  count : ∀ key, g.pending key = owed jobs key

variable {g g' : StumpGate} {jobs : List Job} {j : ℕ} {job job' : Job}

theorem GateCounts.quiet (h : GateCounts g jobs) (hjob : jobs[j]? = some job)
    (hkey : gateKey job'.msg = gateKey job.msg) (howes : job'.owes = job.owes)
    (hinv : GateJob g (owed jobs (gateKey job.msg)) job') : GateCounts g (jobs.set j job') := by
  have howed := owed_set_same hjob hkey howes
  refine ⟨h.wf, ?_, fun key => by rw [howed]; exact h.count key⟩
  intro x hx
  rw [howed]
  rcases List.mem_or_eq_of_mem_set hx with hx | rfl
  · exact h.job x hx
  · rw [hkey]
    exact hinv

theorem GateCounts.outside (h : GateCounts g jobs) (hjob : jobs[j]? = some job)
    (hkey : gateKey job'.msg = gateKey job.msg) (howes : job'.owes = job.owes)
    (hplace : job'.place.gated = false)
    (hexit : ∀ i, job'.exit = .signalling i → job.exit = .signalling i) :
    GateCounts g (jobs.set j job') := by
  refine h.quiet hjob hkey howes (.of_not_gated (fun i hi => ?_) hplace)
  rw [hkey]
  exact (h.job job (List.mem_of_getElem? hjob)).signalling i (hexit i hi)

theorem GateCounts.append (h : GateCounts g jobs) {new : Job} (howes : new.owes = false)
    (hplace : new.place.gated = false) (hexit : new.exit = .none) :
    GateCounts g (jobs ++ [new]) := by
  have howed : ∀ key, owed (jobs ++ [new]) key = owed jobs key := by
    intro key
    simp [owed_append, owesAt, howes]
  refine ⟨h.wf, ?_, fun key => by rw [howed]; exact h.count key⟩
  intro x hx
  rw [howed]
  rcases List.mem_append.1 hx with hx | hx
  · exact h.job x hx
  · obtain rfl := List.mem_singleton.1 hx
    exact .of_not_gated (by simp [hexit]) hplace

/-- A STUMP is accepted for its first attempt, while no job of its pair leaves the gate. -/
theorem GateCounts.appendStump (h : GateCounts g jobs) {msg : CallbackTopicMessage}
    (hfirst : isFirstStump msg = true)
    (hreleased : ∀ x ∈ jobs, gateKey x.msg = gateKey msg → ¬ Released g x) :
    GateCounts (g.add (gateKey msg)) (jobs ++ [{ msg := msg, place := .sending }]) := by
  have howes : ({ msg := msg, place := .sending } : Job).owes = true := by
    simp [Job.owes, hfirst]
  refine ⟨h.wf.add, ?_, ?_⟩
  · intro x hx
    rcases List.mem_append.1 hx with hx | hx
    · exact (h.job x hx).add ⟨msg, .sending, .none⟩ rfl (hreleased x hx)
    · obtain rfl := List.mem_singleton.1 hx
      exact .of_not_gated (by simp) rfl
  · intro key
    rw [StumpGate.pending_add h.wf, owed_append, h.count key]
    simp [owesAt, howes, eq_comm]

/-- Outside of `handleMessage` and `workCh` a job owes its deferred call. -/
theorem owes_eq (hsend : job.place ≠ .sending) (hqueue : job.place ≠ .queued) :
    job.owes = decide (job.exit ≠ .none) := by
  simp [Job.owes, hsend, hqueue]

theorem owes_of_inHand (h : job.place.inHand = true) : job.owes = decide (job.exit ≠ .none) := by
  refine owes_eq ?_ ?_ <;> intro hp <;> rw [hp] at h <;> cases h

theorem owes_place {place : Place} (h : job.place.inHand = true) (h' : place.inHand = true) :
    ({ job with place := place } : Job).owes = job.owes := by
  have hold : job.owes = decide (job.exit ≠ .none) := owes_of_inHand h
  rw [hold]
  exact owes_of_inHand h'

theorem exit_leave_ne_none {place : Place} : (job.leave place).exit ≠ .none ↔ job.exit ≠ .none := by
  simp only [Job.leave]
  split_ifs with hdef
  · simp [hdef]
  · rfl

theorem GateCounts.remove (h : GateCounts g jobs) (hjob : jobs[j]? = some job)
    (hp : job.place = .removing) (hexit : job.exit = .none) :
    GateCounts (g.remove (gateKey job.msg))
      (jobs.set j { job with place := afterGate cfg job.msg }) := by
  have hzero : owed jobs (gateKey job.msg) = 0 :=
    (h.job job (List.mem_of_getElem? hjob)).released (by simp [Released, hp])
  have hhand : job.place.inHand = true := by
    rw [hp]
    rfl
  have howes : ({ job with place := afterGate cfg job.msg } : Job).owes = job.owes :=
    owes_place hhand (inHand_afterGate _)
  have howed : ∀ key,
      owed (jobs.set j { job with place := afterGate cfg job.msg }) key = owed jobs key := by
    intro key
    exact owed_set_same hjob (by rfl) howes key
  refine ⟨h.wf.remove, ?_, ?_⟩
  · intro x hx
    rw [howed]
    rcases List.mem_or_eq_of_mem_set hx with hx | rfl
    · exact (h.job x hx).remove h.count hzero hx
    · exact .of_not_gated (by simp [hexit]) (delivering_not_gated (afterGate_delivering _))
  · intro key
    rw [howed, StumpGate.pending_remove]
    split_ifs with hkey
    · rw [hkey, hzero]
      rfl
    · exact h.count key

theorem GateCounts.signal (h : GateCounts g jobs) (hpass : PassInv job) (hjob : jobs[j]? = some job)
    {i : ℕ} (hexit : job.exit = .signalling i) :
    GateCounts (g.signal i) (jobs.set j { job with exit := .none }) := by
  have hgates := (h.job job (List.mem_of_getElem? hjob)).signalling i hexit
  have hgated : job.place.gated = false := by
    by_contra hgated
    have hstump := hpass.exit (by rw [hexit]; nofun)
    rw [hpass.gate (atGate_of_gated (Bool.eq_true_of_not_eq_false hgated))] at hstump
    cases hstump
  have howes : job.owes = true := by simp [Job.owes, hexit]
  have hnot : ({ job with exit := .none } : Job).owes = false := by
    by_contra howes'
    have hfirst : (job.place = .sending ∨ job.place = .queued) ∧ isFirstStump job.msg = true := by
      simpa [Job.owes] using howes'
    have hnone := (hpass.first hfirst.2).2 hfirst.1
    rw [hexit] at hnone
    cases hnone
  have howed : ∀ key, owed (jobs.set j { job with exit := .none }) key +
      (if key = gateKey job.msg then 1 else 0) = owed jobs key := by
    intro key
    have hset := owed_set hjob { job with exit := .none } key
    simp only [owesAt, howes, hnot, and_true, and_false, if_false, Bool.false_eq_true] at hset
    simpa [eq_comm] using hset
  refine ⟨h.wf.signal, ?_, ?_⟩
  · intro x hx
    rcases List.mem_or_eq_of_mem_set hx with hx | rfl
    · exact (h.job x hx).signal h.wf h.count hgates howed
    · exact .of_not_gated (by simp) hgated
  · intro key
    rw [StumpGate.pending_signal h.wf hgates, h.count key, ← howed key]
    split_ifs <;> simp

theorem GateCounts.leave (h : GateCounts g jobs) (hjob : jobs[j]? = some job)
    (hhand : job.place.inHand = true) {place : Place} (hsend : place ≠ .sending)
    (hqueue : place ≠ .queued) (hgated : place.gated = false) :
    GateCounts g (jobs.set j (job.leave place)) := by
  have hold : job.owes = decide (job.exit ≠ .none) := owes_of_inHand hhand
  refine h.outside hjob (by rfl) ?_ hgated ?_
  · rw [hold]
    have hnew : (job.leave place).owes = decide ((job.leave place).exit ≠ .none) :=
      owes_eq hsend hqueue
    rw [hnew]
    exact decide_eq_decide.2 exit_leave_ne_none
  · intro i hi
    simp only [Job.leave] at hi
    split_ifs at hi
    exact hi

theorem GateCounts.move {l : Label} (h : GateCounts g jobs) (hpass : PassInv job)
    (hjob : jobs[j]? = some job) (hmove : Move cfg l g job g' job') :
    GateCounts g' (jobs.set j job') := by
  have hmem := List.mem_of_getElem? hjob
  have hinv := h.job job hmem
  -- a BLOCK_PROCESSED at the gate has no deferred call
  have hnone : job.place.atGate = true → job.exit = .none := by
    intro hat
    by_contra hexit
    have hstump := hpass.exit hexit
    rw [hpass.gate hat] at hstump
    cases hstump
  cases hmove with
  | lookup_none hp =>
    exact h.outside hjob (by rfl) (owes_place (by rw [hp]; rfl) (inHand_afterGate _))
      (delivering_not_gated (afterGate_delivering _)) fun _ hi => hi
  | lookup_some hp hsome =>
    have hexit := hnone (by rw [hp]; rfl)
    exact h.quiet hjob (by rfl) (owes_place (by rw [hp]; rfl) rfl) (.lookup h.wf hexit hsome)
  | @wait_zero i hp hzero =>
    have hexit := hnone (by rw [hp]; rfl)
    refine h.quiet hjob (by rfl) (owes_place (by rw [hp]; rfl) rfl) (.removing hexit ?_)
    by_cases hg : g.gates (gateKey job.msg) = some i
    · have hcount := h.count (gateKey job.msg)
      rw [StumpGate.pending_of_gates hg, hzero] at hcount
      exact_mod_cast hcount.symm
    · exact hinv.released (by simpa [Released, hp] using hg)
  | wait hp hpos =>
    have hexit := hnone (by rw [hp]; rfl)
    have hg := (hinv.found _ hp).resolve_right hpos
    have hcount := h.count (gateKey job.msg)
    rw [StumpGate.pending_of_gates hg] at hcount
    exact h.quiet hjob (by rfl) (owes_place (by rw [hp]; rfl) rfl)
      (hinv.wait hexit hp hg (by omega))
  | wake hp hlt =>
    have hexit := hnone (by rw [hp]; rfl)
    refine h.quiet hjob (by rfl) (owes_place (by rw [hp]; rfl) rfl)
      (.removing hexit (hinv.released ?_))
    simpa [Released, hp] using hlt
  | remove hp => exact h.remove hjob hp (hnone (by rw [hp]; rfl))
  | deliver hp hp' =>
    exact h.outside hjob (by rfl)
      (owes_place (inHand_of_delivering hp) (inHand_of_delivering hp'))
      (delivering_not_gated hp') fun _ hi => hi
  | finish o hp =>
    exact h.leave hjob (inHand_of_delivering hp) (by simp) (by simp) rfl
  | drop hp => exact h.leave hjob (by rw [hp]; rfl) (by simp) (by simp) rfl
  | park hp => exact h.leave hjob (by rw [hp]; rfl) (by simp) (by simp) rfl
  | retry nextRetryAt hp =>
    refine h.outside hjob (by rfl) ?_ rfl fun _ hi => hi
    have hold : job.owes = decide (job.exit ≠ .none) := owes_of_inHand (inHand_of_delivering hp)
    rw [hold]
    exact owes_of_inHand rfl
  | schedule hp =>
    refine h.outside hjob (by rfl) ?_ rfl fun _ hi => hi
    have hold : job.owes = decide (job.exit ≠ .none) :=
      owes_eq (by rw [hp]; simp) (by rw [hp]; simp)
    rw [hold]
    exact owes_eq (by simp) (by simp)
  | timer hp hp' =>
    have hold : job.owes = decide (job.exit ≠ .none) := by
      rcases hp with hp | hp | hp | hp <;> exact owes_eq (by rw [hp]; simp) (by rw [hp]; simp)
    refine h.outside hjob (by rfl) ?_ ?_ fun _ hi => hi
    · rw [hold]
      rcases hp' with rfl | rfl | rfl <;> exact owes_eq (by simp) (by simp)
    · rcases hp' with rfl | rfl | rfl <;> rfl
  | done_none hexit hg =>
    -- the entry is there, since the job owes its `Done`
    have hpos := owed_pos hmem (by simp [Job.owes, hexit])
    have hcount := h.count (gateKey job.msg)
    simp only [StumpGate.pending, hg] at hcount
    omega
  | done_some hexit hg =>
    refine h.quiet hjob (by rfl) (by simp [Job.owes, hexit]) (.of_not_gated ?_ ?_)
    · intro i hi
      obtain rfl := Exit.signalling.inj hi
      exact hg
    · by_contra hgated
      rw [hnone (atGate_of_gated (Bool.eq_true_of_not_eq_false hgated))] at hexit
      cases hexit
  | signal hexit => exact h.signal hpass hjob hexit

theorem GateCounts.send (h : GateCounts g jobs) (hpass : PassInv job) (hjob : jobs[j]? = some job)
    (hplace : job.place = .sending ∨ job.place = .firing) :
    GateCounts g (jobs.set j { job with place := .queued }) := by
  refine h.outside hjob (by rfl) ?_ rfl fun _ hi => hi
  rcases hplace with hp | hp
  · simp [Job.owes, hp]
  · have hfirst : isFirstStump job.msg = false := by
      by_contra hf
      have htimer := (hpass.first (Bool.eq_true_of_not_eq_false hf)).1
      rw [hp] at htimer
      cases htimer
    simp [Job.owes, hp, hfirst]

theorem GateCounts.take (h : GateCounts g jobs) (hjob : jobs[j]? = some job)
    (hplace : job.place = .queued) : GateCounts g (jobs.set j (job.enter cfg)) := by
  have hhand : (job.enter cfg).place.inHand = true := inHand_enter job
  refine h.outside hjob (by rfl) ?_ ?_ ?_
  · have hnew : (job.enter cfg).owes = decide ((job.enter cfg).exit ≠ .none) := owes_of_inHand hhand
    rw [hnew]
    by_cases hf : isFirstStump job.msg = true <;> simp [Job.enter, Job.owes, hplace, hf]
  · unfold Job.enter
    dsimp only
    split_ifs
    · rfl
    · exact delivering_not_gated (afterGate_delivering _)
  · intro i hi
    simp only [Job.enter] at hi
    split_ifs at hi
    exact hi

theorem atGate_of_released {x : Job} (h : Released g x) : x.place.atGate = true := by
  unfold Released at h
  split at h
  · rename_i hp
    rw [hp]
    rfl
  · rename_i hp
    rw [hp]
    rfl
  · rename_i hp
    rw [hp]
    rfl
  · exact h.elim

/-- **The counters** are kept. -/
theorem gateCounts_step {s s' : State} {l : Label} (h : GateCounts s.gate s.jobs)
    (hqueue : QueueInv s)
    (hpass : ∀ job ∈ s.jobs, PassInv job) (hok : StumpsAhead cfg s l)
    (hst : step cfg s l = some s') : GateCounts s'.gate s'.jobs := by
  obtain ⟨msg, now, rfl, rfl⟩ | ⟨hjobs, -, hgate⟩ | ⟨j, job, hjob, hplace, hjobs, -, hgate⟩ |
    ⟨j, job, hch, hjob, hjobs, hgate⟩ | ⟨j, job, job', -, hjob, hjobs, -, hmove⟩ := step_cases hst
  · unfold accept
    split_ifs with hnow hf
    · exact h.append (by simp [Job.owes]) rfl rfl
    · refine h.appendStump hf fun x hx hkey hrel => ?_
      have hat : x.place.atGate = true := atGate_of_released hrel
      have hno := ((hok hf).2 x hx ((hpass x hx).gate hat) hkey).2
      rw [hat] at hno
      cases hno
    · exact h.append (by simp [Job.owes, hf]) rfl rfl
  · rw [hjobs, hgate]
    exact h
  · rw [hjobs, hgate]
    exact h.send (hpass job (List.mem_of_getElem? hjob)) hjob hplace
  · rw [hjobs, hgate]
    obtain ⟨x, hx, hp⟩ := hqueue.queued j (hch ▸ List.mem_cons_self)
    rw [hjob, Option.some.injEq] at hx
    exact h.take hjob (hx ▸ hp)
  · rw [hjobs]
    exact h.move (hpass job (List.mem_of_getElem? hjob)) hjob hmove

/-! ### The order of the queue -/

/-- A BLOCK_PROCESSED, and a STUMP of its pair at its first attempt. -/
structure Awaits (job stump : Job) : Prop where
  type : job.msg.type = .blockProcessed
  first : isFirstStump stump.msg = true
  key : gateKey stump.msg = gateKey job.msg

/-- A BLOCK_PROCESSED in `workCh` or at the gate has its STUMPs before it. -/
structure Ordered (s : State) : Prop where
  unsent : ∀ job ∈ s.jobs, ∀ stump ∈ s.jobs, Awaits job stump →
    job.place = .queued ∨ job.place.atGate = true → stump.place ≠ .sending
  taken : ∀ job ∈ s.jobs, ∀ stump ∈ s.jobs, Awaits job stump → job.place.atGate = true →
    stump.place ≠ .queued
  ahead : s.workCh.Pairwise fun i k => ∀ job stump, s.jobs[i]? = some job →
    s.jobs[k]? = some stump → ¬ Awaits job stump

theorem Awaits.irrefl : ¬ Awaits job job := by
  intro h
  have hstump := type_of_isFirstStump h.first
  rw [h.type] at hstump
  cases hstump

/-- The order after a job has moved: what has to be seen for this job as a BLOCK_PROCESSED and as a
STUMP. -/
theorem Ordered.set {s s' : State} (h : Ordered s) (hjob : s.jobs[j]? = some job)
    (hjobs : s'.jobs = s.jobs.set j job') (hjob' : ∀ x, Awaits job' x → Awaits job x)
    (hstump' : ∀ x, Awaits x job' → Awaits x job)
    (hunsent : ∀ x ∈ s.jobs, Awaits job x → job'.place = .queued ∨ job'.place.atGate = true →
      x.place ≠ .sending)
    (hsending : job'.place = .sending → job.place = .sending)
    (htaken : ∀ x ∈ s.jobs, Awaits job x → job'.place.atGate = true → x.place ≠ .queued)
    (hqueued : ∀ x ∈ s.jobs, Awaits x job → x.place.atGate = true → job'.place ≠ .queued)
    (hahead : s'.workCh.Pairwise fun i k => ∀ job stump, s.jobs[i]? = some job →
      s.jobs[k]? = some stump → ¬ Awaits job stump) : Ordered s' := by
  have hmem := List.mem_of_getElem? hjob
  refine ⟨?_, ?_, ?_⟩
  · rw [hjobs]
    intro x hx y hy hxy hplace
    rcases List.mem_or_eq_of_mem_set hx with hxs | rfl
    · rcases List.mem_or_eq_of_mem_set hy with hys | rfl
      · exact h.unsent x hxs y hys hxy hplace
      · intro hsend
        exact h.unsent x hxs job hmem (hstump' x hxy) hplace (hsending hsend)
    · rcases List.mem_or_eq_of_mem_set hy with hys | rfl
      · exact hunsent y hys (hjob' y hxy) hplace
      · exact absurd hxy Awaits.irrefl
  · rw [hjobs]
    intro x hx y hy hxy hat
    rcases List.mem_or_eq_of_mem_set hx with hxs | rfl
    · rcases List.mem_or_eq_of_mem_set hy with hys | rfl
      · exact h.taken x hxs y hys hxy hat
      · exact hqueued x hxs (hstump' x hxy) hat
    · rcases List.mem_or_eq_of_mem_set hy with hys | rfl
      · exact htaken y hys (hjob' y hxy) hat
      · exact absurd hxy Awaits.irrefl
  · rw [hjobs]
    refine hahead.imp ?_
    intro i k hik x y hx hy hxy
    obtain ⟨rfl, rfl⟩ | ⟨-, hxs⟩ := List.getElem?_set_cases hx
    · obtain ⟨rfl, rfl⟩ | ⟨-, hys⟩ := List.getElem?_set_cases hy
      · exact Awaits.irrefl hxy
      · exact hik job y hjob hys (hjob' y hxy)
    · obtain ⟨rfl, rfl⟩ | ⟨-, hys⟩ := List.getElem?_set_cases hy
      · exact hik x job hxs hjob (hstump' x hxy)
      · exact hik x y hxs hys hxy

theorem Ordered.append {s s' : State} (h : Ordered s) (hqueue : QueueInv s) {new : Job}
    (hjobs : s'.jobs = s.jobs ++ [new]) (hch : s'.workCh = s.workCh)
    (hplace : new.place = .sending ∨ new.place = .scheduling false)
    (hnew : ∀ x ∈ s.jobs, Awaits x new → new.place = .sending →
      x.place ≠ .queued ∧ x.place.atGate = false) : Ordered s' := by
  have hout : new.place ≠ .queued ∧ new.place.atGate = false := by
    rcases hplace with hp | hp <;> rw [hp] <;> exact ⟨nofun, rfl⟩
  refine ⟨?_, ?_, ?_⟩
  · rw [hjobs]
    intro x hx y hy hxy hat
    rcases List.mem_append.1 hx with hxs | hxs
    · rcases List.mem_append.1 hy with hys | hys
      · exact h.unsent x hxs y hys hxy hat
      · obtain rfl := List.mem_singleton.1 hys
        intro hsend
        obtain ⟨hqueued, hgate⟩ := hnew x hxs hxy hsend
        simp [hqueued, hgate] at hat
    · obtain rfl := List.mem_singleton.1 hxs
      simp [hout] at hat
  · rw [hjobs]
    intro x hx y hy hxy hat
    rcases List.mem_append.1 hx with hxs | hxs
    · rcases List.mem_append.1 hy with hys | hys
      · exact h.taken x hxs y hys hxy hat
      · obtain rfl := List.mem_singleton.1 hys
        exact hout.1
    · obtain rfl := List.mem_singleton.1 hxs
      rw [hout.2] at hat
      cases hat
  · -- the jobs of the queue are where they were
    have hold : ∀ {k : ℕ} {x : Job}, k ∈ s.workCh → (s.jobs ++ [new])[k]? = some x →
        s.jobs[k]? = some x := by
      intro k x hk hx
      obtain ⟨y, hy, -⟩ := hqueue.queued k hk
      rwa [List.getElem?_append_left (List.getElem?_eq_some_iff.1 hy).1] at hx
    rw [hjobs, hch]
    refine h.ahead.imp_of_mem ?_
    intro i k hi hk hik x y hx hy
    exact hik x y (hold hi hx) (hold hk hy)

/-- A job keeps its type and key, and is never at its first attempt again. -/
theorem Move.msg {l : Label} (h : Move cfg l g job g' job') (hok : KeepsRetried cfg l job) :
    job'.msg.type = job.msg.type ∧ gateKey job'.msg = gateKey job.msg ∧
      (isFirstStump job'.msg = true → isFirstStump job.msg = true) := by
  cases h with
  | retry _ _ hretry =>
    refine ⟨rfl, rfl, fun hf => ?_⟩
    simp only [isFirstStump, decide_eq_true_eq] at hf
    exact absurd hf.2 (hok hf.1 hretry)
  | _ => exact ⟨rfl, rfl, id⟩

theorem Move.place {l : Label} (h : Move cfg l g job g' job') :
    (job'.place.atGate = true → job.place.atGate = true) ∧
      (job'.place = .sending → job.place = .sending) := by
  cases h with
  | lookup_none hp | remove hp =>
    refine ⟨fun _ => by rw [hp]; rfl, fun hsend => ?_⟩
    have hhand : (afterGate cfg job.msg).inHand = true := inHand_afterGate _
    dsimp only at hsend
    rw [hsend] at hhand
    cases hhand
  | lookup_some hp | wait_zero hp | wait hp | wake hp => exact ⟨fun _ => by rw [hp]; rfl, nofun⟩
  | deliver hp hp' =>
    refine ⟨fun hat => ?_, fun hsend => ?_⟩
    · rw [(delivering_not_atGate hp').1] at hat
      cases hat
    · simp only at hsend
      rw [hsend] at hp'
      cases hp'
  | finish | drop | retry | schedule | park => exact ⟨nofun, nofun⟩
  | timer hp hp' => rcases hp' with rfl | rfl | rfl <;> exact ⟨nofun, nofun⟩
  | done_none | done_some | signal => exact ⟨id, id⟩

theorem Ordered.move {s s' : State} {l : Label} (h : Ordered s) (hok : KeepsRetried cfg l job)
    (hjob : s.jobs[j]? = some job) (hjobs : s'.jobs = s.jobs.set j job')
    (hch : s'.workCh = s.workCh) (hmove : Move cfg l g job g' job') : Ordered s' := by
  have hmem := List.mem_of_getElem? hjob
  obtain ⟨htype, hkey, hfirst⟩ := hmove.msg hok
  obtain ⟨hgate, hsending⟩ := hmove.place
  refine h.set hjob hjobs ?_ ?_ ?_ hsending ?_ ?_ (hch ▸ h.ahead)
  · intro x hx
    exact ⟨htype ▸ hx.type, hx.first, hx.key.trans hkey⟩
  · intro x hx
    exact ⟨hx.type, hfirst hx.first, hkey.symm.trans hx.key⟩
  · intro x hx hxy hplace
    exact h.unsent job hmem x hx hxy (hplace.imp hmove.of_queued hgate)
  · intro x hx hxy hat
    exact h.taken job hmem x hx hxy (hgate hat)
  · intro x hx hxy hat hqueued
    exact h.taken x hx job hmem hxy hat (hmove.of_queued hqueued)

/-- The send of a BLOCK_PROCESSED finds none of its STUMPs in `handleMessage`. -/
theorem Ordered.send {s s' : State} (h : Ordered s) (hqueue : QueueInv s) (hpass : PassInv job)
    (hjob : s.jobs[j]? = some job) (hplace : job.place = .sending ∨ job.place = .firing)
    (hjobs : s'.jobs = s.jobs.set j { job with place := .queued })
    (hch : s'.workCh = s.workCh ++ [j])
    (hok : ∀ stump ∈ s.jobs, Awaits job stump → stump.place ≠ .sending) : Ordered s' := by
  have hmem := List.mem_of_getElem? hjob
  -- a STUMP that is sent for its first attempt is sent by `handleMessage`
  have hsending : ∀ x, Awaits x job → job.place = .sending := by
    intro x hx
    refine hplace.resolve_right fun hp => ?_
    have htimer := (hpass.first hx.first).1
    rw [hp] at htimer
    cases htimer
  refine h.set hjob hjobs ?_ ?_ ?_ nofun ?_ ?_ ?_
  · intro x hx
    exact ⟨hx.type, hx.first, hx.key⟩
  · intro x hx
    exact ⟨hx.type, hx.first, hx.key⟩
  · intro x hx hxy _
    exact hok x hx hxy
  · intro x _ _ hat
    cases hat
  · intro x hx hxy hat _
    exact h.unsent x hx job hmem hxy (Or.inr hat) (hsending x hxy)
  · rw [hch, List.pairwise_append]
    refine ⟨h.ahead, List.pairwise_singleton _ _, ?_⟩
    intro i hi k hk x y hx hy hxy
    obtain rfl := List.mem_singleton.1 hk
    rw [hjob, Option.some.injEq] at hy
    subst hy
    obtain ⟨x', hx', hp⟩ := hqueue.queued i hi
    rw [hx, Option.some.injEq] at hx'
    subst hx'
    exact h.unsent x (List.mem_of_getElem? hx) job hmem hxy (Or.inl hp) (hsending x hxy)

/-- The BLOCK_PROCESSED that is taken is the head of the queue, and none of its STUMPs is behind
it. -/
theorem Ordered.take {s s' : State} (h : Ordered s) (hslots : Slots cfg s)
    (hjob : s.jobs[j]? = some job)
    (hplace : job.place = .queued) (hjobs : s'.jobs = s.jobs.set j (job.enter cfg))
    (hch : s.workCh = j :: s'.workCh) : Ordered s' := by
  have hmem := List.mem_of_getElem? hjob
  have hhand : (job.enter cfg).place.inHand = true := inHand_enter job
  have hahead := h.ahead
  rw [hch, List.pairwise_cons] at hahead
  refine h.set hjob hjobs ?_ ?_ ?_ ?_ ?_ ?_ hahead.2
  · intro x hx
    exact ⟨hx.type, hx.first, hx.key⟩
  · intro x hx
    exact ⟨hx.type, hx.first, hx.key⟩
  · intro x hx hxy _
    exact h.unsent job hmem x hx hxy (Or.inl hplace)
  · intro hp
    rw [hp] at hhand
    cases hhand
  · intro x hx hxy _ hqueued
    obtain ⟨k, hk⟩ := List.mem_iff_getElem?.1 hx
    have hin := hslots.queued k x hk hqueued
    rw [hch] at hin
    rcases List.mem_cons.1 hin with rfl | hin
    · rw [hjob, Option.some.injEq] at hk
      subst hk
      exact Awaits.irrefl hxy
    · exact hahead.1 k hin job x hjob hk hxy
  · intro x hx hxy hat hp
    rw [hp] at hhand
    cases hhand

/-- **The order** is kept. -/
theorem ordered_step {s s' : State} {l : Label} (h : Ordered s) (hslots : Slots cfg s)
    (hpass : ∀ job ∈ s.jobs, PassInv job) (hok : StumpsAhead cfg s l)
    (hst : step cfg s l = some s') : Ordered s' := by
  obtain ⟨msg, now, rfl, rfl⟩ | ⟨-, htake⟩ | ⟨-, rfl⟩ | ⟨-, -, -, rfl⟩ | ⟨-, -, rfl⟩ |
    ⟨j, job, rfl, hjob, hsend⟩ | ⟨j, job, s₁, job', hl, hjob, hjs, rfl⟩ := step_inv hst
  · -- a STUMP is accepted behind no BLOCK_PROCESSED of its pair
    have hnew : ∀ x ∈ s.jobs, Awaits x { msg := msg, place := .sending } →
        x.place ≠ .queued ∧ x.place.atGate = false := by
      intro x hx hxy
      exact (hok hxy.first).2 x hx hxy.type hxy.key.symm
    unfold accept
    split_ifs
    · refine h.append hslots.queue rfl rfl (Or.inr rfl) ?_
      intro x _ _ hsend
      cases hsend
    · exact h.append hslots.queue rfl rfl (Or.inl rfl) fun x hx hxy _ => hnew x hx hxy
    · exact h.append hslots.queue rfl rfl (Or.inl rfl) fun x hx hxy _ => hnew x hx hxy
  · obtain ⟨j, job, rest, hch, hjob, -, rfl⟩ := take_inv htake
    obtain ⟨x, hx, hp⟩ := hslots.queue.queued j (hch ▸ List.mem_cons_self)
    rw [hjob, Option.some.injEq] at hx
    exact h.take hslots hjob (hx ▸ hp) rfl hch
  · exact ⟨h.unsent, h.taken, h.ahead⟩
  · exact ⟨h.unsent, h.taken, h.ahead⟩
  · exact ⟨h.unsent, h.taken, h.ahead⟩
  · have hinv := hpass job (List.mem_of_getElem? hjob)
    have hfree : ∀ stump ∈ s.jobs, Awaits job stump → stump.place ≠ .sending :=
      fun x hx hxy => hok job hjob hxy.type x hx hxy.first hxy.key
    obtain ⟨-, -, rfl⟩ | ⟨hp, -, rfl⟩ | ⟨hp, -, rfl⟩ | ⟨hp, -, rfl⟩ := send_inv hsend
    · exact ⟨h.unsent, h.taken, h.ahead⟩
    · have hmove : Move cfg (.send j) s.gate job s.gate { job with place := .final .dropped } :=
        .timer (Or.inr (Or.inr (Or.inr hp))) (Or.inr (Or.inr rfl))
      exact h.move (hok.keepsRetried rfl hjob) hjob rfl rfl hmove
    · exact h.send hslots.queue hinv hjob (Or.inl hp) rfl rfl hfree
    · exact h.send hslots.queue hinv hjob (Or.inr hp) rfl rfl hfree
  · obtain ⟨hmove, hjobs, hch⟩ := jobStep_move hjs
    exact h.move (hok.keepsRetried hl hjob) hjob
      (by rw [State.setJob, hjobs]) hch hmove

/-! ### The pool -/

/-- **The invariant of the runs with the STUMPs ahead.** -/
structure PoolInv (cfg : Config) (s : State) : Prop where
  slots : Slots cfg s
  pass : ∀ job ∈ s.jobs, PassInv job
  counts : GateCounts s.gate s.jobs
  ordered : Ordered s

theorem poolInv_init : PoolInv cfg init where
  slots := slots_init
  pass := by simp [init]
  counts := ⟨StumpGate.wellFormed_empty, by simp [init], fun _ => rfl⟩
  ordered := ⟨by simp [init], by simp [init], List.Pairwise.nil⟩

theorem poolInv_step {s s' : State} {l : Label} (h : PoolInv cfg s) (hok : StumpsAhead cfg s l)
    (hst : step cfg s l = some s') : PoolInv cfg s' where
  slots := slots_step h.slots hst
  pass := passInv_step h.pass hok hst
  counts := gateCounts_step h.counts h.slots.queue h.pass hok hst
  ordered := ordered_step h.ordered h.slots h.pass hok hst

theorem exists_owes {key : String} (h : 0 < owed jobs key) :
    ∃ x ∈ jobs, gateKey x.msg = key ∧ x.owes = true := by
  by_contra hno
  have hzero : owed jobs key = 0 := by
    refine List.sum_eq_zero ?_
    intro n hn
    obtain ⟨x, hx, rfl⟩ := List.mem_map.1 hn
    exact if_neg fun howes => hno ⟨x, hx, howes⟩
  omega

theorem blocked_le_busy : job.blocked g ≤ job.busy := by
  unfold Job.blocked
  split
  · rename_i hp
    have hone : 1 ≤ job.busy := by simp [Job.busy, hp, Place.inHand]
    split_ifs
    · exact Nat.zero_le _
    · exact hone
  · exact Nat.zero_le _

/-- A worker is with a job that owes its deferred call, and is not blocked. -/
theorem blocked_lt_busy (hpass : PassInv job) (hexit : job.exit ≠ .none) :
    job.blocked g < job.busy := by
  have hblocked : job.blocked g = 0 := by
    unfold Job.blocked
    split
    · rename_i hp
      have hgate := hpass.gate (by rw [hp]; rfl)
      rw [hpass.exit hexit] at hgate
      cases hgate
    · rfl
  rw [hblocked]
  cases hx : job.exit with
  | none => exact absurd hx hexit
  | deferred => simp [Job.busy, hpass.deferred hx]
  | pending | signalling => simp [Job.busy, hx, Exit.running]

/-- A worker that is blocked waits for a STUMP that another worker has. -/
theorem PoolInv.exists_exit {s : State} (h : PoolInv cfg s) (hjob : job ∈ s.jobs)
    (hblocked : job.blocked s.gate ≠ 0) : ∃ x ∈ s.jobs, x.exit ≠ .none := by
  unfold Job.blocked at hblocked
  split at hblocked
  · rename_i i zeros hp
    have hzeros : ¬ zeros < s.gate.zeros i := by
      intro hlt
      exact hblocked (if_pos hlt)
    have hat : job.place.atGate = true := by
      rw [hp]
      rfl
    obtain ⟨-, hpos⟩ := (((h.counts.job job hjob).waiting i zeros hp).2).resolve_left hzeros
    obtain ⟨x, hx, hkey, howes⟩ := exists_owes hpos
    refine ⟨x, hx, ?_⟩
    intro hexit
    -- or it would still be in `handleMessage` or in the queue
    have hfirst : (x.place = .sending ∨ x.place = .queued) ∧ isFirstStump x.msg = true := by
      simpa [Job.owes, hexit] using howes
    have hawaits : Awaits job x := ⟨(h.pass job hjob).gate hat, hfirst.2, hkey⟩
    rcases hfirst.1 with hp' | hp'
    · exact h.ordered.unsent job hjob x hx hawaits (Or.inr hat) hp'
    · exact h.ordered.taken job hjob x hx hawaits hat hp'
  · exact absurd rfl hblocked

theorem PoolInv.blockedWorkers_lt {s : State} (h : PoolInv cfg s) (hworkers : 1 ≤ cfg.workers) :
    s.blockedWorkers < cfg.workers := by
  by_cases hfree : ∀ job ∈ s.jobs, job.blocked s.gate = 0
  · have hzero : s.blockedWorkers = 0 := by
      refine List.sum_eq_zero ?_
      intro n hn
      obtain ⟨job, hjob, rfl⟩ := List.mem_map.1 hn
      exact hfree job hjob
    omega
  · push Not at hfree
    obtain ⟨job, hjob, hblocked⟩ := hfree
    obtain ⟨x, hx, hexit⟩ := h.exists_exit hjob hblocked
    calc s.blockedWorkers
        < (s.jobs.map Job.busy).sum :=
          List.sum_lt_sum _ _ (fun _ _ => blocked_le_busy)
            ⟨x, hx, blocked_lt_busy (h.pass x hx) hexit⟩
      _ ≤ cfg.workers := h.slots.busy

/-- **The pool does not wedge itself** in a run in which STUMPs come as they are published, their
`RetryCount` does not wrap around to zero, no STUMP is accepted while a BLOCK_PROCESSED of its pair
is in `workCh` or at the gate, and no BLOCK_PROCESSED is sent to `workCh` while a STUMP of its pair
is in `handleMessage`. -/
theorem pool_not_wedged {s : State} (hworkers : 1 ≤ cfg.workers)
    (h : (machine cfg).Run (StumpsAhead cfg) init s) : ¬ Wedged cfg s := by
  have hinv : PoolInv cfg s := h.invariant poolInv_init fun _ _ _ hs hok hst =>
    poolInv_step hs hok hst
  rintro ⟨hall, -⟩
  have hlt := hinv.blockedWorkers_lt hworkers
  omega

/-- One of two workers is blocked, the other one has the STUMP. -/
theorem pool_not_wedged_two : ∃ s, (machine twoWorkers).Run (StumpsAhead twoWorkers) init s ∧
    s.blockedWorkers = 1 ∧ ¬ Wedged twoWorkers s := by
  have h₁ : (machine twoWorkers).Run (StumpsAhead twoWorkers) init _ :=
    LTS.Run.start.next (l := Label.accept stumpMessage 0)
      (fun _ => ⟨rfl, by simp [init]⟩) rfl
  have h₂ := h₁.next (l := Label.send 0) (by rintro _ ⟨⟩ ⟨⟩) rfl
  have h₃ := h₂.next (l := Label.accept processedMessage 0) (by rintro ⟨⟩) rfl
  have h₄ := h₃.next (l := Label.send 1)
    (by rintro _ ⟨⟩ - stump hstump hf -; revert stump; decide) rfl
  have h₅ := h₄.next (l := Label.take) (by rintro _ _ _ _ _ ⟨⟩) rfl
  have h₆ := h₅.next (l := Label.take) (by rintro _ _ _ _ _ ⟨⟩) rfl
  have h₇ := h₆.next (l := Label.gateLookup 1) (by rintro _ _ _ _ _ ⟨⟩) rfl
  have h₈ := h₇.next (l := Label.gateWait 1) (by rintro _ _ _ _ _ ⟨⟩) rfl
  exact ⟨_, h₈, by decide, pool_not_wedged (by decide) h₈⟩

/-- The STUMP is published again behind its BLOCK_PROCESSED: the only worker waits for it, and it is
next in `workCh`. -/
theorem pool_wedged :
    ¬ ∀ cfg s, 1 ≤ cfg.workers → (machine cfg).Reachable init s → ¬ Wedged cfg s := by
  intro hall
  have h₁ : (machine { twoWorkers with workers := 1 }).Reachable init _ :=
    LTS.Run.start.next (l := Label.accept stumpMessage 0) trivial rfl
  have h₂ := h₁.next (l := Label.send 0) trivial rfl
  have h₃ := h₂.next (l := Label.take) trivial rfl
  have h₄ := h₃.next (l := Label.prepare 0 0 .notFound none) trivial rfl
  have h₅ := h₄.next (l := Label.post 0 0 (.status 200)) trivial rfl
  have h₆ := h₅.next (l := Label.doneLookup 0) trivial rfl
  have h₇ := h₆.next (l := Label.doneSignal 0) trivial rfl
  have h₈ := h₇.next (l := Label.accept processedMessage 0) trivial rfl
  have h₉ := h₈.next (l := Label.send 1) trivial rfl
  have h₁₀ := h₉.next (l := Label.accept stumpMessage 0) trivial rfl
  have h₁₁ := h₁₀.next (l := Label.send 2) trivial rfl
  have h₁₂ := h₁₁.next (l := Label.take) trivial rfl
  have h₁₃ := h₁₂.next (l := Label.gateLookup 1) trivial rfl
  have h₁₄ := h₁₃.next (l := Label.gateWait 1) trivial rfl
  exact hall _ _ le_rfl h₁₄ ⟨by decide, by decide⟩

end Callback

end MerkleService
