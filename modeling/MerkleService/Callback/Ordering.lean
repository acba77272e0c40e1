import MerkleService.Callback.Delivery
import MerkleService.Data.List

/-!
# The order of STUMP and BLOCK_PROCESSED deliveries

BLOCK_PROCESSED is to be posted to a URL only when the STUMP messages of the block for that URL,
accepted before it, have reached a final outcome.  The gate counts the *first passes* of STUMP
messages: `stumpGate.Done` is deferred in the pass with `RetryCount == 0` and runs when that pass
returns, also when it has parked the message for a retry.

* `InOrder` : the condition under which counting first passes is enough.
* `OrderInv` : the invariant of the runs that meet it; the counter of a gate is the number of STUMP
  jobs that still owe their `Done`.
* `blockProcessed_after_stumps` : **in these runs BLOCK_PROCESSED is posted after its STUMPs**.
* `blockProcessed_before_stump` : a STUMP that is parked for a retry is overtaken.
-/

namespace MerkleService

namespace Callback

open Kafka

/-! ### The condition -/

/-- The gate no longer holds the job back, and the job has not removed the entry of the gate yet. -/
def Released (g : StumpGate) (job : Job) : Prop :=
  match job.place with
  | .removing => True
  | .found i => g.gates (gateKey job.msg) ≠ some i
  | .waiting i zeros => zeros < g.zeros i
  | _ => False

/-- The steps under which the gate orders the deliveries: STUMPs are accepted for their first
attempt, and not while a BLOCK_PROCESSED of the pair is leaving the gate; no delivery of a STUMP
fails in a way that is retried; and a STUMP is not lost on its way to the DLQ. -/
def InOrder (cfg : Config) (s : State) : Label → Prop
  | .accept msg now => msg.type = .stump →
      msg.retryCount = 0 ∧ msg.nextRetryAt.any (now < ·) = false ∧
      ∀ job ∈ s.jobs, gateKey job.msg = gateKey msg → ¬ Released s.gate job
  | l => ∀ (j : ℕ) (job : Job), l.mover = some j → s.jobs[j]? = some job →
      job.msg.type = .stump → retries cfg job.msg l = false ∧ loses job.place l = false

/-- 2xx, skipped as a duplicate, or published to the DLQ. -/
def Place.settled : Place → Bool
  | .final .delivered | .final .skipped | .final .deadLettered => true
  | _ => false

/-! ### The invariant -/

/-- A `Done` of the job is still to come. -/
def Job.owes (job : Job) : Bool :=
  ((job.place = .sending ∨ job.place = .queued) ∧ isFirstStump job.msg = true) ∨ job.exit ≠ .none

def owesAt (key : String) (job : Job) : ℕ :=
  if gateKey job.msg = key ∧ job.owes = true then 1 else 0

/-- The number of jobs of a key that owe a `Done`. -/
def owed (jobs : List Job) (key : String) : ℕ := (jobs.map (owesAt key)).sum

/-- What the gate is to a job, `n` jobs of its key owing a `Done`. -/
structure GateJob (g : StumpGate) (n : ℕ) (job : Job) : Prop where
  signalling : ∀ i, job.exit = .signalling i → g.gates (gateKey job.msg) = some i
  /-- The wait group that a job holds is not that of another key. -/
  group : ∀ i, (job.place = .found i ∨ ∃ zeros, job.place = .waiting i zeros) →
    i < g.groups.length ∧ ∀ key, g.gates key = some i → key = gateKey job.msg
  found : ∀ i, job.place = .found i → g.gates (gateKey job.msg) = some i ∨ g.count i = 0
  waiting : ∀ i zeros, job.place = .waiting i zeros → zeros ≤ g.zeros i ∧
    (zeros < g.zeros i ∨ g.gates (gateKey job.msg) = some i ∧ 0 < n)
  released : Released g job → n = 0

/-- What holds of each job. -/
structure JobInv (g : StumpGate) (n : ℕ) (job : Job) : Prop extends GateJob g n job where
  /-- A STUMP is on its first pass or has a final outcome. -/
  stump : job.msg.type = .stump → job.msg.retryCount = 0 ∧
    ((job.place = .sending ∨ job.place = .queued) ∧ job.exit = .none ∨
      job.place.delivering = true ∧ job.exit = .deferred ∨
      job.place.settled = true ∧ job.exit ≠ .deferred)
  other : job.msg.type ≠ .stump → job.exit = .none

/-- The job numbers in `workCh` are those of queued jobs. -/
structure QueueInv (s : State) : Prop where
  nodup : s.workCh.Nodup
  queued : ∀ j ∈ s.workCh, ∃ job, s.jobs[j]? = some job ∧ job.place = .queued

/-- **The invariant of the runs in order.** -/
structure OrderInv (s : State) : Prop where
  queue : QueueInv s
  wf : s.gate.WellFormed
  job : ∀ job ∈ s.jobs, JobInv s.gate (owed s.jobs (gateKey job.msg)) job
  /-- The counter of a gate is the number of jobs that owe a `Done`. -/
  count : ∀ key, s.gate.pending key = owed s.jobs key
  /-- A BLOCK_PROCESSED behind the gate comes after all its STUMPs. -/
  passed : ∀ (j : ℕ) (job : Job), s.jobs[j]? = some job → job.msg.type = .blockProcessed →
    job.place.delivering = true → ∀ (i : ℕ) (job' : Job), i < j → s.jobs[i]? = some job' →
    job'.msg.type = .stump → gateKey job'.msg = gateKey job.msg → job'.place.settled = true

variable {cfg : Config}

/-! ### Counting -/

theorem owed_append (jobs : List Job) (job : Job) (key : String) :
    owed (jobs ++ [job]) key = owed jobs key + owesAt key job := by
  simp [owed]

theorem owed_set {jobs : List Job} {j : ℕ} {job : Job} (h : jobs[j]? = some job) (job' : Job)
    (key : String) : owed (jobs.set j job') key + owesAt key job =
      owed jobs key + owesAt key job' :=
  List.sum_map_set (owesAt key) h job'

theorem owed_set_same {jobs : List Job} {j : ℕ} {job job' : Job} (h : jobs[j]? = some job)
    (hkey : gateKey job'.msg = gateKey job.msg) (howes : job'.owes = job.owes) (key : String) :
    owed (jobs.set j job') key = owed jobs key := by
  have := owed_set h job' key
  simp only [owesAt, hkey, howes] at this
  omega

theorem owed_pos {jobs : List Job} {job : Job} (h : job ∈ jobs) (howes : job.owes = true) :
    0 < owed jobs (gateKey job.msg) := by
  have := List.le_sum_map (owesAt (gateKey job.msg)) h
  simp only [owesAt, howes, and_self, ↓reduceIte] at this
  exact this

theorem JobInv.settled_of_owed_eq_zero {g : StumpGate} {n : ℕ} {jobs : List Job} {job : Job}
    (h : JobInv g n job) (hmem : job ∈ jobs) (hstump : job.msg.type = .stump)
    (hzero : owed jobs (gateKey job.msg) = 0) : job.place.settled = true := by
  have hno : job.owes = false := by
    by_contra howes
    have := owed_pos hmem (Bool.eq_true_of_not_eq_false howes)
    omega
  obtain ⟨hretry, ⟨hplace, -⟩ | ⟨-, hexit⟩ | ⟨hfinal, -⟩⟩ := h.stump hstump
  · simp [Job.owes, hplace, isFirstStump, hstump, hretry] at hno
  · simp [Job.owes, hexit] at hno
  · exact hfinal

/-! ### Steps that do not touch the gate -/

/-- The jobs behind the gate after a step of job `j`: it gets there only when nothing is owed. -/
theorem OrderInv.passed_set {s : State} (h : OrderInv s) {j : ℕ} {job job' : Job}
    (hjob : s.jobs[j]? = some job) (hkey : gateKey job'.msg = gateKey job.msg)
    (htype : job'.msg.type = job.msg.type)
    (hfinal : job.msg.type = .stump → job.place.settled = true → job'.place.settled = true)
    (hpassed : job'.place.delivering = true → job.msg.type = .blockProcessed →
      job.place.delivering = true ∨ owed s.jobs (gateKey job.msg) = 0) :
    ∀ (k : ℕ) (x : Job), (s.jobs.set j job')[k]? = some x → x.msg.type = .blockProcessed →
      x.place.delivering = true → ∀ (i : ℕ) (y : Job), i < k → (s.jobs.set j job')[i]? = some y →
      y.msg.type = .stump → gateKey y.msg = gateKey x.msg → y.place.settled = true := by
  intro k x hx hbp hdel i y hik hy hst hxy
  obtain ⟨rfl, rfl⟩ | ⟨hk, hx'⟩ := List.getElem?_set_cases hx
  · -- the job itself is behind the gate; earlier jobs are as they were
    obtain ⟨rfl, -⟩ | ⟨-, hy⟩ := List.getElem?_set_cases hy
    · omega
    rw [hkey] at hxy
    rcases hpassed hdel (htype ▸ hbp) with hold | hzero
    · exact h.passed k job hjob (htype ▸ hbp) hold i y hik hy hst hxy
    · have hmem := List.mem_of_getElem? hy
      exact (h.job y hmem).settled_of_owed_eq_zero hmem hst (hxy ▸ hzero)
  · obtain ⟨rfl, rfl⟩ | ⟨-, hy⟩ := List.getElem?_set_cases hy
    · exact hfinal (htype ▸ hst) (h.passed k x hx' hbp hdel i job hik hjob (htype ▸ hst)
        (hkey ▸ hxy))
    · exact h.passed k x hx' hbp hdel i y hik hy hst hxy

theorem OrderInv.of_quiet {s s' : State} (h : OrderInv s) {j : ℕ} {job job' : Job}
    (hqueue : QueueInv s') (hjob : s.jobs[j]? = some job) (hjobs : s'.jobs = s.jobs.set j job')
    (hgate : s'.gate = s.gate) (hkey : gateKey job'.msg = gateKey job.msg)
    (htype : job'.msg.type = job.msg.type) (howes : job'.owes = job.owes)
    (hinv : JobInv s.gate (owed s.jobs (gateKey job.msg)) job')
    (hfinal : job.msg.type = .stump → job.place.settled = true → job'.place.settled = true)
    (hpassed : job'.place.delivering = true → job.msg.type = .blockProcessed →
      job.place.delivering = true ∨ owed s.jobs (gateKey job.msg) = 0) : OrderInv s' := by
  have howed := owed_set_same hjob hkey howes
  refine ⟨hqueue, hgate ▸ h.wf, ?_, ?_, ?_⟩
  · intro x hx
    rw [hjobs] at hx ⊢
    rw [hgate, howed]
    rcases List.mem_or_eq_of_mem_set hx with hx | rfl
    · exact h.job x hx
    · rw [hkey]; exact hinv
  · intro key
    rw [hgate, hjobs, howed]
    exact h.count key
  · rw [hjobs]
    exact h.passed_set hjob hkey htype hfinal hpassed

/-- The points of `stumpGate.Wait` behind the lookup. -/
def Place.gated : Place → Bool
  | .found _ | .waiting _ _ | .removing => true
  | _ => false

theorem delivering_not_gated {place : Place} (h : place.delivering = true) :
    place.gated = false := by
  cases place <;> simp_all [Place.delivering, Place.gated]

theorem afterGate_delivering (msg : CallbackTopicMessage) :
    (afterGate cfg msg).delivering = true := by
  unfold afterGate
  split_ifs <;> rfl

theorem not_stump_owes {job : Job} (h : job.msg.type ≠ .stump) :
    job.owes = decide (job.exit ≠ .none) := by
  simp [Job.owes, isFirstStump, h]

/-! ### The queue -/

theorem QueueInv.of_same {s s' : State} (h : QueueInv s) (hch : s'.workCh = s.workCh)
    (hjobs : s'.jobs = s.jobs) : QueueInv s' :=
  ⟨hch ▸ h.nodup, by rw [hch, hjobs]; exact h.queued⟩

theorem QueueInv.queued_set {s : State} (h : QueueInv s) {j : ℕ} {job job' : Job}
    (hjob : s.jobs[j]? = some job) (hplace : job.place = .queued → job'.place = .queued) :
    ∀ k ∈ s.workCh, ∃ x, (s.jobs.set j job')[k]? = some x ∧ x.place = .queued := by
  intro k hk
  obtain ⟨x, hx, hq⟩ := h.queued k hk
  by_cases hjk : j = k
  · subst hjk
    rw [hjob, Option.some.injEq] at hx
    subst hx
    have hlt := (List.getElem?_eq_some_iff.1 hjob).1
    exact ⟨job', List.getElem?_set_self hlt, hplace hq⟩
  · exact ⟨x, by rw [List.getElem?_set_ne hjk]; exact hx, hq⟩

theorem Move.queued {l : Label} {g g' : StumpGate} {job job' : Job}
    (h : Move cfg l g job g' job') (hq : job.place = .queued) : job'.place = .queued := by
  cases h <;> simp_all [Place.delivering]

theorem queueInv_step {s s' : State} {l : Label} (h : QueueInv s)
    (hst : step cfg s l = some s') : QueueInv s' := by
  obtain ⟨msg, now, rfl, rfl⟩ | ⟨hjobs, hch, -⟩ | ⟨j, job, hjob, hplace, hjobs, hch, -⟩ |
    ⟨j, job, hch, hjob, hjobs, -⟩ | ⟨j, job, job', -, hjob, hjobs, hch, hmove⟩ := step_cases hst
  · -- a new job is not queued yet
    have happ : ∀ x : Job, QueueInv { s with jobs := s.jobs ++ [x] } := by
      intro x
      refine ⟨h.nodup, fun k hk => ?_⟩
      obtain ⟨y, hy, hq⟩ := h.queued k hk
      exact ⟨y, by rw [List.getElem?_append_left (List.getElem?_eq_some_iff.1 hy).1]; exact hy, hq⟩
    unfold accept
    split_ifs
    · exact happ _
    · exact (happ _).of_same rfl rfl
    · exact (happ _).of_same rfl rfl
  · exact h.of_same hch hjobs
  · -- the job that is sent was not in the queue
    have hnot : j ∉ s.workCh := by
      intro hmem
      obtain ⟨x, hx, hq⟩ := h.queued j hmem
      rw [hjob, Option.some.injEq] at hx
      subst hx
      simp [hq] at hplace
    refine ⟨?_, ?_⟩
    · rw [hch]
      exact List.nodup_append'.2 ⟨h.nodup, List.nodup_singleton _, by simpa using hnot⟩
    · rw [hch, hjobs]
      intro k hk
      rcases List.mem_append.1 hk with hk | hk
      · exact h.queued_set hjob (fun _ => rfl) k hk
      · obtain rfl := List.mem_singleton.1 hk
        exact ⟨_, List.getElem?_set_self (List.getElem?_eq_some_iff.1 hjob).1, rfl⟩
  · -- the head of the queue is taken
    have hnd := h.nodup
    rw [hch, List.nodup_cons] at hnd
    refine ⟨hnd.2, fun k hk => ?_⟩
    obtain ⟨x, hx, hq⟩ := h.queued k (hch ▸ List.mem_cons_of_mem _ hk)
    have hjk : j ≠ k := by
      rintro rfl
      exact hnd.1 hk
    exact ⟨x, by rw [hjobs, List.getElem?_set_ne hjk]; exact hx, hq⟩
  · refine ⟨hch ▸ h.nodup, ?_⟩
    rw [hch, hjobs]
    exact h.queued_set hjob hmove.queued

/-! ### Steps that touch the gate -/

theorem JobInv.of_gateJob {g g' : StumpGate} {n n' : ℕ} {job : Job} (h : JobInv g n job)
    (hgate : GateJob g' n' job) : JobInv g' n' job :=
  ⟨hgate, h.stump, h.other⟩

section

variable {g : StumpGate} {jobs : List Job} {key : String} {x : Job}

theorem GateJob.remove (hcount : ∀ key, g.pending key = owed jobs key) (hzero : owed jobs key = 0)
    (hx : x ∈ jobs) (h : GateJob g (owed jobs (gateKey x.msg)) x) :
    GateJob (g.remove key) (owed jobs (gateKey x.msg)) x := by
  obtain ⟨hsignal, hgroup, hfound, hwaiting, hreleased⟩ := h
  by_cases hkey : gateKey x.msg = key
  · -- a job of this key: it owes nothing, and is released if it is at the gate
    have hn : owed jobs (gateKey x.msg) = 0 := hkey ▸ hzero
    refine ⟨fun i hi => ?_, fun i hi => ?_, fun i hi => Or.inr ?_, fun i zeros hi => ?_,
      fun _ => hn⟩
    · have howes := owed_pos hx (by simp [Job.owes, hi])
      omega
    · refine ⟨(hgroup i hi).1, fun key' hk => (hgroup i hi).2 key' ?_⟩
      rw [StumpGate.gates_remove] at hk
      split_ifs at hk
      exact hk
    · rcases hfound i hi with hg | hc
      · have hpending := hcount (gateKey x.msg)
        rw [StumpGate.pending_of_gates hg, hn] at hpending
        exact_mod_cast hpending
      · exact hc
    · obtain ⟨hle, hlt | ⟨-, hpos⟩⟩ := hwaiting i zeros hi
      · exact ⟨hle, Or.inl hlt⟩
      · omega
  · have hgates : (g.remove key).gates (gateKey x.msg) = g.gates (gateKey x.msg) := by
      rw [StumpGate.gates_remove, if_neg hkey]
    refine ⟨fun i hi => hgates ▸ hsignal i hi, fun i hi => ?_,
      fun i hi => hgates ▸ hfound i hi, fun i zeros hi => hgates ▸ hwaiting i zeros hi,
      fun hrel => hreleased ?_⟩
    · refine ⟨(hgroup i hi).1, fun key' hk => (hgroup i hi).2 key' ?_⟩
      rw [StumpGate.gates_remove] at hk
      split_ifs at hk
      exact hk
    · unfold Released at hrel ⊢
      split at hrel
      · simp_all
      · rename_i hp
        simpa [hp, hgates] using hrel
      · rename_i hp
        simpa [hp] using hrel
      · exact hrel.elim

/-- A job of another key that is released after `wg.Done` was released before. -/
theorem Released.of_signal {i : ℕ} (hi : i < g.groups.length)
    (hother : ∀ k zeros, x.place = .waiting k zeros → k ≠ i) (hrel : Released (g.signal i) x) :
    Released g x := by
  unfold Released at hrel ⊢
  split at hrel
  · simp_all
  · rename_i hp
    simpa [hp] using hrel
  · rename_i k zeros hp
    rw [StumpGate.zeros_signal hi, if_neg fun hc => hother k zeros hp hc.1] at hrel
    simpa [hp] using hrel
  · exact hrel.elim

/-- A job that `wg.Done` releases waited for a group that is now down to zero. -/
theorem count_eq_one_of_released_signal {i : ℕ} (hi : i < g.groups.length)
    (hnot : ¬ Released g x) (hrel : Released (g.signal i) x) : g.count i = 1 := by
  unfold Released at hrel hnot
  split at hrel
  · rename_i hp
    simp [hp] at hnot
  · rename_i hp
    simp only [hp, StumpGate.gates_signal] at hrel hnot
    exact absurd hrel hnot
  · rename_i k zeros hp
    simp only [hp] at hnot
    rw [StumpGate.zeros_signal hi] at hrel
    split_ifs at hrel with hdown
    · have := hdown.2
      omega
    · exact absurd hrel hnot
  · exact hrel.elim

/-- `wg.Done` for a job of key `key`, which owed it: one less is owed for this key. -/
theorem GateJob.signal (hwf : g.WellFormed) (hcount : ∀ key, g.pending key = owed jobs key) {i : ℕ}
    (hgate : g.gates key = some i) {jobs' : List Job}
    (howed : ∀ key', owed jobs' key' + (if key' = key then 1 else 0) = owed jobs key')
    (h : GateJob g (owed jobs (gateKey x.msg)) x) :
    GateJob (g.signal i) (owed jobs' (gateKey x.msg)) x := by
  obtain ⟨hsignal, hgroup, hfound, hwaiting, hreleased⟩ := h
  have hi := hwf.lt key i hgate
  have hpending := hcount key
  rw [StumpGate.pending_of_gates hgate] at hpending
  have hx' := howed (gateKey x.msg)
  have hk := howed key
  rw [if_pos rfl] at hk
  -- a job that holds the signalled group is of this key
  have hsame : ∀ k, (x.place = .found k ∨ ∃ zeros, x.place = .waiting k zeros) → k = i →
      gateKey x.msg = key := fun k hp hki => ((hgroup k hp).2 key (hki ▸ hgate)).symm
  refine ⟨hsignal, fun k hp => ⟨by simpa [StumpGate.signal] using (hgroup k hp).1,
    (hgroup k hp).2⟩, fun k hp => ?_, fun k zeros hp => ?_, fun hrel => ?_⟩
  · by_cases hki : k = i
    · left
      rw [StumpGate.gates_signal, hsame k (Or.inl hp) hki, hgate, hki]
    · rw [StumpGate.gates_signal, StumpGate.count_signal hi, if_neg hki]
      exact hfound k hp
  · obtain ⟨hle, hor⟩ := hwaiting k zeros hp
    rw [StumpGate.zeros_signal hi, StumpGate.gates_signal]
    split_ifs with hdown
    · obtain ⟨rfl, -⟩ := hdown
      exact ⟨by omega, Or.inl (by omega)⟩
    · refine ⟨hle, hor.imp_right ?_⟩
      rintro ⟨hg, hpos⟩
      refine ⟨hg, ?_⟩
      split_ifs at hx' with hkey
      · -- still something is owed, or the group would be down to zero
        have hki : k = i := by
          rw [hkey, hgate, Option.some.injEq] at hg
          exact hg.symm
        by_contra hno
        refine hdown ⟨hki, ?_⟩
        rw [hpending]
        rw [hkey] at hno
        omega
      · omega
  · by_cases hkey : gateKey x.msg = key
    · rw [if_pos hkey] at hx'
      have hnot : ¬ Released g x := by
        intro hold
        have := hreleased hold
        omega
      -- the job is released by this very signal
      have hdown := count_eq_one_of_released_signal hi hnot hrel
      rw [hpending] at hdown
      rw [hkey] at hx' ⊢
      omega
    · rw [if_neg hkey] at hx'
      have hold := hrel.of_signal hi
        fun k zeros hp hki => hkey (hsame k (Or.inr ⟨zeros, hp⟩) hki)
      have := hreleased hold
      omega

/-- `stumpGate.Add` for a new job of key `key`, when no job of this key is released. -/
theorem GateJob.add (new : Job) (hkey : gateKey new.msg = key)
    (hreleased : gateKey x.msg = key → ¬ Released g x)
    (h : GateJob g (owed jobs (gateKey x.msg)) x) :
    GateJob (g.add key) (owed (jobs ++ [new]) (gateKey x.msg)) x := by
  obtain ⟨hsignal, hgroup, hfound, hwaiting, hrelease⟩ := h
  have hgates : ∀ i, g.gates (gateKey x.msg) = some i →
      (g.add key).gates (gateKey x.msg) = some i := by
    intro i hi
    rw [StumpGate.gates_add]
    split_ifs with hk
    · rw [← hk, hi, Option.getD_some]
    · exact hi
  -- a group that exists and is added to is the one of the key
  have hold : ∀ i, i < g.groups.length →
      (g.gates key).getD g.groups.length = i → g.gates key = some i := by
    intro i hi hget
    cases hk : g.gates key with
    | none =>
      rw [hk, Option.getD_none] at hget
      omega
    | some k =>
      rw [hk, Option.getD_some] at hget
      rw [hget]
  refine ⟨fun i hi => hgates i (hsignal i hi), fun i hi => ⟨?_, ?_⟩,
    fun i hi => ?_, fun i zeros hi => ?_, fun hrel => ?_⟩
  · exact (hgroup i hi).1.trans_le StumpGate.length_add_le
  · intro key' hk
    rw [StumpGate.gates_add] at hk
    split_ifs at hk with heq
    · exact (hgroup i hi).2 key' (heq ▸ hold i (hgroup i hi).1 (Option.some.inj hk))
    · exact (hgroup i hi).2 key' hk
  · obtain ⟨hlt, huniq⟩ := hgroup i (Or.inl hi)
    by_cases hget : (g.gates key).getD g.groups.length = i
    · have hk := hold i hlt hget
      exact Or.inl (hgates i (huniq key hk ▸ hk))
    · rw [StumpGate.count_add_of_ne hget]
      exact (hfound i hi).imp_left (hgates i)
  · obtain ⟨hle, hor⟩ := hwaiting i zeros hi
    rw [StumpGate.zeros_add]
    refine ⟨hle, hor.imp_right fun ⟨hg, hpos⟩ => ⟨hgates i hg, ?_⟩⟩
    rw [owed_append]
    omega
  · have hrel' : Released g x := by
      unfold Released at hrel ⊢
      split at hrel
      · simp_all
      · exact fun hg => hrel (hgates _ hg)
      · rename_i i zeros hp
        rw [StumpGate.zeros_add] at hrel
        simpa [hp] using hrel
      · exact hrel.elim
    have hne : gateKey new.msg ≠ gateKey x.msg := by
      intro hk
      exact hreleased (hk ▸ hkey) hrel'
    rw [owed_append, hrelease hrel', owesAt, if_neg (not_and_of_not_left _ hne)]

/-- Outside of `stumpGate.Wait` only the deferred call of a job matters. -/
theorem GateJob.of_not_gated {n : ℕ} {job : Job}
    (hsignal : ∀ i, job.exit = .signalling i → g.gates (gateKey job.msg) = some i)
    (hplace : job.place.gated = false) : GateJob g n job where
  signalling := hsignal
  group := by
    rintro i (h | ⟨zeros, h⟩) <;> simp [h, Place.gated] at hplace
  found := by
    intro i h
    simp [h, Place.gated] at hplace
  waiting := by
    intro i zeros h
    simp [h, Place.gated] at hplace
  released := by
    intro h
    unfold Released at h
    split at h <;> simp_all [Place.gated]

theorem GateJob.lookup {n i : ℕ} {job : Job} (hwf : g.WellFormed) (hexit : job.exit = .none)
    (hsome : g.gates (gateKey job.msg) = some i) : GateJob g n { job with place := .found i } := by
  refine ⟨by simp [hexit], ?_, ?_, by simp, ?_⟩
  · rintro k (hk | ⟨zeros, hk⟩)
    · obtain rfl := Place.found.inj hk
      exact ⟨hwf.lt _ _ hsome, fun key hkey => hwf.inj _ _ _ hkey hsome⟩
    · cases hk
  · intro k hk
    obtain rfl := Place.found.inj hk
    exact Or.inl hsome
  · intro hrel
    exact absurd hsome hrel

theorem GateJob.wait {n i : ℕ} {job : Job} (h : GateJob g n job) (hexit : job.exit = .none)
    (hp : job.place = .found i) (hg : g.gates (gateKey job.msg) = some i) (hn : 0 < n) :
    GateJob g n { job with place := .waiting i (g.zeros i) } := by
  refine ⟨by simp [hexit], ?_, by simp, ?_, ?_⟩
  · rintro k (hk | ⟨zeros, hk⟩)
    · cases hk
    · obtain ⟨rfl, -⟩ := Place.waiting.inj hk
      exact h.group _ (Or.inl hp)
  · intro k zeros hk
    obtain ⟨rfl, rfl⟩ := Place.waiting.inj hk
    exact ⟨le_rfl, Or.inr ⟨hg, hn⟩⟩
  · intro hrel
    exact absurd hrel (lt_irrefl _)

theorem GateJob.removing {n : ℕ} {job : Job} (hexit : job.exit = .none) (hn : n = 0) :
    GateJob g n { job with place := .removing } :=
  ⟨by simp [hexit], by simp, by simp, by simp, fun _ => hn⟩

end

/-- Outside of `stumpGate.Wait` only the deferred call of a job matters. -/
theorem JobInv.of_not_gated {g : StumpGate} {n : ℕ} {job : Job}
    (hstump : job.msg.type = .stump → job.msg.retryCount = 0 ∧
      ((job.place = .sending ∨ job.place = .queued) ∧ job.exit = .none ∨
        job.place.delivering = true ∧ job.exit = .deferred ∨
        job.place.settled = true ∧ job.exit ≠ .deferred))
    (hother : job.msg.type ≠ .stump → job.exit = .none)
    (hsignal : ∀ i, job.exit = .signalling i → g.gates (gateKey job.msg) = some i)
    (hplace : job.place.gated = false) : JobInv g n job :=
  ⟨.of_not_gated hsignal hplace, hstump, hother⟩

/-! ### The steps keep the invariant -/

theorem JobInv.ne_stump {g : StumpGate} {n : ℕ} {job : Job} (h : JobInv g n job)
    (hsend : job.place ≠ .sending) (hqueue : job.place ≠ .queued)
    (hdel : job.place.delivering = false) (hset : job.place.settled = false) :
    job.msg.type ≠ .stump := by
  intro hstump
  obtain ⟨-, ⟨hp | hp, -⟩ | ⟨hp, -⟩ | ⟨hp, -⟩⟩ := h.stump hstump
  · exact hsend hp
  · exact hqueue hp
  · simp [hdel] at hp
  · simp [hset] at hp

theorem JobInv.deferred {g : StumpGate} {n : ℕ} {job : Job} (h : JobInv g n job)
    (hdel : job.place.delivering = true) (hstump : job.msg.type = .stump) :
    job.msg.retryCount = 0 ∧ job.exit = .deferred := by
  obtain ⟨hretry, ⟨hp | hp, -⟩ | ⟨-, hexit⟩ | ⟨hp, -⟩⟩ := h.stump hstump
  · simp [hp, Place.delivering] at hdel
  · simp [hp, Place.delivering] at hdel
  · exact ⟨hretry, hexit⟩
  · cases hpl : job.place <;> simp [hpl, Place.delivering, Place.settled] at hp hdel

theorem JobInv.settled_of_running {g : StumpGate} {n : ℕ} {job : Job} (h : JobInv g n job)
    (hexit : job.exit ≠ .none) (hexit' : job.exit ≠ .deferred) :
    job.msg.type = .stump ∧ job.msg.retryCount = 0 ∧ job.place.settled = true := by
  have hstump : job.msg.type = .stump := by
    by_contra hne
    exact hexit (h.other hne)
  obtain ⟨hretry, ⟨-, he⟩ | ⟨-, he⟩ | ⟨hp, -⟩⟩ := h.stump hstump
  · exact absurd he hexit
  · exact absurd he hexit'
  · exact ⟨hstump, hretry, hp⟩

theorem settled_not_gated {place : Place} (h : place.settled = true) : place.gated = false := by
  cases place <;> simp_all [Place.settled, Place.gated]

theorem JobInv.of_other {g : StumpGate} {n : ℕ} {job : Job} (htype : job.msg.type ≠ .stump)
    (hexit : job.exit = .none) (hplace : job.place.gated = false) : JobInv g n job :=
  .of_not_gated (fun hstump => absurd hstump htype) (fun _ => hexit)
    (fun i hi => by simp [hexit] at hi) hplace

/-- A step of a job that is no STUMP, outside of `stumpGate.Wait` and not across the gate. -/
theorem OrderInv.of_other {s s' : State} (h : OrderInv s) {j : ℕ} {job job' : Job}
    (hqueue : QueueInv s') (hjob : s.jobs[j]? = some job) (hjobs : s'.jobs = s.jobs.set j job')
    (hgate : s'.gate = s.gate) (hkey : gateKey job'.msg = gateKey job.msg)
    (htype : job'.msg.type = job.msg.type) (hne : job.msg.type ≠ .stump)
    (hexit : job'.exit = .none) (hplace : job'.place.gated = false)
    (hpassed : job'.place.delivering = true → job.msg.type = .blockProcessed →
      job.place.delivering = true ∨ owed s.jobs (gateKey job.msg) = 0) : OrderInv s' := by
  have hold := (h.job job (List.mem_of_getElem? hjob)).other hne
  refine h.of_quiet hqueue hjob hjobs hgate hkey htype ?_ (.of_other (htype ▸ hne) hexit hplace)
    (fun hstump => absurd hstump hne) hpassed
  rw [not_stump_owes hne, not_stump_owes (htype ▸ hne), hold, hexit]

theorem OrderInv.gateRemove {s s' : State} (h : OrderInv s) {j : ℕ} {job : Job}
    (hqueue : QueueInv s') (hjob : s.jobs[j]? = some job) (hplace : job.place = .removing)
    (hjobs : s'.jobs = s.jobs.set j { job with place := afterGate cfg job.msg })
    (hgate : s'.gate = s.gate.remove (gateKey job.msg)) : OrderInv s' := by
  have hmem := List.mem_of_getElem? hjob
  have hinv := h.job job hmem
  have hne := hinv.ne_stump (by simp [hplace]) (by simp [hplace])
    (by simp [hplace, Place.delivering]) (by simp [hplace, Place.settled])
  have hzero : owed s.jobs (gateKey job.msg) = 0 := hinv.released (by simp [Released, hplace])
  have howed : ∀ key, owed (s.jobs.set j { job with place := afterGate cfg job.msg }) key =
      owed s.jobs key :=
    owed_set_same hjob rfl (by simp [Job.owes, isFirstStump, hne])
  refine ⟨hqueue, hgate ▸ h.wf.remove, ?_, ?_, ?_⟩
  · intro x hx
    rw [hjobs] at hx ⊢
    rw [hgate, howed]
    rcases List.mem_or_eq_of_mem_set hx with hx | rfl
    · exact (h.job x hx).of_gateJob ((h.job x hx).toGateJob.remove h.count hzero hx)
    · exact .of_other hne (hinv.other hne) (delivering_not_gated (afterGate_delivering _))
  · intro key
    rw [hgate, hjobs, howed, StumpGate.pending_remove]
    split_ifs with hkey
    · rw [hkey, hzero]; rfl
    · exact h.count key
  · rw [hjobs]
    exact h.passed_set hjob rfl rfl (fun hstump => absurd hstump hne) fun _ _ => Or.inr hzero

theorem OrderInv.doneSignal {s s' : State} (h : OrderInv s) {j i : ℕ} {job : Job}
    (hqueue : QueueInv s') (hjob : s.jobs[j]? = some job) (hexit : job.exit = .signalling i)
    (hjobs : s'.jobs = s.jobs.set j { job with exit := .none })
    (hgate : s'.gate = s.gate.signal i) : OrderInv s' := by
  have hmem := List.mem_of_getElem? hjob
  have hinv := h.job job hmem
  obtain ⟨hstump, hretry, hset⟩ := hinv.settled_of_running (by simp [hexit]) (by simp [hexit])
  have hgates := hinv.signalling i hexit
  have howes : job.owes = true := by simp [Job.owes, hexit]
  have hnot : ({ job with exit := .none } : Job).owes = false := by
    cases hp : job.place <;> simp [hp, Place.settled] at hset
    simp [Job.owes]
  have howed : ∀ key, owed s'.jobs key + (if key = gateKey job.msg then 1 else 0) =
      owed s.jobs key := by
    intro key
    have hset := owed_set hjob { job with exit := .none } key
    simp only [owesAt, howes, hnot, and_true, and_false, if_false, Bool.false_eq_true] at hset
    rw [hjobs]
    simpa [eq_comm] using hset
  refine ⟨hqueue, hgate ▸ h.wf.signal, ?_, ?_, ?_⟩
  · intro x hx
    rw [hjobs] at hx
    rw [hgate]
    rcases List.mem_or_eq_of_mem_set hx with hx | rfl
    · exact (h.job x hx).of_gateJob ((h.job x hx).toGateJob.signal h.wf h.count hgates howed)
    · exact .of_not_gated (fun _ => ⟨hretry, Or.inr (Or.inr ⟨hset, by simp⟩)⟩) (fun _ => rfl)
        (by simp) (settled_not_gated hset)
  · intro key
    rw [hgate, StumpGate.pending_signal h.wf hgates, h.count key, ← howed key]
    split_ifs <;> simp
  · rw [hjobs]
    refine h.passed_set hjob rfl rfl (fun _ hs => hs) fun hdel hbp => ?_
    simp [hstump] at hbp

theorem JobInv.of_gated {g : StumpGate} {n : ℕ} {job : Job} (hne : job.msg.type ≠ .stump)
    (hexit : job.exit = .none) (hgate : GateJob g n job) : JobInv g n job :=
  ⟨hgate, fun hstump => absurd hstump hne, fun _ => hexit⟩

theorem OrderInv.gateWait {s s' : State} (h : OrderInv s) {j : ℕ} {job : Job} {place : Place}
    (hqueue : QueueInv s') (hjob : s.jobs[j]? = some job)
    (hjobs : s'.jobs = s.jobs.set j { job with place := place }) (hgate : s'.gate = s.gate)
    (hne : job.msg.type ≠ .stump) (hdel : place.delivering = false)
    (hinv : JobInv s.gate (owed s.jobs (gateKey job.msg)) { job with place := place }) :
    OrderInv s' := by
  refine h.of_quiet hqueue hjob hjobs hgate rfl rfl ?_ hinv (fun hstump => absurd hstump hne) ?_
  · simp [Job.owes, isFirstStump, hne]
  · intro hd
    simp [hdel] at hd

theorem OrderInv.leave {s s' : State} (h : OrderInv s) {j : ℕ} {job : Job} {o : Outcome}
    (hqueue : QueueInv s') (hjob : s.jobs[j]? = some job)
    (hjobs : s'.jobs = s.jobs.set j (job.leave (.final o))) (hgate : s'.gate = s.gate)
    (hplace : job.place.delivering = true) (hdrop : o ≠ .dropped)
    (hlost : job.msg.type = .stump → o ≠ .lost) : OrderInv s' := by
  have hinv := h.job job (List.mem_of_getElem? hjob)
  by_cases hstump : job.msg.type = .stump
  · obtain ⟨hretry, hexit⟩ := hinv.deferred hplace hstump
    have hleave : job.leave (.final o) = { job with place := .final o, exit := .pending } := by
      simp [Job.leave, hexit]
    have hset : Place.settled (.final o) = true := by
      have := hlost hstump
      cases o <;> simp_all [Place.settled]
    rw [hleave] at hjobs
    refine h.of_quiet hqueue hjob hjobs hgate rfl rfl ?_ ?_ (fun _ _ => hset) ?_
    · simp [Job.owes, hexit]
    · exact .of_not_gated (fun _ => ⟨hretry, Or.inr (Or.inr ⟨hset, by simp⟩)⟩)
        (fun hne => absurd hstump hne) (by simp) rfl
    · intro hd
      simp [Place.delivering] at hd
  · have hexit := hinv.other hstump
    refine h.of_other hqueue hjob hjobs hgate rfl rfl hstump ?_ rfl ?_
    · simp [Job.leave, hexit]
    · intro hd
      simp [Job.leave, Place.delivering] at hd

theorem OrderInv.move {s s' : State} {l : Label} (h : OrderInv s) {j : ℕ} {job job' : Job}
    (hqueue : QueueInv s') (hjob : s.jobs[j]? = some job) (hjobs : s'.jobs = s.jobs.set j job')
    (hmove : Move cfg l s.gate job s'.gate job')
    (hok : job.msg.type = .stump → retries cfg job.msg l = false ∧ loses job.place l = false) :
    OrderInv s' := by
  have hmem := List.mem_of_getElem? hjob
  have hinv := h.job job hmem
  -- a job at the gate or in a timer is no STUMP
  have hother : ∀ place : Place, job.place = place → place ≠ .sending → place ≠ .queued →
      place.delivering = false → place.settled = false →
      job.msg.type ≠ .stump ∧ job.exit = .none := by
    rintro place rfl h₁ h₂ h₃ h₄
    have hne := hinv.ne_stump h₁ h₂ h₃ h₄
    exact ⟨hne, hinv.other hne⟩
  generalize hgate : s'.gate = g' at hmove
  cases hmove with
  | lookup_none hp hnone =>
    obtain ⟨hne, hexit⟩ := hother _ hp (by simp) (by simp) rfl rfl
    refine h.of_other hqueue hjob hjobs hgate rfl rfl hne hexit
      (delivering_not_gated (afterGate_delivering _)) fun _ _ => Or.inr ?_
    have hcount := h.count (gateKey job.msg)
    simp only [StumpGate.pending, hnone] at hcount
    omega
  | lookup_some hp hsome =>
    obtain ⟨hne, hexit⟩ := hother _ hp (by simp) (by simp) rfl rfl
    exact h.gateWait hqueue hjob hjobs hgate hne rfl
      (.of_gated hne hexit (.lookup h.wf hexit hsome))
  | @wait_zero i hp hzero =>
    obtain ⟨hne, hexit⟩ := hother _ hp (by simp) (by simp) rfl rfl
    refine h.gateWait hqueue hjob hjobs hgate hne rfl (.of_gated hne hexit (.removing hexit ?_))
    by_cases hg : s.gate.gates (gateKey job.msg) = some i
    · have hcount := h.count (gateKey job.msg)
      rw [StumpGate.pending_of_gates hg, hzero] at hcount
      exact_mod_cast hcount.symm
    · exact hinv.released (by simpa [Released, hp] using hg)
  | wait hp hpos =>
    obtain ⟨hne, hexit⟩ := hother _ hp (by simp) (by simp) rfl rfl
    have hg := (hinv.found _ hp).resolve_right hpos
    have hcount := h.count (gateKey job.msg)
    rw [StumpGate.pending_of_gates hg] at hcount
    exact h.gateWait hqueue hjob hjobs hgate hne rfl
      (.of_gated hne hexit (hinv.toGateJob.wait hexit hp hg (by omega)))
  | wake hp hlt =>
    obtain ⟨hne, hexit⟩ := hother _ hp (by simp) (by simp) rfl rfl
    refine h.gateWait hqueue hjob hjobs hgate hne rfl
      (.of_gated hne hexit (.removing hexit (hinv.released ?_)))
    simpa [Released, hp] using hlt
  | remove hp => exact h.gateRemove hqueue hjob hp hjobs hgate
  | deliver hp hp' =>
    by_cases hstump : job.msg.type = .stump
    · obtain ⟨hretry, hexit⟩ := hinv.deferred hp hstump
      refine h.of_quiet hqueue hjob hjobs hgate rfl rfl (by simp [Job.owes, hexit])
        (.of_not_gated (fun _ => ⟨hretry, Or.inr (Or.inl ⟨hp', hexit⟩)⟩)
          (fun hne => absurd hstump hne) (fun i hi => by simp [hexit] at hi)
          (delivering_not_gated hp')) (fun _ hset => ?_) fun _ _ => Or.inl hp
      cases hpl : job.place <;> simp [hpl, Place.delivering, Place.settled] at hp hset
    · exact h.of_other hqueue hjob hjobs hgate rfl rfl hstump (hinv.other hstump)
        (delivering_not_gated hp') fun _ _ => Or.inl hp
  | finish o hp hdrop hlost =>
    refine h.leave hqueue hjob hjobs hgate hp hdrop fun hstump ho => ?_
    simpa [(hok hstump).2] using hlost ho
  | drop hp =>
    obtain ⟨hne, hexit⟩ := hother _ hp (by simp) (by simp) rfl rfl
    exact h.of_other hqueue hjob hjobs hgate rfl rfl hne (by simp [Job.leave, hexit]) rfl
      (by simp [Job.leave, Place.delivering])
  | retry nextRetryAt hp hretry =>
    have hne : job.msg.type ≠ .stump := by
      intro hstump
      simp [(hok hstump).1] at hretry
    exact h.of_other hqueue hjob hjobs hgate rfl rfl hne (hinv.other hne) rfl
      (by simp [Place.delivering])
  | schedule hp =>
    obtain ⟨hne, hexit⟩ := hother _ hp (by simp) (by simp) rfl rfl
    exact h.of_other hqueue hjob hjobs hgate rfl rfl hne hexit rfl (by simp [Place.delivering])
  | park hp =>
    obtain ⟨hne, hexit⟩ := hother _ hp (by simp) (by simp) rfl rfl
    exact h.of_other hqueue hjob hjobs hgate rfl rfl hne (by simp [Job.leave, hexit]) rfl
      (by simp [Job.leave, Place.delivering])
  | timer hp hp' =>
    obtain ⟨hne, hexit⟩ : job.msg.type ≠ .stump ∧ job.exit = .none := by
      rcases hp with hp | hp | hp | hp <;> exact hother _ hp (by simp) (by simp) rfl rfl
    refine h.of_other hqueue hjob hjobs hgate rfl rfl hne hexit ?_ ?_
    · rcases hp' with rfl | rfl | rfl <;> rfl
    · rcases hp' with rfl | rfl | rfl <;> simp [Place.delivering]
  | done_none hexit hnone =>
    -- the entry is there, since the job owes its `Done`
    have hpos := owed_pos hmem (by simp [Job.owes, hexit])
    have hcount := h.count (gateKey job.msg)
    simp only [StumpGate.pending, hnone] at hcount
    omega
  | done_some hexit hsome =>
    obtain ⟨hstump, hretry, hset⟩ := hinv.settled_of_running (by simp [hexit]) (by simp [hexit])
    refine h.of_quiet hqueue hjob hjobs hgate rfl rfl (by simp [Job.owes, hexit])
      (.of_not_gated (fun _ => ⟨hretry, Or.inr (Or.inr ⟨hset, by simp⟩)⟩)
        (fun hne => absurd hstump hne) (fun i hi => ?_) (settled_not_gated hset))
      (fun _ hs => hs) fun _ hbp => ?_
    · obtain rfl := Exit.signalling.inj hi
      exact hsome
    · simp [hstump] at hbp
  | signal hexit => exact h.doneSignal hqueue hjob hexit hjobs hgate

theorem OrderInv.send {s s' : State} (h : OrderInv s) {j : ℕ} {job : Job}
    (hqueue : QueueInv s') (hjob : s.jobs[j]? = some job)
    (hplace : job.place = .sending ∨ job.place = .firing)
    (hjobs : s'.jobs = s.jobs.set j { job with place := .queued }) (hgate : s'.gate = s.gate) :
    OrderInv s' := by
  have hinv := h.job job (List.mem_of_getElem? hjob)
  by_cases hstump : job.msg.type = .stump
  · -- a STUMP is not in a timer
    have hsend : job.place = .sending := by
      refine hplace.resolve_right fun hp => ?_
      exact hinv.ne_stump (by simp [hp]) (by simp [hp]) (by simp [hp, Place.delivering])
        (by simp [hp, Place.settled]) hstump
    obtain ⟨hretry, ⟨-, hexit⟩ | ⟨hp, -⟩ | ⟨hp, -⟩⟩ := hinv.stump hstump
    · refine h.of_quiet hqueue hjob hjobs hgate rfl rfl (by simp [Job.owes, hsend])
        (.of_not_gated (fun _ => ⟨hretry, Or.inl ⟨Or.inr rfl, hexit⟩⟩)
          (fun hne => absurd hstump hne) (fun i hi => by simp [hexit] at hi) rfl) ?_ ?_
      · intro _ hs
        simp [hsend, Place.settled] at hs
      · intro hd
        simp [Place.delivering] at hd
    · simp [hsend, Place.delivering] at hp
    · simp [hsend, Place.settled] at hp
  · exact h.of_other hqueue hjob hjobs hgate rfl rfl hstump (hinv.other hstump) rfl
      (by simp [Place.delivering])

theorem OrderInv.take {s s' : State} (h : OrderInv s) {j : ℕ} {job : Job}
    (hqueue : QueueInv s') (hjob : s.jobs[j]? = some job) (hplace : job.place = .queued)
    (hjobs : s'.jobs = s.jobs.set j (job.enter cfg)) (hgate : s'.gate = s.gate) :
    OrderInv s' := by
  have hinv := h.job job (List.mem_of_getElem? hjob)
  by_cases hstump : job.msg.type = .stump
  · obtain ⟨hretry, -⟩ := hinv.stump hstump
    have hfirst : isFirstStump job.msg = true := by simp [isFirstStump, hstump, hretry]
    have henter : job.enter cfg =
      { job with place := afterGate cfg job.msg, exit := .deferred } := by
      simp [Job.enter, hstump, hfirst]
    have hdel : (afterGate cfg job.msg).delivering = true := afterGate_delivering _
    rw [henter] at hjobs
    refine h.of_quiet hqueue hjob hjobs hgate rfl rfl (by simp [Job.owes, hplace, hfirst])
      (.of_not_gated (fun _ => ⟨hretry, Or.inr (Or.inl ⟨hdel, rfl⟩)⟩)
        (fun hne => absurd hstump hne) (by simp) (delivering_not_gated hdel)) ?_ ?_
    · intro _ hs
      simp [hplace, Place.settled] at hs
    · intro _ hbp
      simp [hstump] at hbp
  · have hfirst : isFirstStump job.msg = false := by simp [isFirstStump, hstump]
    refine h.of_other hqueue hjob hjobs hgate rfl rfl hstump ?_ ?_ ?_
    · simpa [Job.enter, hfirst] using hinv.other hstump
    · by_cases hbp : job.msg.type = .blockProcessed
      · simp [Job.enter, hbp, Place.gated]
      · simpa [Job.enter, hbp] using delivering_not_gated (afterGate_delivering _)
    · -- BLOCK_PROCESSED goes to the gate first
      intro hd hbp
      simp [Job.enter, hbp, Place.delivering] at hd

theorem OrderInv.passed_append {s : State} (h : OrderInv s) {new : Job}
    (hdel : new.place.delivering = false) :
    ∀ (k : ℕ) (x : Job), (s.jobs ++ [new])[k]? = some x → x.msg.type = .blockProcessed →
      x.place.delivering = true → ∀ (i : ℕ) (y : Job), i < k → (s.jobs ++ [new])[i]? = some y →
      y.msg.type = .stump → gateKey y.msg = gateKey x.msg → y.place.settled = true := by
  intro k x hx hbp hd i y hik hy
  rcases Nat.lt_or_ge k s.jobs.length with hk | hk
  · rw [List.getElem?_append_left hk] at hx
    rw [List.getElem?_append_left (hik.trans hk)] at hy
    exact h.passed k x hx hbp hd i y hik hy
  · obtain rfl : x = new := by
      rw [List.getElem?_append_right hk, List.getElem?_singleton] at hx
      split_ifs at hx
      exact (Option.some.inj hx).symm
    simp [hdel] at hd

theorem OrderInv.append {s s' : State} (h : OrderInv s) (hqueue : QueueInv s') (new : Job)
    (hne : new.msg.type ≠ .stump) (hexit : new.exit = .none)
    (hplace : new.place = .sending ∨ new.place = .scheduling false)
    (hjobs : s'.jobs = s.jobs ++ [new]) (hgate : s'.gate = s.gate) : OrderInv s' := by
  have howed : ∀ key, owed s'.jobs key = owed s.jobs key := by
    intro key
    simp [hjobs, owed_append, owesAt, not_stump_owes hne, hexit]
  refine ⟨hqueue, hgate ▸ h.wf, ?_, ?_, ?_⟩
  · intro x hx
    rw [howed, hgate]
    rw [hjobs, List.mem_append, List.mem_singleton] at hx
    rcases hx with hx | rfl
    · exact h.job x hx
    · exact .of_other hne hexit (by rcases hplace with hp | hp <;> rw [hp] <;> rfl)
  · intro key
    rw [howed, hgate]
    exact h.count key
  · rw [hjobs]
    exact h.passed_append (by rcases hplace with hp | hp <;> rw [hp] <;> rfl)

theorem OrderInv.appendStump {s s' : State} (h : OrderInv s) (hqueue : QueueInv s')
    {msg : CallbackTopicMessage} (hstump : msg.type = .stump) (hretry : msg.retryCount = 0)
    (hreleased : ∀ x ∈ s.jobs, gateKey x.msg = gateKey msg → ¬ Released s.gate x)
    (hjobs : s'.jobs = s.jobs ++ [{ msg := msg, place := .sending }])
    (hgate : s'.gate = s.gate.add (gateKey msg)) : OrderInv s' := by
  have howes : ({ msg := msg, place := .sending } : Job).owes = true := by
    simp [Job.owes, isFirstStump, hstump, hretry]
  refine ⟨hqueue, hgate ▸ h.wf.add, ?_, ?_, ?_⟩
  · intro x hx
    rw [hjobs, List.mem_append, List.mem_singleton] at hx
    rw [hjobs, hgate]
    rcases hx with hx | rfl
    · exact (h.job x hx).of_gateJob
        ((h.job x hx).toGateJob.add ⟨msg, .sending, .none⟩ rfl (hreleased x hx))
    · exact .of_not_gated (fun _ => ⟨hretry, Or.inl ⟨Or.inl rfl, rfl⟩⟩)
        (fun hne => absurd hstump hne) (by simp) rfl
  · intro key
    rw [hjobs, hgate, StumpGate.pending_add h.wf, owed_append, h.count key]
    simp [owesAt, howes, eq_comm]
  · rw [hjobs]
    exact h.passed_append rfl

theorem orderInv_init : OrderInv init where
  queue := ⟨List.nodup_nil, by simp [init]⟩
  wf := StumpGate.wellFormed_empty
  job := by simp [init]
  count := fun _ => rfl
  passed := by simp [init]

/-- **The invariant is kept by the steps in order.** -/
theorem orderInv_step {s s' : State} {l : Label} (h : OrderInv s) (hok : InOrder cfg s l)
    (hst : step cfg s l = some s') : OrderInv s' := by
  have hqueue := queueInv_step h.queue hst
  obtain ⟨msg, now, rfl, rfl⟩ | ⟨hjobs, hch, hgate⟩ | ⟨j, job, hjob, hplace, hjobs, hch, hgate⟩ |
    ⟨j, job, hch, hjob, hjobs, hgate⟩ | ⟨j, job, job', hl, hjob, hjobs, hch, hmove⟩ :=
      step_cases hst
  · by_cases hstump : msg.type = .stump
    · obtain ⟨hretry, hnow, hreleased⟩ := hok hstump
      refine h.appendStump hqueue hstump hretry hreleased ?_ ?_
      · simp [accept, hnow]
      · simp [accept, hnow, isFirstStump, hstump, hretry]
    · have hfirst : isFirstStump msg = false := by simp [isFirstStump, hstump]
      by_cases hnow : msg.nextRetryAt.any (now < ·) = true
      · exact h.append hqueue { msg := msg, place := .scheduling false } hstump rfl
          (Or.inr rfl) (by simp [accept, hnow]) (by simp [accept, hnow])
      · exact h.append hqueue { msg := msg, place := .sending } hstump rfl
          (Or.inl rfl) (by simp [accept, hnow]) (by simp [accept, hnow, hfirst])
  · refine ⟨hqueue, hgate ▸ h.wf, ?_, ?_, ?_⟩
    · rw [hjobs, hgate]
      exact h.job
    · rw [hjobs, hgate]
      exact h.count
    · rw [hjobs]
      exact h.passed
  · exact h.send hqueue hjob hplace hjobs hgate
  · obtain ⟨x, hx, hp⟩ := h.queue.queued j (hch ▸ List.mem_cons_self)
    rw [hjob, Option.some.injEq] at hx
    exact h.take hqueue hjob (hx ▸ hp) hjobs hgate
  · refine h.move hqueue hjob hjobs hmove fun hstump => ?_
    cases l with
    | accept => cases hl
    | _ => exact hok j job hl hjob hstump

/-! ### The order of deliveries -/

/-- **The gate orders the deliveries.**  In a run in which STUMPs are accepted for their first
attempt, and not while a BLOCK_PROCESSED of the pair is leaving the gate, no delivery of a STUMP
fails in a way that is retried, and none is lost on the way to the DLQ: when the HTTP POST of a
BLOCK_PROCESSED has started, every STUMP of the same block and URL that was accepted before it has
been delivered, skipped as a duplicate, or published to the DLQ. -/
theorem blockProcessed_after_stumps {s : State} (h : (machine cfg).Run (InOrder cfg) init s)
    {j : ℕ} {job : Job} (hjob : s.jobs[j]? = some job) (htype : job.msg.type = .blockProcessed)
    (hplace : job.place = .posting) {i : ℕ} {stump : Job} (hi : i < j)
    (hstump : s.jobs[i]? = some stump) (hstumpType : stump.msg.type = .stump)
    (hblock : stump.msg.blockHash = job.msg.blockHash)
    (hurl : stump.msg.callbackURL = job.msg.callbackURL) : stump.place.settled = true := by
  have hinv : OrderInv s := h.invariant orderInv_init fun _ _ _ hs hok hst =>
    orderInv_step hs hok hst
  refine hinv.passed j job hjob htype ?_ i stump hi hstump hstumpType ?_
  · rw [hplace]
    rfl
  · rw [gateKey, gateKey, hblock, hurl]

/-- Two workers, three retries, and no dedup store. -/
def twoWorkers : Config := ⟨2, 4, 3, 1, false, true, fun _ => []⟩

def stumpMessage : CallbackTopicMessage := { callbackURL := "u", type := .stump, blockHash := "b" }

def processedMessage : CallbackTopicMessage :=
  { callbackURL := "u", type := .blockProcessed, blockHash := "b" }

/-- The steps that neither accept a message nor can fail. -/
def Label.quiet : Label → Bool
  | .accept _ _ | .dedupCheck _ _ _ | .prepare _ _ _ _ | .post _ _ _ | .publishDLQ _ _ => false
  | _ => true

theorem inOrder_of_quiet {s : State} {l : Label} (h : l.quiet = true) : InOrder cfg s l := by
  have hretries : ∀ msg, retries cfg msg l = false := by
    intro msg
    cases l <;> first | rfl | simp [Label.quiet] at h
  have hloses : ∀ place, loses place l = false := by
    intro place
    cases l <;> first | (cases place <;> rfl) | simp [Label.quiet] at h
  cases l with
  | accept msg now => simp [Label.quiet] at h
  | _ => exact fun _ job _ _ _ => ⟨hretries job.msg, hloses job.place⟩

/-- BLOCK_PROCESSED waits at the gate until the STUMP has been delivered. -/
theorem blockProcessed_after_one_stump :
    ∃ s, (machine twoWorkers).Run (InOrder twoWorkers) init s ∧
      s.jobs[1]?.map Job.place = some .posting ∧
      ∃ stump, s.jobs[0]? = some stump ∧ stump.place.settled = true := by
  have h₁ : (machine twoWorkers).Run (InOrder twoWorkers) init _ :=
    LTS.Run.start.next (l := .accept stumpMessage 0) (fun _ => ⟨rfl, rfl, by simp [init]⟩) rfl
  have h₂ := h₁.next (l := .accept processedMessage 0) (by rintro ⟨⟩) rfl
  have h₃ := h₂.next (l := .send 0) (inOrder_of_quiet rfl) rfl
  have h₄ := h₃.next (l := .send 1) (inOrder_of_quiet rfl) rfl
  have h₅ := h₄.next (l := .take) (inOrder_of_quiet rfl) rfl
  have h₆ := h₅.next (l := .take) (inOrder_of_quiet rfl) rfl
  have h₇ := h₆.next (l := .gateLookup 1) (inOrder_of_quiet rfl) rfl
  have h₈ := h₇.next (l := .gateWait 1) (inOrder_of_quiet rfl) rfl
  have h₉ := h₈.next (l := .prepare 0 0 .notFound none) (by rintro _ _ ⟨⟩ ⟨⟩ -; decide) rfl
  have h₁₀ := h₉.next (l := .post 0 0 (.status 200)) (by rintro _ _ ⟨⟩ ⟨⟩ -; decide) rfl
  have h₁₁ := h₁₀.next (l := .doneLookup 0) (inOrder_of_quiet rfl) rfl
  have h₁₂ := h₁₁.next (l := .doneSignal 0) (inOrder_of_quiet rfl) rfl
  have h₁₃ := h₁₂.next (l := .gateWake 1) (inOrder_of_quiet rfl) rfl
  have h₁₄ := h₁₃.next (l := .gateRemove 1) (inOrder_of_quiet rfl) rfl
  have h₁₅ := h₁₄.next (l := .prepare 1 0 .notFound none) (by rintro _ _ ⟨⟩ ⟨⟩ ⟨⟩) rfl
  exact ⟨_, h₁₅, rfl, _, rfl,
    blockProcessed_after_stumps h₁₅ (j := 1) rfl rfl rfl (i := 0) Nat.one_pos rfl rfl rfl rfl⟩

/-- The first attempt to deliver the STUMP fails; while it waits in its timer, BLOCK_PROCESSED
passes the gate and is posted. -/
theorem blockProcessed_before_stump :
    ¬ ∀ cfg s, (machine cfg).Run (fun _ l => l ≠ .stop) init s → ∀ (j : ℕ) (job : Job),
      s.jobs[j]? = some job → job.msg.type = .blockProcessed → job.place = .posting →
      ∀ (i : ℕ) (stump : Job), i < j → s.jobs[i]? = some stump → stump.msg.type = .stump →
      stump.msg.blockHash = job.msg.blockHash → stump.msg.callbackURL = job.msg.callbackURL →
      stump.place.settled = true := by
  intro hall
  have h₁ : (machine twoWorkers).Run (fun _ l => l ≠ .stop) init _ :=
    LTS.Run.start.next (l := .accept stumpMessage 0) nofun rfl
  have h₂ := h₁.next (l := .send 0) nofun rfl
  have h₃ := h₂.next (l := .take) nofun rfl
  have h₄ := h₃.next (l := .prepare 0 0 .notFound none) nofun rfl
  have h₅ := h₄.next (l := .post 0 0 (.status 503)) nofun rfl
  have h₆ := h₅.next (l := .schedule 0) nofun rfl
  have h₇ := h₆.next (l := .park 0) nofun rfl
  have h₈ := h₇.next (l := .doneLookup 0) nofun rfl
  have h₉ := h₈.next (l := .doneSignal 0) nofun rfl
  have h₁₀ := h₉.next (l := .accept processedMessage 0) nofun rfl
  have h₁₁ := h₁₀.next (l := .send 1) nofun rfl
  have h₁₂ := h₁₁.next (l := .take) nofun rfl
  have h₁₃ := h₁₂.next (l := .gateLookup 1) nofun rfl
  have h₁₄ := h₁₃.next (l := .gateWait 1) nofun rfl
  have h₁₅ := h₁₄.next (l := .gateRemove 1) nofun rfl
  have h₁₆ := h₁₅.next (l := .prepare 1 0 .notFound none) nofun rfl
  have hsettled := hall _ _ h₁₆ 1 _ rfl rfl rfl 0 _ Nat.one_pos rfl rfl rfl rfl
  exact absurd hsettled (by decide)

end Callback

end MerkleService
