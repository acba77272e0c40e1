import MerkleService.Callback.Conservation

/-!
# The retry budget

A delivery that fails is repeated at most `MaxRetries` times: `processDelivery` compares
`RetryCount` with `MaxRetries` before it schedules a retry.  When the dedup check fails it schedules
the retry without the comparison.

One message is followed through the machine of the service, together with the number of passes
through `processDelivery` that it has made (`Ledger`).

* `Place.spent` : whether the pass that `RetryCount` does not count yet has been begun; a pass
  either goes on, ends the message or raises `RetryCount`.
* `Budgeted` : the invariant, of the runs in which the dedup check fails only within the budget.
* `retry_budget_iff` : **the budget bounds the retries and the passes if and only if the dedup check
  of the message never fails when its budget is used up**.
* `retry_over_budget` : a budget of no retries, and a dedup store that is down.
-/

namespace MerkleService

namespace Callback

open Kafka

/-- What has happened to the message. -/
structure Ledger where
  /-- The passes through `processDelivery` that have been begun. -/
  passes : ℕ := 0
  /-- The DLQ has refused it. -/
  refused : Bool := false
  deriving DecidableEq

/-- The step `l` from `s` is written down in the ledger of job `j`. -/
def Ledger.update (j : ℕ) (s : State) : Label → Ledger → Ledger
  | .take, b => if s.workCh.head? = some j then { b with passes := b.passes + 1 } else b
  | .publishDLQ k false, b => if k = j then { b with refused := true } else b
  | _, b => b

/-- The service, with the ledger of job `j`. -/
def ledgered (cfg : Config) (j : ℕ) : LTS (State × Ledger) Label :=
  (machine cfg).withHistory (Ledger.update j)

/-- The message is delivered, skipped as a duplicate or sent to the DLQ, which may refuse it. -/
def Place.finished (refused : Bool) : Place → Bool
  | .final .delivered | .final .skipped | .final .deadLettered => true
  | .final .lost => refused
  | _ => false

/-- `RetryCount` is at most `MaxRetries` and has not wrapped around, and after `MaxRetries + 1`
passes, the last of which may go on, the message is done with. -/
def WithinBudget (cfg : Config) (j : ℕ) (p : State × Ledger) : Prop :=
  ∀ job, p.1.jobs[j]? = some job →
    0 ≤ job.msg.retryCount ∧ job.msg.retryCount ≤ cfg.maxRetries ∧
    p.2.passes ≤ cfg.maxRetries.toInt + 1 ∧
    (p.2.passes = cfg.maxRetries.toInt + 1 →
      job.place.inHand = true ∨ job.place.finished p.2.refused = true)

/-- The dedup check of job `j` fails only when it has a retry left. -/
def ChecksInBudget (cfg : Config) (j : ℕ) (p : State × Ledger) : Label → Prop
  | .dedupCheck k _ (.error _) =>
    k = j → ∀ job, p.1.jobs[j]? = some job → job.msg.retryCount < cfg.maxRetries
  | _ => True

/-! ### A pass -/

/-- The message is in a pass that has not failed, or done with. -/
def Place.spent : Place → ℕ
  | .gating | .found _ | .waiting _ _ | .removing | .checking | .preparing | .posting | .recording
  | .publishing _ => 1
  | .final .dropped => 0
  | .final _ => 1
  | _ => 0

theorem spent_of_delivering {place : Place} (h : place.delivering = true) : place.spent = 1 := by
  cases place <;> first | rfl | cases h

variable {cfg : Config}

theorem spent_afterGate (msg : CallbackTopicMessage) : (afterGate cfg msg).spent = 1 := by
  unfold afterGate
  split_ifs <;> rfl

theorem spent_enter (job : Job) : (job.enter cfg).place.spent = 1 := by
  unfold Job.enter
  dsimp only
  split_ifs
  · rfl
  · exact spent_afterGate _

/-- What a step of a job does to its budget. -/
structure Paid (cfg : Config) (l : Label) (job job' : Job) : Prop where
  /-- A failed pass is counted. -/
  counted : job'.msg.retryCount = job.msg.retryCount ∧ job'.place.spent = job.place.spent ∨
    job'.msg.retryCount = job.msg.retryCount + 1 ∧ job'.place.spent + 1 = job.place.spent ∧
      retries cfg job.msg l = true
  lost : job'.place = .final .lost → job.place = .final .lost ∨ loses job.place l = true

theorem Paid.place {l : Label} {job job' : Job} (hmsg : job'.msg = job.msg)
    (hspent : job'.place.spent = job.place.spent)
    (hlost : job'.place = .final .lost → job.place = .final .lost ∨ loses job.place l = true) :
    Paid cfg l job job' where
  counted := Or.inl ⟨by rw [hmsg], hspent⟩
  lost := hlost

theorem Move.paid {l : Label} {g g' : StumpGate} {job job' : Job}
    (h : Move cfg l g job g' job') : Paid cfg l job job' := by
  have hgate : ∀ {msg}, afterGate cfg msg ≠ .final .lost := by
    intro msg
    unfold afterGate
    split_ifs <;> nofun
  cases h with
  | lookup_none hp | remove hp =>
    refine .place rfl ?_ fun h => absurd h hgate
    rw [hp]
    exact spent_afterGate _
  | lookup_some hp | wait_zero hp | wait hp | wake hp =>
    refine .place rfl ?_ nofun
    rw [hp]
    rfl
  | deliver hp hp' =>
    refine .place rfl (by rw [spent_of_delivering hp, spent_of_delivering hp']) ?_
    rintro rfl
    cases hp'
  | finish o hp ho hlost =>
    refine .place rfl ?_ ?_
    · rw [spent_of_delivering hp]
      cases o <;> first | rfl | exact absurd rfl ho
    · intro h
      exact Or.inr (hlost (Place.final.inj h))
  | drop hp | schedule hp | park hp =>
    refine .place rfl ?_ nofun
    rw [hp]
    rfl
  | retry nextRetryAt hp hretry =>
    refine ⟨Or.inr ⟨rfl, ?_, hretry⟩, nofun⟩
    rw [spent_of_delivering hp]
    rfl
  | timer hp hp' =>
    refine .place rfl ?_ ?_
    · rcases hp with hp | hp | hp | hp <;> rcases hp' with rfl | rfl | rfl <;> rw [hp] <;> rfl
    · rcases hp' with rfl | rfl | rfl <;> nofun
  | done_none | done_some | signal => exact .place rfl rfl Or.inl

theorem ne_maxValue_of_lt {a b : Int64} (h : a < b) : a ≠ Int64.maxValue := by
  rintro rfl
  have hlt := Int64.lt_iff_toInt_lt.1 h
  have hle := Int64.toInt_le b
  omega

theorem retries_lt {msg : CallbackTopicMessage} {l : Label} (h : retries cfg msg l = true) :
    msg.retryCount < cfg.maxRetries ∨ ∃ j now err, l = .dedupCheck j now (.error err) := by
  unfold retries at h
  split at h
  · exact Or.inr ⟨_, _, _, rfl⟩
  · split at h <;> simp only [Bool.and_eq_true, decide_eq_true_eq] at h <;> exact Or.inl h.2
  · simp only [Bool.and_eq_true, decide_eq_true_eq] at h
    exact Or.inl h.2
  · exact Or.inl (by simpa using h)
  · cases h

theorem eq_publishDLQ_of_loses {place : Place} {l : Label} (h : loses place l = true) :
    ∃ j, l = .publishDLQ j false := by
  unfold loses at h
  split at h
  · exact ⟨_, rfl⟩
  · cases h

/-! ### The invariant -/

structure Budgeted (cfg : Config) (j : ℕ) (p : State × Ledger) : Prop where
  queue : QueueInv p.1
  job : ∃ job, p.1.jobs[j]? = some job ∧ 0 ≤ job.msg.retryCount ∧
    job.msg.retryCount ≤ cfg.maxRetries ∧
    p.2.passes = job.msg.retryCount.toInt + job.place.spent ∧
    (job.place = .final .lost → p.2.refused = true)

theorem finished_of_spent {place : Place} {refused : Bool} (h : place.spent = 1)
    (hlost : place = .final .lost → refused = true) :
    place.inHand = true ∨ place.finished refused = true := by
  cases place with
  | final o =>
    cases o with
    | lost => exact Or.inr (hlost rfl)
    | dropped => cases h
    | _ => exact Or.inr rfl
  | sending | queued | parked | firing | scheduling | parking => cases h
  | _ => exact Or.inl rfl

theorem Budgeted.within {j : ℕ} {p : State × Ledger} (h : Budgeted cfg j p) :
    WithinBudget cfg j p := by
  intro job hjob
  obtain ⟨job₀, hjob₀, hpos, hle, hpasses, hlost⟩ := h.job
  obtain rfl : job = job₀ := Option.some.inj (hjob.symm.trans hjob₀)
  have hspent : job.place.spent = 0 ∨ job.place.spent = 1 := by
    cases job.place with
    | final o => cases o <;> simp [Place.spent]
    | _ => simp [Place.spent]
  have hbound := Int64.le_iff_toInt_le.1 hle
  refine ⟨hpos, hle, ?_, ?_⟩
  · omega
  · intro hall
    exact finished_of_spent (by omega) hlost

theorem refused_mono {j : ℕ} {s : State} {l : Label} {b : Ledger} (h : b.refused = true) :
    (Ledger.update j s l b).refused = true := by
  unfold Ledger.update
  split
  · split_ifs <;> exact h
  · split_ifs <;> first | rfl | exact h
  · exact h

theorem passes_update {j : ℕ} {s : State} {l : Label} {b : Ledger}
    (h : l = .take → s.workCh.head? ≠ some j) :
    (Ledger.update j s l b).passes = b.passes := by
  unfold Ledger.update
  split
  · rw [if_neg (h rfl)]
  · split_ifs <;> rfl
  · rfl

theorem Budgeted.set {j k : ℕ} {s s' : State} {b b' : Ledger} (h : Budgeted cfg j (s, b))
    (hqueue : QueueInv s') {x x' : Job} (hx : s.jobs[k]? = some x)
    (hjobs : s'.jobs = s.jobs.set k x') (hrefused : b.refused = true → b'.refused = true)
    (hother : k ≠ j → b'.passes = b.passes)
    (hself : k = j → 0 ≤ x.msg.retryCount → x.msg.retryCount ≤ cfg.maxRetries →
      0 ≤ x'.msg.retryCount ∧ x'.msg.retryCount ≤ cfg.maxRetries ∧
      b'.passes + (x.msg.retryCount.toInt + x.place.spent) =
        b.passes + (x'.msg.retryCount.toInt + x'.place.spent) ∧
      (x'.place = .final .lost → x.place = .final .lost ∨ b'.refused = true)) :
    Budgeted cfg j (s', b') := by
  obtain ⟨-, job, hjob, hpos, hle, hpasses, hlost⟩ := h
  dsimp only at hjob hpasses hlost
  refine ⟨hqueue, ?_⟩
  dsimp only
  rw [hjobs]
  by_cases hkj : k = j
  · subst hkj
    obtain rfl : job = x := Option.some.inj (hjob.symm.trans hx)
    obtain ⟨hpos', hle', hpasses', hlost'⟩ := hself rfl hpos hle
    refine ⟨x', List.getElem?_set_self (List.getElem?_eq_some_iff.1 hx).1, hpos', hle',
      by omega, ?_⟩
    intro hfinal
    rcases hlost' hfinal with hold | hnew
    · exact hrefused (hlost hold)
    · exact hnew
  · refine ⟨job, (List.getElem?_set_ne hkj).trans hjob, hpos, hle, ?_,
      fun hfinal => hrefused (hlost hfinal)⟩
    rw [hother hkj, hpasses]

theorem Budgeted.same {j : ℕ} {s s' : State} {b : Ledger} (h : Budgeted cfg j (s, b))
    (hqueue : QueueInv s') (hjobs : ∀ job, s.jobs[j]? = some job → s'.jobs[j]? = some job) :
    Budgeted cfg j (s', b) := by
  obtain ⟨-, job, hjob, hrest⟩ := h
  exact ⟨hqueue, job, hjobs job hjob, hrest⟩

/-- **The invariant is kept.** -/
theorem budgeted_step {j : ℕ} {s s' : State} {b : Ledger} {l : Label} (h : Budgeted cfg j (s, b))
    (hok : ChecksInBudget cfg j (s, b) l) (hst : step cfg s l = some s') :
    Budgeted cfg j (s', Ledger.update j s l b) := by
  have hqueue := queueInv_step h.queue hst
  obtain ⟨msg, now, rfl, rfl⟩ | ⟨rfl, htake⟩ | ⟨rfl, rfl⟩ | ⟨rfl, -, -, rfl⟩ | ⟨rfl, -, rfl⟩ |
    ⟨k, x, rfl, hx, hsend⟩ | ⟨k, x, s₁, x', hk, hx, hjs, rfl⟩ := step_inv hst
  · refine h.same hqueue fun job hjob => ?_
    have hold : ∀ new : Job, (s.jobs ++ [new])[j]? = some job := by
      intro new
      rw [List.getElem?_append_left (List.getElem?_eq_some_iff.1 hjob).1]
      exact hjob
    unfold accept
    split_ifs <;> exact hold _
  · -- a pass begins
    obtain ⟨k, x, rest, hch, hx, -, rfl⟩ := take_inv htake
    refine h.set hqueue hx rfl refused_mono ?_ ?_
    · intro hkj
      exact passes_update fun _ hhead => hkj (by simpa [hch] using hhead)
    · rintro rfl hpos hle
      obtain ⟨y, hy, hq⟩ := h.queue.queued k (hch ▸ List.mem_cons_self)
      obtain rfl : x = y := Option.some.inj (hx.symm.trans hy)
      refine ⟨hpos, hle, ?_, ?_⟩
      · have hupdate : Ledger.update k s .take b = { b with passes := b.passes + 1 } := by
          simp [Ledger.update, hch]
        rw [hupdate, spent_enter, hq]
        simp [Place.spent, Job.enter]
        omega
      · intro hfinal
        have hw : (x.enter cfg).place.whereabouts = .inHand := whereabouts_enter x
        rw [hfinal] at hw
        cases hw
  · exact h.same hqueue fun _ hjob => hjob
  · exact h.same hqueue fun _ hjob => hjob
  · exact h.same hqueue fun _ hjob => hjob
  · obtain ⟨-, -, rfl⟩ | ⟨hp, -, rfl⟩ | ⟨hp, -, rfl⟩ | ⟨hp, -, rfl⟩ := send_inv hsend
    · exact h.same hqueue fun _ hjob => hjob
    all_goals
      refine h.set hqueue hx rfl id (fun _ => rfl) fun _ hpos hle => ⟨hpos, hle, ?_, by simp⟩
      rw [hp]
      rfl
  · obtain ⟨hmove, hjobs, -⟩ := jobStep_move hjs
    have hpaid := hmove.paid
    have hpasses : (Ledger.update j s l b).passes = b.passes := by
      refine passes_update ?_
      rintro rfl
      cases hk
    refine h.set hqueue hx (by rw [State.setJob, hjobs]) refused_mono (fun _ => hpasses) ?_
    rintro rfl hpos hle
    have hlost : x'.place = .final .lost →
        x.place = .final .lost ∨ (Ledger.update k s l b).refused = true := by
      intro hfinal
      rcases hpaid.lost hfinal with hold | hloses
      · exact Or.inl hold
      · obtain ⟨i, rfl⟩ := eq_publishDLQ_of_loses hloses
        obtain rfl : i = k := Option.some.inj hk
        exact Or.inr (by simp [Ledger.update])
    rcases hpaid.counted with ⟨hsame, hspent⟩ | ⟨hnext, hspent, hretry⟩
    · rw [hsame, hspent, hpasses]
      exact ⟨hpos, hle, rfl, hlost⟩
    · have hlt : x.msg.retryCount < cfg.maxRetries := by
        rcases retries_lt hretry with hlt | ⟨_, _, _, rfl⟩
        · exact hlt
        · exact hok (Option.some.inj hk) x hx
      have hcount := toInt_succ (ne_maxValue_of_lt hlt)
      rw [Int64.lt_iff_toInt_lt] at hlt
      rw [Int64.le_iff_toInt_le, Int64.toInt_zero] at hpos
      rw [hnext, hpasses, Int64.le_iff_toInt_le, Int64.le_iff_toInt_le, hcount, Int64.toInt_zero]
      exact ⟨by omega, by omega, by omega, hlost⟩

/-- A dedup check that fails when the budget is used up leads to a message that is over its
budget. -/
theorem checksInBudget_of_within {j : ℕ} {s s' : State} {b b' : Ledger} {l : Label}
    (hst : step cfg s l = some s') (hwithin : WithinBudget cfg j (s', b')) :
    ChecksInBudget cfg j (s, b) l := by
  unfold ChecksInBudget
  split
  · rename_i k now err
    rintro rfl job hjob
    dsimp only at hjob
    obtain ⟨_, _, hl, -⟩ | ⟨hl, -⟩ | ⟨hl, -⟩ | ⟨hl, -⟩ | ⟨hl, -⟩ | ⟨_, _, hl, -⟩ |
      ⟨i, x, s₁, x', hi, hx, hjs, rfl⟩ := step_inv hst
    · cases hl
    · cases hl
    · cases hl
    · cases hl
    · cases hl
    · cases hl
    · obtain rfl : k = i := Option.some.inj hi
      obtain rfl : job = x := Option.some.inj (hjob.symm.trans hx)
      obtain ⟨-, hjobs, -⟩ := jobStep_move hjs
      simp only [jobStep] at hjs
      split_ifs at hjs
      obtain ⟨rfl, rfl⟩ := Prod.mk.inj (Option.some.inj hjs)
      have hnew := hwithin _ (List.getElem?_set_self (List.getElem?_eq_some_iff.1 hx).1)
      have hpos : 0 ≤ job.msg.retryCount + 1 := hnew.1
      have hle : job.msg.retryCount + 1 ≤ cfg.maxRetries := hnew.2.1
      -- had `RetryCount` wrapped around, it would be negative
      have hne : job.msg.retryCount ≠ Int64.maxValue := by
        intro hmax
        rw [hmax] at hpos
        exact absurd hpos (by decide)
      rw [Int64.le_iff_toInt_le, toInt_succ hne] at hle
      exact Int64.lt_iff_toInt_lt.2 (by omega)
  · trivial

/-- **The retry budget.**  Job `s₀.jobs.length` is a message that is accepted with `RetryCount` 0,
in any state that the service can reach.  Whatever its stores and the callback URL answer and
whatever happens to the other messages: `RetryCount` never exceeds `MaxRetries` or wraps around, and
after at most `MaxRetries + 1` passes the message is delivered, skipped or sent to the DLQ, if and
only if its dedup check never fails with `RetryCount` at `MaxRetries`. -/
theorem retry_budget_iff {s₀ s : State} (h₀ : (machine cfg).Reachable init s₀)
    (hmax : 0 ≤ cfg.maxRetries) {msg : CallbackTopicMessage} (hmsg : msg.retryCount = 0) {now : ℕ}
    (haccept : step cfg s₀ (.accept msg now) = some s) {labels : List Label}
    (hrun : ((ledgered cfg s₀.jobs.length).exec (s, {}) labels).isSome = true) :
    (ledgered cfg s₀.jobs.length).Always (WithinBudget cfg s₀.jobs.length) (s, {}) labels ↔
      (ledgered cfg s₀.jobs.length).Along (ChecksInBudget cfg s₀.jobs.length) (s, {}) labels := by
  have hqueue : QueueInv s₀ :=
    h₀.invariant ⟨List.nodup_nil, by simp [init]⟩ fun _ _ _ hs _ hst => queueInv_step hs hst
  have hstart : Budgeted cfg s₀.jobs.length (s, {}) := by
    refine ⟨queueInv_step hqueue haccept, ?_⟩
    obtain ⟨_, _, hl, rfl⟩ | ⟨hl, -⟩ | ⟨hl, -⟩ | ⟨hl, -⟩ | ⟨hl, -⟩ | ⟨_, _, hl, -⟩ |
      ⟨_, _, _, _, hj, -⟩ := step_inv haccept
    · obtain ⟨rfl, rfl⟩ := Label.accept.inj hl
      unfold accept
      split_ifs
      all_goals
        refine ⟨_, List.getElem?_concat_length, ?_, ?_, ?_, by simp⟩
        · rw [hmsg]
          exact Int64.le_refl 0
        · rw [hmsg]
          exact hmax
        · rw [hmsg]
          rfl
    all_goals first | cases hl | cases hj
  refine LTS.always_iff_along (I := Budgeted cfg s₀.jobs.length) ?_ ?_ hstart hstart.within hrun
  · rintro ⟨s, b⟩ l p' hs hp
    obtain ⟨s', hst, rfl⟩ := Option.map_eq_some_iff.1 hp
    exact ⟨fun hok => (budgeted_step hs hok hst).within, checksInBudget_of_within hst⟩
  · rintro ⟨s, b⟩ l p' hs hok hp
    obtain ⟨s', hst, rfl⟩ := Option.map_eq_some_iff.1 hp
    exact budgeted_step hs hok hst

/-- One worker and a dedup store. -/
def oneWorker (maxRetries : Int64) : Config := ⟨1, 1, maxRetries, 1, true, true, fun _ => []⟩

def seenMessage : CallbackTopicMessage :=
  { callbackURL := "u", type := .seenOnNetwork, txID := "t" }

/-- The service has accepted the message. -/
def seenAccepted : State := { init with jobs := [{ msg := seenMessage, place := .sending }] }

/-- The dedup check fails once, and one retry is allowed. -/
theorem retry_budget_one :
    (ledgered (oneWorker 1) 0).Always (WithinBudget (oneWorker 1) 0) (seenAccepted, {})
      [.send 0, .take, .dedupCheck 0 0 (.error "down"), .schedule 0, .park 0, .fire 0, .send 0,
        .take, .dedupCheck 0 1 (.ok false)] := by
  have haccept : step (oneWorker 1) init (.accept seenMessage 0) = some seenAccepted := rfl
  refine (retry_budget_iff .start (by decide) rfl haccept rfl).2 ?_
  refine LTS.Along.cons trivial rfl ?_
  refine LTS.Along.cons trivial rfl ?_
  refine LTS.Along.cons ?_ rfl ?_
  · rintro - job ⟨⟩
    decide
  · refine LTS.Along.cons trivial rfl ?_
    refine LTS.Along.cons trivial rfl ?_
    refine LTS.Along.cons trivial rfl ?_
    refine LTS.Along.cons trivial rfl ?_
    refine LTS.Along.cons trivial rfl ?_
    exact LTS.Along.cons trivial rfl trivial

/-- No retries are allowed, and the dedup store is down: the message is queued again. -/
theorem retry_over_budget :
    ¬ ∀ (cfg : Config) (s₀ s : State) (msg : CallbackTopicMessage) (now : ℕ) (labels : List Label),
      (machine cfg).Reachable init s₀ → 0 ≤ cfg.maxRetries → msg.retryCount = 0 →
      step cfg s₀ (.accept msg now) = some s →
      ((ledgered cfg s₀.jobs.length).exec (s, {}) labels).isSome = true →
      (ledgered cfg s₀.jobs.length).Always (WithinBudget cfg s₀.jobs.length) (s, {}) labels := by
  intro h
  have hall := h (oneWorker 0) init seenAccepted seenMessage 0
    [.send 0, .take, .dedupCheck 0 0 (.error "down")] .start (by decide) rfl rfl rfl
  have hlast := ((hall.2 _ rfl).2 _ rfl).2 _ rfl
  exact absurd (hlast _ rfl).2.1 (by decide)

end Callback

end MerkleService
