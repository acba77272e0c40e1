import MerkleService.Callback.Conservation

/-!
# Shutdown of the delivery service

`Stop` sets `shuttingDown`, waits for the retry timers and closes `workCh`; the consumer is stopped
only after that.  A timer that runs out before the flag is set holds `Stop` back until it has sent,
and one that runs out later drops its message, so no timer sends on the closed channel.  Nothing
holds `handleMessage` back.

* `Stopping` : the invariant, of the runs in which `handleMessage` is idle at the close and after
  it.
* `no_send_after_close_iff` : **there is no send on the closed channel if and only if
  `handleMessage` has nothing to send when `Stop` closes it, nor later**.
* `send_after_close` : a message is accepted, then the service is stopped.
-/

namespace MerkleService

namespace Callback

open Kafka

variable {cfg : Config}

/-- When `Stop` closes `workCh` no call of `handleMessage` has a message to send, and afterwards the
messages that it accepts are parked. -/
def ConsumerIdle (s : State) : Label → Prop
  | .close => ∀ job ∈ s.jobs, job.place ≠ .sending
  | .accept msg now => s.closed = true → msg.nextRetryAt.any (now < ·) = true
  | _ => True

/-- No goroutine can make a send on `workCh` once it is closed. -/
def NoSendAfterClose (cfg : Config) (s : State) : Prop :=
  s.closed = true → ∀ j, step cfg s (.send j) = none

structure Stopping (s : State) : Prop where
  timersDone : s.timersDone = true → s.shuttingDown = true
  closed : s.closed = true → s.timersDone = true
  firing : s.timersDone = true → ∀ job ∈ s.jobs, job.place ≠ .firing
  sending : s.closed = true → ∀ job ∈ s.jobs, job.place ≠ .sending

theorem stopping_init : Stopping init :=
  ⟨by simp [init], by simp [init], by simp [init], by simp [init]⟩

theorem Stopping.noSend {s : State} (h : Stopping s) : NoSendAfterClose cfg s := by
  intro hclosed j
  by_contra hsend
  obtain ⟨s', hst⟩ := Option.ne_none_iff_exists'.1 hsend
  obtain ⟨_, _, hl, -⟩ | ⟨hl, -⟩ | ⟨hl, -⟩ | ⟨hl, -⟩ | ⟨hl, -⟩ | ⟨k, job, -, hjob, hst⟩ |
    ⟨k, job, s₁, job', -, -, hjs, -⟩ := step_inv hst
  · cases hl
  · cases hl
  · cases hl
  · cases hl
  · cases hl
  · have hmem := List.mem_of_getElem? hjob
    have hsending := h.sending hclosed job hmem
    have hfiring := h.firing (h.closed hclosed) job hmem
    obtain ⟨hp, -⟩ | ⟨hp, -⟩ | ⟨hp, -⟩ | ⟨hp, -⟩ := send_inv hst
    · exact hsending hp
    · exact hfiring hp
    · exact hsending hp
    · exact hfiring hp
  · cases hjs

/-- A job at the send of `handleMessage` can make it, also when the channel is closed. -/
theorem NoSendAfterClose.idle {s : State} (h : NoSendAfterClose cfg s) (hpan : s.panicked = false)
    (hclosed : s.closed = true) : ∀ job ∈ s.jobs, job.place ≠ .sending := by
  intro job hmem hp
  obtain ⟨j, hj⟩ := List.getElem?_of_mem hmem
  have hnone := h hclosed j
  simp [step, hpan, hj, send, hp, hclosed] at hnone

theorem Stopping.set {s s' : State} (h : Stopping s) {j : ℕ} {job job' : Job}
    (hjob : s.jobs[j]? = some job) (hjobs : s'.jobs = s.jobs.set j job')
    (hflags : s'.shuttingDown = s.shuttingDown ∧ s'.timersDone = s.timersDone ∧
      s'.closed = s.closed) (hsending : job'.place = .sending → job.place = .sending)
    (hfiring : job'.place = .firing → job.place = .firing ∨ s.shuttingDown = false) :
    Stopping s' := by
  obtain ⟨hdown, htimers, hclosed⟩ := hflags
  have hmem := List.mem_of_getElem? hjob
  refine ⟨?_, ?_, ?_, ?_⟩
  · rw [htimers, hdown]
    exact h.timersDone
  · rw [hclosed, htimers]
    exact h.closed
  · rw [htimers, hjobs]
    intro hdone x hx
    rcases List.mem_or_eq_of_mem_set hx with hx | rfl
    · exact h.firing hdone x hx
    · intro hp
      rcases hfiring hp with hold | hup
      · exact h.firing hdone job hmem hold
      · simp [h.timersDone hdone] at hup
  · rw [hclosed, hjobs]
    intro hcl x hx
    rcases List.mem_or_eq_of_mem_set hx with hx | rfl
    · exact h.sending hcl x hx
    · exact fun hp => h.sending hcl job hmem (hsending hp)

/-- **The invariant is kept** while `handleMessage` is idle. -/
theorem stopping_step {s s' : State} {l : Label} (h : Stopping s) (hok : ConsumerIdle s l)
    (hst : step cfg s l = some s') : Stopping s' := by
  obtain ⟨msg, now, rfl, rfl⟩ | ⟨-, htake⟩ | ⟨-, rfl⟩ | ⟨-, hdown, hnone, rfl⟩ | ⟨rfl, hdone, rfl⟩ |
    ⟨j, job, -, hjob, hsend⟩ | ⟨j, job, s₁, job', -, hjob, hjs, rfl⟩ := step_inv hst
  · have happ : ∀ new : Job, new.place ≠ .firing → (s.closed = true → new.place ≠ .sending) →
        Stopping { s with jobs := s.jobs ++ [new] } := by
      intro new hfiring hsending
      refine ⟨h.timersDone, h.closed, ?_, ?_⟩
      · intro hdone x hx
        rcases List.mem_append.1 hx with hx | hx
        · exact h.firing hdone x hx
        · obtain rfl := List.mem_singleton.1 hx
          exact hfiring
      · intro hclosed x hx
        rcases List.mem_append.1 hx with hx | hx
        · exact h.sending hclosed x hx
        · obtain rfl := List.mem_singleton.1 hx
          exact hsending hclosed
    unfold accept
    split_ifs with hnow
    · exact happ _ (by simp) (by simp)
    all_goals
      have hopen : s.closed ≠ true := fun hclosed => hnow (hok hclosed)
      have := happ { msg := msg, place := .sending } (by simp) fun hclosed => absurd hclosed hopen
      exact ⟨this.timersDone, this.closed, this.firing, this.sending⟩
  · obtain ⟨j, job, rest, hch, hjob, -, rfl⟩ := take_inv htake
    have hw : (job.enter cfg).place.whereabouts = .inHand := whereabouts_enter job
    refine h.set hjob rfl ⟨rfl, rfl, rfl⟩ ?_ ?_
    · intro hp
      simp [hp, Place.whereabouts] at hw
    · intro hp
      simp [hp, Place.whereabouts] at hw
  · exact ⟨fun _ => rfl, h.closed, h.firing, h.sending⟩
  · exact ⟨fun _ => hdown, fun _ => rfl, fun _ job hjob => (hnone job hjob).2, h.sending⟩
  · exact ⟨h.timersDone, fun _ => hdone, h.firing, fun _ => hok⟩
  · obtain ⟨-, -, rfl⟩ | ⟨-, -, rfl⟩ | ⟨-, -, rfl⟩ | ⟨-, -, rfl⟩ := send_inv hsend
    · exact ⟨h.timersDone, h.closed, h.firing, h.sending⟩
    · exact h.set hjob rfl ⟨rfl, rfl, rfl⟩ (by simp) (by simp)
    · exact h.set hjob rfl ⟨rfl, rfl, rfl⟩ (by simp) (by simp)
    · exact h.set hjob rfl ⟨rfl, rfl, rfl⟩ (by simp) (by simp)
  · have hacc := jobStep_accounted hjs
    obtain ⟨-, hjobs, -⟩ := jobStep_move hjs
    exact h.set hjob (by rw [State.setJob, hjobs]) hacc.flags hacc.sending hacc.firing

/-- A step that breaks the condition leads to a state in which a send on the closed channel can be
made. -/
theorem idle_of_noSend {s s' : State} {l : Label} (hst : step cfg s l = some s')
    (hno : NoSendAfterClose cfg s') : ConsumerIdle s l := by
  have hpan : s.panicked = false := by
    by_contra hpan
    simp [step, hpan] at hst
  obtain ⟨msg, now, rfl, rfl⟩ | ⟨rfl, -⟩ | ⟨rfl, -⟩ | ⟨rfl, -⟩ | ⟨rfl, -, rfl⟩ | ⟨_, _, rfl, -⟩ |
    ⟨_, _, _, _, -, -, hjs, -⟩ := step_inv hst
  · intro hclosed
    by_contra hnow
    unfold accept at hno
    rw [if_neg hnow] at hno
    exact hno.idle hpan hclosed _ (List.mem_append_right _ (List.mem_singleton_self _)) rfl
  · trivial
  · trivial
  · trivial
  · intro job hmem hp
    exact hno.idle hpan rfl job hmem hp
  · trivial
  · cases l with
    | accept | close => cases hjs
    | _ => trivial

/-- **No send on the closed channel.**  In every run of the service, with any number of calls of
`handleMessage`, workers and timers: in no state of the run a goroutine can make a send on `workCh`
after `Stop` has closed it, if and only if in the run `handleMessage` has nothing to send when the
channel is closed, and gets nothing to send later. -/
theorem no_send_after_close_iff {labels : List Label}
    (hrun : ((machine cfg).exec init labels).isSome = true) :
    (machine cfg).Always (NoSendAfterClose cfg) init labels ↔
      (machine cfg).Along ConsumerIdle init labels := by
  refine LTS.always_iff_along (I := Stopping) ?_ ?_ stopping_init nofun hrun
  · intro s l s' hs hst
    exact ⟨fun hok => (stopping_step hs hok hst).noSend, idle_of_noSend hst⟩
  · intro s l s' hs hok hst
    exact stopping_step hs hok hst

/-- The message is sent and taken before the service is stopped. -/
theorem no_send_after_close_quiet :
    ((machine twoWorkers).exec init
      [.accept stumpMessage 0, .send 0, .take, .stop, .stopWait, .close]).isSome = true ∧
    (machine twoWorkers).Always (NoSendAfterClose twoWorkers) init
      [.accept stumpMessage 0, .send 0, .take, .stop, .stopWait, .close] := by
  refine ⟨rfl, (no_send_after_close_iff rfl).2 ?_⟩
  refine LTS.Along.cons nofun rfl ?_
  refine LTS.Along.cons trivial rfl ?_
  refine LTS.Along.cons trivial rfl ?_
  refine LTS.Along.cons trivial rfl ?_
  refine LTS.Along.cons trivial rfl ?_
  refine LTS.Along.cons ?_ rfl trivial
  intro job hmem
  obtain rfl := List.mem_singleton.1 hmem
  decide

/-- `handleMessage` has accepted a message when the service is stopped: its send finds the channel
closed. -/
theorem send_after_close :
    ¬ ∀ (cfg : Config) (s : State), (machine cfg).Reachable init s → NoSendAfterClose cfg s := by
  intro h
  have h₁ : (machine twoWorkers).Reachable init _ :=
    LTS.Run.start.next (l := Label.accept stumpMessage 0) trivial rfl
  have h₂ := h₁.next (l := Label.stop) trivial rfl
  have h₃ := h₂.next (l := Label.stopWait) trivial rfl
  have h₄ := h₃.next (l := Label.close) trivial rfl
  cases h _ _ h₄ rfl 0

end Callback

end MerkleService
