import MerkleService.LTS.Basic

/-!
# Starting and stopping a consumer

`Consumer.Start` (`internal/kafka/consumer.go`) starts a goroutine that calls `group.Consume` again
and again, and waits until the first session has been set up: `Setup` closes the channel of its
handler, which was in `c.ready` when `Consume` was called, and the goroutine puts a new channel
there after every call.  `Start` reads `c.ready` once.  If it has read the channel of a call that
then ends without a session, for instance because no broker could be reached, nobody closes that
channel any more, however many sessions follow.

The channels are numbered in the order in which they are made.  sarama calls `Setup` at most once
in a call of `Consume`.

* `Sound.step` : **the invariant**: a channel is closed once, by the call it was made for.
* `start_sound` : `Start` returns only after a session has been set up, and no close panics.
* `start_returns_iff` : **exactly when `Start` can still return**, in every reachable state.
* `Stop` returns once the goroutine has ended, whether or not `Start` has.
-/

namespace MerkleService

namespace Kafka

namespace Startup

/-- `Start`, after `go`. -/
inductive Starter where
  /-- Before `c.ready` is read. -/
  | reading
  /-- In the receive from a channel. -/
  | waiting (ch : ℕ)
  | returned
  deriving DecidableEq

/-- The goroutine. -/
inductive Loop where
  | top
  /-- In `group.Consume`, with the channel of the handler, and whether `Setup` was called. -/
  | consuming (ch : ℕ) (session : Bool)
  /-- Before the check of `ctx.Err()`. -/
  | checking
  | exited
  deriving DecidableEq

/-- `Stop`. -/
inductive Stopper where
  | idle
  /-- In `c.wg.Wait()`. -/
  | waiting
  | returned
  deriving DecidableEq

structure State where
  start : Starter
  loop : Loop
  stop : Stopper
  /-- `c.ready`. -/
  ready : ℕ
  /-- The channels that were closed, the last one first. -/
  closed : List ℕ
  /-- The context is done. -/
  cancelled : Bool
  panicked : Bool
  deriving DecidableEq

/-- After `NewConsumer`, in `Start`. -/
def init : State := ⟨.reading, .top, .idle, 0, [], false, false⟩

inductive Label where
  /-- `Start` reads `c.ready`. -/
  | read
  /-- The receive of `Start` ends. -/
  | receive
  /-- A handler is made, and `Consume` is called. -/
  | consume
  /-- sarama calls `Setup`. -/
  | setup
  /-- `Consume` returns. -/
  | consumed (err : Option String)
  /-- The check of `ctx.Err()`. -/
  | check
  /-- The context that was passed to `Start` is done. -/
  | contextDone
  /-- `Stop` calls `c.cancel()`. -/
  | stop
  /-- `c.wg.Wait()` ends. -/
  | stopped
  deriving DecidableEq

def step (s : State) (l : Label) : Option State :=
  if s.panicked then none
  else match l with
    | .read => if s.start = .reading then some { s with start := .waiting s.ready } else none
    | .receive =>
      match s.start with
      | .waiting ch => if ch ∈ s.closed then some { s with start := .returned } else none
      | _ => none
    | .consume => if s.loop = .top then some { s with loop := .consuming s.ready false } else none
    | .setup =>
      match s.loop with
      | .consuming ch false =>
        -- a channel that is closed twice panics
        if ch ∈ s.closed then some { s with panicked := true }
        else some { s with loop := .consuming ch true, closed := ch :: s.closed }
      | _ => none
    | .consumed _ =>
      match s.loop with
      | .consuming _ _ => some { s with loop := .checking }
      | _ => none
    | .check =>
      if s.loop = .checking then
        if s.cancelled then some { s with loop := .exited }
        else some { s with loop := .top, ready := s.ready + 1 }
      else none
    | .contextDone => some { s with cancelled := true }
    | .stop =>
      if s.stop = .idle then some { s with cancelled := true, stop := .waiting } else none
    | .stopped =>
      if s.stop = .waiting ∧ s.loop = .exited then some { s with stop := .returned } else none

def system : LTS State Label := ⟨step⟩

/-! ### What a step does -/

theorem step_inv {s s' : State} {l : Label} (h : step s l = some s') : s.panicked = false ∧
    ((l = .read ∧ s.start = .reading ∧ s' = { s with start := .waiting s.ready }) ∨
    (l = .receive ∧ (∃ ch, s.start = .waiting ch ∧ ch ∈ s.closed) ∧
      s' = { s with start := .returned }) ∨
    (l = .consume ∧ s.loop = .top ∧ s' = { s with loop := .consuming s.ready false }) ∨
    (∃ ch, l = .setup ∧ s.loop = .consuming ch false ∧
      (ch ∈ s.closed ∧ s' = { s with panicked := true } ∨
        ch ∉ s.closed ∧ s' = { s with loop := .consuming ch true, closed := ch :: s.closed })) ∨
    (∃ err ch session, l = .consumed err ∧ s.loop = .consuming ch session ∧
      s' = { s with loop := .checking }) ∨
    (l = .check ∧ s.loop = .checking ∧ s.cancelled = true ∧ s' = { s with loop := .exited }) ∨
    (l = .check ∧ s.loop = .checking ∧ s.cancelled = false ∧
      s' = { s with loop := .top, ready := s.ready + 1 }) ∨
    (l = .contextDone ∧ s' = { s with cancelled := true }) ∨
    (l = .stop ∧ s.stop = .idle ∧ s' = { s with cancelled := true, stop := .waiting }) ∨
    (l = .stopped ∧ s.stop = .waiting ∧ s.loop = .exited ∧
      s' = { s with stop := .returned })) := by
  unfold step at h
  by_cases hpanic : s.panicked = true
  case pos => simp [hpanic] at h
  rw [if_neg hpanic] at h
  refine ⟨Bool.eq_false_iff.2 hpanic, ?_⟩
  cases l with
  | read => grind
  | receive => grind
  | consume => grind
  | setup => grind
  | consumed err => grind
  | check => grind
  | contextDone => grind
  | stop => grind
  | stopped => grind

/-! ### A channel is closed once -/

/-- **The invariant.** -/
structure Sound (s : State) : Prop where
  nodup : s.closed.Nodup
  le_ready : ∀ ch ∈ s.closed, ch ≤ s.ready
  top : s.loop = .top → s.ready ∉ s.closed
  consuming : ∀ ch session, s.loop = .consuming ch session →
    ch = s.ready ∧ (session = true ↔ ch ∈ s.closed)
  waiting : ∀ ch, s.start = .waiting ch → ch ≤ s.ready
  panicked : s.panicked = false
  returned : s.start = .returned → s.closed ≠ []
  cancelled : s.stop ≠ .idle → s.cancelled = true

theorem sound_init : Sound init where
  nodup := List.nodup_nil
  le_ready := by simp [init]
  top := by simp [init]
  consuming := by simp [init]
  waiting := by simp [init]
  panicked := rfl
  returned := by simp [init]
  cancelled := by simp [init]

theorem Sound.step {s s' : State} (h : Sound s) {l : Label} (hst : system.step s l = some s') :
    Sound s' := by
  obtain ⟨hnodup, hle, htop, hconsuming, hwaiting, hpanic, hreturned, hcancelled⟩ := h
  obtain ⟨-, ⟨-, hstart, rfl⟩ | ⟨-, ⟨ch, hstart, hch⟩, rfl⟩ | ⟨-, hloop, rfl⟩ |
    ⟨ch, -, hloop, ⟨hch, rfl⟩ | ⟨hch, rfl⟩⟩ | ⟨err, ch, session, -, hloop, rfl⟩ |
    ⟨-, hloop, -, rfl⟩ | ⟨-, hloop, -, rfl⟩ | ⟨-, rfl⟩ | ⟨-, -, rfl⟩ | ⟨-, hstop, -, rfl⟩⟩ :=
    step_inv hst
  · constructor <;> simp_all
  · constructor <;> simp_all
    exact List.ne_nil_of_mem hch
  · constructor <;> simp_all
  · -- the channel of a call is new
    have hnew := (hconsuming ch false hloop).2.2 hch
    cases hnew
  · obtain ⟨rfl, -⟩ := hconsuming ch false hloop
    constructor <;> simp_all
  · constructor <;> simp_all
  · constructor <;> simp_all
  · -- a new channel is made
    refine ⟨hnodup, fun ch hch => Nat.le_succ_of_le (hle ch hch), fun _ hch => ?_, nofun,
      fun ch hch => Nat.le_succ_of_le (hwaiting ch hch), hpanic, hreturned,
      hcancelled⟩
    exact absurd (hle _ hch) (Nat.not_succ_le_self _)
  · constructor <;> simp_all
  · constructor <;> simp_all
  · constructor <;> simp_all

theorem Sound.of_reachable {s : State} (hrun : system.Reachable init s) : Sound s :=
  hrun.invariant sound_init fun _ _ _ h _ hst => h.step hst

/-- **`Start` returns only after a session was set up**, and no channel is closed twice. -/
theorem start_sound (s : State) (hrun : system.Reachable init s) :
    s.panicked = false ∧ s.closed.Nodup ∧ (s.start = .returned → s.closed ≠ []) := by
  have h : Sound s := .of_reachable hrun
  exact ⟨h.panicked, h.nodup, h.returned⟩

/-! ### When `Start` can still return -/

/-- The channel from which `Start` receives, or would receive if it went on now. -/
def State.awaited (s : State) : ℕ :=
  match s.start with
  | .waiting ch => ch
  | _ => s.ready

/-- The channel that `Start` waits for was closed, or belongs to a call of `Consume` which has not
ended and has no session yet, or is still to be made. -/
def Hopeful (s : State) : Prop :=
  s.start = .returned ∨ s.awaited ∈ s.closed ∨ s.loop = .top ∧ s.awaited = s.ready ∨
    s.loop = .consuming s.awaited false ∨
    s.start = .reading ∧ s.loop = .checking ∧ s.cancelled = false

instance (s : State) : Decidable (Hopeful s) := inferInstanceAs (Decidable (_ ∨ _))

theorem Hopeful.of_step {s s' : State} (hs : Sound s) {l : Label}
    (hst : system.step s l = some s') (h : Hopeful s') : Hopeful s := by
  obtain ⟨-, hle, -, hconsuming, hwaiting, -, -, -⟩ := hs
  obtain ⟨-, ⟨-, hstart, rfl⟩ | ⟨-, ⟨ch, hstart, hch⟩, rfl⟩ | ⟨-, hloop, rfl⟩ |
    ⟨ch, -, hloop, ⟨hch, rfl⟩ | ⟨hch, rfl⟩⟩ | ⟨err, ch, session, -, hloop, rfl⟩ |
    ⟨-, hloop, -, rfl⟩ | ⟨-, hloop, hcancel, rfl⟩ | ⟨-, rfl⟩ | ⟨-, -, rfl⟩ | ⟨-, -, -, rfl⟩⟩ :=
    step_inv hst
  -- no step gives `Start` another channel, and a channel that has left `c.ready` is closed only by
  -- the call which it was made for
  all_goals
    simp only [Hopeful, State.awaited] at h ⊢
    cases hstart : s.start
    all_goals grind

/-- `Start` can return from here. -/
def CanReturn (s : State) : Prop := ∃ s', system.Reachable s s' ∧ s'.start = .returned

theorem CanReturn.of_step {s t : State} {l : Label} (hst : system.step s l = some t)
    (h : CanReturn t) : CanReturn s := by
  obtain ⟨s', hrun, hret⟩ := h
  have hfirst : system.Reachable s t := .next .start trivial hst
  exact ⟨s', hrun.invariant (I := system.Reachable s) hfirst fun _ _ _ h hok hst => h.next hok hst,
    hret⟩

theorem canReturn_of_closed {s : State} (hs : Sound s) (h : s.awaited ∈ s.closed) :
    CanReturn s := by
  have hpanic := hs.panicked
  cases hstart : s.start with
  | returned => exact ⟨s, .start, hstart⟩
  | waiting ch =>
    rw [State.awaited, hstart] at h
    have hreceive : system.step s .receive = some { s with start := .returned } := by
      simp only [system, step, hpanic, hstart]
      simp [h]
    exact ⟨_, .next .start trivial hreceive, rfl⟩
  | reading =>
    rw [State.awaited, hstart] at h
    have hread : system.step s .read = some { s with start := .waiting s.ready } := by
      simp [system, step, hpanic, hstart]
    have hreceive : system.step { s with start := .waiting s.ready } .receive =
        some { s with start := .returned } := by
      simp only [system, step, hpanic]
      simp [h]
    exact ⟨_, .next (.next .start trivial hread) trivial hreceive, rfl⟩

theorem canReturn_of_consuming {s : State} (hs : Sound s)
    (hloop : s.loop = .consuming s.awaited false) : CanReturn s := by
  have hnew : s.awaited ∉ s.closed := by
    intro hch
    cases (hs.consuming _ _ hloop).2.2 hch
  have hsetup : system.step s .setup =
      some { s with loop := .consuming s.awaited true, closed := s.awaited :: s.closed } := by
    simp [system, step, hs.panicked, hloop, hnew]
  refine .of_step hsetup ?_
  exact canReturn_of_closed (hs.step hsetup) List.mem_cons_self

theorem canReturn_of_top {s : State} (hs : Sound s) (hloop : s.loop = .top)
    (hready : s.awaited = s.ready) : CanReturn s := by
  have hconsume : system.step s .consume = some { s with loop := .consuming s.ready false } := by
    simp [system, step, hs.panicked, hloop]
  refine .of_step hconsume ?_
  have hsame : ({ s with loop := .consuming s.ready false } : State).awaited = s.ready := hready
  refine canReturn_of_consuming (hs.step hconsume) ?_
  rw [hsame]

/-- The first call of `Consume` fails while `Start` waits; the second one sets up a session. -/
def lostRun : List Label :=
  [.read, .consume, .consumed (some "no brokers"), .check, .consume, .setup]

/-- The same with `Start` slower than the failure. -/
theorem start_sound_returned :
    ∃ s, system.exec init [.consume, .consumed none, .check, .read, .consume, .setup, .receive] =
        some s ∧ s.start = .returned ∧ s.closed ≠ [] := by
  obtain ⟨s, hs, hret⟩ : ∃ s, system.exec init
      [.consume, .consumed none, .check, .read, .consume, .setup, .receive] = some s ∧
      s.start = .returned := ⟨_, rfl, rfl⟩
  have hrun : system.Reachable init s :=
    LTS.Run.exec .start (LTS.Along.of_forall (fun _ _ => trivial) _ _) hs
  exact ⟨s, hs, hret, (start_sound s hrun).2.2 hret⟩

/-! ### `Stop` returns -/

/-- The steps that the goroutine can still take when the context is done. -/
def Loop.work : Loop → ℕ
  | top => 4
  | consuming _ false => 3
  | consuming _ true => 2
  | checking => 1
  | exited => 0

def Starter.work : Starter → ℕ
  | reading => 2
  | waiting _ => 1
  | returned => 0

def Stopper.work : Stopper → ℕ
  | idle => 2
  | waiting => 1
  | returned => 0

/-- The steps that are left when the context is done. -/
def State.work (s : State) : ℕ := s.loop.work + s.start.work + s.stop.work

/-- The steps of the three parties. -/
def parties : LTS State Label where
  step s l := if l = .contextDone then none else system.step s l

theorem parties_step {s s' : State} {l : Label} (hst : parties.step s l = some s') :
    l ≠ .contextDone ∧ system.step s l = some s' := by
  simp only [parties] at hst
  split_ifs at hst with hl
  exact ⟨hl, hst⟩

/-- `Stop` was called. -/
structure Stopping (s : State) : Prop where
  sound : Sound s
  cancelled : s.cancelled = true
  called : s.stop ≠ .idle

theorem Stopping.step {s s' : State} (h : Stopping s) {l : Label}
    (hst : system.step s l = some s') : Stopping s' := by
  refine ⟨h.sound.step hst, ?_, ?_⟩
  · have hcancel := h.cancelled
    obtain ⟨-, hcases⟩ := step_inv hst
    grind
  · have hcalled := h.called
    obtain ⟨-, hcases⟩ := step_inv hst
    grind

/-- Every step uses up work: the goroutine makes no new channel when the context is done. -/
theorem Stopping.work_lt {s s' : State} (h : Stopping s) {l : Label}
    (hst : parties.step s l = some s') : s'.work < s.work := by
  obtain ⟨hl, hst⟩ := parties_step hst
  obtain ⟨-, ⟨-, hstart, rfl⟩ | ⟨-, ⟨ch, hstart, -⟩, rfl⟩ | ⟨-, hloop, rfl⟩ |
    ⟨ch, -, hloop, ⟨hch, -⟩ | ⟨-, rfl⟩⟩ | ⟨err, ch, session, -, hloop, rfl⟩ |
    ⟨-, hloop, -, rfl⟩ | ⟨-, -, hcancel, -⟩ | ⟨hdone, -⟩ | ⟨-, hidle, -⟩ | ⟨-, hstop, -, rfl⟩⟩ :=
    step_inv hst
  · simp [State.work, hstart, Starter.work]
  · simp [State.work, hstart, Starter.work]
  · simp [State.work, hloop, Loop.work]
  · cases (h.sound.consuming ch false hloop).2.2 hch
  · simp [State.work, hloop, Loop.work]
  · cases session <;> simp [State.work, hloop, Loop.work]
  · simp [State.work, hloop, Loop.work]
  · rw [h.cancelled] at hcancel
    cases hcancel
  · exact absurd hdone hl
  · exact absurd hidle h.called
  · simp [State.work, hstop, Stopper.work]

theorem Stopping.exec {s t : State} (h : Stopping s) {ls : List Label}
    (hexec : parties.exec s ls = some t) : Stopping t ∧ ls.length + t.work ≤ s.work := by
  induction ls generalizing s with
  | nil =>
    obtain rfl := Option.some.inj hexec
    exact ⟨h, by simp⟩
  | cons l ls ih =>
    obtain ⟨s', hst, hexec⟩ := Option.bind_eq_some_iff.1 hexec
    obtain ⟨ht, hle⟩ := ih (h.step (parties_step hst).2) hexec
    have hlt := h.work_lt hst
    refine ⟨ht, ?_⟩
    rw [List.length_cons]
    omega

theorem Loop.work_le (l : Loop) : l.work ≤ 4 := by
  rcases l with _ | ⟨ch, _ | _⟩ | _ | _
  all_goals simp [work]

theorem Starter.work_le (s : Starter) : s.work ≤ 2 := by
  cases s with
  | _ => simp [work]

theorem returned_of_stuck {s : State} (h : Stopping s)
    (hstuck : ∀ l, parties.step s l = none) : s.stop = .returned := by
  have hstep : ∀ l, l ≠ .contextDone → step s l = none := by
    intro l hl
    have hnone := hstuck l
    simp only [parties, if_neg hl] at hnone
    exact hnone
  have hpanic := h.sound.panicked
  have hcheck := hstep .check (by decide)
  have hconsume := hstep .consume (by decide)
  have hconsumed := hstep (.consumed none) (by decide)
  have hstopped := hstep .stopped (by decide)
  cases hloop : s.loop with
  | top => simp [step, hpanic, hloop] at hconsume
  | consuming ch session => simp [step, hpanic, hloop] at hconsumed
  | checking => simp [step, hpanic, hloop, h.cancelled] at hcheck
  | exited =>
    cases hstop : s.stop with
    | idle => exact absurd hstop h.called
    | waiting => simp [step, hpanic, hloop, hstop] at hstopped
    | returned => rfl

end Startup

end Kafka

end MerkleService
