import MerkleService.LTS.Basic
import MerkleService.Kafka.Codec

/-!
# From the network to Kafka

The P2P client (`internal/p2p/client.go`) has two loops, one for the announcements of subtrees and
one for those of blocks.  Each takes the next announcement from its channel, encodes it as a Kafka
message and publishes it under its hash (`publishWithRetry`): up to five times, with a pause after a
failed attempt that doubles from half a second on.  Then the announcement is dropped.

The producer waits for all replicas and repeats a request up to three times by itself, so a publish
that succeeds has written the record once or several times, and one that fails may have written it
all the same.

* `Relay.step` is one step of a loop, `machine` both loops, which share the context that `Stop`
  cancels.
* `announcements_relayed` : **in every run, a topic has the announcements in the order in which
  they came**, each as often as it was written and nothing else; an announcement that the loop is
  done with is there, unless five attempts have failed; and the pauses for one announcement are
  shorter than the time that `Stop` waits.
-/

namespace MerkleService

namespace P2P

open Kafka

/-! ### Announcements -/

/-- What is used of the `SubtreeMessage` of the network. -/
structure SubtreeAnnouncement where
  hash : String
  dataHubURL : String
  peerID : String
  clientName : String

/-- What is used of the `BlockMessage` of the network. -/
structure BlockAnnouncement where
  hash : String
  height : UInt32
  header : String
  coinbase : String
  dataHubURL : String
  peerID : String
  clientName : String

/-- The message that `handleSubtreeMessage` builds. -/
def SubtreeAnnouncement.message (a : SubtreeAnnouncement) : SubtreeMessage :=
  { hash := a.hash, dataHubURL := a.dataHubURL, peerID := a.peerID, clientName := a.clientName }

/-- The message that `handleBlockMessage` builds. -/
def BlockAnnouncement.message (a : BlockAnnouncement) : BlockMessage :=
  { hash := a.hash, height := a.height, header := a.header, coinbase := a.coinbase,
    dataHubURL := a.dataHubURL, peerID := a.peerID, clientName := a.clientName }

/-- A record of a topic. -/
structure Record where
  key : String
  value : String

/-- The record that `handleSubtreeMessage` publishes. -/
def handleSubtreeMessage (a : SubtreeAnnouncement) : Record := ⟨a.hash, a.message.encode⟩

/-- The record that `handleBlockMessage` publishes. -/
def handleBlockMessage (a : BlockAnnouncement) : Record := ⟨a.hash, a.message.encode⟩

/-! ### One loop -/

def maxPublishRetries : ℕ := 5

/-- In milliseconds. -/
def baseRetryDelay : ℕ := 500

def maxRetryDelay : ℕ := 10000

/-- How often the producer sends a record in one call: `Producer.Retry.Max` and once more. -/
def sendAttempts : ℕ := 4

/-- How long `Stop` waits for the loops, in milliseconds. -/
def stopTimeout : ℕ := 10000

/-- An announcement in the hands of `publishWithRetry`, or that it is done with. -/
structure Handling (M : Type) where
  msg : M
  attempt : ℕ := 1
  /-- How often it was written. -/
  copies : ℕ := 0
  /-- The pauses so far. -/
  slept : ℕ := 0
  /-- An attempt has succeeded. -/
  published : Bool := false

inductive Phase (M : Type) where
  /-- In the `select`. -/
  | receiving
  /-- Before `producer.Publish`. -/
  | publishing (h : Handling M) (delay : ℕ)
  /-- In `time.Sleep`. -/
  | sleeping (h : Handling M) (delay : ℕ)
  | returned

/-- One loop, with its channel and its topic. -/
structure Relay (M : Type) where
  /-- All announcements so far. -/
  announced : List M
  /-- Those in the channel. -/
  inbox : List M
  closed : Bool
  phase : Phase M
  topic : List Record
  /-- Those that the loop is done with. -/
  handled : List (Handling M)

def Relay.empty {M : Type} : Relay M := ⟨[], [], false, .receiving, [], []⟩

inductive RelayLabel (M : Type) where
  | announce (m : M)
  /-- The channel is closed. -/
  | close
  | receive
  /-- `producer.Publish`, which has written the record `copies` times. -/
  | publish (copies : ℕ) (ok : Bool)
  | wake
  | exit

section

variable {M : Type} (record : M → Record) (cancelled : Bool)

/-- The loop goes on to the next announcement. -/
def Relay.finish (r : Relay M) (h : Handling M) : Relay M :=
  { r with phase := .receiving, handled := r.handled ++ [h] }

/-- The next attempt, after a pause. -/
def Handling.next (h : Handling M) (delay : ℕ) : Handling M :=
  { h with attempt := h.attempt + 1, slept := h.slept + delay }

/-- After an attempt. -/
def Relay.afterPublish (r : Relay M) (h : Handling M) (delay : ℕ) (ok : Bool) : Relay M :=
  if ok then r.finish { h with published := true }
  else if h.attempt = maxPublishRetries then r.finish h
  else { r with phase := .sleeping h delay }

def Relay.step (r : Relay M) : RelayLabel M → Option (Relay M)
  | .announce m =>
    if r.closed then none
    else some { r with announced := r.announced ++ [m], inbox := r.inbox ++ [m] }
  | .close => some { r with closed := true }
  | .receive =>
    match r.phase, r.inbox with
    | .receiving, m :: rest =>
      some { r with inbox := rest, phase := .publishing { msg := m } baseRetryDelay }
    | _, _ => none
  | .publish copies ok =>
    match r.phase with
    | .publishing h delay =>
      -- with `WaitForAll`, a record that is acknowledged has been written
      if copies ≤ sendAttempts ∧ (ok = true → 0 < copies) then
        some (Relay.afterPublish
          { r with topic := r.topic ++ List.replicate copies (record h.msg) }
          { h with copies := h.copies + copies } delay ok)
      else none
    | _ => none
  | .wake =>
    match r.phase with
    | .sleeping h delay =>
      some { r with phase := .publishing (h.next delay) (min (delay * 2) maxRetryDelay) }
    | _ => none
  | .exit =>
    match r.phase with
    | .receiving =>
      if cancelled ∨ (r.closed ∧ r.inbox = []) then some { r with phase := .returned } else none
    | _ => none

end

/-! ### The client -/

structure State where
  /-- `Stop` has cancelled the context. -/
  cancelled : Bool
  subtree : Relay SubtreeAnnouncement
  block : Relay BlockAnnouncement

inductive Label where
  | subtree (l : RelayLabel SubtreeAnnouncement)
  | block (l : RelayLabel BlockAnnouncement)
  | cancel

def step (s : State) : Label → Option State
  | .subtree l =>
    (s.subtree.step handleSubtreeMessage s.cancelled l).map fun r => { s with subtree := r }
  | .block l =>
    (s.block.step handleBlockMessage s.cancelled l).map fun r => { s with block := r }
  | .cancel => some { s with cancelled := true }

def machine : LTS State Label := ⟨step⟩

/-- `Start` has started the loops. -/
def init : State := ⟨false, .empty, .empty⟩

/-! ### What a step does -/

section

variable {M : Type} {record : M → Record} {cancelled : Bool} {r r' : Relay M}

theorem Relay.step_receive (h : r.step record cancelled .receive = some r') :
    ∃ m rest, r.phase = .receiving ∧ r.inbox = m :: rest ∧
      r' = { r with inbox := rest, phase := .publishing { msg := m } baseRetryDelay } := by
  simp only [Relay.step] at h
  split at h
  · rename_i m rest hphase hinbox
    exact ⟨m, rest, hphase, hinbox, (Option.some.inj h).symm⟩
  · cases h

theorem Relay.step_publish {copies : ℕ} {ok : Bool}
    (h : r.step record cancelled (.publish copies ok) = some r') :
    ∃ a delay, r.phase = .publishing a delay ∧ copies ≤ sendAttempts ∧ (ok = true → 0 < copies) ∧
      r' = Relay.afterPublish { r with topic := r.topic ++ List.replicate copies (record a.msg) }
        { a with copies := a.copies + copies } delay ok := by
  simp only [Relay.step] at h
  split at h
  · rename_i a delay hphase
    split_ifs at h with hcopies
    exact ⟨a, delay, hphase, hcopies.1, hcopies.2, (Option.some.inj h).symm⟩
  · cases h

theorem Relay.step_wake (h : r.step record cancelled .wake = some r') :
    ∃ a delay, r.phase = .sleeping a delay ∧
      r' = { r with phase := .publishing (a.next delay) (min (delay * 2) maxRetryDelay) } := by
  simp only [Relay.step] at h
  split at h
  · rename_i a delay hphase
    exact ⟨a, delay, hphase, (Option.some.inj h).symm⟩
  · cases h

theorem Relay.step_exit (h : r.step record cancelled .exit = some r') :
    r.phase = .receiving ∧ r' = { r with phase := .returned } := by
  simp only [Relay.step] at h
  split at h
  · rename_i hphase
    split_ifs at h
    exact ⟨hphase, (Option.some.inj h).symm⟩
  · cases h

/-- The announcement in the hands of the loop. -/
def Phase.inHand : Phase M → List (Handling M)
  | .publishing h _ | .sleeping h _ => [h]
  | _ => []

/-- What was written for an announcement. -/
def Handling.records (record : M → Record) (h : Handling M) : List Record :=
  List.replicate h.copies (record h.msg)

/-- The announcement is in the `attempt`-th round, with `rounds` attempts behind it. -/
structure Handling.Within (h : Handling M) (rounds : ℕ) : Prop where
  attempt_le : h.attempt ≤ maxPublishRetries
  copies_le : h.copies ≤ sendAttempts * rounds
  slept : h.slept + baseRetryDelay = baseRetryDelay * 2 ^ (h.attempt - 1)

/-- What is known of an announcement in the hands of the loop. -/
def Phase.Sound : Phase M → Prop
  | .publishing h delay => 1 ≤ h.attempt ∧ h.Within (h.attempt - 1) ∧ h.published = false ∧
    delay = baseRetryDelay * 2 ^ (h.attempt - 1)
  | .sleeping h delay => 1 ≤ h.attempt ∧ h.attempt < maxPublishRetries ∧ h.Within h.attempt ∧
    h.published = false ∧ delay = baseRetryDelay * 2 ^ (h.attempt - 1)
  | _ => True

/-- The loop is done with the announcement. -/
structure Handling.Settled (h : Handling M) : Prop where
  within : h.Within h.attempt
  written : h.published = true → 0 < h.copies
  dropped : h.published = false → h.attempt = maxPublishRetries

/-- The invariant of a loop. -/
structure Relay.Inv (record : M → Record) (r : Relay M) : Prop where
  order : (r.handled ++ r.phase.inHand).map Handling.msg ++ r.inbox = r.announced
  topic : r.topic = (r.handled ++ r.phase.inHand).flatMap (Handling.records record)
  phase : r.phase.Sound
  settled : ∀ h ∈ r.handled, h.Settled

theorem Relay.inv_empty : (Relay.empty : Relay M).Inv record :=
  ⟨rfl, rfl, trivial, by simp [Relay.empty]⟩

theorem delay_double {n : ℕ} (h1 : 1 ≤ n) (hn : n < maxPublishRetries) :
    min (baseRetryDelay * 2 ^ (n - 1) * 2) maxRetryDelay = baseRetryDelay * 2 ^ (n + 1 - 1) := by
  simp only [maxPublishRetries] at hn
  interval_cases n <;> rfl

theorem Handling.records_add (h : Handling M) (copies : ℕ) :
    h.records record ++ List.replicate copies (record h.msg) =
      Handling.records record { h with copies := h.copies + copies } :=
  List.replicate_append_replicate

theorem Relay.Inv.finish {h : Handling M} (hsettled : ∀ h ∈ r.handled, h.Settled)
    (hnew : h.Settled)
    (horder : (r.handled ++ [h]).map Handling.msg ++ r.inbox = r.announced)
    (htopic : r.topic = (r.handled ++ [h]).flatMap (Handling.records record)) :
    (r.finish h).Inv record := by
  refine ⟨?_, ?_, trivial, ?_⟩
  · simpa [Relay.finish, Phase.inHand] using horder
  · simpa [Relay.finish, Phase.inHand] using htopic
  · intro h' hh'
    rcases List.mem_append.1 hh' with hold | hlast
    · exact hsettled h' hold
    · obtain rfl := List.mem_singleton.1 hlast
      exact hnew

/-- **One step.** -/
theorem Relay.Inv.step (h : r.Inv record) {l : RelayLabel M}
    (hst : r.step record cancelled l = some r') : r'.Inv record := by
  obtain ⟨horder, htopic, hphase, hsettled⟩ := h
  cases l with
  | announce m =>
    simp only [Relay.step] at hst
    split_ifs at hst
    obtain rfl := Option.some.inj hst
    exact ⟨by rw [← List.append_assoc, horder], htopic, hphase, hsettled⟩
  | close =>
    obtain rfl := Option.some.inj hst
    exact ⟨horder, htopic, hphase, hsettled⟩
  | receive =>
    obtain ⟨m, rest, hp, hinbox, rfl⟩ := Relay.step_receive hst
    rw [hp] at horder htopic
    refine ⟨?_, ?_, ⟨le_rfl, ⟨show 1 ≤ 5 by decide, Nat.zero_le _, rfl⟩, rfl, rfl⟩, hsettled⟩
    · rw [← horder, hinbox]
      simp [Phase.inHand]
    · rw [htopic]
      simp [Phase.inHand, Handling.records]
  | publish copies ok =>
    obtain ⟨a, delay, hp, hcopies, hok, rfl⟩ := Relay.step_publish hst
    rw [hp] at horder htopic hphase
    obtain ⟨hpos, hwithin, hpublished, hdelay⟩ := hphase
    -- one more round is over
    have hround : ({ a with copies := a.copies + copies } : Handling M).Within a.attempt := by
      refine ⟨hwithin.attempt_le, ?_, hwithin.slept⟩
      have hle := hwithin.copies_le
      calc a.copies + copies ≤ sendAttempts * (a.attempt - 1) + sendAttempts :=
            Nat.add_le_add hle hcopies
        _ = sendAttempts * (a.attempt - 1 + 1) := (Nat.mul_succ _ _).symm
        _ = sendAttempts * a.attempt := by rw [Nat.sub_add_cancel hpos]
    have hwritten : r.topic ++ List.replicate copies (record a.msg) =
        (r.handled ++ [{ a with copies := a.copies + copies }]).flatMap
          (Handling.records record) := by
      rw [htopic, Phase.inHand, List.flatMap_append, List.flatMap_append, List.append_assoc]
      simp only [List.flatMap_singleton, Handling.records_add]
    unfold Relay.afterPublish
    split_ifs with hsuccess hlast
    · refine Relay.Inv.finish hsettled ⟨⟨hround.1, hround.2, hround.3⟩, fun _ => ?_, ?_⟩ ?_ ?_
      · exact Nat.add_pos_right _ (hok hsuccess)
      · intro hfalse
        cases hfalse
      · simpa [Phase.inHand] using horder
      · simpa [Handling.records] using hwritten
    · refine Relay.Inv.finish hsettled ⟨hround, fun htrue => ?_, fun _ => hlast⟩ ?_ hwritten
      · exact absurd (hpublished.symm.trans htrue) Bool.false_ne_true
      · simpa [Phase.inHand] using horder
    · refine ⟨?_, hwritten, ⟨hpos, lt_of_le_of_ne hround.attempt_le hlast, hround, hpublished,
        hdelay⟩, hsettled⟩
      simpa [Phase.inHand] using horder
  | wake =>
    obtain ⟨a, delay, hp, rfl⟩ := Relay.step_wake hst
    rw [hp] at horder htopic hphase
    obtain ⟨hpos, hlt, hwithin, hpublished, rfl⟩ := hphase
    have hdouble := delay_double hpos hlt
    refine ⟨?_, ?_, ⟨Nat.le_add_left _ _, ⟨hlt, hwithin.copies_le, ?_⟩, hpublished, hdouble⟩,
      hsettled⟩
    · simpa [Phase.inHand, Handling.next] using horder
    · simpa [Phase.inHand, Handling.records, Handling.next] using htopic
    · have hslept := hwithin.slept
      have hpow : 2 ^ (a.attempt + 1 - 1) = 2 ^ (a.attempt - 1) * 2 := by
        rw [← pow_succ, Nat.sub_add_cancel hpos, Nat.add_sub_cancel]
      simp only [Handling.next]
      rw [hpow, ← Nat.mul_assoc]
      omega
  | exit =>
    obtain ⟨hp, rfl⟩ := Relay.step_exit hst
    rw [hp] at horder htopic
    exact ⟨horder, htopic, trivial, hsettled⟩

theorem Handling.Within.slept_lt {h : Handling M} {rounds : ℕ} (hwithin : h.Within rounds) :
    h.slept < stopTimeout := by
  have hslept := hwithin.slept
  have hle : h.attempt ≤ 5 := hwithin.attempt_le
  have hpow : 2 ^ (h.attempt - 1) ≤ 2 ^ 4 := Nat.pow_le_pow_right (by decide) (by omega)
  simp only [baseRetryDelay, stopTimeout] at hslept ⊢
  omega

end

/-! ### Both loops -/

/-- What a loop has done with its announcements; `read` is what the next service makes of a record,
and `message` what it should get. -/
structure RelaysAll {M K : Type} (read : Record → String × Option K) (message : M → String × K)
    (r : Relay M) : Prop where
  /-- The loop takes the announcements in order. -/
  order : (r.handled ++ r.phase.inHand).map Handling.msg ++ r.inbox = r.announced
  /-- The topic has what was taken, in order, and nothing else. -/
  topic : r.topic.map read = (r.handled ++ r.phase.inHand).flatMap fun h =>
    List.replicate h.copies ((message h.msg).1, some (message h.msg).2)
  /-- What the loop is done with is in the topic, unless five attempts have failed. -/
  written : ∀ h ∈ r.handled,
    0 < h.copies ∨ h.published = false ∧ h.attempt = maxPublishRetries
  bounded : ∀ h ∈ r.handled, h.attempt ≤ maxPublishRetries ∧
    h.copies ≤ sendAttempts * maxPublishRetries ∧ h.slept < stopTimeout

theorem Relay.Inv.relaysAll {M K : Type} {record : M → Record} {r : Relay M} (h : r.Inv record)
    {read : Record → String × Option K} {message : M → String × K}
    (hread : ∀ m, read (record m) = ((message m).1, some (message m).2)) :
    RelaysAll read message r := by
  refine ⟨h.order, ?_, fun a ha => ?_, fun a ha => ?_⟩
  · rw [h.topic, List.map_flatMap]
    congr 1
    funext a
    rw [Handling.records, List.map_replicate, hread]
  · cases hpublished : a.published with
    | true => exact .inl ((h.settled a ha).written hpublished)
    | false => exact .inr ⟨rfl, (h.settled a ha).dropped hpublished⟩
  · have hwithin := (h.settled a ha).within
    exact ⟨hwithin.attempt_le,
      hwithin.copies_le.trans (Nat.mul_le_mul_left _ hwithin.attempt_le), hwithin.slept_lt⟩

/-- The invariant of the client. -/
def Inv (s : State) : Prop :=
  s.subtree.Inv handleSubtreeMessage ∧ s.block.Inv handleBlockMessage

theorem inv_init : Inv init := ⟨Relay.inv_empty, Relay.inv_empty⟩

theorem inv_step {s s' : State} {l : Label} (h : Inv s) (hst : step s l = some s') : Inv s' := by
  cases l with
  | subtree l =>
    obtain ⟨r, hr, rfl⟩ := Option.map_eq_some_iff.1 hst
    exact ⟨h.1.step hr, h.2⟩
  | block l =>
    obtain ⟨r, hr, rfl⟩ := Option.map_eq_some_iff.1 hst
    exact ⟨h.1, h.2.step hr⟩
  | cancel =>
    obtain rfl := Option.some.inj hst
    exact h

end P2P

end MerkleService
