import MerkleService.Subtree.Processor

/-!
# The retry loop of an announcement

When an announcement of a subtree cannot be processed, `handleTransientFailure`
(`internal/subtree/processor.go`) publishes it again on the topic that it came from, with
`AttemptCount` raised by one, and to a dead-letter queue when `AttemptCount` reaches the limit.
Here the copies of one announcement are followed through the topic, the handler and the DLQ.  A copy
is consumed once; when the handler returns an error it is not acknowledged, and stays on the topic.

`AttemptCount` is a Go `int`, here of 64 bits.

* `Loop` : where the copies are.  Between two copies any other messages can be handled.
* `Following` : the invariant.
* `retry_loop_iff` : **there is one copy, counted up to the limit, if and only if the announcement
  does not arrive with the largest `int`**, whose successor is the smallest.
* `retry_loop_overflow` : an announcement that does.
-/

namespace MerkleService

namespace Subtree

open Kafka

structure Loop where
  /-- The processor, which other announcements use as well. -/
  fetcher : Fetcher
  /-- The copies on the topic that have not been consumed. -/
  topic : List SubtreeMessage
  /-- The copies on the topic for which the handler has returned an error. -/
  unacknowledged : List SubtreeMessage
  processed : ℕ
  skipped : ℕ
  dlq : List SubtreeMessage
  /-- All copies that have been on the topic. -/
  history : List SubtreeMessage
  /-- The copies that have been consumed. -/
  attempts : ℕ

inductive LoopLabel where
  /-- The copy with number `k` on the topic is handled. -/
  | consume (k : ℕ) (ans : Answers)
  /-- Other messages are handled. -/
  | other (fetcher : Fetcher)

/-- The copies after `subtreeMsg` has been handled. -/
def Loop.settle (s : Loop) (subtreeMsg : SubtreeMessage) : Outcome → Loop
  | .malformed => s
  | .duplicate => { s with skipped := s.skipped + 1 }
  | .processed _ => { s with processed := s.processed + 1 }
  | .republished msg none => { s with topic := s.topic ++ [msg], history := s.history ++ [msg] }
  | .deadLettered msg none => { s with dlq := s.dlq ++ [msg] }
  | .republished _ (some _) | .deadLettered _ (some _) =>
    { s with unacknowledged := s.unacknowledged ++ [subtreeMsg] }

section

variable (sum64 : List UInt8 → UInt64) (cfg : SubtreeConfig)

def Loop.step (s : Loop) : LoopLabel → Option Loop
  | .consume k ans => do
    let subtreeMsg ← s.topic[k]?
    let (fetcher, out) ← handleMessage sum64 cfg ans s.fetcher (.ok subtreeMsg)
    let s := { s with fetcher := fetcher, topic := s.topic.eraseIdx k, attempts := s.attempts + 1 }
    some (s.settle subtreeMsg out)
  | .other fetcher => some { s with fetcher := fetcher }

def loopMachine : LTS Loop LoopLabel := ⟨Loop.step sum64 cfg⟩

end

/-- The announcement is on the topic. -/
def Loop.start (fetcher : Fetcher) (msg : SubtreeMessage) : Loop where
  fetcher := fetcher
  topic := [msg]
  unacknowledged := []
  processed := 0
  skipped := 0
  dlq := []
  history := [msg]
  attempts := 0

/-- The copies of `msg` are neither lost nor multiplied, and counted. -/
structure Loop.Sound (cfg : SubtreeConfig) (msg : SubtreeMessage) (s : Loop) : Prop where
  /-- One copy is on the topic, or it was processed or skipped once, or one copy is on the DLQ. -/
  one : s.topic.length + s.unacknowledged.length + (s.processed + s.skipped) + s.dlq.length = 1
  /-- The copies differ in `AttemptCount` only, which grows by one with each. -/
  counted : ∀ (i : ℕ) (m : SubtreeMessage), s.history[i]? = some m →
    m.attemptCount.toInt = msg.attemptCount.toInt + i ∧
      { m with attemptCount := msg.attemptCount } = msg
  bounded : (s.attempts : ℤ) ≤ max 1 (cfg.attempts.toInt - msg.attemptCount.toInt)
  deadLettered : ∀ m ∈ s.dlq,
    m.attemptCount.toInt = max cfg.attempts.toInt (msg.attemptCount.toInt + 1) ∧
      { m with attemptCount := msg.attemptCount } = msg

/-- A failure to hand the message on is returned. -/
def ReturnsErrors (sum64 : List UInt8 → UInt64) (cfg : SubtreeConfig) : Prop :=
  ∀ ans f msg f' out, handleMessage sum64 cfg ans f (.ok msg) = some (f', out) →
    (∀ m err, out = .republished m err ∨ out = .deadLettered m err →
      (out.err = none ↔ ans.encodeErr = none ∧ ans.publishErr = none))

/-! ### One failure -/

theorem attempts_pos (cfg : SubtreeConfig) : 0 < cfg.attempts.toInt := by
  unfold SubtreeConfig.attempts
  split_ifs with h
  · decide
  · have hlt := Int64.lt_iff_toInt_lt.1 (Int64.not_le.1 h)
    simpa using hlt

theorem handOnErr_eq_none {ans : Answers} {encoding publishing : String} :
    handOnErr ans encoding publishing = none ↔ ans.encodeErr = none ∧ ans.publishErr = none := by
  unfold handOnErr
  cases ans.encodeErr <;> simp

/-- What a failure does with the message. -/
inductive Handed (cfg : SubtreeConfig) (msg : SubtreeMessage) : Outcome → Prop
  | republished (err : Option String) : ¬ cfg.attempts ≤ msg.attemptCount + 1 →
      Handed cfg msg (.republished { msg with attemptCount := msg.attemptCount + 1 } err)
  | deadLettered (err : Option String) : cfg.attempts ≤ msg.attemptCount + 1 →
      Handed cfg msg (.deadLettered { msg with attemptCount := msg.attemptCount + 1 } err)

theorem handleTransientFailure_handed (cfg : SubtreeConfig) (ans : Answers) (f : Fetcher)
    (msg : SubtreeMessage) : Handed cfg msg (handleTransientFailure cfg ans f msg).2 ∧
      ((handleTransientFailure cfg ans f msg).2.err = none ↔
        ans.encodeErr = none ∧ ans.publishErr = none) := by
  unfold handleTransientFailure
  dsimp only
  by_cases hmax : cfg.attempts ≤ msg.attemptCount + 1
  · rw [if_pos hmax]
    exact ⟨.deadLettered _ hmax, handOnErr_eq_none⟩
  · rw [if_neg hmax]
    exact ⟨.republished _ hmax, handOnErr_eq_none⟩

/-- **What the handler does with a copy**: it is skipped, processed or handed on. -/
theorem handleMessage_cases {sum64 : List UInt8 → UInt64} {cfg : SubtreeConfig} {ans : Answers}
    {f f' : Fetcher} {msg : SubtreeMessage} {out : Outcome}
    (h : handleMessage sum64 cfg ans f (.ok msg) = some (f', out)) :
    out = .duplicate ∨ (∃ emission, out = .processed emission) ∨
      Handed cfg msg out ∧ (out.err = none ↔ ans.encodeErr = none ∧ ans.publishErr = none) := by
  have hfail : ∀ f₁, some (handleTransientFailure cfg ans f₁ msg) = some (f', out) →
      Handed cfg msg out ∧ (out.err = none ↔ ans.encodeErr = none ∧ ans.publishErr = none) := by
    intro f₁ heq
    have hout : (handleTransientFailure cfg ans f₁ msg).2 = out :=
      congrArg Prod.snd (Option.some.inj heq)
    rw [← hout]
    exact handleTransientFailure_handed cfg ans f₁ msg
  unfold handleMessage at h
  dsimp only at h
  by_cases hdup : f.contains msg.hash = true
  · rw [if_pos hdup] at h
    exact Or.inl (Prod.mk.inj (Option.some.inj h)).2.symm
  rw [if_neg hdup] at h
  split at h
  · exact Or.inr (Or.inr (hfail _ h))
  split_ifs at h
  · exact Or.inr (Or.inr (hfail _ h))
  split at h
  · exact Or.inr (Or.inr (hfail _ h))
  split_ifs at h
  · exact Or.inr (Or.inl ⟨_, (Prod.mk.inj (Option.some.inj h)).2.symm⟩)
  · obtain ⟨⟨p, found⟩, -, h⟩ := Option.bind_eq_some_iff.1 h
    dsimp only at h
    split at h
    · exact Or.inr (Or.inr (hfail _ h))
    · exact Or.inr (Or.inl ⟨_, (Prod.mk.inj (Option.some.inj h)).2.symm⟩)

theorem returnsErrors (sum64 : List UInt8 → UInt64) (cfg : SubtreeConfig) :
    ReturnsErrors sum64 cfg := by
  intro ans f msg f' out h m err hout
  rcases handleMessage_cases h with rfl | ⟨emission, rfl⟩ | ⟨-, herr⟩
  · rcases hout with hout | hout <;> cases hout
  · rcases hout with hout | hout <;> cases hout
  · exact herr

/-! ### The invariant -/

/-- Where the copies are when `n` of them have been on the topic: the last one is on the topic,
consumed or not, or was the last attempt. -/
inductive Loop.Whereabouts (cfg : SubtreeConfig) (msg : SubtreeMessage) (s : Loop) : Prop
  | waiting (m : SubtreeMessage) : s.topic = [m] → s.history.getLast? = some m →
      s.unacknowledged = [] → s.processed + s.skipped = 0 → s.dlq = [] →
      s.attempts + 1 = s.history.length → s.Whereabouts cfg msg
  | stalled (m : SubtreeMessage) : s.topic = [] → s.unacknowledged = [m] →
      s.processed + s.skipped = 0 → s.dlq = [] → s.attempts = s.history.length →
      s.Whereabouts cfg msg
  | settled : s.topic = [] → s.unacknowledged = [] → s.processed + s.skipped = 1 → s.dlq = [] →
      s.attempts = s.history.length → s.Whereabouts cfg msg
  | dead (m : SubtreeMessage) : s.topic = [] → s.unacknowledged = [] → s.processed + s.skipped = 0 →
      s.dlq = [m] → m.attemptCount.toInt = msg.attemptCount.toInt + s.history.length →
      { m with attemptCount := msg.attemptCount } = msg →
      cfg.attempts.toInt ≤ msg.attemptCount.toInt + s.history.length →
      s.attempts = s.history.length → s.Whereabouts cfg msg

structure Following (cfg : SubtreeConfig) (msg : SubtreeMessage) (s : Loop) : Prop where
  pos : 0 < s.history.length
  counted : ∀ (i : ℕ) (m : SubtreeMessage), s.history[i]? = some m →
    m.attemptCount.toInt = msg.attemptCount.toInt + i ∧
      { m with attemptCount := msg.attemptCount } = msg
  /-- A copy is published again only below the limit. -/
  below : s.history.length = 1 ∨
    msg.attemptCount.toInt + s.history.length - 1 < cfg.attempts.toInt
  whereabouts : s.Whereabouts cfg msg

theorem following_start (cfg : SubtreeConfig) (f : Fetcher) (msg : SubtreeMessage) :
    Following cfg msg (.start f msg) where
  pos := Nat.one_pos
  counted := by
    intro i m hm
    cases i with
    | zero =>
      obtain rfl := Option.some.inj hm
      exact ⟨by simp, rfl⟩
    | succ i => cases hm
  below := Or.inl rfl
  whereabouts := .waiting msg rfl rfl rfl rfl rfl rfl

theorem Following.sound {cfg : SubtreeConfig} {msg : SubtreeMessage} {s : Loop}
    (h : Following cfg msg s) : s.Sound cfg msg := by
  obtain ⟨hpos, hcounted, hbelow, hwhere⟩ := h
  have hbounded : s.attempts ≤ s.history.length →
      (s.attempts : ℤ) ≤ max 1 (cfg.attempts.toInt - msg.attemptCount.toInt) := by
    intro hle
    rcases hbelow with hone | hlt <;> omega
  cases hwhere with
  | waiting m htopic _ hun hset hdlq hatt =>
    exact ⟨by simp [htopic, hun, hset, hdlq], hcounted, hbounded (by omega), by simp [hdlq]⟩
  | stalled m htopic hun hset hdlq hatt =>
    exact ⟨by simp [htopic, hun, hset, hdlq], hcounted, hbounded hatt.le, by simp [hdlq]⟩
  | settled htopic hun hset hdlq hatt =>
    exact ⟨by simp [htopic, hun, hset, hdlq], hcounted, hbounded hatt.le, by simp [hdlq]⟩
  | dead m htopic hun hset hdlq hm hfields hlimit hatt =>
    refine ⟨by simp [htopic, hun, hset, hdlq], hcounted, hbounded hatt.le, ?_⟩
    intro m' hm'
    rw [hdlq] at hm'
    obtain rfl := List.mem_singleton.1 hm'
    refine ⟨?_, hfields⟩
    rcases hbelow with hone | hlt <;> omega

theorem Following.next {cfg : SubtreeConfig} {msg m : SubtreeMessage} {s : Loop}
    (h : Following cfg msg s) (hmax : msg.attemptCount ≠ Int64.maxValue)
    (hlast : s.history.getLast? = some m) :
    (m.attemptCount + 1).toInt = msg.attemptCount.toInt + s.history.length ∧
      { m with attemptCount := msg.attemptCount } = msg := by
  have hpos := h.pos
  rw [List.getLast?_eq_getElem?] at hlast
  obtain ⟨hcount, hfields⟩ := h.counted _ _ hlast
  refine ⟨?_, hfields⟩
  have hne : m.attemptCount ≠ Int64.maxValue := by
    intro heq
    rcases h.below with hone | hlt
    · have hsame : m.attemptCount = msg.attemptCount :=
        Int64.toInt_inj.1 (by rw [hcount, hone]; simp)
      exact hmax (hsame ▸ heq)
    · have hle := Int64.toInt_le cfg.attempts
      rw [heq] at hcount
      omega
  rw [toInt_succ hne, hcount]
  omega

theorem Following.consumed {cfg : SubtreeConfig} {msg : SubtreeMessage} {s s' : Loop}
    (h : Following cfg msg s) (hhistory : s'.history = s.history)
    (hwhere : s'.Whereabouts cfg msg) : Following cfg msg s' where
  pos := hhistory ▸ h.pos
  counted := hhistory ▸ h.counted
  below := hhistory ▸ h.below
  whereabouts := hwhere

/-- **The invariant is kept** by the handler, unless `AttemptCount` overflows. -/
theorem following_step {sum64 : List UInt8 → UInt64} {cfg : SubtreeConfig} {msg : SubtreeMessage}
    (hmax : msg.attemptCount ≠ Int64.maxValue) {s s' : Loop} {l : LoopLabel}
    (h : Following cfg msg s) (hst : s.step sum64 cfg l = some s') : Following cfg msg s' := by
  cases l with
  | other fetcher =>
    obtain rfl := Option.some.inj hst
    refine h.consumed rfl ?_
    cases h.whereabouts with
    | waiting m h₁ h₂ h₃ h₄ h₅ h₆ => exact .waiting m h₁ h₂ h₃ h₄ h₅ h₆
    | stalled m h₁ h₂ h₃ h₄ h₅ => exact .stalled m h₁ h₂ h₃ h₄ h₅
    | settled h₁ h₂ h₃ h₄ h₅ => exact .settled h₁ h₂ h₃ h₄ h₅
    | dead m h₁ h₂ h₃ h₄ h₅ h₆ h₇ h₈ => exact .dead m h₁ h₂ h₃ h₄ h₅ h₆ h₇ h₈
  | consume k ans =>
    obtain ⟨m, hm, hst⟩ := Option.bind_eq_some_iff.1 hst
    obtain ⟨⟨f', out⟩, hhandle, hst⟩ := Option.bind_eq_some_iff.1 hst
    obtain rfl := Option.some.inj hst
    -- only a copy that has not been consumed is on the topic
    obtain ⟨htopic, hlast, hun, hset, hdlq, hatt⟩ : s.topic = [m] ∧ s.history.getLast? = some m ∧
        s.unacknowledged = [] ∧ s.processed + s.skipped = 0 ∧ s.dlq = [] ∧
        s.attempts + 1 = s.history.length := by
      cases h.whereabouts with
      | waiting m₀ htopic hlast hun hset hdlq hatt =>
        have hmem := List.mem_of_getElem? hm
        rw [htopic] at hmem
        obtain rfl := List.mem_singleton.1 hmem
        exact ⟨htopic, hlast, hun, hset, hdlq, hatt⟩
      | stalled _ htopic | settled htopic | dead _ htopic => simp [htopic] at hm
    have hk : k = 0 := by
      have hlt := (List.getElem?_eq_some_iff.1 hm).1
      rw [htopic] at hlt
      simpa using hlt
    have herase : s.topic.eraseIdx k = [] := by rw [hk, htopic]; rfl
    obtain ⟨hnext, hfields⟩ := h.next hmax hlast
    rcases handleMessage_cases hhandle with rfl | ⟨emission, rfl⟩ | ⟨hhanded, -⟩
    · exact h.consumed rfl (.settled herase hun (by simp only [Loop.settle]; omega) hdlq hatt)
    · exact h.consumed rfl (.settled herase hun (by simp only [Loop.settle]; omega) hdlq hatt)
    · cases hhanded with
      | deadLettered err hlimit =>
        cases err with
        | some err =>
          exact h.consumed rfl (.stalled m herase (by simp [Loop.settle, hun]) hset hdlq hatt)
        | none =>
          refine h.consumed rfl (.dead { m with attemptCount := m.attemptCount + 1 } herase hun hset
            (by simp [Loop.settle, hdlq]) hnext hfields ?_ hatt)
          have hle := Int64.le_iff_toInt_le.1 hlimit
          rwa [hnext] at hle
      | republished err hlimit =>
        cases err with
        | some err =>
          exact h.consumed rfl (.stalled m herase (by simp [Loop.settle, hun]) hset hdlq hatt)
        | none =>
          have hlt : msg.attemptCount.toInt + s.history.length < cfg.attempts.toInt := by
            rw [Int64.le_iff_toInt_le, hnext] at hlimit
            omega
          refine ⟨by simp [Loop.settle], ?_, Or.inr (by simp [Loop.settle]; omega), ?_⟩
          · intro i x hx
            rcases lt_or_ge i s.history.length with hi | hi
            · exact h.counted i x ((List.getElem?_append_left hi).symm.trans hx)
            · obtain rfl : i = s.history.length := by
                have hlen := (List.getElem?_eq_some_iff.1 hx).1
                simp only [Loop.settle, List.length_append, List.length_singleton] at hlen
                omega
              obtain rfl := Option.some.inj (List.getElem?_concat_length.symm.trans hx)
              exact ⟨hnext, hfields⟩
          · exact .waiting { m with attemptCount := m.attemptCount + 1 }
              (by simp [Loop.settle, herase])
              (by simp [Loop.settle]) hun hset hdlq (by simp [Loop.settle, hatt])

/-! ### The overflow -/

/-- DataHub does not answer. -/
def unreachable : Answers := { answersAB with fetch := .error "connection refused" }

/-- The largest `AttemptCount` is below every limit when it is raised. -/
theorem unsound_of_maxValue (sum64 : List UInt8 → UInt64) (cfg : SubtreeConfig)
    {msg : SubtreeMessage} (hmax : msg.attemptCount = Int64.maxValue) :
    ∃ s, (loopMachine sum64 cfg).Reachable (.start uncachedFetcher msg) s ∧ ¬ s.Sound cfg msg := by
  have hpos := attempts_pos cfg
  have hlimit : ¬ cfg.attempts ≤ Int64.maxValue + 1 := by
    intro hle
    have hle' := Int64.le_iff_toInt_le.1 hle
    have hmin : (Int64.maxValue + 1).toInt = -2 ^ 63 := by decide
    omega
  have hhandle : handleMessage sum64 cfg unreachable uncachedFetcher (.ok msg) =
      some (handleTransientFailure cfg unreachable uncachedFetcher msg) := rfl
  have hout : handleTransientFailure cfg unreachable uncachedFetcher msg =
      ({ uncachedFetcher with messagesRetried := 1 },
        .republished { msg with attemptCount := Int64.maxValue + 1 } none) := by
    unfold handleTransientFailure
    rw [hmax]
    exact if_neg hlimit
  have hst : (loopMachine sum64 cfg).step (.start uncachedFetcher msg) (.consume 0 unreachable) =
      some { Loop.start { uncachedFetcher with messagesRetried := 1 } msg with
        topic := [{ msg with attemptCount := Int64.maxValue + 1 }]
        history := [msg, { msg with attemptCount := Int64.maxValue + 1 }]
        attempts := 1 } := by
    simp [loopMachine, Loop.step, Loop.start, hhandle, hout, Loop.settle]
  refine ⟨_, LTS.Run.start.next trivial hst, ?_⟩
  intro hsound
  have hcount := (hsound.counted 1 _ rfl).1
  have hwrap : (Int64.maxValue + 1).toInt ≠ Int64.maxValue.toInt + 1 := by decide
  rw [hmax] at hcount
  exact hwrap hcount

/-- The copies of the announcement are neither lost nor multiplied, from any state of the processor,
and a failure to hand one on is returned. -/
def RetriesSoundly (sum64 : List UInt8 → UInt64) (cfg : SubtreeConfig) (msg : SubtreeMessage) :
    Prop :=
  (∀ f s, (loopMachine sum64 cfg).Reachable (.start f msg) s → s.Sound cfg msg) ∧
    ReturnsErrors sum64 cfg

/-- **The retry loop.**  For every limit and every announcement, whatever happens to its copies and
between them: there is always one copy, or it was processed or skipped once, or is on the DLQ; its
`AttemptCount` grows by one with each publication, the attempts are bounded, a copy on the DLQ has
reached the limit, and a failure to publish is returned; if and only if the announcement does not
arrive with the largest `AttemptCount`. -/
theorem retry_loop_iff (sum64 : List UInt8 → UInt64) (cfg : SubtreeConfig) (msg : SubtreeMessage) :
    RetriesSoundly sum64 cfg msg ↔ msg.attemptCount ≠ Int64.maxValue := by
  constructor
  · rintro ⟨hsound, -⟩ hmax
    obtain ⟨s, hs, hunsound⟩ := unsound_of_maxValue sum64 cfg hmax
    exact hunsound (hsound _ s hs)
  · intro hmax
    refine ⟨?_, returnsErrors sum64 cfg⟩
    intro f s hs
    have hinv : Following cfg msg s :=
      hs.invariant (following_start cfg f msg) fun _ _ _ h _ hst => following_step hmax h hst
    exact hinv.sound

def countedOut : SubtreeMessage := ⟨"s", "", "", "", Int64.maxValue⟩

/-- An announcement with the largest `AttemptCount` fails once. -/
theorem retry_loop_overflow :
    ¬ ∀ (sum64 : List UInt8 → UInt64) (cfg : SubtreeConfig) (msg : SubtreeMessage),
      0 ≤ msg.attemptCount → RetriesSoundly sum64 cfg msg := by
  intro h
  have hmax : countedOut.attemptCount = Int64.maxValue := rfl
  obtain ⟨s, hs, hunsound⟩ := unsound_of_maxValue sum64AB tenAttempts hmax
  exact hunsound ((h sum64AB tenAttempts countedOut (by decide)).1 _ s hs)

end Subtree

end MerkleService
