import MerkleService.Data.List

/-!
# The consumer group handler and committed offsets

`consumerGroupHandler.ConsumeClaim` (`internal/kafka/consumer.go`) is the loop that every service
runs over the messages of a claimed partition: it calls the service's handler, logs and goes on
when the handler fails, and marks the message when it succeeds.  In sarama a mark covers everything
up to and including the message, so the group resumes after a restart or a rebalance at the highest
marked offset plus one.

* `consumeClaim` is the loop of one session; `resume` is the position after a sequence of
  sessions, each of which starts where the previous one left the mark.
* `not_committed_away_iff` : no failed message is passed by the mark **iff** in every session no
  message is handled successfully after a failed one.
* `failed_message_committed_away` : a failure followed by a success loses the failed message.
-/

namespace MerkleService

namespace Kafka

/-- A message of the claimed partition (`sarama.ConsumerMessage`). -/
structure ConsumerMessage where
  offset : ℕ
  value : List UInt8

/-- What the `select` of `ConsumeClaim` receives: a message, with what the handler returns for it
(`some e` for the error `e`), or the end of the session's context. -/
inductive Event where
  | message (msg : ConsumerMessage) (err : Option String)
  | contextDone

/-- The part of `sarama.ConsumerGroupSession` that matters for one partition: the offset from
which the group resumes, which is one past the highest marked offset. -/
structure Session where
  next : ℕ

/-- `MarkMessage`: everything up to and including `msg` is marked as consumed. -/
def Session.markMessage (s : Session) (msg : ConsumerMessage) : Session :=
  ⟨max s.next (msg.offset + 1)⟩

/-- `ConsumeClaim`, until the channel of messages is closed (the list ends) or the session's
context is done. -/
def consumeClaim (s : Session) : List Event → Session
  | [] => s
  | .contextDone :: _ => s
  -- the error is logged and the loop continues with the next message
  | .message _ (some _) :: rest => consumeClaim s rest
  | .message msg none :: rest => consumeClaim (s.markMessage msg) rest

/-- The handler calls of a session: offset and whether the handler succeeded. -/
def handled : List Event → List (ℕ × Bool)
  | [] => []
  | .contextDone :: _ => []
  | .message msg err :: rest => (msg.offset, err.isNone) :: handled rest

/-! ### Sessions over one partition -/

/-- The position from which the group resumes after the given sessions, the first of which was
handed the partition at position `p`. -/
def resume (p : ℕ) : List (List Event) → ℕ
  | [] => p
  | evs :: rest => resume (consumeClaim ⟨p⟩ evs).next rest

/-- A session that starts at `p` is sent the messages of the partition in order, beginning with the
first one at or after `p`.  `log` holds the offsets present in the partition, in order. -/
def Delivers (log : List ℕ) (p : ℕ) (evs : List Event) : Prop :=
  (handled evs).map Prod.fst <+: log.filter (p ≤ ·)

/-- Every session is sent what the broker holds from its start position on. -/
def ValidRun (log : List ℕ) (p : ℕ) : List (List Event) → Prop
  | [] => True
  | evs :: rest => Delivers log p evs ∧ ValidRun log (consumeClaim ⟨p⟩ evs).next rest

/-- All handler calls of the sessions, in order. -/
def history (sessions : List (List Event)) : List (ℕ × Bool) := sessions.flatMap handled

/-- The handler failed at offset `o` and has not succeeded there since. -/
def Unresolved (hist : List (ℕ × Bool)) (o : ℕ) : Prop :=
  ∃ before after, hist = before ++ (o, false) :: after ∧ (o, true) ∉ after

/-- The committed position has not passed a failed message. -/
def NotCommittedAway (p : ℕ) (sessions : List (List Event)) : Prop :=
  ∀ o, Unresolved (history sessions) o → resume p sessions ≤ o

/-- No message of the session is handled successfully after a failed one. -/
def NoSuccessAfterFailure (evs : List Event) : Prop :=
  (handled evs).Pairwise fun a b => a.2 = false → b.2 = false

/-! ### The mark of one session -/

theorem consumeClaim_next_le {evs : List Event} {p q : ℕ} :
    (consumeClaim ⟨p⟩ evs).next ≤ q ↔ p ≤ q ∧ ∀ o, (o, true) ∈ handled evs → o < q := by
  induction evs generalizing p with
  | nil => simp [consumeClaim, handled]
  | cons e rest ih =>
    cases e with
    | contextDone => simp [consumeClaim, handled]
    | message msg err =>
      cases err with
      | some e => simp [consumeClaim, handled, ih]
      | none =>
        simp only [consumeClaim, Session.markMessage, ih, handled, Option.isNone_none,
          List.mem_cons, Prod.mk.injEq, and_true]
        constructor
        · rintro ⟨hp, hrest⟩
          refine ⟨by omega, ?_⟩
          rintro o (rfl | ho)
          · omega
          · exact hrest o ho
        · rintro ⟨hp, hall⟩
          have hmsg := hall msg.offset (Or.inl rfl)
          exact ⟨by omega, fun o ho => hall o (Or.inr ho)⟩

theorem le_consumeClaim_next (evs : List Event) (p : ℕ) : p ≤ (consumeClaim ⟨p⟩ evs).next :=
  (consumeClaim_next_le.1 le_rfl).1

theorem lt_consumeClaim_next {evs : List Event} {p o : ℕ} (h : (o, true) ∈ handled evs) :
    o < (consumeClaim ⟨p⟩ evs).next :=
  (consumeClaim_next_le.1 le_rfl).2 o h

theorem le_resume (sessions : List (List Event)) (p : ℕ) : p ≤ resume p sessions := by
  induction sessions generalizing p with
  | nil => exact le_rfl
  | cons evs rest ih => exact (le_consumeClaim_next evs p).trans (ih _)

section Log

variable {log : List ℕ} (hlog : log.Pairwise (· < ·))
include hlog

theorem Delivers.sorted {p : ℕ} {evs : List Event} (h : Delivers log p evs) :
    (handled evs).Pairwise fun a b => a.1 < b.1 := by
  have hs : (log.filter (p ≤ ·)).Pairwise (· < ·) := hlog.sublist List.filter_sublist
  have := hs.sublist h.sublist
  rwa [List.pairwise_map] at this

omit hlog in
theorem Delivers.le {p : ℕ} {evs : List Event} (h : Delivers log p evs) {d : ℕ × Bool}
    (hd : d ∈ handled evs) : p ≤ d.1 := by
  have := h.subset (List.mem_map_of_mem (f := Prod.fst) hd)
  simpa using (List.mem_filter.1 this).2

omit hlog in
theorem Delivers.mem_log {p : ℕ} {evs : List Event} (h : Delivers log p evs) {d : ℕ × Bool}
    (hd : d ∈ handled evs) : d.1 ∈ log :=
  (List.mem_filter.1 (h.subset (List.mem_map_of_mem (f := Prod.fst) hd))).1

/-- A session handles everything in the partition between its start and any offset it handles. -/
theorem Delivers.mem_of_le {p : ℕ} {evs : List Event} (h : Delivers log p evs) {o o' : ℕ}
    (ho : o ∈ log) (hp : p ≤ o) (hle : o ≤ o') (ho' : o' ∈ (handled evs).map Prod.fst) :
    o ∈ (handled evs).map Prod.fst := by
  obtain ⟨t, ht⟩ := h
  have hmem : o ∈ (handled evs).map Prod.fst ++ t := by
    rw [ht]; exact List.mem_filter.2 ⟨ho, by simpa using hp⟩
  rcases List.mem_append.1 hmem with hm | hm
  · exact hm
  · -- past the part already sent, so above `o'`
    have hs : (log.filter (p ≤ ·)).Pairwise (· < ·) := hlog.sublist List.filter_sublist
    rw [← ht] at hs
    exact absurd ((List.pairwise_append.1 hs).2.2 o' ho' o hm) (by omega)

/-- If nothing succeeds after a failure, everything the session's mark passes was handled
successfully in that session. -/
theorem succeeded_of_lt_next {p : ℕ} {evs : List Event} (h : Delivers log p evs)
    (hstall : NoSuccessAfterFailure evs) {o : ℕ} (ho : o ∈ log) (hp : p ≤ o)
    (hlt : o < (consumeClaim ⟨p⟩ evs).next) : (o, true) ∈ handled evs := by
  obtain ⟨o', ho', hle⟩ : ∃ o', (o', true) ∈ handled evs ∧ o ≤ o' := by
    by_contra hno
    push Not at hno
    exact absurd (consumeClaim_next_le.2 ⟨hp, fun o' ho' => hno o' ho'⟩) (by omega)
  have hmem := h.mem_of_le hlog ho hp hle (List.mem_map_of_mem (f := Prod.fst) ho')
  obtain ⟨⟨a, b⟩, hab, rfl⟩ := List.mem_map.1 hmem
  cases b with
  | true => exact hab
  | false =>
    -- offsets ascend, so the failure at `a` came before the success at `o'`
    rcases ((h.sorted hlog).and hstall).rel_or_rel hab ho' (by simp) with hrel | hrel
    · exact absurd (hrel.2 rfl) (by simp)
    · exact absurd hrel.1 (by simpa using hle)

/-- ... and over several sessions: everything the mark passes was handled successfully. -/
theorem succeeded_of_lt_resume {sessions : List (List Event)} {p : ℕ}
    (h : ValidRun log p sessions) (hstall : ∀ evs ∈ sessions, NoSuccessAfterFailure evs) {o : ℕ}
    (ho : o ∈ log) (hp : p ≤ o) (hlt : o < resume p sessions) : (o, true) ∈ history sessions := by
  induction sessions generalizing p with
  | nil => exact absurd hlt (by simpa [resume] using hp)
  | cons evs rest ih =>
    have hrest := fun e he => hstall e (List.mem_cons_of_mem _ he)
    simp only [history, List.flatMap_cons, List.mem_append]
    by_cases hq : o < (consumeClaim ⟨p⟩ evs).next
    · exact Or.inl (succeeded_of_lt_next hlog h.1 (hstall evs List.mem_cons_self) ho hp hq)
    · exact Or.inr (ih h.2 hrest (by omega) hlt)

/-- A failure that is not followed by a success is not passed by the mark, if nothing is handled
successfully after a failure. -/
theorem notCommittedAway_of_stalls {sessions : List (List Event)} {p : ℕ}
    (h : ValidRun log p sessions) (hstall : ∀ evs ∈ sessions, NoSuccessAfterFailure evs) :
    NotCommittedAway p sessions := by
  induction sessions generalizing p with
  | nil => rintro o ⟨before, after, heq, -⟩; simp [history] at heq
  | cons evs rest ih =>
    have hrest := fun e he => hstall e (List.mem_cons_of_mem _ he)
    rintro o ⟨before, after, heq, hno⟩
    simp only [history, List.flatMap_cons] at heq
    rcases List.append_eq_append_iff.1 heq with ⟨c, rfl, hc⟩ | ⟨c, hevs, hc⟩
    · -- the failure is in a later session
      exact ih h.2 hrest o ⟨c, after, hc, hno⟩
    · rcases List.cons_eq_append_iff.1 hc with ⟨rfl, hc'⟩ | ⟨c', rfl, rfl⟩
      · exact ih h.2 hrest o ⟨[], after, by simpa [history] using hc', hno⟩
      · -- the failure is in this session: the session's mark stays below it ...
        have hmem : (o, false) ∈ handled evs := by rw [hevs]; simp
        have hp := h.1.le hmem
        have hlog' := h.1.mem_log hmem
        have hnext : (consumeClaim ⟨p⟩ evs).next ≤ o := by
          by_contra hlt
          have hs := succeeded_of_lt_next hlog h.1 (hstall evs List.mem_cons_self) hlog' hp
            (by omega)
          rcases (h.1.sorted hlog).rel_or_rel hmem hs (by simp) with hrel | hrel <;>
            exact lt_irrefl _ hrel
        -- ... and a later session passes it only by handling it successfully
        by_contra hlt
        exact hno (List.mem_append_right _
          (succeeded_of_lt_resume hlog h.2 hrest hlog' hnext (by simpa [resume] using hlt)))

omit hlog in
theorem not_mem_history_of_lt {sessions : List (List Event)} {p o : ℕ}
    (h : ValidRun log p sessions) (ho : o < p) (b : Bool) : (o, b) ∉ history sessions := by
  induction sessions generalizing p with
  | nil => simp [history]
  | cons evs rest ih =>
    simp only [history, List.flatMap_cons, List.mem_append, not_or]
    refine ⟨fun hm => ?_, ih h.2 (ho.trans_le (le_consumeClaim_next evs p))⟩
    exact absurd (h.1.le hm) (by simpa using ho)

/-- A success after a failure in one session loses the failed message. -/
theorem stalls_of_notCommittedAway {sessions : List (List Event)} {p : ℕ}
    (h : ValidRun log p sessions) (hsafe : NotCommittedAway p sessions) :
    ∀ evs ∈ sessions, NoSuccessAfterFailure evs := by
  induction sessions generalizing p with
  | nil => simp
  | cons evs rest ih =>
    have hrest : NotCommittedAway (consumeClaim ⟨p⟩ evs).next rest := by
      rintro o ⟨before, after, heq, hno⟩
      exact hsafe o ⟨handled evs ++ before, after, by simp [history] at heq ⊢; exact heq, hno⟩
    intro e he
    rcases List.mem_cons.1 he with rfl | he
    · refine List.pairwise_iff_forall_sublist.2 fun {x y} hxy hx => ?_
      by_contra hy
      obtain ⟨o, b⟩ := x
      obtain ⟨o', b'⟩ := y
      simp only [Bool.not_eq_false] at hx hy
      subst hx hy
      have hlt : o < o' := List.pairwise_iff_forall_sublist.1 (h.1.sorted hlog) hxy
      -- split the session at the failure; what follows it in the session lies above it
      obtain ⟨before, after, hsplit⟩ := List.append_of_mem (hxy.subset List.mem_cons_self)
      have habove : (o, true) ∉ after := fun hm => by
        have := h.1.sorted hlog
        rw [hsplit] at this
        have := (List.pairwise_append.1 this).2.1
        exact absurd (List.rel_of_pairwise_cons this hm) (by simp)
      have hnext : o' < (consumeClaim ⟨p⟩ e).next := lt_consumeClaim_next (hxy.subset (by simp))
      have hlater := not_mem_history_of_lt h.2 (hlt.trans hnext) true
      have hle := hsafe o ⟨before, after ++ history rest,
        by simp [history, hsplit], by simp [habove, hlater]⟩
      have := le_resume rest (consumeClaim ⟨p⟩ e).next
      simp only [resume] at hle
      omega
    · exact ih h.2 hrest e he

/-- **When failed messages stay uncommitted.**  Over any sessions on a partition, the resume
position stays at or below every failed message that has not succeeded since, iff no session
handles a message successfully after a failed one. -/
theorem not_committed_away_iff {sessions : List (List Event)} {p : ℕ}
    (h : ValidRun log p sessions) :
    NotCommittedAway p sessions ↔ ∀ evs ∈ sessions, NoSuccessAfterFailure evs :=
  ⟨stalls_of_notCommittedAway hlog h, notCommittedAway_of_stalls hlog h⟩

end Log

/-- Offsets `1` and `2` fail behind the success at `0`, a second session resumes at `1` and handles
both: nothing is lost. -/
theorem not_committed_away_resumed :
    let sessions := [[Event.message ⟨0, []⟩ none, .message ⟨1, []⟩ (some "producer down"),
        .message ⟨2, []⟩ (some "producer down"), .contextDone],
      [.message ⟨1, []⟩ none, .message ⟨2, []⟩ none]]
    ValidRun [0, 1, 2] 0 sessions ∧ NotCommittedAway 0 sessions := by
  intro sessions
  have hvalid : ValidRun [0, 1, 2] 0 sessions := ⟨by unfold Delivers; decide,
    by unfold Delivers; decide, trivial⟩
  refine ⟨hvalid, (not_committed_away_iff (by decide) hvalid).2 ?_⟩
  unfold NoSuccessAfterFailure
  decide

/-- The handler fails at offset `0` and succeeds at offset `1`: the group resumes at `2`. -/
theorem failed_message_committed_away :
    ¬ ∀ log : List ℕ, log.Pairwise (· < ·) → ∀ p sessions, ValidRun log p sessions →
      NotCommittedAway p sessions := by
  intro hall
  have hvalid : ValidRun [0, 1] 0 [[.message ⟨0, []⟩ (some "fetching block metadata"),
      .message ⟨1, []⟩ none]] := ⟨by unfold Delivers; decide, trivial⟩
  have hle := hall [0, 1] (by decide) 0 _ hvalid 0 ⟨[], [(1, true)], rfl, by decide⟩
  exact absurd hle (by decide)

end Kafka

end MerkleService
