import MerkleService.LTS.Basic
import MerkleService.Kafka.Messages
import MerkleService.Data.List

/-!
# Subtree workers and the counter that coordinates BLOCK_PROCESSED

`SubtreeWorkerService.handleMessage` (`internal/block/subtree_worker.go`) handles one work item of a
block: it processes the subtree, publishes one STUMP message per callback URL, decrements the
block's counter and, when the counter reaches zero, publishes BLOCK_PROCESSED to every registered
URL.  Any number of workers do this concurrently, and Kafka may deliver a work item again.

The model is a machine whose state holds the block counters, the callback topic and all deliveries
of work items so far, each with its place in `handleMessage`.  A work item is identified by its
position in `work`, the list of all work items dispatched (those of several blocks may be mixed).

* `step` is one atomic step of one delivery: an answer of a store, one publish, one decrement.
  Store and publish calls may fail, a worker may stop anywhere, an item may be delivered again.
* `init` is the state after the block processor has initialised the counters and dispatched.
-/

namespace MerkleService

namespace SubtreeWorker

open Kafka

/-- What `ProcessBlockSubtree` answers: an error, no registered txids, or the callback groups (in
the order in which the publishing loop ranges over the map) and the serialised STUMP. -/
inductive ProcessResult where
  | failed (err : String)
  | nothing
  | groups (callbackGroups : List (String × List String)) (stumpData : List UInt8)

/-- A run of `emitBlockProcessed`: the URLs that `GetAll` returned, and those to which
BLOCK_PROCESSED has been published, in order. -/
structure Emission where
  urls : List String
  sent : List String
  deriving DecidableEq

/-- Where the delivery of a work item stands in `handleMessage`. -/
inductive Phase where
  /-- Before `ProcessBlockSubtree`. -/
  | processing
  /-- In `publishSubtreeCallbacks`, before `stumpStore.Put`. -/
  | storing (urls : List String)
  /-- In the loop of `publishSubtreeCallbacks`, `urls` still to do. -/
  | publishing (stumpRef : String) (urls : List String)
  /-- Before `subtreeCounter.Decrement`. -/
  | decrementing
  /-- Returned, the decrement having failed. -/
  | uncounted
  /-- Saw `remaining == 0`, in `emitBlockProcessed` before `urlRegistry.GetAll`. -/
  | emitting
  /-- In the loop of `emitBlockProcessed`, `rest` still to do. -/
  | emittingTo (e : Emission) (rest : List String)
  /-- Returned; with the emission, if it saw `remaining == 0`. -/
  | done (e : Option Emission)
  deriving DecidableEq

/-- One delivery of a work item to a worker. -/
structure Delivery where
  /-- The work item, by its position in the list of dispatched items. -/
  item : ℕ
  phase : Phase
  /-- The worker stopped before returning. -/
  crashed : Bool
  deriving DecidableEq

/-- The state of the worker fleet. -/
structure State where
  /-- `remaining` of each block, if its counter record exists. -/
  counter : String → Option ℤ
  /-- The callback topic. -/
  topic : Topic CallbackTopicMessage
  /-- All deliveries so far, in the order in which they started. -/
  deliveries : List Delivery

/-- `callbackProducer.PublishWithHashKey url`, succeeding. -/
def State.publish (producer : Producer) (s : State) (url : String) (m : CallbackTopicMessage) :
    State :=
  { s with topic := producer.publishWithHashKey s.topic url m }

/-- The state with another value for the counter of block `b`. -/
def State.setCounter (s : State) (b : String) (remaining : Option ℤ) : State :=
  { s with counter := Function.update s.counter b remaining }

/-- The atomic steps; `d` is the position of the delivery that moves. -/
inductive Label where
  | take (item : ℕ)
  | process (d : ℕ) (result : ProcessResult)
  | putStump (d : ℕ) (ref : Option String)
  | publish (d : ℕ) (ok : Bool)
  | decrement (d : ℕ) (ok : Bool)
  | getAll (d : ℕ) (urls : Option (List String))
  | emit (d : ℕ) (ok : Bool)
  | crash (d : ℕ)

/-- The STUMP message of one work item for one URL. -/
def stumpMessage (w : SubtreeWorkMessage) (stumpRef url : String) : CallbackTopicMessage :=
  { callbackURL := url, type := .stump, blockHash := w.blockHash,
    subtreeIndex := w.subtreeIndex, stumpRef := stumpRef }

/-- The BLOCK_PROCESSED message of a block for one URL. -/
def blockProcessedMessage (blockHash url : String) : CallbackTopicMessage :=
  { callbackURL := url, type := .blockProcessed, blockHash := blockHash }

/-- The phase after a loop has done one more URL. -/
def Phase.publishRest (stumpRef : String) : List String → Phase
  | [] => .decrementing
  | urls => .publishing stumpRef urls

def Phase.emitRest (e : Emission) : List String → Phase
  | [] => .done (some e)
  | rest => .emittingTo e rest

/-- After `ProcessBlockSubtree`: an error is only logged, so that the counter is still
decremented; there is nothing to publish without groups. -/
def afterProcess : ProcessResult → Phase
  | .failed _ => .decrementing
  | .nothing => .decrementing
  | .groups [] _ => .decrementing
  | .groups gs _ => .storing (gs.map Prod.fst)

/-- After `stumpStore.Put`: without a reference the callbacks of the subtree are skipped. -/
def afterPut (urls : List String) : Option String → Phase
  | none => .decrementing
  | some ref => .publishRest ref urls

/-- After `Decrement`: an error is only logged. -/
def afterDecrement : Option ℤ → Phase
  | none => .uncounted
  | some remaining => if remaining = 0 then .emitting else .done none

/-- After `GetAll`: on an error, or without URLs, nothing is emitted. -/
def afterGetAll : Option (List String) → Phase
  | none => .done (some ⟨[], []⟩)
  | some urls => .emitRest ⟨urls, []⟩ urls

section

variable (work : List SubtreeWorkMessage) (producer : Producer)

/-- One step of a delivery of work item `w`, on the counters and the topic. -/
def deliveryStep (s : State) (w : SubtreeWorkMessage) :
    Phase → Label → Option (State × Phase)
  | .processing, .process _ result => some (s, afterProcess result)
  | .storing urls, .putStump _ ref => some (s, afterPut urls ref)
  | .publishing ref (url :: urls), .publish _ ok =>
    some (if ok then s.publish producer url (stumpMessage w ref url) else s,
      .publishRest ref urls)
  | .decrementing, .decrement _ ok =>
    if ok then
      -- `UPDATE_ONLY`: a missing record is an error
      let remaining := (s.counter w.blockHash).map (· - 1)
      some (s.setCounter w.blockHash remaining, afterDecrement remaining)
    else some (s, .uncounted)
  | .emitting, .getAll _ urls =>
    -- the registry is a set: `AddUnique` list on Aerospike, primary key in SQL
    if (urls.getD []).Nodup then some (s, afterGetAll urls) else none
  | .emittingTo e (url :: rest), .emit _ ok =>
    if ok then
      some (s.publish producer url (blockProcessedMessage w.blockHash url),
        .emitRest ⟨e.urls, e.sent ++ [url]⟩ rest)
    else some (s, .emitRest e rest)
  | _, _ => none

/-- The delivery a label moves. -/
def Label.mover : Label → Option ℕ
  | .take _ => none
  | .process d _ | .putStump d _ | .publish d _ | .decrement d _ | .getAll d _ | .emit d _
  | .crash d => some d

def step (s : State) (l : Label) : Option State :=
  match l with
  | .take item =>
    if item < work.length then
      some { s with deliveries := s.deliveries ++ [⟨item, .processing, false⟩] }
    else none
  | .crash d => do
    let dl ← s.deliveries[d]?
    if dl.crashed then none
    else some { s with deliveries := s.deliveries.set d { dl with crashed := true } }
  | l => do
    let d ← l.mover
    let dl ← s.deliveries[d]?
    let w ← work[dl.item]?
    if dl.crashed then none
    else
      let (s', ph) ← deliveryStep producer s w dl.phase l
      some { s' with deliveries := s.deliveries.set d { dl with phase := ph } }

/-- The workers as a transition system. -/
def machine : LTS State Label := ⟨step work producer⟩

/-- The number of subtrees of a block. -/
def subtreeCount (blockHash : String) : ℕ := work.countP (·.blockHash = blockHash)

/-- The counters hold the subtree counts, nothing is delivered or published yet.  (Messages of
other blocks in the topic do not matter, so it starts empty.) -/
def init : State where
  counter := fun b => if subtreeCount work b = 0 then none else some (subtreeCount work b)
  topic := fun _ => []
  deliveries := []

/-- The delivery is of a work item of block `b`. -/
def inBlock (b : String) (dl : Delivery) : Bool := (work[dl.item]?).any (·.blockHash = b)

end

/-! ### Places in `handleMessage` -/

/-- The decrement has taken effect. -/
def Phase.counted : Phase → Bool
  | .emitting | .emittingTo _ _ | .done _ => true
  | _ => false

/-- The decrement took effect and the counter was zero after it. -/
def Phase.sawZero : Phase → Bool
  | .emitting | .emittingTo _ _ | .done (some _) => true
  | _ => false

/-- The subtree has been processed and the loop over its STUMP messages has ended. -/
def Phase.published : Phase → Bool
  | .processing | .storing _ | .publishing _ _ => false
  | _ => true

/-- `handleMessage` has returned. -/
def Phase.returned : Phase → Bool
  | .uncounted | .done _ => true
  | _ => false

/-- The URLs to which the delivery has published BLOCK_PROCESSED. -/
def Phase.sent : Phase → List String
  | .emittingTo e _ | .done (some e) => e.sent
  | _ => []

/-- The URLs to which the delivery will still try to publish BLOCK_PROCESSED. -/
def Phase.todo : Phase → List String
  | .emittingTo _ rest => rest
  | _ => []

@[simp] theorem Phase.counted_publishRest (ref : String) (urls : List String) :
    (Phase.publishRest ref urls).counted = false := by
  cases urls <;> rfl

@[simp] theorem Phase.sawZero_publishRest (ref : String) (urls : List String) :
    (Phase.publishRest ref urls).sawZero = false := by
  cases urls <;> rfl

@[simp] theorem Phase.sent_publishRest (ref : String) (urls : List String) :
    (Phase.publishRest ref urls).sent = [] := by
  cases urls <;> rfl

@[simp] theorem Phase.counted_emitRest (e : Emission) (rest : List String) :
    (Phase.emitRest e rest).counted = true := by
  cases rest <;> rfl

@[simp] theorem Phase.sawZero_emitRest (e : Emission) (rest : List String) :
    (Phase.emitRest e rest).sawZero = true := by
  cases rest <;> rfl

@[simp] theorem Phase.sent_emitRest (e : Emission) (rest : List String) :
    (Phase.emitRest e rest).sent = e.sent := by
  cases rest <;> rfl

@[simp] theorem Phase.todo_emitRest (e : Emission) (rest : List String) :
    (Phase.emitRest e rest).todo = rest := by
  cases rest <;> rfl

theorem Phase.published_of_counted {ph : Phase} (h : ph.counted = true) :
    ph.published = true := by
  cases ph <;> simp_all [Phase.counted, Phase.published]

theorem Phase.not_sawZero_of_not_counted {ph : Phase} (h : ph.counted = false) :
    ph.sawZero = false := by
  cases ph <;> simp_all [Phase.counted, Phase.sawZero]

theorem Phase.sent_of_not_counted {ph : Phase} (h : ph.counted = false) : ph.sent = [] := by
  cases ph <;> simp_all [Phase.counted, Phase.sent]

theorem Phase.todo_of_not_counted {ph : Phase} (h : ph.counted = false) : ph.todo = [] := by
  cases ph <;> simp_all [Phase.counted, Phase.todo]

theorem Phase.sent_of_not_sawZero {ph : Phase} (h : ph.sawZero = false) : ph.sent = [] := by
  cases ph with
  | done e => cases e <;> simp_all [Phase.sawZero, Phase.sent]
  | _ => simp_all [Phase.sawZero, Phase.sent]

/-! ### What a step can do -/

variable {work : List SubtreeWorkMessage} {producer : Producer}

/-- **What one step of a delivery does**: move towards the decrement without effect, publish a
STUMP message, decrement the counter, read the URLs, or do one URL of the emission. -/
theorem deliveryStep_cases {s s' : State} {w : SubtreeWorkMessage} {ph ph' : Phase} {l : Label}
    (h : deliveryStep producer s w ph l = some (s', ph')) :
    (ph.counted = false ∧ ph'.counted = false ∧ s'.topic = s.topic ∧
      s'.counter = s.counter) ∨
    (∃ d ref url urls, l = .publish d true ∧ ph = .publishing ref (url :: urls) ∧
      ph' = .publishRest ref urls ∧ s' = s.publish producer url (stumpMessage w ref url)) ∨
    (∃ d n, l = .decrement d true ∧ ph = .decrementing ∧ s.counter w.blockHash = some n ∧
      ph' = (if n - 1 = 0 then .emitting else .done none) ∧
      s' = s.setCounter w.blockHash (some (n - 1))) ∨
    (∃ d urls, l = .getAll d urls ∧ (urls.getD []).Nodup ∧ ph = .emitting ∧
      ph' = afterGetAll urls ∧ s' = s) ∨
    (∃ d e url rest, l = .emit d true ∧ ph = .emittingTo e (url :: rest) ∧
      ph' = .emitRest ⟨e.urls, e.sent ++ [url]⟩ rest ∧
      s' = s.publish producer url (blockProcessedMessage w.blockHash url)) ∨
    (∃ d e url rest, l = .emit d false ∧ ph = .emittingTo e (url :: rest) ∧
      ph' = .emitRest e rest ∧ s' = s) := by
  unfold deliveryStep at h
  split at h
  · -- process
    rename_i result
    simp only [Option.some.injEq, Prod.mk.injEq] at h
    obtain ⟨rfl, rfl⟩ := h
    refine Or.inl ⟨rfl, ?_, rfl, rfl⟩
    rcases result with _ | _ | ⟨_ | _, _⟩ <;> rfl
  · -- put
    rename_i urls d ref
    simp only [Option.some.injEq, Prod.mk.injEq] at h
    obtain ⟨rfl, rfl⟩ := h
    refine Or.inl ⟨rfl, ?_, rfl, rfl⟩
    cases ref
    · rfl
    · exact Phase.counted_publishRest _ _
  · -- publish
    rename_i ref url urls d ok
    cases ok
    · simp only [Bool.false_eq_true, ↓reduceIte, Option.some.injEq, Prod.mk.injEq] at h
      obtain ⟨rfl, rfl⟩ := h
      exact Or.inl ⟨rfl, by simp, rfl, rfl⟩
    · simp only [↓reduceIte, Option.some.injEq, Prod.mk.injEq] at h
      exact Or.inr (Or.inl ⟨d, ref, url, urls, rfl, rfl, h.2.symm, h.1.symm⟩)
  · -- decrement
    rename_i d ok
    cases ok
    · simp only [Bool.false_eq_true, ↓reduceIte, Option.some.injEq, Prod.mk.injEq] at h
      obtain ⟨rfl, rfl⟩ := h
      exact Or.inl ⟨rfl, rfl, rfl, rfl⟩
    · simp only [↓reduceIte, Option.some.injEq, Prod.mk.injEq] at h
      obtain ⟨rfl, rfl⟩ := h
      cases hc : s.counter w.blockHash with
      | none =>
        have hsame := Function.update_eq_self w.blockHash s.counter
        rw [hc] at hsame
        exact Or.inl ⟨rfl, rfl, rfl, hsame⟩
      | some n => exact Or.inr (Or.inr (Or.inl ⟨d, n, rfl, rfl, rfl, rfl, rfl⟩))
  · -- getAll
    rename_i d urls
    split_ifs at h with hnd
    simp only [Option.some.injEq, Prod.mk.injEq] at h
    exact Or.inr (Or.inr (Or.inr (Or.inl ⟨d, urls, rfl, hnd, rfl, h.2.symm, h.1.symm⟩)))
  · -- emit
    rename_i e url rest d ok
    cases ok
    · simp only [Bool.false_eq_true, ↓reduceIte, Option.some.injEq, Prod.mk.injEq] at h
      exact Or.inr (Or.inr (Or.inr (Or.inr (Or.inr
        ⟨d, e, url, rest, rfl, rfl, h.2.symm, h.1.symm⟩))))
    · simp only [↓reduceIte, Option.some.injEq, Prod.mk.injEq] at h
      exact Or.inr (Or.inr (Or.inr (Or.inr (Or.inl
        ⟨d, e, url, rest, rfl, rfl, h.2.symm, h.1.symm⟩))))
  · cases h

/-- **What a step does**: start a delivery, stop a worker, or let a delivery take a step. -/
theorem step_cases {s s' : State} {l : Label} (h : step work producer s l = some s') :
    (∃ item, l = .take item ∧ item < work.length ∧
      s' = { s with deliveries := s.deliveries ++ [⟨item, .processing, false⟩] }) ∨
    (∃ d dl, l = .crash d ∧ s.deliveries[d]? = some dl ∧
      s' = { s with deliveries := s.deliveries.set d { dl with crashed := true } }) ∨
    (∃ d dl w s₁ ph, l.mover = some d ∧ s.deliveries[d]? = some dl ∧
      work[dl.item]? = some w ∧ deliveryStep producer s w dl.phase l = some (s₁, ph) ∧
      s' = { s₁ with deliveries := s.deliveries.set d { dl with phase := ph } }) := by
  unfold step at h
  split at h
  · rename_i item
    split_ifs at h with hlt
    simp only [Option.some.injEq] at h
    exact Or.inl ⟨item, rfl, hlt, h.symm⟩
  · rename_i d
    simp only [Option.bind_eq_bind, Option.bind_eq_some_iff] at h
    obtain ⟨dl, hdl, h⟩ := h
    split_ifs at h
    simp only [Option.some.injEq] at h
    exact Or.inr (Or.inl ⟨d, dl, rfl, hdl, h.symm⟩)
  · simp only [Option.bind_eq_bind, Option.bind_eq_some_iff] at h
    obtain ⟨d, hd, dl, hdl, w, hw, h⟩ := h
    split_ifs at h
    simp only [Option.bind_eq_some_iff] at h
    obtain ⟨⟨s₁, ph⟩, hst, h⟩ := h
    simp only [Option.some.injEq] at h
    exact Or.inr (Or.inr ⟨d, dl, w, s₁, ph, hd, hdl, hw, hst, h.symm⟩)

end SubtreeWorker

end MerkleService
