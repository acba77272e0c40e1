import MerkleService.Store.FileSteps

/-!
# Gets that share a fetch

`ConcurrentBlobStore` (`internal/store/subtree_store.go`) wraps a `BlobStore`.  A `Get` that finds
another `Get` of its key in `inflight` waits for that one and returns what it has fetched; any
other `Get` enters itself in `inflight`, fetches, lets the waiting ones go on, and takes its entry
out again.  The other methods go to the store directly.

The calls of several clients run at once; a section under the mutex is one step, and so is a call
of the store.

* `AtomicBlobStore` : the wrapped store, whose calls take effect at once.
* `system store` : the wrapper, with the calls that are under way.
* `Keeps.step` : **the invariant**: a `Get` returns what one fetch of its key has found, its own or
  that of the `Get` it has joined.
* `get_fresh` : **a `Get` that starts after a `Set` has returned finds what that stored**, unless
  another call has changed the blob, or the `Get` has joined one that fetched before the `Set`.
* `get_stale` : both exceptions are needed.
-/

namespace MerkleService

namespace Store

namespace ConcurrentBlobStore

open Concurrent (Call Answer)

/-! ### The wrapped store -/

/-- A `BlobStore` whose calls take effect at once.  The result of a call that has no error is `ok`,
and that of a `Get` which finds a blob is `found`; what the results of failed calls are is left
open. -/
structure AtomicBlobStore (S O : Type*) extends Mealy S Call O where
  blob : S → String → Option (List UInt8)
  ok : O
  found : List UInt8 → O
  get_found : ∀ s key data, blob s key = some data → (step s (.get key)).2 = found data
  blob_get : ∀ s key k, blob (step s (.get key)).1 k = blob s k
  blob_set : ∀ s key data d, (step s (.set key data d)).2 = ok →
    blob (step s (.set key data d)).1 key = some data
  blob_set_of_ne : ∀ s key data d k, k ≠ key → blob (step s (.set key data d)).1 k = blob s k
  blob_del_of_ne : ∀ s key k, k ≠ key → blob (step s (.del key)).1 k = blob s k
  blob_height : ∀ s height k, blob (step s (.setCurrentBlockHeight height)).1 k = blob s k ∨
    blob (step s (.setCurrentBlockHeight height)).1 k = none

/-- `MemoryBlobStore`. -/
def memoryBlobStore : AtomicBlobStore (Blobs String) Answer where
  toMealy := Concurrent.memory
  blob := Blobs.blob
  ok := .ok
  found := fun data => .blob (some data)
  get_found := fun _ _ _ h => congrArg Answer.blob h
  blob_get := fun _ _ _ => rfl
  blob_set := fun b key data d _ =>
    @Blobs.blob_set_of_content _ _ id b key data d .done data rfl
  blob_set_of_ne := fun b key data d k h =>
    @Blobs.blob_set_of_ne _ _ id b key data d .done k h
  blob_del_of_ne := fun b key k h => by
    rw [Concurrent.step_del, Blobs.blob_remove]
    exact if_neg h
  blob_height := fun b height k => by
    by_cases h : Blobs.Reaches id b height k
    · exact .inr (Blobs.blob_of_reaches h)
    · exact .inl (Blobs.blob_of_not_reaches h)

/-! ### The steps of a call -/

/-- How far a call has come. -/
inductive Progress (O : Type*) where
  | invoked (call : Call)
  /-- `Get` has entered itself in `inflight`. -/
  | leading (key : String)
  /-- `Get` has fetched `cl.val` and `cl.err`. -/
  | fetched (key : String) (answer : O)
  /-- `Get` has called `cl.wg.Done()`. -/
  | released (key : String) (answer : O)
  /-- `Get` waits for another call. -/
  | waiting (leader : ℕ)
  | finished (answer : O)
  | returned
  deriving DecidableEq

/-- What happens to call number `i`. -/
inductive Moment (O : Type*) where
  | started (i : ℕ) (call : Call)
  /-- The store does the call. -/
  | effect (i : ℕ) (call : Call) (answer : O)
  /-- `Get` has found the call `leader` in `inflight`. -/
  | joined (i : ℕ) (leader : ℕ)
  | ended (i : ℕ) (answer : O)
  deriving DecidableEq

/-- The store, the fields of the wrapper, the calls, and what has happened so far.  A call of
`inflight` is known by its number; `done` has its `val` and `err` after `wg.Done()`. -/
structure State (S O : Type*) where
  store : S
  inflight : String → Option ℕ
  done : ℕ → Option O
  calls : List (Progress O)
  trace : List (Moment O)

/-- `NewConcurrentBlobStore`. -/
def State.init {S O : Type*} (s₀ : S) : State S O := ⟨s₀, fun _ => none, fun _ => none, [], []⟩

/-- A call begins, takes its next step, or returns. -/
inductive Label where
  | invoke (call : Call)
  | step (i : ℕ)
  | ret (i : ℕ)
  deriving DecidableEq

section

variable {S O : Type*} (store : AtomicBlobStore S O)

namespace State

variable (s : State S O)

/-- The store does a call. -/
def access (i : ℕ) (c : Call) (next : O → Progress O) : State S O := { s with
  store := (store.step s.store c).1
  calls := s.calls.set i (next (store.step s.store c).2)
  trace := s.trace ++ [.effect i c (store.step s.store c).2] }

/-- The next step of call `i`. -/
def advance (i : ℕ) : Progress O → Option (State S O)
  | .invoked (.get key) =>
    match s.inflight key with
    | some l => some { s with
        calls := s.calls.set i (.waiting l)
        trace := s.trace ++ [.joined i l] }
    | none => some { s with
        inflight := Function.update s.inflight key (some i)
        calls := s.calls.set i (.leading key) }
  | .leading key => some (s.access store i (.get key) (.fetched key))
  | .fetched key answer => some { s with
      done := Function.update s.done i (some answer)
      calls := s.calls.set i (.released key answer) }
  | .released key answer => some { s with
      inflight := Function.update s.inflight key none
      calls := s.calls.set i (.finished answer) }
  -- `call.wg.Wait()`
  | .waiting l => (s.done l).map fun answer => { s with calls := s.calls.set i (.finished answer) }
  | .invoked (.set key data deleteAtHeight) =>
    some (s.access store i (.set key data deleteAtHeight) .finished)
  | .invoked (.del key) => some (s.access store i (.del key) .finished)
  | .invoked (.setCurrentBlockHeight height) =>
    some (s.access store i (.setCurrentBlockHeight height) .finished)
  | .finished _ => none
  | .returned => none

def step : Label → Option (State S O)
  | .invoke call => some { s with
      calls := s.calls ++ [.invoked call]
      trace := s.trace ++ [.started s.calls.length call] }
  | .step i => s.calls[i]?.bind (s.advance store i)
  | .ret i =>
    match s.calls[i]? with
    | some (.finished answer) => some { s with
        calls := s.calls.set i .returned
        trace := s.trace ++ [.ended i answer] }
    | _ => none

end State

/-- The wrapper around the store. -/
def system : LTS (State S O) Label := ⟨State.step store⟩

/-! ### What was stored is read back -/

/-- A `Set` or `Del` of the key, or a height, which may prune it. -/
def MayChange (key : String) : Call → Prop
  | .set k _ _ => k = key
  | .get _ => False
  | .del k => k = key
  | .setCurrentBlockHeight _ => True

/-- A `Set` or `Del` of the key, or the pruning of it. -/
def Changes (s : S) (key : String) : Call → Prop
  | .set k _ _ => k = key
  | .get _ => False
  | .del k => k = key
  | .setCurrentBlockHeight height =>
    store.blob s key ≠ none ∧ store.blob (store.step s (.setCurrentBlockHeight height)).1 key = none

/-- The calls that the store has done. -/
def effects (trace : List (Moment O)) : List Call :=
  trace.filterMap fun m => match m with
    | .effect _ c _ => some c
    | _ => none

/-- A `Get` that starts after a `Set` has returned finds what that stored, if no call that can
change the blob starts after the `Set` and before the `Get` returns. -/
def Fresh (trace : List (Moment O)) : Prop :=
  ∀ i key data d g answer,
    [.started i (.set key data d), .ended i store.ok, .started g (.get key),
      .ended g answer].Sublist trace →
    (∀ j c, MayChange key c →
      ¬ [.started i (.set key data d), .started j c, .ended g answer].Sublist trace) →
    answer = store.found data

/-- After the `Set` has taken effect, no call changes the blob before the `Get` returns. -/
def Undisturbed (s₀ : S) (trace : List (Moment O)) (i : ℕ) (key : String) (data : List UInt8)
    (d : UInt64) (g : ℕ) (answer : O) : Prop :=
  ∀ pre j c o post, trace = pre ++ .effect j c o :: post →
    .effect i (.set key data d) store.ok ∈ pre → .ended g answer ∈ post →
    ¬ Changes store (store.run s₀ (effects pre)) key c

/-- The `Get` has joined one that has fetched before the `Set` took effect. -/
def JoinsOlder (trace : List (Moment O)) (i : ℕ) (key : String) (data : List UInt8) (d : UInt64)
    (g : ℕ) : Prop :=
  ∃ l o, .joined g l ∈ trace ∧
    [.effect l (.get key) o, .effect i (.set key data d) store.ok].Sublist trace

/-- A `Get` that starts after a `Set` has returned finds what that stored, if the blob is left
undisturbed and the `Get` has not joined an older fetch. -/
def FreshUnlessJoined (s₀ : S) (trace : List (Moment O)) : Prop :=
  ∀ i key data d g answer,
    [.started i (.set key data d), .ended i store.ok, .started g (.get key),
      .ended g answer].Sublist trace →
    Undisturbed store s₀ trace i key data d g answer → ¬ JoinsOlder store trace i key data d g →
    answer = store.found data

/-! ### Traces -/

/-- What has to have happened before. -/
def Admits (s₀ : S) (trace : List (Moment O)) : Moment O → Prop
  | .started i _ => ∀ c, .started i c ∉ trace
  | .effect i c o =>
    .started i c ∈ trace ∧ o = (store.step (store.run s₀ (effects trace)) c).2
  | .joined i l => ∃ key, .started i (.get key) ∈ trace ∧ .started l (.get key) ∈ trace
  | .ended i o => ∃ l c, (l = i ∨ .joined i l ∈ trace) ∧ .effect l c o ∈ trace

/-- Everything happens once, and after what has to have happened before. -/
structure Traced (s₀ : S) (trace : List (Moment O)) : Prop where
  nodup : trace.Nodup
  unique : ∀ i c c', .started i c ∈ trace → .started i c' ∈ trace → c = c'
  begun : ∀ i c o, .effect i c o ∈ trace → [.started i c, .effect i c o].Sublist trace
  joined : ∀ i l, .joined i l ∈ trace →
    ∃ key, .started i (.get key) ∈ trace ∧ .started l (.get key) ∈ trace
  ended : ∀ i o, .ended i o ∈ trace →
    ∃ l c, (l = i ∨ .joined i l ∈ trace) ∧ [.effect l c o, .ended i o].Sublist trace
  answer : ∀ pre i c o post, trace = pre ++ .effect i c o :: post →
    o = (store.step (store.run s₀ (effects pre)) c).2

variable {store} {s₀ : S} {trace : List (Moment O)} {m : Moment O}

theorem effects_append (trace trace' : List (Moment O)) :
    effects (trace ++ trace') = effects trace ++ effects trace' :=
  List.filterMap_append

namespace Traced

theorem nil : Traced store s₀ [] where
  nodup := List.nodup_nil
  unique := by simp
  begun := by simp
  joined := by simp
  ended := by simp
  answer := by simp

theorem concat (h : Traced store s₀ trace) (hnew : m ∉ trace) (hm : Admits store s₀ trace m) :
    Traced store s₀ (trace ++ [m]) where
  nodup := List.nodup_append_comm.1 (List.nodup_cons.2 ⟨hnew, h.nodup⟩)
  unique := by
    intro i c c' hc hc'
    rw [List.mem_append, List.mem_singleton] at hc hc'
    rcases hc with hc | rfl
    · rcases hc' with hc' | rfl
      · exact h.unique i c c' hc hc'
      · exact absurd hc (hm c)
    · rcases hc' with hc' | heq
      · exact absurd hc' (hm c')
      · exact (Moment.started.inj heq).2.symm
  begun := by
    intro i c o hmem
    rcases List.mem_append.1 hmem with hmem | hmem
    · exact (h.begun i c o hmem).trans (List.sublist_append_left _ _)
    · obtain rfl := List.mem_singleton.1 hmem
      exact (List.singleton_sublist.2 hm.1).append (List.Sublist.refl [_])
  joined := by
    intro i l hmem
    have hstarted : ∃ key, .started i (.get key) ∈ trace ∧ .started l (.get key) ∈ trace := by
      rcases List.mem_append.1 hmem with hmem | hmem
      · exact h.joined i l hmem
      · obtain rfl := List.mem_singleton.1 hmem
        exact hm
    obtain ⟨key, hi, hl⟩ := hstarted
    exact ⟨key, List.mem_append_left _ hi, List.mem_append_left _ hl⟩
  ended := by
    intro i o hmem
    rcases List.mem_append.1 hmem with hmem | hmem
    · obtain ⟨l, c, hl, hsub⟩ := h.ended i o hmem
      exact ⟨l, c, hl.imp_right (List.mem_append_left _),
        hsub.trans (List.sublist_append_left _ _)⟩
    · obtain rfl := List.mem_singleton.1 hmem
      obtain ⟨l, c, hl, heffect⟩ := hm
      exact ⟨l, c, hl.imp_right (List.mem_append_left _),
        (List.singleton_sublist.2 heffect).append (List.Sublist.refl [_])⟩
  answer := by
    intro pre i c o post heq
    rcases List.eq_nil_or_concat post with rfl | ⟨post, m', rfl⟩
    · obtain ⟨rfl, hlast⟩ := List.append_inj' heq rfl
      obtain rfl := List.singleton_inj.1 hlast
      exact hm.2
    · rw [List.concat_eq_append, ← List.cons_append, ← List.append_assoc] at heq
      exact h.answer pre i c o post (List.append_inj' heq rfl).1

end Traced

/-! ### The invariant -/

def Moment.id : Moment O → ℕ
  | started i _ => i
  | effect i _ _ => i
  | joined i _ => i
  | ended i _ => i

/-- This can have happened to a call that has come so far. -/
def Progress.Allows : Progress O → Moment O → Prop
  | _, .started _ _ => True
  | fetched _ _, .effect _ _ _ => True
  | released _ _, .effect _ _ _ => True
  | waiting _, .joined _ _ => True
  | finished _, .effect _ _ _ => True
  | finished _, .joined _ _ => True
  | returned, _ => True
  | _, _ => False

/-- Nothing but its begin has happened to a call that has taken no step. -/
theorem Progress.Allows.of_invoked {c : Call} (h : (invoked c).Allows m) (p : Progress O) :
    p.Allows m := by
  cases m with
  | started j c' =>
    cases p with
    | _ => trivial
  | _ => exact absurd h id

/-- This must have happened to a call that has come so far. -/
def Progress.Needs (trace : List (Moment O)) (i : ℕ) : Progress O → Prop
  | invoked c => .started i c ∈ trace
  | leading key => .started i (.get key) ∈ trace
  | fetched key o => .effect i (.get key) o ∈ trace
  | released key o => .effect i (.get key) o ∈ trace
  | waiting l => .joined i l ∈ trace
  | finished o => ∃ l c, (l = i ∨ .joined i l ∈ trace) ∧ .effect l c o ∈ trace
  | returned => True

theorem Progress.Needs.concat {p : Progress O} {i : ℕ} (h : p.Needs trace i) (m : Moment O) :
    p.Needs (trace ++ [m]) i := by
  cases p with
  | returned => trivial
  | finished o =>
    obtain ⟨l, c, hl, heffect⟩ := h
    exact ⟨l, c, hl.imp_right (List.mem_append_left _), List.mem_append_left _ heffect⟩
  | _ => exact List.mem_append_left _ h

/-- The calls are as far as the trace says, and the store has done the calls of the trace. -/
structure Keeps (store : AtomicBlobStore S O) (s₀ : S) (s : State S O) : Prop where
  traced : Traced store s₀ s.trace
  store : s.store = store.run s₀ (effects s.trace)
  allows : ∀ m ∈ s.trace, ∃ p, s.calls[m.id]? = some p ∧ p.Allows m
  needs : ∀ (i : ℕ) (p : Progress O), s.calls[i]? = some p → p.Needs s.trace i
  inflight : ∀ key l, s.inflight key = some l → .started l (.get key) ∈ s.trace
  done : ∀ l o, s.done l = some o → ∃ c, .effect l c o ∈ s.trace

theorem keeps_init (store : AtomicBlobStore S O) (s₀ : S) : Keeps store s₀ (.init s₀) where
  traced := .nil
  store := rfl
  allows := by simp [State.init]
  needs := by simp [State.init]
  inflight := by simp [State.init]
  done := by simp [State.init]

namespace Keeps

variable {s : State S O} {i : ℕ} {p p' : Progress O}

theorem store_concat (h : Keeps store s₀ s) {m : Moment O} (hm : effects [m] = []) :
    s.store = store.run s₀ (effects (s.trace ++ [m])) := by
  rw [effects_append, hm, List.append_nil]
  exact h.store

theorem allows_set (h : Keeps store s₀ s) (hi : s.calls[i]? = some p)
    (hallows : ∀ m, p.Allows m → p'.Allows m) {m : Moment O} (hm : m ∈ s.trace) :
    ∃ q, (s.calls.set i p')[m.id]? = some q ∧ q.Allows m := by
  obtain ⟨q, hq, hqm⟩ := h.allows m hm
  by_cases hid : i = m.id
  · subst hid
    obtain rfl := Option.some.inj (hi.symm.trans hq)
    have hlt := (List.getElem?_eq_some_iff.1 hi).1
    exact ⟨p', by rw [List.getElem?_set_self hlt], hallows m hqm⟩
  · exact ⟨q, by rwa [List.getElem?_set_ne hid], hqm⟩

theorem move (h : Keeps store s₀ s) (hi : s.calls[i]? = some p)
    (hallows : ∀ m, p.Allows m → p'.Allows m) (hneeds : p'.Needs s.trace i)
    {inflight : String → Option ℕ} {done : ℕ → Option O}
    (hinflight : ∀ key l, inflight key = some l → .started l (.get key) ∈ s.trace)
    (hdone : ∀ l o, done l = some o → ∃ c, .effect l c o ∈ s.trace) :
    Keeps store s₀ ⟨s.store, inflight, done, s.calls.set i p', s.trace⟩ where
  traced := h.traced
  store := h.store
  allows := fun m hm => h.allows_set hi hallows hm
  needs := by
    intro j q hj
    rcases List.getElem?_set_cases hj with ⟨rfl, rfl⟩ | ⟨-, hj⟩
    · exact hneeds
    · exact h.needs j q hj
  inflight := hinflight
  done := hdone

theorem record (h : Keeps store s₀ s) (hi : s.calls[i]? = some p)
    (hallows : ∀ m, p.Allows m → p'.Allows m) {m : Moment O} (hid : m.id = i)
    (hnew : ¬ p.Allows m) (hm : p'.Allows m) (hadmits : Admits store s₀ s.trace m)
    (hneeds : p'.Needs (s.trace ++ [m]) i) {st : S}
    (hst : st = store.run s₀ (effects (s.trace ++ [m]))) :
    Keeps store s₀ ⟨st, s.inflight, s.done, s.calls.set i p', s.trace ++ [m]⟩ where
  traced := by
    refine h.traced.concat ?_ hadmits
    intro hmem
    obtain ⟨q, hq, hqm⟩ := h.allows m hmem
    rw [hid] at hq
    obtain rfl := Option.some.inj (hi.symm.trans hq)
    exact hnew hqm
  store := hst
  allows := by
    intro m' hm'
    rcases List.mem_append.1 hm' with hm' | hm'
    · exact h.allows_set hi hallows hm'
    · obtain rfl := List.mem_singleton.1 hm'
      have hlt := (List.getElem?_eq_some_iff.1 hi).1
      exact ⟨p', by rw [hid, List.getElem?_set_self hlt], hm⟩
  needs := by
    intro j q hj
    rcases List.getElem?_set_cases hj with ⟨rfl, rfl⟩ | ⟨-, hj⟩
    · exact hneeds
    · exact (h.needs j q hj).concat m
  inflight := fun key l hl => List.mem_append_left _ (h.inflight key l hl)
  done := fun l o hl => (h.done l o hl).imp fun c hc => List.mem_append_left _ hc

theorem invoke (h : Keeps store s₀ s) (c : Call) :
    Keeps store s₀ { s with
      calls := s.calls ++ [.invoked c]
      trace := s.trace ++ [.started s.calls.length c] } where
  traced := by
    have hnew : ∀ c', .started s.calls.length c' ∉ s.trace := by
      intro c' hmem
      obtain ⟨q, hq, -⟩ := h.allows _ hmem
      exact (List.getElem?_eq_some_iff.1 hq).1.ne rfl
    exact h.traced.concat (hnew c) hnew
  store := h.store_concat rfl
  allows := by
    intro m hm
    rcases List.mem_append.1 hm with hm | hm
    · obtain ⟨q, hq, hqm⟩ := h.allows m hm
      exact ⟨q, by rwa [List.getElem?_append_left (List.getElem?_eq_some_iff.1 hq).1], hqm⟩
    · obtain rfl := List.mem_singleton.1 hm
      exact ⟨.invoked c, List.getElem?_concat_length, trivial⟩
  needs := by
    intro j q hj
    rcases List.getElem?_concat_cases hj with hj | ⟨rfl, rfl⟩
    · exact (h.needs j q hj).concat _
    · exact List.mem_append_right _ (List.mem_singleton_self _)
  inflight := fun key l hl => List.mem_append_left _ (h.inflight key l hl)
  done := fun l o hl => (h.done l o hl).imp fun _ hc => List.mem_append_left _ hc

theorem access (h : Keeps store s₀ s) (hi : s.calls[i]? = some p) {c : Call}
    {next : O → Progress O} (hstarted : .started i c ∈ s.trace)
    (hallows : ∀ o m, p.Allows m → (next o).Allows m) (hnew : ∀ o, ¬ p.Allows (.effect i c o))
    (hnext : ∀ o, (next o).Allows (.effect i c o))
    (hneeds : ∀ trace o, .effect i c o ∈ trace → (next o).Needs trace i) :
    Keeps store s₀ (s.access store i c next) := by
  refine h.record hi (hallows _) rfl (hnew _) (hnext _) ⟨hstarted, ?_⟩ (hneeds _ _ ?_) ?_
  · rw [h.store]
  · exact List.mem_append_right _ (List.mem_singleton_self _)
  · rw [effects_append, Mealy.run_append, ← h.store]
    rfl

theorem delegate (h : Keeps store s₀ s) {c : Call} (hi : s.calls[i]? = some (.invoked c)) :
    Keeps store s₀ (s.access store i c .finished) := by
  refine h.access hi (h.needs i _ hi) (fun _ _ hm => hm.of_invoked _) (fun _ => id)
    (fun _ => trivial) ?_
  intro trace o ho
  exact ⟨i, c, .inl rfl, ho⟩

/-- A `Get` enters itself in `inflight`, or joins the call that is there. -/
theorem get (h : Keeps store s₀ s) {key : String} (hi : s.calls[i]? = some (.invoked (.get key)))
    {s' : State S O} (hst : s.advance store i (.invoked (.get key)) = some s') :
    Keeps store s₀ s' := by
  have hstarted : .started i (.get key) ∈ s.trace := h.needs i _ hi
  cases hl : s.inflight key with
  | some l =>
    simp only [State.advance, hl] at hst
    obtain rfl := Option.some.inj hst
    refine h.record hi (fun _ hm => hm.of_invoked _) rfl id ?_ ?_ ?_ (h.store_concat rfl)
    · trivial
    · exact ⟨key, hstarted, h.inflight key l hl⟩
    · exact List.mem_append_right _ (List.mem_singleton_self _)
  | none =>
    simp only [State.advance, hl] at hst
    obtain rfl := Option.some.inj hst
    refine h.move hi (fun _ hm => hm.of_invoked _) ?_ ?_ h.done
    · exact hstarted
    · intro key' l hl'
      rw [Function.update_apply] at hl'
      split_ifs at hl' with hkey
      · obtain rfl := Option.some.inj hl'
        rw [hkey]
        exact hstarted
      · exact h.inflight key' l hl'

theorem release (h : Keeps store s₀ s) {key : String} {o : O}
    (hi : s.calls[i]? = some (.fetched key o)) :
    Keeps store s₀ { s with
      done := Function.update s.done i (some o)
      calls := s.calls.set i (.released key o) } := by
  have heffect : .effect i (.get key) o ∈ s.trace := h.needs i _ hi
  refine h.move hi ?_ ?_ h.inflight ?_
  · intro m hm
    cases m with
    | started j c => trivial
    | effect j c o' => trivial
    | _ => exact absurd hm id
  · exact heffect
  · intro l o' hl
    rw [Function.update_apply] at hl
    split_ifs at hl with hkey
    · obtain rfl := Option.some.inj hl
      rw [hkey]
      exact ⟨_, heffect⟩
    · exact h.done l o' hl

theorem leave (h : Keeps store s₀ s) {key : String} {o : O}
    (hi : s.calls[i]? = some (.released key o)) :
    Keeps store s₀ { s with
      inflight := Function.update s.inflight key none
      calls := s.calls.set i (.finished o) } := by
  refine h.move hi ?_ ?_ ?_ h.done
  · intro m hm
    cases m with
    | started j c => trivial
    | effect j c o' => trivial
    | _ => exact absurd hm id
  · exact ⟨i, .get key, .inl rfl, h.needs i _ hi⟩
  · intro key' l hl
    rw [Function.update_apply] at hl
    split_ifs at hl
    exact h.inflight key' l hl

theorem advance (h : Keeps store s₀ s) (hi : s.calls[i]? = some p) {s' : State S O}
    (hst : s.advance store i p = some s') : Keeps store s₀ s' := by
  cases p with
  | invoked c =>
    cases c with
    | get key => exact h.get hi hst
    | set key data d =>
      obtain rfl := Option.some.inj hst
      exact h.delegate hi
    | del key =>
      obtain rfl := Option.some.inj hst
      exact h.delegate hi
    | setCurrentBlockHeight height =>
      obtain rfl := Option.some.inj hst
      exact h.delegate hi
  | leading key =>
    obtain rfl := Option.some.inj hst
    refine h.access hi (h.needs i _ hi) ?_ (fun _ => id) (fun _ => trivial) fun _ _ => id
    intro o m hm
    cases m with
    | started j c => trivial
    | _ => exact absurd hm id
  | fetched key o =>
    obtain rfl := Option.some.inj hst
    exact h.release hi
  | released key o =>
    obtain rfl := Option.some.inj hst
    exact h.leave hi
  | waiting l =>
    obtain ⟨o, hl, rfl⟩ := Option.map_eq_some_iff.1 hst
    obtain ⟨c, hc⟩ := h.done l o hl
    refine h.move hi ?_ ?_ h.inflight h.done
    · intro m hm
      cases m with
      | started j c => trivial
      | joined j l' => trivial
      | _ => exact absurd hm id
    · exact ⟨l, c, .inr (h.needs i _ hi), hc⟩
  | finished o => cases hst
  | returned => cases hst

/-- **Every step keeps the invariant.** -/
theorem step (h : Keeps store s₀ s) {l : Label} {s' : State S O}
    (hst : (system store).step s l = some s') : Keeps store s₀ s' := by
  cases l with
  | invoke c =>
    obtain rfl := Option.some.inj hst
    exact h.invoke c
  | step i =>
    obtain ⟨p, hi, hst⟩ := Option.bind_eq_some_iff.1 hst
    exact h.advance hi hst
  | ret i =>
    simp only [system, State.step] at hst
    split at hst
    next o hi =>
      obtain rfl := Option.some.inj hst
      refine h.record hi ?_ rfl id ?_ ?_ ?_ (h.store_concat rfl)
      · intro m _
        cases m with
        | _ => trivial
      · trivial
      · exact h.needs i _ hi
      · trivial
    next => cases hst

end Keeps

/-! ### Fresh reads -/

theorem blob_step {s : S} {key : String} {data : List UInt8} (hblob : store.blob s key = some data)
    {c : Call} (hc : ¬ Changes store s key c) : store.blob (store.step s c).1 key = some data := by
  cases c with
  | set k data' d =>
    have hk : key ≠ k := fun heq => hc heq.symm
    exact (store.blob_set_of_ne s k data' d key hk).trans hblob
  | get k => exact (store.blob_get s k key).trans hblob
  | del k =>
    have hk : key ≠ k := fun heq => hc heq.symm
    exact (store.blob_del_of_ne s k key hk).trans hblob
  | setCurrentBlockHeight height =>
    rcases store.blob_height s height key with heq | hnone
    · exact heq.trans hblob
    · refine absurd ⟨?_, hnone⟩ hc
      rw [hblob]
      exact Option.some_ne_none data

theorem blob_run {pre mid : List (Moment O)} {key : String} {data : List UInt8}
    (hblob : store.blob (store.run s₀ (effects pre)) key = some data)
    (hmid : ∀ mid₁ j c o mid₂, mid = mid₁ ++ .effect j c o :: mid₂ →
      ¬ Changes store (store.run s₀ (effects (pre ++ mid₁))) key c) :
    store.blob (store.run s₀ (effects (pre ++ mid))) key = some data := by
  induction mid using List.reverseRecOn with
  | nil =>
    rw [List.append_nil]
    exact hblob
  | append_singleton mid m ih =>
    have hkept := ih fun mid₁ j c o mid₂ heq =>
      hmid mid₁ j c o (mid₂ ++ [m]) (by rw [heq, List.append_assoc, List.cons_append])
    rw [← List.append_assoc, effects_append]
    cases m with
    | effect j c o =>
      rw [Mealy.run_append]
      exact blob_step hkept (hmid mid j c o [] rfl)
    | _ =>
      rw [show effects [_] = [] from rfl, List.append_nil]
      exact hkept

namespace Traced

/-- A `Get` returns what was fetched, by itself or by the call that it has joined. -/
theorem fetch (h : Traced store s₀ trace) {g : ℕ} {key : String} {o : O}
    (hstarted : .started g (.get key) ∈ trace) (hended : .ended g o ∈ trace) :
    ∃ l, (l = g ∨ .joined g l ∈ trace) ∧ [.effect l (.get key) o, .ended g o].Sublist trace := by
  obtain ⟨l, c, hl, hsub⟩ := h.ended g o hended
  have hbegun : .started l c ∈ trace :=
    (h.begun l c o (hsub.subset List.mem_cons_self)).subset List.mem_cons_self
  have hget : .started l (.get key) ∈ trace := by
    rcases hl with rfl | hjoined
    · exact hstarted
    · obtain ⟨key', hg, hl⟩ := h.joined g l hjoined
      obtain rfl := Call.get.inj (h.unique g _ _ hstarted hg)
      exact hl
  obtain rfl := h.unique l c _ hbegun hget
  exact ⟨l, hl, hsub⟩

theorem effect_of_ended (h : Traced store s₀ trace) {i : ℕ} {c : Call} {o : O}
    (hstarted : .started i c ∈ trace) (hc : ∀ key, c ≠ .get key) (hended : .ended i o ∈ trace) :
    [.effect i c o, .ended i o].Sublist trace := by
  obtain ⟨l, c', hl, hsub⟩ := h.ended i o hended
  have hbegun : .started l c' ∈ trace :=
    (h.begun l c' o (hsub.subset List.mem_cons_self)).subset List.mem_cons_self
  rcases hl with rfl | hjoined
  · obtain rfl := h.unique l c' c hbegun hstarted
    exact hsub
  · obtain ⟨key, hi, -⟩ := h.joined i l hjoined
    exact absurd (h.unique i c _ hstarted hi) (hc key)

/-- The fetch of a `Get` comes after the effect of a `Set` that has returned before. -/
theorem effect_before_fetch (h : Traced store s₀ trace) {i g l : ℕ} {c : Call} {key : String}
    {o o' : O} (hset : [.effect i c o, .ended i o].Sublist trace)
    (hbefore : [.ended i o, .started g (.get key)].Sublist trace)
    (hl : l = g ∨ .joined g l ∈ trace) (hfetch : .effect l (.get key) o' ∈ trace)
    (hc : ∀ key, c ≠ .get key)
    (hjoined : .joined g l ∈ trace → ¬ [.effect l (.get key) o', .effect i c o].Sublist trace) :
    [.effect i c o, .effect l (.get key) o'].Sublist trace := by
  rcases hl with rfl | hl
  · have hstart := h.nodup.pair_sublist_trans hset hbefore
    exact h.nodup.pair_sublist_trans hstart (h.begun l _ o' hfetch)
  · have hne : Moment.effect i c o ≠ .effect l (.get key) o' :=
      fun heq => hc key (Moment.effect.inj heq).2.1
    have hmem := hset.subset List.mem_cons_self
    exact (List.pair_sublist_or hmem hfetch hne).resolve_right (hjoined hl)

theorem fresh (h : Traced store s₀ trace) : FreshUnlessJoined store s₀ trace := by
  intro i key data d g answer hsub hquiet hjoined
  have hset : .started i (.set key data d) ∈ trace := hsub.subset (by simp)
  have hreturned : .ended i store.ok ∈ trace := hsub.subset (by simp)
  have hget : .started g (.get key) ∈ trace := hsub.subset (by simp)
  have hended : .ended g answer ∈ trace := hsub.subset (by simp)
  have hbefore : [.ended i store.ok, .started g (.get key)].Sublist trace :=
    List.Sublist.trans (.cons _ (.cons_cons _ (.cons_cons _ (.cons _ .slnil)))) hsub
  have heffect := h.effect_of_ended hset (by simp) hreturned
  obtain ⟨l, hl, hfetch⟩ := h.fetch hget hended
  have horder := h.effect_before_fetch heffect hbefore hl (hfetch.subset List.mem_cons_self)
    (by simp) fun hl hsub => hjoined ⟨l, answer, hl, hsub⟩
  obtain ⟨pre, mid, post, htrace⟩ := List.exists_append_of_pair_sublist horder
  -- the trace, cut at the fetch
  have hcut : trace = (pre ++ [.effect i (.set key data d) store.ok] ++ mid) ++
      .effect l (.get key) answer :: post := by simp [htrace]
  have hpost : .ended g answer ∈ post := by
    have hnd := h.nodup
    rw [hcut] at hnd hfetch
    exact hnd.mem_of_pair_sublist hfetch
  have hblob : store.blob (store.run s₀ (effects (pre ++ [.effect i (.set key data d) store.ok])))
      key = some data := by
    rw [effects_append, Mealy.run_append]
    exact store.blob_set _ key data d (h.answer pre i _ _ _ htrace).symm
  have hkept := @blob_run _ _ store s₀ _ mid key data hblob ?_
  · exact (h.answer _ l _ _ post hcut).trans (store.get_found _ key data hkept)
  · intro mid₁ j c o mid₂ hmid
    refine hquiet _ j c o (mid₂ ++ .effect l (.get key) answer :: post) ?_ ?_ ?_
    · rw [hcut, hmid]
      simp
    · simp
    · simp [hpost]

end Traced

/-- **Reads are fresh** over every atomic store and in every interleaving, but for the fetches of
calls that were under way when the blob was stored. -/
theorem get_fresh (store : AtomicBlobStore S O) (s₀ : S) (s : State S O)
    (hrun : (system store).Reachable (.init s₀) s) : FreshUnlessJoined store s₀ s.trace := by
  have hkeeps : Keeps store s₀ s :=
    hrun.invariant (keeps_init store s₀) fun _ _ _ h _ hst => h.step hst
  exact hkeeps.traced.fresh

end

/-- A `Get` is joined that has entered itself before the blob was stored, and fetches it after. -/
def joinedRun : List Label :=
  [.invoke (.get "ab"), .step 0, .invoke (.set "ab" [1] 0), .step 1, .ret 1,
    .invoke (.get "ab"), .step 2, .step 0, .step 0, .step 2, .ret 2, .step 0, .ret 0]

/-- What happens in it. -/
def joinedTrace : List (Moment Answer) :=
  [.started 0 (.get "ab"), .started 1 (.set "ab" [1] 0), .effect 1 (.set "ab" [1] 0) .ok,
    .ended 1 .ok, .started 2 (.get "ab"), .joined 2 0,
    .effect 0 (.get "ab") (.blob (some [1])), .ended 2 (.blob (some [1])),
    .ended 0 (.blob (some [1]))]

theorem undisturbed_joinedTrace :
    Undisturbed memoryBlobStore .empty joinedTrace 1 "ab" [1] 0 2 (.blob (some [1])) := by
  intro pre j c o post htrace hset _ hchanges
  have hmem : .effect j c o ∈ joinedTrace := by
    rw [htrace]
    exact List.mem_append_right _ List.mem_cons_self
  simp only [joinedTrace, List.mem_cons, Moment.effect.injEq, reduceCtorEq, false_or,
    List.not_mem_nil, or_false] at hmem
  rcases hmem with ⟨rfl, rfl, rfl⟩ | ⟨rfl, rfl, rfl⟩
  · -- the `Set` itself takes effect once
    have hnd : joinedTrace.Nodup := by decide
    rw [htrace] at hnd
    exact (List.nodup_append.1 hnd).2.2 _ hset _ List.mem_cons_self rfl
  · exact hchanges

theorem not_joinsOlder_joinedTrace : ¬ JoinsOlder memoryBlobStore joinedTrace 1 "ab" [1] 0 2 := by
  rintro ⟨l, o, -, hsub⟩
  have hmem : .effect l (.get "ab") o ∈ joinedTrace := hsub.subset List.mem_cons_self
  simp only [joinedTrace, List.mem_cons, Moment.effect.injEq, reduceCtorEq, false_and, and_false,
    true_and, false_or, List.not_mem_nil, or_false] at hmem
  obtain ⟨rfl, rfl⟩ := hmem
  exact absurd hsub (by decide)

/-- The `Get` that has joined finds the blob. -/
theorem get_fresh_joined :
    ∃ s, (system memoryBlobStore).exec (.init .empty) joinedRun = some s ∧
      s.trace = joinedTrace ∧
      Undisturbed memoryBlobStore .empty s.trace 1 "ab" [1] 0 2 (.blob (some [1])) ∧
      ¬ JoinsOlder memoryBlobStore s.trace 1 "ab" [1] 0 2 ∧
      FreshUnlessJoined memoryBlobStore .empty s.trace := by
  refine ⟨_, rfl, rfl, undisturbed_joinedTrace, not_joinsOlder_joinedTrace, ?_⟩
  refine get_fresh memoryBlobStore .empty _ ?_
  exact LTS.Run.exec .start (LTS.Along.of_forall (fun _ _ => trivial) _ joinedRun) rfl

/-- A `Get` is joined that has fetched before the blob was stored. -/
def staleRun : List Label :=
  [.invoke (.get "ab"), .step 0, .step 0, .invoke (.set "ab" [1] 0), .step 1, .ret 1,
    .invoke (.get "ab"), .step 2, .step 0, .step 2, .ret 2]

def staleTrace : List (Moment Answer) :=
  [.started 0 (.get "ab"), .effect 0 (.get "ab") (.blob none), .started 1 (.set "ab" [1] 0),
    .effect 1 (.set "ab" [1] 0) .ok, .ended 1 .ok, .started 2 (.get "ab"), .joined 2 0,
    .ended 2 (.blob none)]

/-- A `Set` that has started first takes effect last. -/
def overtakenRun : List Label :=
  [.invoke (.set "ab" [1] 0), .invoke (.set "ab" [2] 0), .step 1, .ret 1, .step 0,
    .invoke (.get "ab"), .step 2, .step 2, .step 2, .step 2, .ret 2]

def overtakenTrace : List (Moment Answer) :=
  [.started 0 (.set "ab" [1] 0), .started 1 (.set "ab" [2] 0), .effect 1 (.set "ab" [2] 0) .ok,
    .ended 1 .ok, .effect 0 (.set "ab" [1] 0) .ok, .started 2 (.get "ab"),
    .effect 2 (.get "ab") (.blob (some [1])), .ended 2 (.blob (some [1]))]

theorem not_fresh_staleTrace : ¬ Fresh memoryBlobStore staleTrace := by
  intro h
  have hread := h 1 "ab" [1] 0 2 (.blob none) (by decide) ?_
  · cases hread
  · intro j c hc hsub
    have hmem : .started j c ∈ staleTrace := hsub.subset (by simp)
    simp only [staleTrace, List.mem_cons, Moment.started.injEq, reduceCtorEq, false_or,
      List.not_mem_nil, or_false] at hmem
    rcases hmem with ⟨rfl, rfl⟩ | ⟨rfl, rfl⟩ | ⟨rfl, rfl⟩
    · exact hc
    · exact absurd hsub (by decide)
    · exact hc

theorem not_fresh_overtakenTrace : ¬ Fresh memoryBlobStore overtakenTrace := by
  intro h
  have hread := h 1 "ab" [2] 0 2 (.blob (some [1])) (by decide) ?_
  · cases hread
  · intro j c hc hsub
    have hmem : .started j c ∈ overtakenTrace := hsub.subset (by simp)
    simp only [overtakenTrace, List.mem_cons, Moment.started.injEq, reduceCtorEq, false_or,
      List.not_mem_nil, or_false] at hmem
    rcases hmem with ⟨rfl, rfl⟩ | ⟨rfl, rfl⟩ | ⟨rfl, rfl⟩
    · exact absurd hsub (by decide)
    · exact absurd hsub (by decide)
    · exact hc

/-- A `Get` that starts after a `Set` has returned may find the blob as it was before, or what a
`Set` has stored that started earlier. -/
theorem get_stale :
    (∃ s, (system memoryBlobStore).exec (.init .empty) staleRun = some s ∧
      s.trace = staleTrace ∧ ¬ Fresh memoryBlobStore s.trace) ∧
    ∃ s, (system memoryBlobStore).exec (.init .empty) overtakenRun = some s ∧
      s.trace = overtakenTrace ∧ ¬ Fresh memoryBlobStore s.trace :=
  ⟨⟨_, rfl, rfl, not_fresh_staleTrace⟩, ⟨_, rfl, rfl, not_fresh_overtakenTrace⟩⟩

end ConcurrentBlobStore

end Store

end MerkleService
