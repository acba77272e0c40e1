import MerkleService.LTS.Basic
import Mathlib.Data.Int.Basic
import Mathlib.Tactic

/-!
# The Aerospike seen counter

`aerospikeSeenCounter.Increment` (`internal/store/seen_counter.go`) records that a txid was seen in
a subtree and reports, by `ThresholdReached`, that the number of distinct subtrees has reached the
threshold.  It talks to the server in two round trips:

* one `Operate` appends the subtree id to the list bin `subtrees` unless it is there already,
  reads the size of the list and reads the bin `tfired`;
* if the size is at least the threshold and `tfired` is not `1`, a `Put` sets `tfired` to `1`; its
  error is ignored.

Each round trip is atomic on the server, the pair is not.  `machine threshold` is the record of one
txid with any number of callers.

* `thresholdReached_at_most_once` : as long as no `Operate` at or above the threshold comes
  between the `Operate` of a firing call and its effective `Put`, at most one call fires.
* `decides_twice` : the condition is exact, an `Operate` that breaks it makes a second call fire.
* `thresholdReached_twice` : two overlapping calls both fire.
-/

namespace MerkleService

namespace SeenCounter

/-! ### Bins and the two server operations -/

/-- The value of a bin as the client hands it to the caller. -/
inductive BinValue where
  | nil
  | int (i : ℤ)
  | str (s : String)
  | list (vs : List BinValue)

/-- Go's `%T` of a bin value. -/
def BinValue.goType : BinValue → String
  | .nil => "<nil>"
  | .int _ => "int"
  | .str _ => "string"
  | .list _ => "[]interface {}"

/-- The record of one txid: the list bin `subtrees` and the bin `tfired`. -/
structure Record where
  subtrees : List String
  tfired : BinValue

/-- No record: reading a missing bin gives `nil`, appending to one starts a list. -/
def Record.empty : Record := ⟨[], .nil⟩

/-- `ListAppendWithPolicyOp` with `AddUnique | NoFail`: append unless present, never an error. -/
def addUnique (xs : List String) (x : String) : List String :=
  if x ∈ xs then xs else xs ++ [x]

/-- The bins returned by `Operate`: the results on `subtrees` (list append, then list size) come
back as one list because two operations target that bin. -/
structure Bins where
  subtrees : BinValue
  tfired : BinValue

/-- The `Operate` of `Increment`: append, list size, get `tfired`. -/
def Record.operate (r : Record) (subtreeID : String) : Record × Bins :=
  let xs := addUnique r.subtrees subtreeID
  ({ r with subtrees := xs }, ⟨.list [.int xs.length, .int xs.length], r.tfired⟩)

/-- The `Put` that marks the threshold as fired. -/
def Record.markFired (r : Record) : Record := { r with tfired := .int 1 }

/-! ### The caller's code -/

/-- The size of the subtree list, from the results on the `subtrees` bin. -/
def newSize : BinValue → Except String ℤ
  | .int v => .ok v
  | .list [] => .error "expected at least 2 results for seen counter ops, got 0"
  | .list [_] => .error "expected at least 2 results for seen counter ops, got 1"
  | .list (_ :: .int size :: _) => .ok size
  | .list (_ :: v :: _) => .error ("unexpected type for list size result: " ++ v.goType)
  | v => .error ("unexpected type for seen counter list size: " ++ v.goType)

/-- The threshold was already fired: `tfired` holds the integer `1`. -/
def alreadyFired : BinValue → Bool
  | .int v => v == 1
  | _ => false

/-- `IncrementResult`. -/
structure IncrementResult where
  newCount : ℤ
  thresholdReached : Bool
  deriving DecidableEq

/-- Where a call of `Increment` stands. -/
inductive Call where
  /-- Not started. -/
  | idle
  /-- `Operate` done, about to send the `Put`; will return `⟨size, true⟩`. -/
  | marking (size : ℤ)
  | returned (r : Except String IncrementResult)

/-- What `Increment` does with the bins returned by `Operate`. -/
def afterOperate (threshold : ℤ) (bins : Bins) : Call :=
  match newSize bins.subtrees with
  | .error e => .returned (.error e)
  | .ok n =>
    if threshold ≤ n ∧ alreadyFired bins.tfired = false then .marking n
    else .returned (.ok ⟨n, false⟩)

/-! ### The record and its concurrent callers -/

/-- The record of one txid and the calls of `Increment` on it, by caller. -/
structure State where
  record : Record
  call : ℕ → Call

/-- The atomic steps: the `Operate` of caller `i` (or its failure, without effect), and its `Put`,
which may fail to take effect. -/
inductive Label where
  | operate (i : ℕ) (subtreeID : String)
  | operateFails (i : ℕ) (err : String)
  | put (i : ℕ) (applied : Bool)

def step (threshold : ℤ) (s : State) : Label → Option State
  | .operate i subtreeID =>
    match s.call i with
    | .idle =>
      let (r, bins) := s.record.operate subtreeID
      some ⟨r, Function.update s.call i (afterOperate threshold bins)⟩
    | _ => none
  | .operateFails i err =>
    match s.call i with
    | .idle =>
      some ⟨s.record, Function.update s.call i
        (.returned (.error ("failed to increment seen counter: " ++ err)))⟩
    | _ => none
  | .put i applied =>
    match s.call i with
    | .marking n =>
      some ⟨if applied then s.record.markFired else s.record,
        Function.update s.call i (.returned (.ok ⟨n, true⟩))⟩
    | _ => none

/-- The seen counter of one txid with any number of concurrent callers. -/
def machine (threshold : ℤ) : LTS State Label := ⟨step threshold⟩

/-- No record yet, no call started. -/
def init : State := ⟨.empty, fun _ => .idle⟩

/-- Caller `i` got `ThresholdReached = true`. -/
def Fired (s : State) (i : ℕ) : Prop := ∃ n, s.call i = .returned (.ok ⟨n, true⟩)

/-- Caller `i` has read a count at or above the threshold and no mark: it fires, or has fired. -/
def Decided (s : State) (i : ℕ) : Prop := (∃ n, s.call i = .marking n) ∨ Fired s i

/-- The condition on a step: an `Operate` that finds the count at or above the threshold, when some
call has already decided to fire, finds the mark of that call. -/
def MarkedBeforeNext (threshold : ℤ) (s : State) : Label → Prop
  | .operate _ subtreeID =>
    threshold ≤ ((addUnique s.record.subtrees subtreeID).length : ℤ) → (∃ j, Decided s j) →
      alreadyFired s.record.tfired = true
  | _ => True

/-! ### What a step can do -/

theorem afterOperate_operate (threshold : ℤ) (r : Record) (subtreeID : String) :
    afterOperate threshold (r.operate subtreeID).2 =
      if threshold ≤ ((addUnique r.subtrees subtreeID).length : ℤ) ∧
          alreadyFired r.tfired = false then
        .marking (addUnique r.subtrees subtreeID).length
      else .returned (.ok ⟨(addUnique r.subtrees subtreeID).length, false⟩) := rfl

/-- Every step changes the call of one caller; it is decided afterwards only if it was before, or
the step is its `Operate`, at or above the threshold with no mark set. -/
theorem step_cases {threshold : ℤ} {s s' : State} {l : Label} (h : step threshold s l = some s') :
    ∃ i, (∀ j, j ≠ i → s'.call j = s.call j) ∧ (Decided s i → Decided s' i) ∧
      (Decided s' i → Decided s i ∨ ∃ subtreeID, l = .operate i subtreeID ∧
        threshold ≤ ((addUnique s.record.subtrees subtreeID).length : ℤ) ∧
        alreadyFired s.record.tfired = false) := by
  cases l with
  | operate i subtreeID =>
    simp only [step] at h
    split at h
    · rename_i hidle
      simp only [Option.some.injEq, afterOperate_operate] at h
      subst h
      refine ⟨i, fun j hj => Function.update_of_ne hj _ _, ?_, fun hd => ?_⟩
      · rintro (⟨n, hn⟩ | ⟨n, hn⟩) <;> simp [hidle] at hn
      · right
        simp only [Decided, Fired, Function.update_self] at hd
        split_ifs at hd with hc
        · exact ⟨subtreeID, rfl, hc.1, hc.2⟩
        · simp at hd
    · cases h
  | operateFails i err =>
    simp only [step] at h
    split at h
    · rename_i hidle
      simp only [Option.some.injEq] at h
      subst h
      refine ⟨i, fun j hj => Function.update_of_ne hj _ _, ?_, fun hd => ?_⟩
      · rintro (⟨n, hn⟩ | ⟨n, hn⟩) <;> simp [hidle] at hn
      · simp [Decided, Fired] at hd
    · cases h
  | put i applied =>
    simp only [step] at h
    split at h
    · rename_i n hn
      simp only [Option.some.injEq] at h
      subst h
      exact ⟨i, fun j hj => Function.update_of_ne hj _ _, fun _ => Or.inr ⟨n, by simp⟩,
        fun _ => Or.inl (Or.inl ⟨n, hn⟩)⟩
    · cases h

theorem decided_congr {s s' : State} {i : ℕ} (h : s'.call i = s.call i) :
    Decided s' i ↔ Decided s i := by
  simp only [Decided, Fired, h]

theorem decided_step {threshold : ℤ} {s s' : State} {l : Label} (h : step threshold s l = some s')
    {j : ℕ} (hj : Decided s j) : Decided s' j := by
  obtain ⟨i, hne, hkeep, -⟩ := step_cases h
  by_cases hji : j = i
  · subst hji; exact hkeep hj
  · exact (decided_congr (hne j hji)).2 hj

/-- At most one call has decided to fire. -/
def AtMostOneDecided (s : State) : Prop := ∀ i j, Decided s i → Decided s j → i = j

theorem atMostOneDecided_step {threshold : ℤ} {s s' : State} {l : Label} (hI : AtMostOneDecided s)
    (hok : MarkedBeforeNext threshold s l) (h : step threshold s l = some s') :
    AtMostOneDecided s' := by
  obtain ⟨k, hne, -, hnew⟩ := step_cases h
  -- whoever is decided after the step and is not the mover was decided before it
  have hold : ∀ i, i ≠ k → Decided s' i → Decided s i := fun i hi hd =>
    (decided_congr (hne i hi)).1 hd
  by_cases hk : Decided s' k → Decided s k
  · intro i j hi hj
    have hback : ∀ i, Decided s' i → Decided s i := fun i hd => by
      by_cases hik : i = k
      · subst hik; exact hk hd
      · exact hold i hik hd
    exact hI i j (hback i hi) (hback j hj)
  · push Not at hk
    obtain ⟨hk', hnot⟩ := hk
    obtain ⟨subtreeID, rfl, hle, hfired⟩ := (hnew hk').resolve_left hnot
    -- the mover decides now, so by the condition nobody had decided before
    have hnone : ∀ j, ¬ Decided s j := fun j hj => by
      rw [hok hle ⟨j, hj⟩] at hfired
      cases hfired
    have honly : ∀ i, Decided s' i → i = k := fun i hd => by
      by_contra hik
      exact hnone i (hold i hik hd)
    intro i j hi hj
    rw [honly i hi, honly j hj]

theorem atMostOneDecided_init : AtMostOneDecided init := by
  rintro i j (⟨n, hn⟩ | ⟨n, hn⟩) <;> simp [init] at hn

/-- **At most one call fires** in every run in which no `Operate` at or above the threshold comes
between a firing call's `Operate` and its effective `Put`. -/
theorem thresholdReached_at_most_once (threshold : ℤ) {s : State}
    (h : (machine threshold).Run (MarkedBeforeNext threshold) init s) :
    ∀ i j, Fired s i → Fired s j → i = j := by
  have hI : AtMostOneDecided s := h.invariant atMostOneDecided_init
    fun _ _ _ hI hok hst => atMostOneDecided_step hI hok hst
  exact fun i j hi hj => hI i j (Or.inr hi) (Or.inr hj)

/-- One caller fires, marks the record, and a later caller with another subtree does not fire. -/
theorem thresholdReached_once_marked :
    ∃ s, (machine 1).Run (MarkedBeforeNext 1) init s ∧ Fired s 0 ∧
      ∀ i j, Fired s i → Fired s j → i = j := by
  have h₁ : (machine 1).Run (MarkedBeforeNext 1) init _ :=
    LTS.Run.start.next (l := Label.operate 0 "s0")
      (fun _ ⟨j, hj⟩ => by rcases hj with ⟨n, hn⟩ | ⟨n, hn⟩ <;> simp [init] at hn) rfl
  have h₂ := h₁.next (l := Label.put 0 true) trivial rfl
  have h₃ := h₂.next (l := Label.operate 1 "s1") (fun _ _ => rfl) rfl
  exact ⟨_, h₃, ⟨1, rfl⟩, thresholdReached_at_most_once 1 h₃⟩

/-- Two callers whose `Operate`s both come before the first `Put` both fire: with threshold `2`,
the second and the third subtree are reported concurrently. -/
theorem thresholdReached_twice :
    ¬ ∀ threshold : ℤ, 1 ≤ threshold → ∀ s, (machine threshold).Reachable init s →
      ∀ i j, Fired s i → Fired s j → i = j := by
  intro hall
  have h₁ : (machine 2).Reachable init _ :=
    LTS.Run.start.next (l := Label.operate 0 "s0") trivial rfl
  have h₂ := h₁.next (l := Label.operate 1 "s1") trivial rfl
  have h₃ := h₂.next (l := Label.operate 2 "s2") trivial rfl
  have h₄ := h₃.next (l := Label.put 1 true) trivial rfl
  have h₅ := h₄.next (l := Label.put 2 true) trivial rfl
  exact absurd (hall 2 (by decide) _ h₅ 1 2 ⟨2, rfl⟩ ⟨3, rfl⟩) (by decide)

/-- **The condition is exact**: an `Operate` that breaks it leaves two calls that fire. -/
theorem decides_twice {threshold : ℤ} {s s' : State} {l : Label}
    (hbad : ¬ MarkedBeforeNext threshold s l) (h : step threshold s l = some s') :
    ∃ i j, i ≠ j ∧ Decided s' i ∧ Decided s' j := by
  cases l with
  | operate i subtreeID =>
    simp only [MarkedBeforeNext] at hbad
    push Not at hbad
    obtain ⟨hle, ⟨j, hj⟩, hfired⟩ := hbad
    have hj' := decided_step h hj
    simp only [step] at h
    split at h
    · rename_i hidle
      have hij : i ≠ j := by
        rintro rfl
        rcases hj with ⟨n, hn⟩ | ⟨n, hn⟩ <;> simp [hidle] at hn
      refine ⟨i, j, hij, Or.inl ⟨(addUnique s.record.subtrees subtreeID).length, ?_⟩, hj'⟩
      simp only [Option.some.injEq, afterOperate_operate] at h
      subst h
      simp [hle, hfired]
    · cases h
  | operateFails i err => exact absurd trivial hbad
  | put i applied => exact absurd trivial hbad

end SeenCounter

end MerkleService
