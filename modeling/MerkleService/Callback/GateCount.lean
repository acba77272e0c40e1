import MerkleService.LTS.Basic
import MerkleService.Callback.StumpGate
import MerkleService.Data.List

/-!
# What the gate counts

Any number of consumers and workers use a `stumpGate` (`internal/callback/delivery.go`).  Each call
of `Add` is followed, at any later time, by its call of `Done`: the lookup, then `wg.Done`.  A call
of `Wait` looks up the wait group, waits for it and deletes the entry of the map.  All interleavings
are the runs of `gateMachine`.

The entry of a key is deleted when a `Wait` returns, also when there has been an `Add` since the
counter came to zero.  The calls of `Done` of this and the later `Add`s then meet another wait
group, or none.

* `CountsPending` : the counter of a wait group in the map is the number of pending `Add`s of its
  key, and no `Done` has brought a counter below zero.
* `GateInv` : the invariant, of the runs in which a wait group is created only for a key without
  pending `Add`s.
* `counts_pending_iff` : **the gate counts what is pending if and only if `Add` creates no wait
  group for a key that has a pending `Add`**.
* `counts_less` : two `Add`s while a `Wait` returns.
-/

namespace MerkleService

namespace Callback

/-- Where the `Done` of an `Add` stands. -/
inductive DoneAt where
  /-- It has not looked up the wait group. -/
  | added
  /-- It is before `wg.Done()`. -/
  | looked (group : ℕ)
  | finished
  deriving DecidableEq

/-- Where a call of `Wait` stands. -/
inductive WaitAt where
  | entered
  | found (group : ℕ)
  /-- Blocked in `wg.Wait()`, begun when the group had been down to zero `zeros` times. -/
  | waiting (group zeros : ℕ)
  /-- Before the deletion of the entry. -/
  | removing
  | returned
  deriving DecidableEq

structure GateState where
  gate : StumpGate
  /-- The calls of `Add`, with their keys. -/
  adds : List (String × DoneAt)
  waits : List (String × WaitAt)
  /-- A `Done` has brought a counter below zero, which panics. -/
  belowZero : Bool
  /-- A wait group was used again before its waiters had returned, which panics. -/
  reused : Bool

inductive GateLabel where
  | add (key : String)
  | doneLookup (t : ℕ)
  | doneSignal (t : ℕ)
  | wait (key : String)
  | waitLookup (w : ℕ)
  | waitGroup (w : ℕ)
  | waitWake (w : ℕ)
  | waitRemove (w : ℕ)

/-- The part of `Done` behind the call. -/
def doneStep (s : GateState) (t : ℕ) : GateLabel → Option GateState
  | .doneLookup _ =>
    match s.adds[t]? with
    | some (key, .added) =>
      match s.gate.gates key with
      | some i => some { s with adds := s.adds.set t (key, .looked i) }
      | none => some { s with adds := s.adds.set t (key, .finished) }
    | _ => none
  | .doneSignal _ =>
    match s.adds[t]? with
    | some (key, .looked i) => some { s with
        adds := s.adds.set t (key, .finished)
        gate := s.gate.signal i
        belowZero := decide (s.gate.count i ≤ 0) }
    | _ => none
  | _ => none

/-- The part of `Wait` behind the call. -/
def waitStep (s : GateState) (w : ℕ) : GateLabel → Option GateState
  | .waitLookup _ =>
    match s.waits[w]? with
    | some (key, .entered) =>
      match s.gate.gates key with
      | some i => some { s with waits := s.waits.set w (key, .found i) }
      | none => some { s with waits := s.waits.set w (key, .returned) }
    | _ => none
  | .waitGroup _ =>
    match s.waits[w]? with
    | some (key, .found i) =>
      if s.gate.count i = 0 then some { s with waits := s.waits.set w (key, .removing) }
      else some { s with waits := s.waits.set w (key, .waiting i (s.gate.zeros i)) }
    | _ => none
  | .waitWake _ =>
    match s.waits[w]? with
    | some (key, .waiting i zeros) =>
      if zeros < s.gate.zeros i then some { s with
        waits := s.waits.set w (key, .removing)
        reused := decide (s.gate.count i ≠ 0) }
      else none
    | _ => none
  | .waitRemove _ =>
    match s.waits[w]? with
    | some (key, .removing) => some { s with
        waits := s.waits.set w (key, .returned)
        gate := s.gate.remove key }
    | _ => none
  | _ => none

def gateStep (s : GateState) (l : GateLabel) : Option GateState :=
  if s.belowZero ∨ s.reused then none
  else
    match l with
    | .add key => some { s with gate := s.gate.add key, adds := s.adds ++ [(key, .added)] }
    | .wait key => some { s with waits := s.waits ++ [(key, .entered)] }
    | .doneLookup t | .doneSignal t => doneStep s t l
    | .waitLookup w | .waitGroup w | .waitWake w | .waitRemove w => waitStep s w l

def gateMachine : LTS GateState GateLabel := ⟨gateStep⟩

def gateInit : GateState := ⟨.empty, [], [], false, false⟩

/-- An `Add` of the key whose `Done` has not been made. -/
def isPending (key : String) (a : String × DoneAt) : ℕ :=
  if a.1 = key ∧ a.2 ≠ .finished then 1 else 0

/-- The number of pending `Add`s of the key. -/
def GateState.pendingAdds (s : GateState) (key : String) : ℕ := (s.adds.map (isPending key)).sum

/-- **What the gate is to count.** -/
def CountsPending (s : GateState) : Prop :=
  (∀ key i, s.gate.gates key = some i → s.gate.count i = s.pendingAdds key) ∧ s.belowZero = false

/-- `Add` creates a wait group only when the key has no pending `Add`. -/
def CreatesFresh (s : GateState) : GateLabel → Prop
  | .add key => s.gate.gates key = none → s.pendingAdds key = 0
  | _ => True

/-! ### What a step does -/

/-- What a step does to the gate and the pending `Add`s. -/
inductive GateMove (s s' : GateState) : GateLabel → Prop
  | add (key : String) : s'.gate = s.gate.add key → s'.adds = s.adds ++ [(key, .added)] →
      s'.belowZero = s.belowZero → GateMove s s' (.add key)
  | looked {t : ℕ} {key : String} {i : ℕ} {l : GateLabel} : s.adds[t]? = some (key, .added) →
      s.gate.gates key = some i → s'.gate = s.gate → s'.adds = s.adds.set t (key, .looked i) →
      s'.belowZero = s.belowZero → GateMove s s' l
  | missed {t : ℕ} {key : String} {l : GateLabel} : s.adds[t]? = some (key, .added) →
      s.gate.gates key = none → s'.gate = s.gate → s'.adds = s.adds.set t (key, .finished) →
      s'.belowZero = s.belowZero → GateMove s s' l
  | signal {t : ℕ} {key : String} {i : ℕ} {l : GateLabel} : s.adds[t]? = some (key, .looked i) →
      s'.gate = s.gate.signal i → s'.adds = s.adds.set t (key, .finished) →
      s'.belowZero = decide (s.gate.count i ≤ 0) → GateMove s s' l
  | remove (key : String) {l : GateLabel} : s'.gate = s.gate.remove key → s'.adds = s.adds →
      s'.belowZero = s.belowZero → GateMove s s' l
  | quiet {l : GateLabel} : (∀ key, l ≠ .add key) → s'.gate = s.gate → s'.adds = s.adds →
      s'.belowZero = s.belowZero → GateMove s s' l

theorem doneStep_move {s s' : GateState} {t : ℕ} {l : GateLabel} (h : doneStep s t l = some s') :
    GateMove s s' l := by
  unfold doneStep at h
  split at h
  · split at h
    · rename_i key hadd
      split at h
      · rename_i i hi
        obtain rfl := Option.some.inj h
        exact .looked hadd hi rfl rfl rfl
      · rename_i hnone
        obtain rfl := Option.some.inj h
        exact .missed hadd hnone rfl rfl rfl
    · cases h
  · split at h
    · rename_i key i hadd
      obtain rfl := Option.some.inj h
      exact .signal hadd rfl rfl rfl
    · cases h
  · cases h

theorem waitStep_move {s s' : GateState} {w : ℕ} {l : GateLabel} (h : waitStep s w l = some s') :
    GateMove s s' l := by
  unfold waitStep at h
  split at h
  · split at h
    · split at h
      · obtain rfl := Option.some.inj h
        exact .quiet nofun rfl rfl rfl
      · obtain rfl := Option.some.inj h
        exact .quiet nofun rfl rfl rfl
    · cases h
  · split at h
    · split_ifs at h
      · obtain rfl := Option.some.inj h
        exact .quiet nofun rfl rfl rfl
      · obtain rfl := Option.some.inj h
        exact .quiet nofun rfl rfl rfl
    · cases h
  · split at h
    · split_ifs at h
      obtain rfl := Option.some.inj h
      exact .quiet nofun rfl rfl rfl
    · cases h
  · split at h
    · rename_i key hw
      obtain rfl := Option.some.inj h
      exact .remove key rfl rfl rfl
    · cases h
  · cases h

/-- **What a step does.** -/
theorem gateStep_move {s s' : GateState} {l : GateLabel} (h : gateStep s l = some s') :
    s.belowZero = false ∧ GateMove s s' l := by
  unfold gateStep at h
  by_cases hpan : s.belowZero = true ∨ s.reused = true
  case pos => simp [hpan] at h
  rw [if_neg hpan] at h
  refine ⟨?_, ?_⟩
  · simp only [not_or, Bool.not_eq_true] at hpan
    exact hpan.1
  cases l with
  | add key =>
    obtain rfl := Option.some.inj h
    exact .add key rfl rfl rfl
  | wait key =>
    obtain rfl := Option.some.inj h
    exact .quiet nofun rfl rfl rfl
  | doneLookup t | doneSignal t => exact doneStep_move h
  | waitLookup w | waitGroup w | waitWake w | waitRemove w => exact waitStep_move h

/-! ### The invariant -/

/-- A `Done` is about to signal group `i`. -/
def isSignalling (i : ℕ) (a : String × DoneAt) : ℕ := if a.2 = .looked i then 1 else 0

structure GateInv (s : GateState) : Prop where
  wf : s.gate.WellFormed
  counts : CountsPending s
  /-- The wait group that a `Done` holds is that of its key, if there is one, and no other key's. -/
  looked : ∀ (key : String) (i : ℕ), (key, .looked i) ∈ s.adds → i < s.gate.groups.length ∧
    (∀ j, s.gate.gates key = some j → i = j) ∧ ∀ key', s.gate.gates key' = some i → key' = key
  /-- Each `Done` that is about to signal a group has been counted there. -/
  enough : ∀ i, ((s.adds.map (isSignalling i)).sum : ℤ) ≤ s.gate.count i

theorem gateInv_init : GateInv gateInit where
  wf := StumpGate.wellFormed_empty
  counts := ⟨nofun, rfl⟩
  looked := nofun
  enough := fun i => by simp [gateInit, StumpGate.count, StumpGate.empty]

/-! ### The steps of the invariant -/

section

variable {s s' : GateState} {t i : ℕ} {key : String}

theorem pendingAdds_append (key' : String) (hadds : s'.adds = s.adds ++ [(key, .added)]) :
    s'.pendingAdds key' = s.pendingAdds key' + if key' = key then 1 else 0 := by
  unfold GateState.pendingAdds
  rw [hadds, List.map_append, List.sum_append]
  simp [isPending, eq_comm]

theorem pendingAdds_set_looked (key' : String) (hadd : s.adds[t]? = some (key, .added))
    (hadds : s'.adds = s.adds.set t (key, .looked i)) :
    s'.pendingAdds key' = s.pendingAdds key' := by
  have hsum := List.sum_map_set (isPending key') hadd (key, .looked i)
  rw [← hadds] at hsum
  simpa [isPending, GateState.pendingAdds] using hsum

theorem pendingAdds_set_finished {d : DoneAt} (key' : String) (hd : d ≠ .finished)
    (hadd : s.adds[t]? = some (key, d)) (hadds : s'.adds = s.adds.set t (key, .finished)) :
    s'.pendingAdds key' + (if key' = key then 1 else 0) = s.pendingAdds key' := by
  have hsum := List.sum_map_set (isPending key') hadd (key, .finished)
  rw [← hadds] at hsum
  simpa [isPending, hd, GateState.pendingAdds, eq_comm] using hsum

theorem pendingAdds_pos {d : DoneAt} (hd : d ≠ .finished) (hmem : (key, d) ∈ s.adds) :
    0 < s.pendingAdds key := by
  have hle := List.le_sum_map (isPending key) hmem
  have hone : isPending key (key, d) = 1 := by simp [isPending, hd]
  rw [hone] at hle
  exact hle

theorem count_le_count_add {g : StumpGate} (hwf : g.WellFormed) (key : String) (i : ℕ) :
    g.count i ≤ (g.add key).count i := by
  by_cases hi : (g.gates key).getD g.groups.length = i
  · rw [← hi, StumpGate.count_add_self hwf]
    cases hk : g.gates key with
    | none =>
      have hzero : g.count g.groups.length = 0 := by simp [StumpGate.count]
      simp [StumpGate.pending, hk, hzero]
    | some j => simp [StumpGate.pending, hk]
  · rw [StumpGate.count_add_of_ne hi]

theorem GateInv.add (h : GateInv s) (hgate : s'.gate = s.gate.add key)
    (hadds : s'.adds = s.adds ++ [(key, .added)]) (hzero : s'.belowZero = s.belowZero)
    (hfresh : s.gate.gates key = none → s.pendingAdds key = 0) : GateInv s' := by
  have hold : ∀ {key₀ i₀}, (key₀, .looked i₀) ∈ s'.adds → (key₀, .looked i₀) ∈ s.adds := by
    intro key₀ i₀ hmem
    rw [hadds] at hmem
    simpa using hmem
  refine ⟨hgate ▸ h.wf.add, ⟨?_, hzero.trans h.counts.2⟩, ?_, ?_⟩
  · intro key' i hi
    have hpending := StumpGate.pending_of_gates hi
    rw [← hpending, hgate, StumpGate.pending_add h.wf, pendingAdds_append key' hadds]
    have hcount : s.gate.pending key' = s.pendingAdds key' := by
      cases hk : s.gate.gates key' with
      | some j => rw [StumpGate.pending_of_gates hk, h.counts.1 key' j hk]
      | none =>
        -- the key had no group: it is the one that is added
        rw [hgate, StumpGate.gates_add] at hi
        split_ifs at hi with hkey
        · subst hkey
          simp [StumpGate.pending, hk, hfresh hk]
        · simp [hk] at hi
    rw [hcount]
    push_cast
    rfl
  · intro key₀ i₀ hmem
    obtain ⟨hlt, hcur, hown⟩ := h.looked key₀ i₀ (hold hmem)
    rw [hgate]
    refine ⟨hlt.trans_le StumpGate.length_add_le, ?_, ?_⟩
    · intro j hj
      rw [StumpGate.gates_add] at hj
      split_ifs at hj with hkey
      · subst hkey
        cases hk : s.gate.gates key₀ with
        | none =>
          have hpos := pendingAdds_pos (by simp) (hold hmem)
          rw [hfresh hk] at hpos
          exact absurd hpos (lt_irrefl 0)
        | some j₀ =>
          rw [hk, Option.getD_some] at hj
          exact (hcur j₀ hk).trans (Option.some.inj hj)
      · exact hcur j hj
    · intro key' hi
      rw [StumpGate.gates_add] at hi
      split_ifs at hi with hkey
      · subst hkey
        cases hk : s.gate.gates key' with
        | none =>
          rw [hk, Option.getD_none] at hi
          exact absurd (Option.some.inj hi) hlt.ne'
        | some j₀ =>
          rw [hk, Option.getD_some] at hi
          exact hown key' (hk.trans hi)
      · exact hown key' hi
  · intro i
    have hsum : (s'.adds.map (isSignalling i)).sum = (s.adds.map (isSignalling i)).sum := by
      rw [hadds, List.map_append, List.sum_append]
      simp [isSignalling]
    rw [hsum, hgate]
    exact (h.enough i).trans (count_le_count_add h.wf key i)

theorem mem_of_mem_set {d : DoneAt} {key₀ : String} {i₀ : ℕ}
    (hadds : s'.adds = s.adds.set t (key, d)) (hmem : (key₀, .looked i₀) ∈ s'.adds) :
    (key₀, .looked i₀) ∈ s.adds ∨ key₀ = key ∧ d = .looked i₀ := by
  rw [hadds] at hmem
  rcases List.mem_or_eq_of_mem_set hmem with hold | hnew
  · exact Or.inl hold
  · obtain ⟨rfl, rfl⟩ := Prod.mk.inj hnew
    exact Or.inr ⟨rfl, rfl⟩

theorem GateInv.lookup (h : GateInv s) (hadd : s.adds[t]? = some (key, .added))
    (hi : s.gate.gates key = some i) (hgate : s'.gate = s.gate)
    (hadds : s'.adds = s.adds.set t (key, .looked i)) (hzero : s'.belowZero = s.belowZero) :
    GateInv s' := by
  have hcount : ∀ key', s'.pendingAdds key' = s.pendingAdds key' := fun key' =>
    pendingAdds_set_looked key' hadd hadds
  have hlooked : ∀ key₀ i₀, (key₀, .looked i₀) ∈ s'.adds → i₀ < s.gate.groups.length ∧
      (∀ j, s.gate.gates key₀ = some j → i₀ = j) ∧
      ∀ key', s.gate.gates key' = some i₀ → key' = key₀ := by
    intro key₀ i₀ hmem
    rcases mem_of_mem_set hadds hmem with hold | ⟨rfl, hlook⟩
    · exact h.looked key₀ i₀ hold
    · obtain rfl := DoneAt.looked.inj hlook
      refine ⟨h.wf.lt key₀ i hi, ?_, ?_⟩
      · intro j hj
        exact Option.some.inj (hi.symm.trans hj)
      · intro key' hi'
        exact h.wf.inj key' key₀ i hi' hi
  refine ⟨hgate ▸ h.wf, ⟨?_, hzero.trans h.counts.2⟩, hgate ▸ hlooked, ?_⟩
  · rw [hgate]
    intro key' j hj
    rw [hcount]
    exact h.counts.1 key' j hj
  · intro j
    rw [hgate]
    by_cases hj : j = i
    · subst hj
      -- a `Done` that signals the group of the key belongs to a pending `Add` of the key
      rw [h.counts.1 key j hi, ← hcount key]
      have hle : (s'.adds.map (isSignalling j)).sum ≤ (s'.adds.map (isPending key)).sum := by
        refine List.sum_le_sum fun x hx => ?_
        obtain ⟨key₀, d⟩ := x
        unfold isSignalling isPending
        split_ifs with hlook hpend
        · exact le_rfl
        · simp only at hlook
          subst hlook
          exact absurd ⟨((hlooked key₀ j hx).2.2 key hi).symm, by simp⟩ hpend
        · exact Nat.zero_le _
        · exact le_rfl
      exact_mod_cast hle
    · have hsum := List.sum_map_set (isSignalling j) hadd (key, .looked i)
      rw [← hadds] at hsum
      have hzero' : isSignalling j (key, .looked i) = 0 := by simp [isSignalling, Ne.symm hj]
      have hzero'' : isSignalling j (key, .added) = 0 := by simp [isSignalling]
      have := h.enough j
      omega

theorem GateInv.miss (h : GateInv s) (hadd : s.adds[t]? = some (key, .added))
    (hnone : s.gate.gates key = none) (hgate : s'.gate = s.gate)
    (hadds : s'.adds = s.adds.set t (key, .finished)) (hzero : s'.belowZero = s.belowZero) :
    GateInv s' := by
  refine ⟨hgate ▸ h.wf, ⟨?_, hzero.trans h.counts.2⟩, ?_, ?_⟩
  · rw [hgate]
    intro key' j hj
    have hkey : key' ≠ key := by
      rintro rfl
      rw [hnone] at hj
      cases hj
    have hset := pendingAdds_set_finished key' (by simp) hadd hadds
    rw [if_neg hkey, add_zero] at hset
    rw [hset]
    exact h.counts.1 key' j hj
  · rw [hgate]
    intro key₀ i₀ hmem
    rcases mem_of_mem_set hadds hmem with hold | ⟨-, hlook⟩
    · exact h.looked key₀ i₀ hold
    · cases hlook
  · intro j
    rw [hgate]
    have hsum := List.sum_map_set (isSignalling j) hadd (key, .finished)
    rw [← hadds] at hsum
    have hzero' : isSignalling j (key, .finished) = 0 := by simp [isSignalling]
    have hzero'' : isSignalling j (key, .added) = 0 := by simp [isSignalling]
    have := h.enough j
    omega

theorem GateInv.count_pos (h : GateInv s) (hadd : s.adds[t]? = some (key, .looked i)) :
    0 < s.gate.count i := by
  have hle := List.le_sum_map (isSignalling i) (List.mem_of_getElem? hadd)
  have hone : isSignalling i (key, .looked i) = 1 := by simp [isSignalling]
  have := h.enough i
  omega

theorem GateInv.signal (h : GateInv s) (hadd : s.adds[t]? = some (key, .looked i))
    (hgate : s'.gate = s.gate.signal i) (hadds : s'.adds = s.adds.set t (key, .finished))
    (hzero : s'.belowZero = decide (s.gate.count i ≤ 0)) : GateInv s' := by
  have hpos := h.count_pos hadd
  obtain ⟨hlt, hcur, hown⟩ := h.looked key i (List.mem_of_getElem? hadd)
  refine ⟨hgate ▸ h.wf.signal, ⟨?_, ?_⟩, ?_, ?_⟩
  · rw [hgate]
    intro key' j hj
    rw [StumpGate.gates_signal] at hj
    have hset := pendingAdds_set_finished key' (by simp) hadd hadds
    have hcount := h.counts.1 key' j hj
    rw [StumpGate.count_signal hlt]
    by_cases hij : j = i
    · subst hij
      rw [if_pos (hown key' hj)] at hset
      rw [if_pos rfl, hcount]
      omega
    · have hkey : key' ≠ key := by
        rintro rfl
        exact hij (hcur j hj).symm
      rw [if_neg hkey] at hset
      rw [if_neg hij, hcount]
      omega
  · rw [hzero]
    simpa using hpos
  · rw [hgate]
    intro key₀ i₀ hmem
    rcases mem_of_mem_set hadds hmem with hold | ⟨-, hlook⟩
    · obtain ⟨hlt₀, hcur₀, hown₀⟩ := h.looked key₀ i₀ hold
      exact ⟨by simpa [StumpGate.signal] using hlt₀, hcur₀, hown₀⟩
    · cases hlook
  · intro j
    rw [hgate, StumpGate.count_signal hlt]
    have hsum := List.sum_map_set (isSignalling j) hadd (key, .finished)
    rw [← hadds] at hsum
    have hzero' : isSignalling j (key, .finished) = 0 := by simp [isSignalling]
    have := h.enough j
    by_cases hij : j = i
    · subst hij
      have hone : isSignalling j (key, .looked j) = 1 := by simp [isSignalling]
      rw [if_pos rfl]
      omega
    · have hzero'' : isSignalling j (key, .looked i) = 0 := by simp [isSignalling, Ne.symm hij]
      rw [if_neg hij]
      omega

theorem GateInv.remove (h : GateInv s) (hgate : s'.gate = s.gate.remove key)
    (hadds : s'.adds = s.adds) (hzero : s'.belowZero = s.belowZero) : GateInv s' := by
  have hgates : ∀ {key' j}, s'.gate.gates key' = some j → s.gate.gates key' = some j := by
    intro key' j hj
    rw [hgate, StumpGate.gates_remove] at hj
    split_ifs at hj
    exact hj
  refine ⟨hgate ▸ h.wf.remove, ⟨?_, hzero.trans h.counts.2⟩, ?_, ?_⟩
  · intro key' j hj
    rw [GateState.pendingAdds, hadds, hgate]
    exact h.counts.1 key' j (hgates hj)
  · rw [hadds]
    intro key₀ i₀ hmem
    obtain ⟨hlt, hcur, hown⟩ := h.looked key₀ i₀ hmem
    refine ⟨by rw [hgate]; exact hlt, fun j hj => hcur j (hgates hj),
      fun key' hi => hown key' (hgates hi)⟩
  · intro j
    rw [hadds, hgate]
    exact h.enough j

/-- **The invariant is kept** while `Add` creates groups only for keys without pending `Add`s. -/
theorem gateInv_step {l : GateLabel} (h : GateInv s) (hok : CreatesFresh s l)
    (hst : gateStep s l = some s') : GateInv s' := by
  obtain ⟨-, hmove⟩ := gateStep_move hst
  cases hmove with
  | add key hgate hadds hzero => exact h.add hgate hadds hzero hok
  | looked hadd hi hgate hadds hzero => exact h.lookup hadd hi hgate hadds hzero
  | missed hadd hnone hgate hadds hzero => exact h.miss hadd hnone hgate hadds hzero
  | signal hadd hgate hadds hzero => exact h.signal hadd hgate hadds hzero
  | remove key hgate hadds hzero => exact h.remove hgate hadds hzero
  | quiet _ hgate hadds hzero =>
    refine ⟨hgate ▸ h.wf, ⟨?_, hzero.trans h.counts.2⟩, ?_, ?_⟩
    · rw [hgate]
      intro key j hj
      rw [GateState.pendingAdds, hadds]
      exact h.counts.1 key j hj
    · rw [hgate, hadds]
      exact h.looked
    · rw [hgate, hadds]
      exact h.enough

/-- A group that is created for a key with a pending `Add` counts less than is pending. -/
theorem createsFresh_of_counts {l : GateLabel} (h : GateInv s) (hst : gateStep s l = some s')
    (hcounts : CountsPending s') : CreatesFresh s l := by
  cases l with
  | add key =>
    intro hnone
    have hs' : s' = { s with gate := s.gate.add key, adds := s.adds ++ [(key, .added)] } := by
      unfold gateStep at hst
      split_ifs at hst
      exact (Option.some.inj hst).symm
    have hg : s'.gate.gates key = some s.gate.groups.length := by
      rw [hs', StumpGate.gates_add, if_pos rfl, hnone, Option.getD_none]
    have hcount := hcounts.1 key _ hg
    have hpending : s'.gate.pending key = 1 := by
      rw [hs', StumpGate.pending_add h.wf, if_pos rfl]
      simp [StumpGate.pending, hnone]
    rw [← StumpGate.pending_of_gates hg, hpending,
      pendingAdds_append key (by rw [hs']), if_pos rfl] at hcount
    omega
  | _ => trivial

end

/-- **The gate counts what is pending.**  In every run of any number of calls of `Add`, `Done` and
`Wait`: in all its states the counter of a wait group in the map is the number of `Add`s of its key
that are not followed by their `Done` yet, and no counter has gone below zero; if and only if in the
run no `Add` creates a wait group for a key with a pending `Add`. -/
theorem counts_pending_iff {labels : List GateLabel}
    (hrun : (gateMachine.exec gateInit labels).isSome = true) :
    gateMachine.Always CountsPending gateInit labels ↔
      gateMachine.Along CreatesFresh gateInit labels := by
  refine LTS.always_iff_along (I := GateInv) ?_ ?_ gateInv_init gateInv_init.counts hrun
  · intro s l s' hs hst
    exact ⟨fun hok => (gateInv_step hs hok hst).counts, createsFresh_of_counts hs hst⟩
  · intro s l s' hs hok hst
    exact gateInv_step hs hok hst

/-- A `Wait` that waits for a `Done`. -/
theorem counts_pending_one :
    gateMachine.Always CountsPending gateInit [.add "k", .wait "k", .waitLookup 0, .waitGroup 0,
      .doneLookup 0, .doneSignal 0, .waitWake 0, .waitRemove 0] := by
  refine (counts_pending_iff rfl).2 ?_
  refine LTS.Along.cons (fun _ => rfl) rfl ?_
  refine LTS.Along.cons trivial rfl ?_
  refine LTS.Along.cons trivial rfl ?_
  refine LTS.Along.cons trivial rfl ?_
  refine LTS.Along.cons trivial rfl ?_
  refine LTS.Along.cons trivial rfl ?_
  refine LTS.Along.cons trivial rfl ?_
  exact LTS.Along.cons trivial rfl trivial

/-- The counter has come to zero and a `Wait` is about to delete the entry: an `Add` before and one
after the deletion are counted in two wait groups, and both calls of `Done` meet the second one. -/
theorem counts_less :
    ¬ ∀ labels, (gateMachine.exec gateInit labels).isSome = true →
      gateMachine.Always CountsPending gateInit labels := by
  intro h
  have hrun : (gateMachine.exec gateInit [.add "k", .doneLookup 0, .doneSignal 0, .wait "k",
      .waitLookup 0, .waitGroup 0, .add "k", .waitRemove 0, .add "k", .doneLookup 1, .doneLookup 2,
      .doneSignal 1, .doneSignal 2]).map GateState.belowZero = some true := rfl
  obtain ⟨s, hs, hbelow⟩ := Option.map_eq_some_iff.1 hrun
  have hcounts := (h _ (by rw [hs]; rfl)).last hs
  rw [hcounts.2] at hbelow
  cases hbelow

end Callback

end MerkleService
