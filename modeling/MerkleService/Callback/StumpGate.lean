import Mathlib.Data.List.Basic
import Mathlib.Tactic

/-!
# The gate between STUMP and BLOCK_PROCESSED deliveries

`stumpGate` (`internal/callback/delivery.go`) is a map from a key, made of block hash and callback
URL, to a `sync.WaitGroup` that counts the STUMP deliveries under way.  The map is guarded by a
mutex, the wait groups are used outside of it, so that each of the operations below is one atomic
step: `Add`, the lookup of `Done` and `Wait`, `wg.Done`, `wg.Wait` and the removal at the end of
`Wait`.

A wait group is referred to by its position in the list of all wait groups made so far, since a
worker may hold one that is no longer in the map.
-/

namespace MerkleService

namespace Callback

/-- A `sync.WaitGroup`: its counter, and how often `Done` has brought it to zero.  A waiter is
released when that happens after it has begun to wait, whatever is added later. -/
structure WaitGroup where
  count : ℤ
  zeros : ℕ
  deriving DecidableEq

/-- `wg.Add(1)`. -/
def WaitGroup.add (wg : WaitGroup) : WaitGroup := { wg with count := wg.count + 1 }

/-- `wg.Done()`; the counter must not become negative, or the process panics. -/
def WaitGroup.done (wg : WaitGroup) : WaitGroup :=
  ⟨wg.count - 1, if wg.count - 1 = 0 then wg.zeros + 1 else wg.zeros⟩

structure StumpGate where
  gates : String → Option ℕ
  groups : List WaitGroup

/-- `newStumpGate`. -/
def StumpGate.empty : StumpGate := ⟨fun _ => none, []⟩

def stumpGateKey (blockHash callbackURL : String) : String := blockHash ++ "|" ++ callbackURL

namespace StumpGate

/-- `Add`: a pending STUMP delivery is registered. -/
def add (g : StumpGate) (key : String) : StumpGate :=
  match g.gates key with
  | some i => { g with groups := g.groups.modify i WaitGroup.add }
  | none => ⟨Function.update g.gates key (some g.groups.length), g.groups ++ [⟨1, 0⟩]⟩

/-- `wg.Done()` on a wait group that was looked up before. -/
def signal (g : StumpGate) (i : ℕ) : StumpGate :=
  { g with groups := g.groups.modify i WaitGroup.done }

/-- `delete(g.gates, key)`. -/
def remove (g : StumpGate) (key : String) : StumpGate :=
  { g with gates := Function.update g.gates key none }

/-- The counter of wait group `i`. -/
def count (g : StumpGate) (i : ℕ) : ℤ := (g.groups[i]?.map WaitGroup.count).getD 0

/-- How often wait group `i` has come down to zero. -/
def zeros (g : StumpGate) (i : ℕ) : ℕ := (g.groups[i]?.map WaitGroup.zeros).getD 0

/-- The counter of the wait group in the map under `key`. -/
def pending (g : StumpGate) (key : String) : ℤ :=
  match g.gates key with
  | some i => g.count i
  | none => 0

/-- The entries of the map are different wait groups that exist. -/
structure WellFormed (g : StumpGate) : Prop where
  lt : ∀ key i, g.gates key = some i → i < g.groups.length
  inj : ∀ key key' i, g.gates key = some i → g.gates key' = some i → key = key'

theorem wellFormed_empty : empty.WellFormed := ⟨by simp [empty], by simp [empty]⟩

/-! ### The operations -/

section

variable {g : StumpGate} {key : String} {i : ℕ}

@[simp] theorem gates_signal : (g.signal i).gates = g.gates := rfl

@[simp] theorem count_remove (j : ℕ) : (g.remove key).count j = g.count j := rfl

@[simp] theorem zeros_remove (j : ℕ) : (g.remove key).zeros j = g.zeros j := rfl

theorem gates_remove (key' : String) :
    (g.remove key).gates key' = if key' = key then none else g.gates key' := by
  simp [remove, Function.update_apply]

theorem count_signal (hi : i < g.groups.length) (j : ℕ) :
    (g.signal i).count j = if j = i then g.count i - 1 else g.count j := by
  unfold count signal
  by_cases hj : j = i
  · subst hj
    simp [hi, WaitGroup.done]
  · simp [hj, Ne.symm hj]

theorem zeros_signal (hi : i < g.groups.length) (j : ℕ) :
    (g.signal i).zeros j =
      if j = i ∧ g.count i - 1 = 0 then g.zeros i + 1 else g.zeros j := by
  unfold count zeros signal
  by_cases hj : j = i
  · subst hj
    simp [hi, WaitGroup.done]
  · simp [hj, Ne.symm hj]

/-- An existing entry is kept by `Add`, a new one is a wait group that was not there before. -/
theorem gates_add (key' : String) :
    (g.add key).gates key' = if key' = key then some ((g.gates key).getD g.groups.length)
      else g.gates key' := by
  unfold add
  cases h : g.gates key with
  | none => simp [Function.update_apply]
  | some i =>
    simp only [Option.getD_some]
    split_ifs with hk
    · rw [hk, h]
    · rfl

theorem length_add_le : g.groups.length ≤ (g.add key).groups.length := by
  unfold add
  cases g.gates key <;> simp

theorem count_add_of_ne (h : (g.gates key).getD g.groups.length ≠ i) :
    (g.add key).count i = g.count i := by
  unfold add count
  cases hk : g.gates key with
  | none =>
    rw [hk, Option.getD_none] at h
    simp only
    rcases lt_or_gt_of_ne h with hlt | hlt
    · rw [List.getElem?_eq_none (by simp; omega), List.getElem?_eq_none (by omega)]
    · rw [List.getElem?_append_left hlt]
  | some j =>
    rw [hk, Option.getD_some] at h
    simp [h]

theorem count_add_self (hwf : g.WellFormed) :
    (g.add key).count ((g.gates key).getD g.groups.length) = g.pending key + 1 := by
  unfold add count pending
  cases hk : g.gates key with
  | none => simp
  | some j =>
    have hj := hwf.lt key j hk
    simp [hj, WaitGroup.add, count]

theorem zeros_add (j : ℕ) : (g.add key).zeros j = g.zeros j := by
  unfold add zeros
  cases hk : g.gates key with
  | none =>
    simp only
    rcases lt_or_ge j g.groups.length with hlt | hge
    · rw [List.getElem?_append_left hlt]
    · rw [List.getElem?_append_right hge, List.getElem?_eq_none (l := g.groups) hge]
      cases j - g.groups.length <;> simp
  | some i =>
    by_cases hj : i = j
    · subst hj
      cases h : g.groups[i]? <;> simp [h, WaitGroup.add]
    · simp [hj]

theorem WellFormed.add (hwf : g.WellFormed) : (g.add key).WellFormed := by
  have hnew : ∀ key' i, key' ≠ key → g.gates key' = some i →
      (g.gates key).getD g.groups.length ≠ i := by
    rintro key' i hne hi rfl
    cases hk : g.gates key with
    | none =>
      have := hwf.lt _ _ hi
      rw [hk, Option.getD_none] at this
      omega
    | some j =>
      rw [hk, Option.getD_some] at hi
      exact hne (hwf.inj _ _ _ hi hk)
  constructor
  · intro key' i h
    rw [gates_add] at h
    split_ifs at h with hkey
    · obtain rfl := Option.some.inj h
      cases hk : g.gates key with
      | none => simp [StumpGate.add, hk]
      | some j => exact (hwf.lt _ _ hk).trans_le length_add_le
    · exact (hwf.lt _ _ h).trans_le length_add_le
  · intro key₁ key₂ i h₁ h₂
    rw [gates_add] at h₁ h₂
    split_ifs at h₁ h₂ with hk₁ hk₂ hk₂
    · rw [hk₁, hk₂]
    · exact absurd (Option.some.inj h₁) (hnew _ _ hk₂ h₂)
    · exact absurd (Option.some.inj h₂) (hnew _ _ hk₁ h₁)
    · exact hwf.inj _ _ _ h₁ h₂

theorem WellFormed.signal (hwf : g.WellFormed) : (g.signal i).WellFormed :=
  ⟨fun key j h => by simpa [StumpGate.signal] using hwf.lt key j h, hwf.inj⟩

theorem WellFormed.remove (hwf : g.WellFormed) : (g.remove key).WellFormed := by
  constructor
  · intro key' j h
    rw [gates_remove] at h
    split_ifs at h
    exact hwf.lt _ _ h
  · intro key₁ key₂ j h₁ h₂
    rw [gates_remove] at h₁ h₂
    split_ifs at h₁ h₂
    exact hwf.inj _ _ _ h₁ h₂

/-! ### The counter of a key -/

theorem pending_of_gates (h : g.gates key = some i) : g.pending key = g.count i := by
  simp [pending, h]

theorem pending_signal (hwf : g.WellFormed) (h : g.gates key = some i) (key' : String) :
    (g.signal i).pending key' = g.pending key' - if key' = key then 1 else 0 := by
  unfold pending
  rw [gates_signal]
  by_cases hkey : key' = key
  · subst hkey
    simp [h, count_signal (hwf.lt _ _ h)]
  · cases hk : g.gates key' with
    | none => simp [hkey]
    | some k =>
      have hne : k ≠ i := by
        rintro rfl
        exact hkey (hwf.inj _ _ _ hk h)
      simp [hkey, count_signal (hwf.lt _ _ h), hne]

theorem pending_remove (key' : String) :
    (g.remove key).pending key' = if key' = key then 0 else g.pending key' := by
  unfold pending
  rw [gates_remove]
  split_ifs with hkey <;> rfl

theorem pending_add (hwf : g.WellFormed) (key' : String) :
    (g.add key).pending key' = g.pending key' + if key' = key then 1 else 0 := by
  by_cases hkey : key' = key
  · subst hkey
    have hg : (g.add key').gates key' = some ((g.gates key').getD g.groups.length) := by
      rw [gates_add, if_pos rfl]
    rw [pending_of_gates hg, count_add_self hwf, if_pos rfl]
  · have hg : (g.add key).gates key' = g.gates key' := by
      rw [gates_add, if_neg hkey]
    unfold pending
    rw [hg, if_neg hkey, add_zero]
    cases hk : g.gates key' with
    | none => rfl
    | some i =>
      refine count_add_of_ne ?_
      rintro rfl
      cases hk' : g.gates key with
      | none =>
        rw [hk', Option.getD_none] at hk
        exact (hwf.lt _ _ hk).false
      | some k =>
        rw [hk', Option.getD_some] at hk
        exact hkey (hwf.inj _ _ _ hk hk')

end

end StumpGate

end Callback

end MerkleService
