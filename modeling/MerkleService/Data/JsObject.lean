import Mathlib.Data.List.Sort
import Mathlib.Logic.Function.Basic
import Mathlib.Tactic

/-!
# JavaScript objects with numeric keys

An object is a partial map from numbers that remembers in which order its keys were added.  A loop
`for (k in object)` takes the array indices, which are the numbers below `2 ^ 32 - 1`, in ascending
order, and then the other keys in the order in which they were added.

* `JsObject.forIn` : the keys in the order of such a loop.
* `JsObject.forIn_pairwise` : it is ascending when all keys are array indices.
* `JsObject.get_foldl_set` : **what a loop of assignments leaves at a key**.
-/

/-- An object; `keys` are its keys in the order in which they were added. -/
structure JsObject (α : Type*) where
  keys : List ℕ
  get : ℕ → Option α
  nodup : keys.Nodup
  mem_keys : ∀ k, k ∈ keys ↔ (get k).isSome = true

namespace JsObject

variable {α : Type*}

/-- The object without keys. -/
def empty : JsObject α := ⟨[], fun _ => none, List.nodup_nil, by simp⟩

/-- `o[k] = v`. -/
def set (o : JsObject α) (k : ℕ) (v : α) : JsObject α where
  keys := if (o.get k).isSome then o.keys else o.keys ++ [k]
  get := Function.update o.get k (some v)
  nodup := by
    split_ifs with h
    · exact o.nodup
    · rw [← o.mem_keys] at h
      exact List.nodup_append'.2 ⟨o.nodup, List.nodup_singleton k, by simpa using h⟩
  mem_keys := by
    intro j
    by_cases hj : j = k
    · subst hj
      split_ifs with h
      · simpa [o.mem_keys] using h
      · simp
    · rw [Function.update_of_ne hj]
      split_ifs
      · exact o.mem_keys j
      · simp [hj, o.mem_keys]

@[simp] theorem get_empty (k : ℕ) : (empty : JsObject α).get k = none := rfl

@[simp] theorem get_set (o : JsObject α) (k : ℕ) (v : α) :
    (o.set k v).get = Function.update o.get k (some v) := rfl

/-- A key is an array index. -/
def IsIndex (k : ℕ) : Prop := k < 2 ^ 32 - 1

instance (k : ℕ) : Decidable (IsIndex k) := Nat.decLt k (2 ^ 32 - 1)

/-- The keys in the order of `for (k in o)`. -/
def forIn (o : JsObject α) : List ℕ :=
  (o.keys.filter fun k => IsIndex k).insertionSort (· ≤ ·) ++ o.keys.filter fun k => ¬ IsIndex k

theorem mem_forIn {o : JsObject α} {k : ℕ} : k ∈ o.forIn ↔ (o.get k).isSome = true := by
  rw [← o.mem_keys, forIn, List.mem_append, List.mem_insertionSort, List.mem_filter,
    List.mem_filter, decide_eq_true_eq, decide_eq_true_eq, ← and_or_left]
  exact and_iff_left (em _)

theorem forIn_pairwise {o : JsObject α} (h : ∀ k, (o.get k).isSome = true → IsIndex k) :
    o.forIn.Pairwise (· < ·) := by
  have hrest : o.keys.filter (fun k => ¬ IsIndex k) = [] := by
    rw [List.filter_eq_nil_iff]
    intro k hk
    simpa using h k ((o.mem_keys k).1 hk)
  rw [forIn, hrest, List.append_nil]
  have hsorted := List.pairwise_insertionSort (· ≤ ·) (o.keys.filter fun k => IsIndex k)
  have hnodup : ((o.keys.filter fun k => IsIndex k).insertionSort (· ≤ ·)).Nodup :=
    (List.perm_insertionSort _ _).nodup_iff.2 (o.nodup.filter _)
  exact (hsorted.and hnodup).imp fun h => lt_of_le_of_ne h.1 h.2

/-- **A loop of assignments**: the value at a key is that of the last element with this key. -/
theorem get_foldl_set {β : Type*} (key : β → ℕ) (value : β → α) (l : List β) (o : JsObject α)
    (k : ℕ) :
    (l.foldl (fun o x => o.set (key x) (value x)) o).get k =
      ((l.reverse.find? fun x => key x = k).map value).or (o.get k) := by
  induction l generalizing o with
  | nil => simp
  | cons x l ih =>
    rw [List.foldl_cons, ih, get_set, List.reverse_cons, List.find?_append]
    by_cases hx : key x = k
    · cases l.reverse.find? fun x => key x = k <;> simp [hx]
    · cases l.reverse.find? fun x => key x = k <;>
        simp [hx, Function.update_of_ne (Ne.symm hx)]

end JsObject
