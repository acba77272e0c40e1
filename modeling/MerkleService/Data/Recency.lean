import Mathlib.Data.Finset.Card
import Mathlib.Data.Finset.Dedup
import Mathlib.Data.List.Nodup

/-!
# Least recently used

A history is a list of uses, the latest first.  `recency h` lists what was used, each once, in the
order of the latest uses.  A bounded set that evicts what was not used for longest is a prefix of
it.

* `recency_take_cons_of_mem`, `recency_take_cons_of_not_mem` : how a prefix follows one more use.
* `mem_take_recency_iff` : **`a` is among the first `c`** if and only if it was used, and fewer than
  `c` others were used since.
-/

namespace Recency

variable {α : Type*} [DecidableEq α]

/-- What was used, each once, the latest use first. -/
def recency : List α → List α
  | [] => []
  | a :: h => a :: (recency h).erase a

/-- `a` was used, and fewer than `c` others were used since. -/
def Recent (c : ℕ) (h : List α) (a : α) : Prop :=
  a ∈ h ∧ (h.takeWhile (· != a)).toFinset.card < c

instance (c : ℕ) (h : List α) (a : α) : Decidable (Recent c h a) :=
  inferInstanceAs (Decidable (_ ∧ _))

theorem nodup_recency (h : List α) : (recency h).Nodup := by
  induction h with
  | nil => exact List.nodup_nil
  | cons a h ih => exact List.nodup_cons.2 ⟨ih.not_mem_erase, ih.erase a⟩

@[simp] theorem mem_recency {h : List α} {a : α} : a ∈ recency h ↔ a ∈ h := by
  induction h with
  | nil => exact Iff.rfl
  | cons b h ih =>
    rw [recency, List.mem_cons, List.mem_cons, (nodup_recency h).mem_erase_iff, ih]
    by_cases hab : a = b
    · simp [hab]
    · simp [hab]

/-! ### Prefixes -/

theorem erase_take_of_mem {c : ℕ} {l : List α} {a : α} (h : a ∈ l.take c) :
    (l.take c).erase a = (l.erase a).take (c - 1) := by
  induction l generalizing c with
  | nil => simp at h
  | cons b l ih =>
    cases c with
    | zero => simp at h
    | succ c =>
      by_cases hab : b = a
      · simp [hab]
      · rw [List.take_succ_cons, List.mem_cons] at h
        have hl : a ∈ l.take c := h.resolve_left (Ne.symm hab)
        have hc : c = c - 1 + 1 := by
          cases c with
          | zero => simp at hl
          | succ c => omega
        rw [List.take_succ_cons, List.erase_cons_tail (by simpa using hab),
          List.erase_cons_tail (by simpa using hab), ih hl, Nat.add_sub_cancel]
        nth_rewrite 2 [hc]
        rw [List.take_succ_cons]

theorem take_erase_of_not_mem {c : ℕ} {l : List α} {a : α} (h : a ∉ l.take c) :
    (l.erase a).take c = l.take c := by
  induction l generalizing c with
  | nil => simp
  | cons b l ih =>
    cases c with
    | zero => simp
    | succ c =>
      rw [List.take_succ_cons, List.mem_cons, not_or] at h
      rw [List.erase_cons_tail (by simpa using Ne.symm h.1), List.take_succ_cons,
        List.take_succ_cons, ih h.2]

section

variable {c : ℕ} {h : List α} {a : α}

/-- One more use of what is in the prefix. -/
theorem recency_take_cons_of_mem (hc : 0 < c) (hmem : a ∈ (recency h).take c) :
    (recency (a :: h)).take c = a :: ((recency h).take c).erase a := by
  obtain ⟨n, rfl⟩ : ∃ n, c = n + 1 := ⟨c - 1, by omega⟩
  rw [recency, List.take_succ_cons, erase_take_of_mem hmem, Nat.add_sub_cancel]

/-- A use of what is not in the prefix. -/
theorem recency_take_cons_of_not_mem (hc : 0 < c) (hmem : a ∉ (recency h).take c) :
    (recency (a :: h)).take c = a :: ((recency h).take c).take (c - 1) := by
  obtain ⟨n, rfl⟩ : ∃ n, c = n + 1 := ⟨c - 1, by omega⟩
  have hless : a ∉ (recency h).take n := by
    intro hin
    exact hmem (List.take_subset_take_left _ (Nat.le_succ n) hin)
  rw [recency, List.take_succ_cons, take_erase_of_not_mem hless, List.take_take,
    Nat.add_sub_cancel, Nat.min_eq_left (Nat.le_succ n)]

end

/-! ### The uses since -/

theorem takeWhile_filter {l : List α} {a b : α} (hab : a ≠ b) :
    (l.filter (· != a)).takeWhile (· != b) =
      (l.takeWhile (· != b)).filter (· != a) := by
  induction l with
  | nil => rfl
  | cons x l ih =>
    by_cases hxa : x = a
    · subst hxa
      simp [hab, ih]
    · by_cases hxb : x = b
      · subst hxb
        simp [hxa]
      · simp [hxa, hxb, ih]

theorem toFinset_takeWhile_recency {h : List α} {a : α} :
    ((recency h).takeWhile (· != a)).toFinset =
      (h.takeWhile (· != a)).toFinset := by
  induction h with
  | nil => rfl
  | cons b h ih =>
    by_cases hab : b = a
    · simp [recency, hab]
    · have hhead : ∀ l : List α, (b :: l).takeWhile (· != a) = b :: l.takeWhile (· != a) :=
        fun l => List.takeWhile_cons_of_pos (by simpa using hab)
      rw [recency, (nodup_recency h).erase_eq_filter, hhead, hhead, takeWhile_filter hab,
        List.toFinset_cons, List.toFinset_cons, ← ih]
      ext x
      by_cases hx : x = b
      · simp [hx]
      · simp [hx]

theorem mem_take_iff {c : ℕ} {l : List α} {a : α} :
    a ∈ l.take c ↔ a ∈ l ∧ (l.takeWhile (· != a)).length < c := by
  induction l generalizing c with
  | nil => simp
  | cons b l ih =>
    cases c with
    | zero => simp
    | succ c =>
      by_cases hab : b = a
      · simp [hab]
      · simp [hab, Ne.symm hab, ih]

/-- **The first `c` in the order of the latest uses.** -/
theorem mem_take_recency_iff {c : ℕ} {h : List α} {a : α} :
    a ∈ (recency h).take c ↔ Recent c h a := by
  have hnodup : ((recency h).takeWhile (· != a)).Nodup :=
    (nodup_recency h).sublist (List.takeWhile_sublist _)
  rw [mem_take_iff, mem_recency, ← List.toFinset_card_of_nodup hnodup, toFinset_takeWhile_recency]
  exact Iff.rfl

end Recency
