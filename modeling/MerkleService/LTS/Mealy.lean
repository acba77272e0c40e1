import Mathlib.Data.List.Forall2

/-!
# Machines that answer

A sequential object takes one call after the other and answers each of them.

* `Mealy S I O` : such a machine, with states `S`, calls `I` and answers `O`.
* `Mealy.run` : the state after a list of calls, and `Mealy.answers`, the answers to them.
* `Mealy.Along` : a condition on the state before a call, and the call, holds all along.
* `Mealy.run_invariant` : what every call keeps, all calls keep.
* `Mealy.forall₂_answers` : **two machines answer alike** as long as their states stay related.
-/

/-- A machine with states `S`, calls `I` and answers `O`. -/
structure Mealy (S I O : Type*) where
  step : S → I → S × O

namespace Mealy

variable {S S' I O O' : Type*}

/-- The state after the calls. -/
def run (M : Mealy S I O) (s : S) : List I → S
  | [] => s
  | i :: is => M.run (M.step s i).1 is

/-- The answers to the calls. -/
def answers (M : Mealy S I O) (s : S) : List I → List O
  | [] => []
  | i :: is => (M.step s i).2 :: M.answers (M.step s i).1 is

/-- `ok` holds of every call and the state before it. -/
def Along (M : Mealy S I O) (ok : S → I → Prop) (s : S) : List I → Prop
  | [] => True
  | i :: is => ok s i ∧ M.Along ok (M.step s i).1 is

theorem run_append (M : Mealy S I O) (s : S) (is js : List I) :
    M.run s (is ++ js) = M.run (M.run s is) js := by
  induction is generalizing s with
  | nil => rfl
  | cons i is ih => exact ih _

theorem answers_append (M : Mealy S I O) (s : S) (is js : List I) :
    M.answers s (is ++ js) = M.answers s is ++ M.answers (M.run s is) js := by
  induction is generalizing s with
  | nil => rfl
  | cons i is ih => rw [List.cons_append, answers, ih, answers, run, List.cons_append]

theorem length_answers (M : Mealy S I O) (s : S) (is : List I) :
    (M.answers s is).length = is.length := by
  induction is generalizing s with
  | nil => rfl
  | cons i is ih => exact congrArg (· + 1) (ih _)

theorem run_invariant {M : Mealy S I O} {P : S → Prop} {ok : I → Prop}
    (hstep : ∀ s i, P s → ok i → P (M.step s i).1) {s : S} (hP : P s) {is : List I}
    (hok : ∀ i ∈ is, ok i) : P (M.run s is) := by
  induction is generalizing s with
  | nil => exact hP
  | cons i is ih =>
    rw [List.forall_mem_cons] at hok
    exact ih (hstep s i hP hok.1) hok.2

theorem along_of_forall_mem {M : Mealy S I O} {ok : I → Prop} {is : List I} (h : ∀ i ∈ is, ok i)
    (s : S) : M.Along (fun _ => ok) s is := by
  induction is generalizing s with
  | nil => trivial
  | cons i is ih =>
    rw [List.forall_mem_cons] at h
    exact ⟨h.1, ih h.2 _⟩

/-- **A simulation**: related states answer alike and stay related. -/
theorem forall₂_answers {M : Mealy S I O} {M' : Mealy S' I O'} {ok : S → I → Prop}
    {R : S → S' → Prop} {same : O → O' → Prop}
    (hstep : ∀ s s' i, R s s' → ok s i →
      R (M.step s i).1 (M'.step s' i).1 ∧ same (M.step s i).2 (M'.step s' i).2)
    {s : S} {s' : S'} (hR : R s s') {is : List I} (hok : M.Along ok s is) :
    List.Forall₂ same (M.answers s is) (M'.answers s' is) := by
  induction is generalizing s s' with
  | nil => exact .nil
  | cons i is ih =>
    obtain ⟨hR', hsame⟩ := hstep s s' i hR hok.1
    exact .cons hsame (ih hR' hok.2)

end Mealy
