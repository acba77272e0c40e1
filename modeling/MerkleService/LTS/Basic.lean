import Mathlib.Data.List.Basic
import Mathlib.Logic.Relation

/-!
# Transition systems whose labels resolve every choice

A concurrent program is modelled as a machine that takes one atomic step at a time.  The label of
a step says who moves and what its environment answers (which message arrives, whether a call
fails), so that in a given state a label has at most one outcome: `step s l` is the next state, or
`none` when the label is not enabled.  All interleavings are then all sequences of labels.

## Main definitions

* `LTS S L` : a partial step function on states `S` with labels `L`.
* `LTS.exec s ls` : perform the labels `ls` in order.
* `LTS.Run ok s₀ s` : `s` is reached from `s₀` by steps that all satisfy the side condition `ok`
  on the state before the step and its label.  `ok` is how an assumption on the environment, or
  the exact condition under which a program behaves, is stated.
* `LTS.Reachable s₀ s` : the same without a side condition.
* `LTS.Always I s ls`, `LTS.Along ok s ls` : every state, and every step, of the run of `ls` from
  `s`.
* `LTS.withHistory` : the system with a value that is computed from the steps made so far.

## Main results

* `LTS.Run.invariant` : a predicate that holds initially and is kept by every permitted step
  holds in every state reached.
* `LTS.always_iff_along` : when a step is permitted exactly if it leads to a good state, all states
  of a run are good exactly if all its steps are permitted.
* `LTS.along_iff_forall_mem` : in a system that never blocks, a condition on the labels alone.
* `LTS.length_add_rank_le`, `LTS.along_of_exec` : how long a run is, and that it was permitted.
-/

/-- A transition system with states `S` and labels `L`. -/
structure LTS (S : Type*) (L : Type*) where
  /-- The state after performing `l` in `s`; `none` when `l` is not enabled there. -/
  step : S → L → Option S

namespace LTS

variable {S L : Type*} (A : LTS S L)

/-- Perform a list of labels in order, stopping with `none` at the first one that is not enabled. -/
def exec (s : S) : List L → Option S
  | [] => some s
  | l :: ls => (A.step s l).bind fun s' => exec s' ls

theorem exec_append (s : S) (ls ls' : List L) :
    A.exec s (ls ++ ls') = (A.exec s ls).bind fun s' => A.exec s' ls' := by
  induction ls generalizing s with
  | nil => rfl
  | cons l ls ih =>
    simp only [List.cons_append, exec, ih]
    rw [Option.bind_assoc]

/-- `I` holds in all states that the run of `ls` from `s` visits. -/
def Always (I : S → Prop) (s : S) : List L → Prop
  | [] => I s
  | l :: ls => I s ∧ ∀ s', A.step s l = some s' → Always I s' ls

/-- `ok` holds of all steps of the run of `ls` from `s`. -/
def Along (ok : S → L → Prop) (s : S) : List L → Prop
  | [] => True
  | l :: ls => ok s l ∧ ∀ s', A.step s l = some s' → Along ok s' ls

/-- The system with a value that every step may change. -/
def withHistory {H : Type*} (update : S → L → H → H) : LTS (S × H) L :=
  ⟨fun p l => (A.step p.1 l).map fun s' => (s', update p.1 l p.2)⟩

/-- `s` is reached from `s₀` by steps that all satisfy `ok`. -/
inductive Run (ok : S → L → Prop) (s₀ : S) : S → Prop
  | start : Run ok s₀ s₀
  | next {s s' : S} {l : L} : Run ok s₀ s → ok s l → A.step s l = some s' → Run ok s₀ s'

/-- `s` is reached from `s₀` by any steps. -/
def Reachable (s₀ s : S) : Prop := A.Run (fun _ _ => True) s₀ s

variable {A}

namespace Run

variable {ok : S → L → Prop} {s₀ s : S}

/-- An inductive invariant of the permitted steps holds in every state reached by them. -/
theorem invariant {I : S → Prop} (h : A.Run ok s₀ s) (h₀ : I s₀)
    (hstep : ∀ s l s', I s → ok s l → A.step s l = some s' → I s') : I s := by
  induction h with
  | start => exact h₀
  | next _ hok hst ih => exact hstep _ _ _ ih hok hst

theorem exec {t : S} {ls : List L} (h : A.Run ok s₀ s) (hok : A.Along ok s ls)
    (hexec : A.exec s ls = some t) : A.Run ok s₀ t := by
  induction ls generalizing s with
  | nil =>
    obtain rfl := Option.some.inj hexec
    exact h
  | cons l ls ih =>
    obtain ⟨s', hst, hexec⟩ := Option.bind_eq_some_iff.1 hexec
    exact ih (.next h hok.1 hst) (hok.2 s' hst) hexec

end Run

theorem exec_invariant {I : S → Prop} (hstep : ∀ s l s', I s → A.step s l = some s' → I s')
    {s t : S} {ls : List L} (h : I s) (hexec : A.exec s ls = some t) : I t := by
  induction ls generalizing s with
  | nil =>
    obtain rfl := Option.some.inj hexec
    exact h
  | cons l ls ih =>
    obtain ⟨s', hst, hexec⟩ := Option.bind_eq_some_iff.1 hexec
    exact ih (hstep s l s' h hst) hexec

theorem length_add_rank_le {rank : S → ℕ}
    (hstep : ∀ s l s', A.step s l = some s' → rank s' < rank s) {s t : S} {ls : List L}
    (hexec : A.exec s ls = some t) : ls.length + rank t ≤ rank s := by
  induction ls generalizing s with
  | nil =>
    obtain rfl := Option.some.inj hexec
    rw [List.length_nil]
    omega
  | cons l ls ih =>
    obtain ⟨s', hst, hexec⟩ := Option.bind_eq_some_iff.1 hexec
    have hrest := ih hexec
    have hlt := hstep s l s' hst
    rw [List.length_cons]
    omega

theorem Along.cons {ok : S → L → Prop} {s s' : S} {l : L} {ls : List L} (hok : ok s l)
    (hst : A.step s l = some s') (h : A.Along ok s' ls) : A.Along ok s (l :: ls) := by
  refine ⟨hok, ?_⟩
  intro s'' hst''
  rwa [← Option.some.inj (hst.symm.trans hst'')]

theorem Along.of_forall {ok : S → L → Prop} (hok : ∀ s l, ok s l) (s : S) (ls : List L) :
    A.Along ok s ls := by
  induction ls generalizing s with
  | nil => trivial
  | cons l ls ih => exact ⟨hok s l, fun s' _ => ih s'⟩

/-- A run was permitted if it ends well, when nothing makes up for a step that is not permitted. -/
theorem along_of_exec {I Bad : S → Prop} {ok : S → L → Prop}
    (hinv : ∀ s l s', I s → A.step s l = some s' → I s')
    (hbad : ∀ s l s', I s → ¬ ok s l → A.step s l = some s' → Bad s')
    (hkeep : ∀ s l s', I s → Bad s → A.step s l = some s' → Bad s') {s t : S} {ls : List L}
    (hI : I s) (hexec : A.exec s ls = some t) (ht : ¬ Bad t) : A.Along ok s ls := by
  induction ls generalizing s with
  | nil => trivial
  | cons l ls ih =>
    obtain ⟨s', hst, hexec⟩ := Option.bind_eq_some_iff.1 hexec
    have hI' := hinv s l s' hI hst
    refine Along.cons ?_ hst (ih hI' hexec)
    by_contra hok
    have hstep : ∀ s l s', I s ∧ Bad s → A.step s l = some s' → I s' ∧ Bad s' :=
      fun s l s' h hst => ⟨hinv s l s' h.1 hst, hkeep s l s' h.1 h.2 hst⟩
    exact ht (exec_invariant hstep ⟨hI', hbad s l s' hI hok hst⟩ hexec).2

theorem Always.start {I : S → Prop} {s : S} {ls : List L} (h : A.Always I s ls) : I s := by
  cases ls with
  | nil => exact h
  | cons l ls => exact h.1

theorem Always.last {I : S → Prop} {s t : S} {ls : List L} (h : A.Always I s ls)
    (hexec : A.exec s ls = some t) : I t := by
  induction ls generalizing s with
  | nil =>
    obtain rfl := Option.some.inj hexec
    exact h
  | cons l ls ih =>
    obtain ⟨s', hst, hexec⟩ := Option.bind_eq_some_iff.1 hexec
    exact ih (h.2 s' hst) hexec

/-- **Good states and permitted steps.**  `I` is an invariant of the permitted steps, and a step
from a state that satisfies it is permitted exactly if it leads to a state that satisfies `P`. -/
theorem always_iff_along {I P : S → Prop} {ok : S → L → Prop}
    (hstep : ∀ s l s', I s → A.step s l = some s' → (ok s l ↔ P s'))
    (hinv : ∀ s l s', I s → ok s l → A.step s l = some s' → I s') {s : S} (hI : I s) (hP : P s)
    {ls : List L} (hexec : (A.exec s ls).isSome = true) : A.Always P s ls ↔ A.Along ok s ls := by
  induction ls generalizing s with
  | nil => exact iff_of_true hP trivial
  | cons l ls ih =>
    obtain ⟨t, ht⟩ := Option.isSome_iff_exists.1 hexec
    obtain ⟨s', hst, ht'⟩ := Option.bind_eq_some_iff.1 ht
    have hrest : ∀ {Q : S → Prop}, (∀ s'', A.step s l = some s'' → Q s'') ↔ Q s' := by
      intro Q
      constructor
      · intro h
        exact h s' hst
      · intro h s'' hst''
        rwa [← Option.some.inj (hst.symm.trans hst'')]
    have hiff := hstep s l s' hI hst
    simp only [Always, Along, hrest]
    constructor
    · rintro ⟨-, h⟩
      have hok := hiff.2 h.start
      exact ⟨hok, (ih (hinv s l s' hI hok hst) h.start (by rw [ht']; rfl)).1 h⟩
    · rintro ⟨hok, h⟩
      exact ⟨hP, (ih (hinv s l s' hI hok hst) (hiff.1 hok) (by rw [ht']; rfl)).2 h⟩

section

variable (htotal : ∀ s l, (A.step s l).isSome = true)

include htotal in
theorem isSome_exec (s : S) (ls : List L) : (A.exec s ls).isSome = true := by
  induction ls generalizing s with
  | nil => rfl
  | cons l ls ih =>
    obtain ⟨s', hst⟩ := Option.isSome_iff_exists.1 (htotal s l)
    rw [exec, hst]
    exact ih s'

include htotal in
theorem along_iff_forall_mem {ok : L → Prop} (s : S) (ls : List L) :
    A.Along (fun _ l => ok l) s ls ↔ ∀ l ∈ ls, ok l := by
  induction ls generalizing s with
  | nil => exact iff_of_true trivial (List.forall_mem_nil _)
  | cons l ls ih =>
    obtain ⟨s', hst⟩ := Option.isSome_iff_exists.1 (htotal s l)
    rw [Along, List.forall_mem_cons]
    constructor
    · rintro ⟨hok, h⟩
      exact ⟨hok, (ih s').1 (h s' hst)⟩
    · rintro ⟨hok, h⟩
      exact ⟨hok, fun s'' _ => (ih s'').2 h⟩

end

end LTS
