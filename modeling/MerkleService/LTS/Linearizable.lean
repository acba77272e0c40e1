import MerkleService.LTS.Mealy
import Mathlib.Data.List.Nodup

/-!
# Linearizability

An object is called by several clients at once.  What they see of it is a history: when each call
began, and when it ended, with which answer.  The history is linearizable if the calls could have
been made one after the other, in an order that agrees with real time.

* `Event` : the begin or the end of a call.
* `Linearization M s₀ history order` : the calls of the history, in this order, give the machine `M`
  the same answers.  A call that has not ended yet may stand in the order or not.
* `Linearization.invoke`, `Linearization.effect`, `Linearization.finish` : **calls that take effect
  at one moment**, between their begin and their end, stand in the order of these moments.
* `Linearization.exists_append`, `Linearization.not_before` : what the order says of a call and one
  that began after its end.
-/

/-- Call number `i` begins, or ends. -/
inductive Event (I O : Type*) where
  | invoked (i : ℕ) (call : I)
  | returned (i : ℕ) (answer : O)
  deriving DecidableEq

/-- A call that stands in a sequential order, with its answer. -/
structure Placed (I O : Type*) where
  id : ℕ
  call : I
  answer : O

/-- The calls of the history could have been made one after the other in this order. -/
structure Linearization {S I O : Type*} (M : Mealy S I O) (s₀ : S) (history : List (Event I O))
    (order : List (Placed I O)) : Prop where
  unique : ∀ i c c', .invoked i c ∈ history → .invoked i c' ∈ history → c = c'
  nodup : (order.map Placed.id).Nodup
  invoked : ∀ e ∈ order, .invoked e.id e.call ∈ history
  returned : ∀ i o, .returned i o ∈ history → ∃ c, ⟨i, c, o⟩ ∈ order
  realTime : ∀ i o, ∀ e ∈ order, [.returned i o, .invoked e.id e.call].Sublist history →
    [i, e.id].Sublist (order.map Placed.id)
  answers : M.answers s₀ (order.map Placed.call) = order.map Placed.answer

/-- Some sequential order of the calls has the same answers. -/
def Linearizable {S I O : Type*} (M : Mealy S I O) (s₀ : S) (history : List (Event I O)) : Prop :=
  ∃ order, Linearization M s₀ history order

theorem List.pair_sublist_concat {α : Type*} {x y z : α} {l : List α}
    (h : [x, y].Sublist (l ++ [z])) : [x, y].Sublist l ∨ y = z ∧ x ∈ l := by
  rcases List.sublist_append_iff.1 h with ⟨l₁, l₂, hl, h₁, h₂⟩
  rcases List.sublist_singleton.1 h₂ with rfl | rfl
  · rw [List.append_nil] at hl
    exact .inl (hl ▸ h₁)
  · obtain ⟨rfl, rfl⟩ : l₁ = [x] ∧ y = z := by
      have hl' : [x] ++ [y] = l₁ ++ [z] := hl
      obtain ⟨hx, hy⟩ := List.append_inj' hl' rfl
      exact ⟨hx.symm, List.singleton_inj.1 hy⟩
    exact .inr ⟨rfl, List.singleton_sublist.1 h₁⟩

section

variable {α : Type*} {x y : α} {pre rest : List α}

theorem List.Nodup.mem_of_pair_sublist (hnd : (pre ++ x :: rest).Nodup)
    (h : [x, y].Sublist (pre ++ x :: rest)) : y ∈ rest := by
  have hpre : x ∉ pre := fun hmem =>
    (List.nodup_append.1 hnd).2.2 x hmem x List.mem_cons_self rfl
  rcases List.sublist_append_iff.1 h with ⟨l₁, l₂, hl, h₁, h₂⟩
  cases l₁ with
  | nil =>
    obtain rfl : [x, y] = l₂ := hl
    exact List.singleton_sublist.1 (List.cons_sublist_cons.1 h₂)
  | cons a l₁ =>
    obtain ⟨rfl, -⟩ := List.cons_eq_cons.1 hl
    exact absurd (h₁.subset List.mem_cons_self) hpre

theorem List.Nodup.notMem_of_pair_sublist (hnd : (pre ++ x :: rest).Nodup)
    (h : [y, x].Sublist (pre ++ x :: rest)) : y ∉ rest := by
  intro hmem
  have hrest : x ∉ rest := (List.nodup_cons.1 (List.nodup_append.1 hnd).2.1).1
  obtain ⟨rest₁, rest₂, rfl⟩ := List.append_of_mem hmem
  have hsplit : pre ++ x :: (rest₁ ++ y :: rest₂) = (pre ++ x :: rest₁) ++ y :: rest₂ := by simp
  rw [hsplit] at hnd h
  exact hrest (List.mem_append_right _ (List.mem_cons_of_mem _ (hnd.mem_of_pair_sublist h)))

theorem List.Nodup.mem_of_sublist_pair (hnd : (pre ++ x :: rest).Nodup)
    (h : [y, x].Sublist (pre ++ x :: rest)) : y ∈ pre := by
  have hmem : y ∈ pre ++ x :: rest := h.subset List.mem_cons_self
  rcases List.mem_append.1 hmem with hpre | hrest
  · exact hpre
  · rcases List.mem_cons.1 hrest with rfl | hrest
    · exact absurd (hnd.mem_of_pair_sublist h)
        (List.nodup_cons.1 (List.nodup_append.1 hnd).2.1).1
    · exact absurd hrest (hnd.notMem_of_pair_sublist h)

/-- One entry stands in front of a second one, and that in front of a third one. -/
theorem List.Nodup.pair_sublist_trans {l : List α} {z : α} (hnd : l.Nodup)
    (hxy : [x, y].Sublist l) (hyz : [y, z].Sublist l) : [x, z].Sublist l := by
  obtain ⟨pre, rest, rfl⟩ := List.append_of_mem (hyz.subset List.mem_cons_self)
  have hx : x ∈ pre := hnd.mem_of_sublist_pair hxy
  have hz : z ∈ rest := hnd.mem_of_pair_sublist hyz
  have hsub : ([x] ++ [z]).Sublist (pre ++ y :: rest) :=
    (List.singleton_sublist.2 hx).append (List.singleton_sublist.2 (List.mem_cons_of_mem y hz))
  exact hsub

theorem List.pair_sublist_or {l : List α} (hx : x ∈ l) (hy : y ∈ l) (hne : x ≠ y) :
    [x, y].Sublist l ∨ [y, x].Sublist l := by
  obtain ⟨pre, rest, rfl⟩ := List.append_of_mem hx
  rcases List.mem_append.1 hy with hy | hy
  · have hsub : ([y] ++ [x]).Sublist (pre ++ x :: rest) :=
      (List.singleton_sublist.2 hy).append (List.singleton_sublist.2 List.mem_cons_self)
    exact .inr hsub
  · have hrest : y ∈ rest := (List.mem_cons.1 hy).resolve_left hne.symm
    exact .inl (((List.singleton_sublist.2 hrest).cons_cons x).trans
      (List.sublist_append_right pre _))

theorem List.exists_append_of_pair_sublist {l : List α} (h : [x, y].Sublist l) :
    ∃ pre mid post, l = pre ++ x :: (mid ++ y :: post) := by
  obtain ⟨front, back, rfl, hx, hy⟩ := List.cons_sublist_iff.1 h
  obtain ⟨pre, mid, rfl⟩ := List.append_of_mem hx
  obtain ⟨mid', post, rfl⟩ := List.append_of_mem (List.singleton_sublist.1 hy)
  exact ⟨pre, mid ++ mid', post, by simp⟩

end

namespace Linearization

variable {S I O : Type*} {M : Mealy S I O} {s₀ : S} {history : List (Event I O)}
  {order : List (Placed I O)} {i : ℕ} {c : I}

theorem nil : Linearization M s₀ [] [] where
  unique := by simp
  nodup := List.nodup_nil
  invoked := by simp
  returned := by simp
  realTime := by simp
  answers := rfl

theorem invoke (h : Linearization M s₀ history order) (hnew : ∀ c', .invoked i c' ∉ history) :
    Linearization M s₀ (history ++ [.invoked i c]) order where
  unique := by
    intro j c₁ c₂ h₁ h₂
    simp only [List.mem_append, List.mem_singleton, Event.invoked.injEq] at h₁ h₂
    rcases h₁ with h₁ | ⟨rfl, rfl⟩
    · rcases h₂ with h₂ | ⟨rfl, rfl⟩
      · exact h.unique j c₁ c₂ h₁ h₂
      · exact absurd h₁ (hnew c₁)
    · rcases h₂ with h₂ | ⟨-, rfl⟩
      · exact absurd h₂ (hnew c₂)
      · rfl
  nodup := h.nodup
  invoked := fun e he => List.mem_append_left _ (h.invoked e he)
  returned := by
    intro j o hj
    simp only [List.mem_append, List.mem_singleton, reduceCtorEq, or_false] at hj
    exact h.returned j o hj
  realTime := by
    intro j o e he hbefore
    rcases List.pair_sublist_concat hbefore with hbefore | ⟨heq, -⟩
    · exact h.realTime j o e he hbefore
    · -- the call that begins has no place yet
      have hid : e.id = i := (Event.invoked.inj heq).1
      exact absurd (hid ▸ h.invoked e he) (hnew e.call)
  answers := h.answers

theorem effect (h : Linearization M s₀ history order) (hbegun : .invoked i c ∈ history)
    (hnew : ∀ e ∈ order, e.id ≠ i) :
    Linearization M s₀ history
      (order ++ [⟨i, c, (M.step (M.run s₀ (order.map Placed.call)) c).2⟩]) where
  unique := h.unique
  nodup := by
    rw [List.map_append, List.map_singleton, List.nodup_append_comm, List.singleton_append,
      List.nodup_cons]
    refine ⟨?_, h.nodup⟩
    intro hmem
    obtain ⟨e, he, hid⟩ := List.mem_map.1 hmem
    exact hnew e he hid
  invoked := by
    intro e he
    rcases List.mem_append.1 he with he | he
    · exact h.invoked e he
    · obtain rfl := List.mem_singleton.1 he
      exact hbegun
  returned := by
    intro j o hj
    obtain ⟨c', hc'⟩ := h.returned j o hj
    exact ⟨c', List.mem_append_left _ hc'⟩
  realTime := by
    intro j o e he hbefore
    rw [List.map_append, List.map_singleton]
    rcases List.mem_append.1 he with he | he
    · exact (h.realTime j o e he hbefore).trans (List.sublist_append_left _ _)
    · -- whatever has ended before has its place
      obtain rfl := List.mem_singleton.1 he
      have hmem : Event.returned j o ∈ history := hbefore.subset List.mem_cons_self
      obtain ⟨c', hc'⟩ := h.returned j o hmem
      have hplaced : [j].Sublist (order.map Placed.id) :=
        List.singleton_sublist.2 (List.mem_map.2 ⟨_, hc', rfl⟩)
      exact hplaced.append (List.Sublist.refl [i])
  answers := by
    rw [List.map_append, List.map_append, Mealy.answers_append, h.answers]
    rfl

theorem finish (h : Linearization M s₀ history order) {o : O} (hplaced : ⟨i, c, o⟩ ∈ order) :
    Linearization M s₀ (history ++ [.returned i o]) order where
  unique := by
    intro j c₁ c₂ h₁ h₂
    simp only [List.mem_append, List.mem_singleton, reduceCtorEq, or_false] at h₁ h₂
    exact h.unique j c₁ c₂ h₁ h₂
  nodup := h.nodup
  invoked := fun e he => List.mem_append_left _ (h.invoked e he)
  returned := by
    intro j o' hj
    simp only [List.mem_append, List.mem_singleton, Event.returned.injEq] at hj
    rcases hj with hj | ⟨rfl, rfl⟩
    · exact h.returned j o' hj
    · exact ⟨c, hplaced⟩
  realTime := by
    intro j o' e he hbefore
    rcases List.pair_sublist_concat hbefore with hbefore | ⟨heq, -⟩
    · exact h.realTime j o' e he hbefore
    · cases heq
  answers := h.answers

/-! ### What an order says -/

theorem answer_eq {pre post : List (Placed I O)} {e : Placed I O}
    (h : Linearization M s₀ history (pre ++ e :: post)) :
    e.answer = (M.step (M.run s₀ (pre.map Placed.call)) e.call).2 := by
  have hanswers := h.answers
  rw [List.map_append, List.map_append, Mealy.answers_append] at hanswers
  have hlength : (M.answers s₀ (pre.map Placed.call)).length = (pre.map Placed.answer).length := by
    rw [Mealy.length_answers, List.length_map, List.length_map]
  have htail := (List.append_inj hanswers hlength).2
  exact (List.cons_eq_cons.1 htail).1.symm

/-- A call that has ended, and one that began after that and has ended. -/
theorem exists_append (h : Linearization M s₀ history order) {j : ℕ} {c' : I} {o o' : O}
    (hi : .invoked i c ∈ history)
    (hbefore : [.returned i o, .invoked j c'].Sublist history) (hj : .returned j o' ∈ history) :
    ∃ pre mid post, order = pre ++ ⟨i, c, o⟩ :: (mid ++ ⟨j, c', o'⟩ :: post) := by
  obtain ⟨ci, hci⟩ := h.returned i o (hbefore.subset List.mem_cons_self)
  obtain rfl := h.unique i ci c (h.invoked _ hci) hi
  obtain ⟨cj, hcj⟩ := h.returned j o' hj
  obtain rfl : cj = c' :=
    h.unique j cj c' (h.invoked _ hcj) (hbefore.subset (List.mem_cons_of_mem _ List.mem_cons_self))
  obtain ⟨pre, rest, rfl⟩ := List.append_of_mem hci
  have htime := h.realTime i o _ hcj hbefore
  have hnd := h.nodup
  rw [List.map_append, List.map_cons] at htime hnd
  obtain ⟨e, he, hid⟩ := List.mem_map.1 (hnd.mem_of_pair_sublist htime)
  -- the two entries with this number are one
  have hsame : e = ⟨j, cj, o'⟩ := by
    have hmem : e ∈ pre ++ ⟨i, ci, o⟩ :: rest :=
      List.mem_append_right _ (List.mem_cons_of_mem _ he)
    exact List.inj_on_of_nodup_map h.nodup hmem hcj hid
  obtain ⟨mid, post, rfl⟩ := List.append_of_mem (hsame ▸ he)
  exact ⟨pre, mid, post, rfl⟩

theorem not_before {pre post : List (Placed I O)} {e e' : Placed I O}
    (h : Linearization M s₀ history (pre ++ e :: post)) (he' : e' ∈ post) (o : O) :
    ¬ [.returned e'.id o, .invoked e.id e.call].Sublist history := by
  intro hbefore
  have htime := h.realTime e'.id o e (by simp) hbefore
  have hnd := h.nodup
  rw [List.map_append, List.map_cons] at htime hnd
  exact hnd.notMem_of_pair_sublist htime (List.mem_map_of_mem he')

end Linearization
