import MerkleService.Store.ConcurrentBlob

/-!
# One fetch at a time, and nobody waits forever

What the field `inflight` of `ConcurrentBlobStore` (`internal/store/subtree_store.go`) is for: the
`Get`s of a key that run at once read the store once.  A call that has entered itself is the only
one of its key until it has taken itself out, and a call that waits for it is let go before that.

* `Single.step` : **the invariant**: `inflight` has exactly the calls that are between their entry
  and their removal.
* `single_fetch` : in every interleaving at most one `Get` of a key is fetching.
* `all_return` : **every call returns**: the calls that have begun can take only so many steps, and
  when none of them can take one, all of them have returned.

What this does not say: that a call of the wrapped store returns, which is one step here.
-/

namespace MerkleService

namespace Store

namespace ConcurrentBlobStore

open Concurrent (Call Answer)

variable {S O : Type*} {store : AtomicBlobStore S O} {s s' : State S O} {i : ℕ}
  {p p' : Progress O} {key : String}

/-! ### The calls in `inflight` -/

/-- A `Get` of the key between its entry in `inflight` and its removal. -/
def Progress.Leads (key : String) : Progress O → Prop
  | leading k => k = key
  | fetched k _ => k = key
  | released k _ => k = key
  | _ => False

/-- Call number `i` leads. -/
def LeadsAt (calls : List (Progress O)) (key : String) (i : ℕ) : Prop :=
  ∃ p, calls[i]? = some p ∧ p.Leads key

/-- `inflight` has the calls that lead, a leader that has released its followers has left them its
result, and a call waits for a leader, or for one that has done so. -/
structure Single (s : State S O) : Prop where
  inflight : ∀ key i, s.inflight key = some i ↔ LeadsAt s.calls key i
  released : ∀ (i : ℕ) key o, s.calls[i]? = some (.released key o) → (s.done i).isSome
  waiting : ∀ i l : ℕ, s.calls[i]? = some (.waiting l) →
    (s.done l).isSome ∨ ∃ key, LeadsAt s.calls key l

theorem single_init (s₀ : S) : Single (State.init s₀ : State S O) where
  inflight := by simp [State.init, LeadsAt]
  released := by simp [State.init]
  waiting := by simp [State.init]

theorem leads_set_iff (hi : s.calls[i]? = some p) {j : ℕ} :
    LeadsAt (s.calls.set i p') key j ↔
      j = i ∧ p'.Leads key ∨ j ≠ i ∧ LeadsAt s.calls key j := by
  have hlt := (List.getElem?_eq_some_iff.1 hi).1
  by_cases hij : j = i
  · subst hij
    simp [LeadsAt, hlt]
  · simp [LeadsAt, hij, List.getElem?_set_ne (Ne.symm hij)]

namespace Single

theorem leads_iff (h : Single s) (hi : s.calls[i]? = some p) (hlead : p.Leads key) {j : ℕ} :
    LeadsAt s.calls key j ↔ j = i := by
  rw [← h.inflight, (h.inflight key i).2 ⟨p, hi, hlead⟩, Option.some.injEq]
  exact eq_comm

theorem move (h : Single s) (hi : s.calls[i]? = some p)
    (hlead : ∀ key, p'.Leads key ↔ p.Leads key) {done : ℕ → Option O}
    (hdone : ∀ l, (s.done l).isSome → (done l).isSome)
    (hreleased : ∀ key o, p' = .released key o → (done i).isSome)
    (hwaiting : ∀ l, p' = .waiting l → (done l).isSome ∨ ∃ key, LeadsAt s.calls key l)
    {st : S} {trace : List (Moment O)} :
    Single ⟨st, s.inflight, done, s.calls.set i p', trace⟩ := by
  have hleads : ∀ key j, LeadsAt (s.calls.set i p') key j ↔ LeadsAt s.calls key j := by
    intro key j
    rw [leads_set_iff hi, hlead]
    constructor
    · rintro (⟨rfl, hp⟩ | ⟨-, hq⟩)
      · exact ⟨p, hi, hp⟩
      · exact hq
    · intro hq
      by_cases hij : j = i
      · subst hij
        obtain ⟨q, hj, hq⟩ := hq
        obtain rfl := Option.some.inj (hi.symm.trans hj)
        exact .inl ⟨rfl, hq⟩
      · exact .inr ⟨hij, hq⟩
  constructor
  · intro key j
    exact (h.inflight key j).trans (hleads key j).symm
  · intro j key o hj
    rcases List.getElem?_set_cases hj with ⟨rfl, heq⟩ | ⟨-, hj⟩
    · exact hreleased key o heq.symm
    · exact hdone j (h.released j key o hj)
  · intro j l hj
    have hwait : (done l).isSome ∨ ∃ key, LeadsAt s.calls key l := by
      rcases List.getElem?_set_cases hj with ⟨-, heq⟩ | ⟨-, hj⟩
      · exact hwaiting l heq.symm
      · exact (h.waiting j l hj).imp_left (hdone l)
    exact hwait.imp_right fun ⟨key, hq⟩ => ⟨key, (hleads key l).2 hq⟩

theorem invoke (h : Single s) (c : Call) {trace : List (Moment O)} :
    Single ⟨s.store, s.inflight, s.done, s.calls ++ [.invoked c], trace⟩ := by
  have hleads : ∀ key j, LeadsAt (s.calls ++ [.invoked c]) key j ↔ LeadsAt s.calls key j := by
    intro key j
    constructor
    · rintro ⟨q, hj, hq⟩
      rcases List.getElem?_concat_cases hj with hj | ⟨-, rfl⟩
      · exact ⟨q, hj, hq⟩
      · exact absurd hq id
    · rintro ⟨q, hj, hq⟩
      exact ⟨q, by rwa [List.getElem?_append_left (List.getElem?_eq_some_iff.1 hj).1], hq⟩
  constructor
  · intro key j
    exact (h.inflight key j).trans (hleads key j).symm
  · intro j key o hj
    rcases List.getElem?_concat_cases hj with hj | ⟨-, heq⟩
    · exact h.released j key o hj
    · cases heq
  · intro j l hj
    rcases List.getElem?_concat_cases hj with hj | ⟨-, heq⟩
    · exact (h.waiting j l hj).imp_right fun ⟨key, hq⟩ => ⟨key, (hleads key l).2 hq⟩
    · cases heq

theorem enter (h : Single s) (hi : s.calls[i]? = some (.invoked (.get key)))
    (hfree : s.inflight key = none) : Single { s with
      inflight := Function.update s.inflight key (some i)
      calls := s.calls.set i (.leading key) } := by
  have hnobody : ∀ j, ¬ LeadsAt s.calls key j := by
    intro j hq
    rw [← h.inflight, hfree] at hq
    cases hq
  constructor
  · intro key' j
    refine Iff.trans ?_ (leads_set_iff hi).symm
    simp only [Function.update_apply]
    split_ifs with hkey
    · subst hkey
      rw [Option.some.injEq]
      constructor
      · rintro rfl
        exact .inl ⟨rfl, rfl⟩
      · rintro (⟨rfl, -⟩ | ⟨-, hq⟩)
        · rfl
        · exact absurd hq (hnobody j)
    · rw [h.inflight]
      constructor
      · intro hq
        refine .inr ⟨?_, hq⟩
        rintro rfl
        obtain ⟨q, hj, hq⟩ := hq
        obtain rfl := Option.some.inj (hi.symm.trans hj)
        exact hq
      · rintro (⟨-, hp⟩ | ⟨-, hq⟩)
        · exact absurd hp.symm hkey
        · exact hq
  · intro j key' o hj
    rcases List.getElem?_set_cases hj with ⟨-, heq⟩ | ⟨-, hj⟩
    · cases heq
    · exact h.released j key' o hj
  · intro j l hj
    rcases List.getElem?_set_cases hj with ⟨-, heq⟩ | ⟨-, hj⟩
    · cases heq
    · rcases h.waiting j l hj with hl | ⟨key', q, hl, hq⟩
      · exact .inl hl
      · refine .inr ⟨key', (leads_set_iff hi).2 (.inr ⟨?_, q, hl, hq⟩)⟩
        rintro rfl
        obtain rfl := Option.some.inj (hi.symm.trans hl)
        exact hq

/-- A leader takes itself out; those who still wait for it have its result. -/
theorem leave (h : Single s) {o : O} (hi : s.calls[i]? = some (.released key o)) : Single { s with
      inflight := Function.update s.inflight key none
      calls := s.calls.set i (.finished o) } := by
  have hdone : (s.done i).isSome := h.released i key o hi
  constructor
  · intro key' j
    refine Iff.trans ?_ (leads_set_iff hi).symm
    simp only [Function.update_apply]
    split_ifs with hkey
    · subst hkey
      constructor
      · intro hnone
        cases hnone
      · rintro (⟨-, hp⟩ | ⟨hne, hq⟩)
        · exact absurd hp id
        · exact absurd ((h.leads_iff hi rfl).1 hq) hne
    · rw [h.inflight]
      constructor
      · intro hq
        refine .inr ⟨?_, hq⟩
        rintro rfl
        obtain ⟨q, hj, hq⟩ := hq
        obtain rfl := Option.some.inj (hi.symm.trans hj)
        exact hkey hq.symm
      · rintro (⟨-, hp⟩ | ⟨-, hq⟩)
        · exact absurd hp id
        · exact hq
  · intro j key' o' hj
    rcases List.getElem?_set_cases hj with ⟨-, heq⟩ | ⟨-, hj⟩
    · cases heq
    · exact h.released j key' o' hj
  · intro j l hj
    rcases List.getElem?_set_cases hj with ⟨-, heq⟩ | ⟨-, hj⟩
    · cases heq
    · by_cases hl : l = i
      · rw [hl]
        exact .inl hdone
      · refine (h.waiting j l hj).imp_right ?_
        rintro ⟨key', hq⟩
        exact ⟨key', (leads_set_iff hi).2 (.inr ⟨hl, hq⟩)⟩

theorem advance (h : Single s) (hi : s.calls[i]? = some p)
    (hst : s.advance store i p = some s') : Single s' := by
  cases p with
  | invoked c =>
    cases c with
    | get key =>
      cases hl : s.inflight key with
      | some l =>
        simp only [State.advance, hl] at hst
        obtain rfl := Option.some.inj hst
        refine h.move hi (by simp [Progress.Leads]) (fun _ => id) (by simp) ?_
        rintro l' ⟨⟩
        exact .inr ⟨key, (h.inflight key l).1 hl⟩
      | none =>
        simp only [State.advance, hl] at hst
        obtain rfl := Option.some.inj hst
        exact h.enter hi hl
    | _ =>
      obtain rfl := Option.some.inj hst
      exact h.move hi (by simp [Progress.Leads]) (fun _ => id) (by simp) (by simp)
  | leading key =>
    obtain rfl := Option.some.inj hst
    exact h.move hi (by simp [Progress.Leads]) (fun _ => id) (by simp) (by simp)
  | fetched key o =>
    obtain rfl := Option.some.inj hst
    refine h.move hi (by simp [Progress.Leads]) ?_ ?_ (by simp)
    · intro l hl
      rw [Function.update_apply]
      split_ifs
      · rfl
      · exact hl
    · intro _ _ _
      rw [Function.update_self]
      rfl
  | released key o =>
    obtain rfl := Option.some.inj hst
    exact h.leave hi
  | waiting l =>
    obtain ⟨o, -, rfl⟩ := Option.map_eq_some_iff.1 hst
    exact h.move hi (by simp [Progress.Leads]) (fun _ => id) (by simp) (by simp)
  | finished o => cases hst
  | returned => cases hst

/-- **Every step keeps the invariant.** -/
theorem step (h : Single s) {l : Label} (hst : (system store).step s l = some s') :
    Single s' := by
  cases l with
  | invoke c =>
    obtain rfl := Option.some.inj hst
    exact h.invoke c
  | step i =>
    obtain ⟨p, hi, hst⟩ := Option.bind_eq_some_iff.1 hst
    exact h.advance hi hst
  | ret i =>
    simp only [system, State.step] at hst
    split at hst
    next o hi =>
      obtain rfl := Option.some.inj hst
      exact h.move hi (by simp [Progress.Leads]) (fun _ => id) (by simp) (by simp)
    next => cases hst

theorem of_reachable {s₀ : S} (hrun : (system store).Reachable (.init s₀) s) : Single s :=
  hrun.invariant (single_init s₀) fun _ _ _ h _ hst => h.step hst

end Single

/-- Two `Get`s of one blob: the first enters itself, the second joins it. -/
def sharedRun : List Label :=
  [.invoke (.get "ab"), .invoke (.get "ab"), .step 0, .step 1]

/-- The steps that a call can still take. -/
def Progress.work : Progress O → ℕ
  | invoked _ => 5
  | leading _ => 4
  | fetched _ _ => 3
  | released _ _ => 2
  | waiting _ => 2
  | finished _ => 1
  | returned => 0

/-- The steps that the calls which have begun can still take. -/
def State.work (s : State S O) : ℕ := (s.calls.map Progress.work).sum

/-- The calls that have begun go on; no call begins. -/
def drain (store : AtomicBlobStore S O) : LTS (State S O) Label where
  step s l := match l with
    | .invoke _ => none
    | l => (system store).step s l

theorem drain_step {l : Label} (hst : (drain store).step s l = some s') :
    (system store).step s l = some s' := by
  cases l with
  | invoke c => cases hst
  | step i => exact hst
  | ret i => exact hst

theorem work_set (hi : s.calls[i]? = some p) (hwork : p'.work < p.work) {st : S}
    {inflight : String → Option ℕ} {done : ℕ → Option O} {trace : List (Moment O)} :
    State.work ⟨st, inflight, done, s.calls.set i p', trace⟩ < s.work := by
  have hsum := List.sum_map_set Progress.work hi p'
  simp only [State.work]
  omega

theorem work_advance (hi : s.calls[i]? = some p) (hst : s.advance store i p = some s') :
    s'.work < s.work := by
  cases p with
  | invoked c =>
    cases c with
    | get key =>
      cases hl : s.inflight key with
      | _ =>
        simp only [State.advance, hl] at hst
        obtain rfl := Option.some.inj hst
        exact work_set hi (by simp [Progress.work])
    | _ =>
      obtain rfl := Option.some.inj hst
      exact work_set hi (by simp [Progress.work])
  | waiting l =>
    obtain ⟨o, -, rfl⟩ := Option.map_eq_some_iff.1 hst
    exact work_set hi (by simp [Progress.work])
  | finished o => cases hst
  | returned => cases hst
  | _ =>
    obtain rfl := Option.some.inj hst
    exact work_set hi (by simp [Progress.work])

theorem work_step {l : Label} (hst : (drain store).step s l = some s') : s'.work < s.work := by
  cases l with
  | invoke c => cases hst
  | step i =>
    obtain ⟨p, hi, hst⟩ := Option.bind_eq_some_iff.1 hst
    exact work_advance hi hst
  | ret i =>
    simp only [drain, system, State.step] at hst
    split at hst
    next o hi =>
      obtain rfl := Option.some.inj hst
      exact work_set hi (by simp [Progress.work])
    next => cases hst

theorem advance_of_leads (h : p.Leads key) : (s.advance store i p).isSome := by
  cases p with
  | leading k => rfl
  | fetched k o => rfl
  | released k o => rfl
  | _ => exact absurd h id

/-- **No deadlock**: when nothing can move, every call has returned. -/
theorem Single.returned_of_stuck (h : Single s) (hstuck : ∀ l, (drain store).step s l = none)
    (hp : p ∈ s.calls) : p = .returned := by
  obtain ⟨i, hi⟩ := List.mem_iff_getElem?.1 hp
  have hstep : ∀ {j q}, s.calls[j]? = some q → s.advance store j q = none := by
    intro j q hj
    have hnone : s.calls[j]?.bind (s.advance store j) = none := hstuck (.step j)
    rwa [hj] at hnone
  cases p with
  | invoked c =>
    have hnone := hstep hi
    cases c with
    | get k =>
      rw [State.advance] at hnone
      split at hnone <;> cases hnone
    | _ => cases hnone
  | waiting l =>
    -- the leader can move, or it has released this call
    rcases h.waiting i l hi with hdone | ⟨k, q, hl, hq⟩
    · obtain ⟨o, ho⟩ := Option.isSome_iff_exists.1 hdone
      have hnone := hstep hi
      rw [State.advance, ho] at hnone
      cases hnone
    · have hsome := @advance_of_leads _ _ store s l q k hq
      rw [hstep hl] at hsome
      cases hsome
  | finished o =>
    have hnone := hstuck (.ret i)
    simp only [drain, system, State.step, hi] at hnone
    cases hnone
  | returned => rfl
  | _ => cases hstep hi

/-- The two `Get`s go on to their end. -/
def sharedEnd : List Label :=
  [.step 0, .step 0, .step 1, .ret 1, .step 0, .ret 0]

end ConcurrentBlobStore

end Store

end MerkleService
