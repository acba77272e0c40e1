import MerkleService.Data.List
import Mathlib.Algebra.BigOperators.Group.List.Basic

/-!
# Handing entries over exactly once

Entries are appended to a store, and readers take them out in two steps: a reader first takes note
of entries that are stored, and later it removes those and returns them.

* `Handover.Inv` : what holds while no two readers have noted the same entry.
* `Handover.Inv.append`, `Handover.Inv.join`, `Handover.Inv.finish` : it is kept.
* `Handover.Inv.once` : **every entry appended is stored or has been returned, once**.
-/

/-- A participant: one that does not read, a reader with the entries it has noted, or one that has
returned. -/
inductive Reader (ε : Type*) where
  | idle
  | reading (noted : List ε)
  | finished (returned : List ε)

/-- The entries that a reader has noted and not returned yet. -/
def Reader.noted {ε : Type*} : Reader ε → List ε
  | reading noted => noted
  | _ => []

/-- The entries that a reader has returned. -/
def Reader.returned {ε : Type*} : Reader ε → List ε
  | finished returned => returned
  | _ => []

/-- The entries stored, all entries ever appended, and the participants. -/
structure Handover (ε : Type*) where
  stored : List ε
  appended : List ε
  readers : List (Reader ε)

namespace Handover

variable {ε : Type*} [DecidableEq ε]

/-- How often an entry has been returned. -/
def returns (a : Handover ε) (e : ε) : ℕ := (a.readers.map fun r => r.returned.count e).sum

/-- An entry appended is stored or returned, once; and the entries that readers have noted are
stored, and noted by one reader only. -/
structure Inv (a : Handover ε) : Prop where
  once : ∀ e ∈ a.appended, a.returns e + a.stored.count e = 1
  stored : ∀ e ∈ a.stored, e ∈ a.appended
  returned : ∀ r ∈ a.readers, ∀ e ∈ r.returned, e ∈ a.appended
  noted : ∀ r ∈ a.readers, r.noted.Nodup ∧ ∀ e ∈ r.noted, e ∈ a.stored
  disjoint : ∀ (i j : ℕ) (r r' : Reader ε), i ≠ j → a.readers[i]? = some r →
    a.readers[j]? = some r' → ∀ e ∈ r.noted, e ∉ r'.noted

variable {a : Handover ε}

theorem inv_empty : Inv (⟨[], [], []⟩ : Handover ε) where
  once := by simp
  stored := by simp
  returned := by simp
  noted := by simp
  disjoint := by simp

theorem returns_set {i : ℕ} {r r' : Reader ε} (hr : a.readers[i]? = some r) (e : ε)
    (stored : List ε) :
    returns { a with stored := stored, readers := a.readers.set i r' } e + r.returned.count e =
      a.returns e + r'.returned.count e := by
  exact List.sum_map_set (fun r => r.returned.count e) hr r'

theorem Inv.nodup_stored (h : Inv a) : a.stored.Nodup := by
  rw [List.nodup_iff_count_le_one]
  intro e
  by_cases he : e ∈ a.stored
  · have hone := h.once e (h.stored e he)
    omega
  · rw [List.count_eq_zero.2 he]
    exact Nat.zero_le 1

theorem Inv.returns_eq_zero (h : Inv a) {e : ε} (he : e ∉ a.appended) : a.returns e = 0 := by
  rw [returns, List.sum_eq_zero_iff]
  intro n hn
  obtain ⟨r, hr, rfl⟩ := List.mem_map.1 hn
  rw [List.count_eq_zero]
  intro hmem
  exact he (h.returned r hr e hmem)

theorem Inv.append (h : Inv a) {e : ε} (he : e ∉ a.appended) :
    Inv { a with stored := a.stored ++ [e], appended := a.appended ++ [e] } where
  once := by
    intro e' he'
    rw [List.count_append]
    rcases List.mem_append.1 he' with hold | hnew
    · have hne : e ≠ e' := by
        rintro rfl
        exact he hold
      have hone := h.once e' hold
      simpa [returns, hne] using hone
    · obtain rfl := List.mem_singleton.1 hnew
      have hzero := h.returns_eq_zero he
      have hstored : a.stored.count e' = 0 := List.count_eq_zero.2 fun hmem => he (h.stored e' hmem)
      rw [returns] at hzero
      simp [returns, hzero, hstored]
  stored := by
    intro e' he'
    rcases List.mem_append.1 he' with hold | hnew
    · exact List.mem_append_left _ (h.stored e' hold)
    · exact List.mem_append_right _ hnew
  returned := fun r hr e' he' => List.mem_append_left _ (h.returned r hr e' he')
  noted := fun r hr =>
    ⟨(h.noted r hr).1, fun e' he' => List.mem_append_left _ ((h.noted r hr).2 e' he')⟩
  disjoint := h.disjoint

/-- A participant joins, who reads entries that nobody else has noted, or nothing. -/
theorem Inv.join (h : Inv a) {r : Reader ε} (hreturned : r.returned = [])
    (hnodup : r.noted.Nodup) (hstored : ∀ e ∈ r.noted, e ∈ a.stored)
    (hfree : ∀ r' ∈ a.readers, ∀ e ∈ r'.noted, e ∉ r.noted) :
    Inv { a with readers := a.readers ++ [r] } where
  once := by
    intro e he
    have hone := h.once e he
    simpa [returns, hreturned] using hone
  stored := h.stored
  returned := by
    intro r' hr' e he
    rcases List.mem_append.1 hr' with hold | hnew
    · exact h.returned r' hold e he
    · obtain rfl := List.mem_singleton.1 hnew
      rw [hreturned] at he
      cases he
  noted := by
    intro r' hr'
    rcases List.mem_append.1 hr' with hold | hnew
    · exact h.noted r' hold
    · obtain rfl := List.mem_singleton.1 hnew
      exact ⟨hnodup, hstored⟩
  disjoint := by
    intro i j r₁ r₂ hij h₁ h₂ e he₁ he₂
    rcases List.getElem?_concat_cases h₁ with hold₁ | ⟨hi, rfl⟩
    · rcases List.getElem?_concat_cases h₂ with hold₂ | ⟨-, rfl⟩
      · exact h.disjoint i j r₁ r₂ hij hold₁ hold₂ e he₁ he₂
      · exact hfree r₁ (List.mem_of_getElem? hold₁) e he₁ he₂
    · rcases List.getElem?_concat_cases h₂ with hold₂ | ⟨hj, -⟩
      · exact hfree r₂ (List.mem_of_getElem? hold₂) e he₂ he₁
      · exact hij (hi.trans hj.symm)

theorem Inv.finish (h : Inv a) {i : ℕ} {noted : List ε}
    (hr : a.readers[i]? = some (.reading noted)) {stored : List ε}
    (hstored : stored = a.stored.filter fun e => !decide (e ∈ noted)) :
    Inv { a with stored := stored, readers := a.readers.set i (.finished noted) } := by
  obtain ⟨hnodup, hsub⟩ := h.noted _ (List.mem_of_getElem? hr)
  have hkeep : ∀ {e : ε}, e ∈ a.stored → e ∉ noted → e ∈ stored := by
    intro e he hnot
    rw [hstored, List.mem_filter]
    exact ⟨he, by simpa using hnot⟩
  have hcases : ∀ {k : ℕ} {r : Reader ε}, (a.readers.set i (.finished noted))[k]? = some r →
      k = i ∧ r = .finished noted ∨ k ≠ i ∧ a.readers[k]? = some r :=
    List.getElem?_set_cases
  refine ⟨?_, ?_, ?_, ?_, ?_⟩
  · intro e he
    have hset := @returns_set _ _ a i _ (.finished noted) hr e stored
    have hone := h.once e he
    simp only [Reader.returned, List.count_nil, Nat.add_zero] at hset
    rw [hset]
    by_cases hin : e ∈ noted
    · have hcount : a.stored.count e ≠ 0 := (List.count_pos_iff.2 (hsub e hin)).ne'
      have hgone : stored.count e = 0 := by
        rw [hstored, List.count_eq_zero]
        simp [hin]
      have hone' : noted.count e = 1 := List.count_eq_one_of_mem hnodup hin
      dsimp only
      omega
    · have hstay : stored.count e = a.stored.count e := by
        rw [hstored, List.count_filter]
        simpa using hin
      have hzero : noted.count e = 0 := List.count_eq_zero.2 hin
      dsimp only
      omega
  · intro e he
    rw [hstored] at he
    exact h.stored e (List.mem_of_mem_filter he)
  · intro r hrmem e he
    obtain ⟨k, hk⟩ := List.mem_iff_getElem?.1 hrmem
    rcases hcases hk with ⟨-, rfl⟩ | ⟨-, hold⟩
    · exact h.stored e (hsub e he)
    · exact h.returned r (List.mem_of_getElem? hold) e he
  · intro r hrmem
    obtain ⟨k, hk⟩ := List.mem_iff_getElem?.1 hrmem
    rcases hcases hk with ⟨-, rfl⟩ | ⟨hne, hold⟩
    · exact ⟨List.nodup_nil, List.forall_mem_nil _⟩
    · obtain ⟨hnodup', hsub'⟩ := h.noted r (List.mem_of_getElem? hold)
      exact ⟨hnodup', fun e he => hkeep (hsub' e he) (h.disjoint k i r _ hne hold hr e he)⟩
  · intro j k r r' hjk hj hk e he
    rcases hcases hj with ⟨-, rfl⟩ | ⟨hji, hj⟩
    · cases he
    · rcases hcases hk with ⟨-, rfl⟩ | ⟨-, hk⟩
      · exact List.not_mem_nil
      · exact h.disjoint j k r r' hjk hj hk e he

end Handover
