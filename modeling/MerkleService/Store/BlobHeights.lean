import MerkleService.Store.Blob

/-!
# Blobs without a height

A subtree that is stored with height 0, as its block is not known yet, has no delete-at-height: the
documentation of `StoreSubtree` (`internal/store/subtree_store.go`) says that it is not pruned until
it is stored again with a height.  But `Set` without a delete-at-height leaves the one that the key
may have from before.

* `Op.Touches` : the operation stores the blob again, or deletes it.
* `Pinned` : a blob that no height removes.
* `kept_iff` : **a blob stored without a height is kept if and only if** its key has no
  delete-at-height left.
-/

namespace MerkleService

namespace Store

section

variable {κ : Type} [DecidableEq κ] (st : Stores κ)

/-- The operation writes the blob `k`, or removes it other than by its height. -/
def Op.Touches (k : κ) : Op → Prop
  | .storeSubtree id _ _ w => st.path id = k ∧ w ≠ .refused
  | .storeSubtreeFromReader id _ _ w => st.path id = k ∧ w ≠ .refused
  | .deleteSubtree id removed => st.path id = k ∧ removed = true
  | .put data _ w => st.path (stumpKeyPrefix ++ st.stumpRefFor data) = k ∧ w ≠ .refused
  | .deleteStump ref removed => ref ≠ "" ∧ st.path (stumpKeyPrefix ++ ref) = k ∧ removed = true
  | .setCurrentBlockHeight _ _ => False

/-- The blobs after a sequence of operations. -/
def Stores.after (b : Blobs κ) (ops : List Op) : Blobs κ := ops.foldl st.apply b

/-- No key that names the blob has a delete-at-height. -/
def NoHeight (b : Blobs κ) (k : κ) : Prop := ∀ e ∈ b.dah, st.path e.1 ≠ k

/-- The blob is there, and no height removes it. -/
structure Pinned (b : Blobs κ) (k : κ) (data : List UInt8) : Prop where
  blob : b.blob k = some data
  noHeight : NoHeight st b k

variable {st} {b : Blobs κ} {k : κ} {data : List UInt8}

theorem Pinned.set_of_ne (h : Pinned st b k data) {key : String} (hkey : st.path key ≠ k)
    (data' : List UInt8) (height : UInt64) (w : Write) :
    Pinned st (b.set st.path key data' height w) k data := by
  refine ⟨(Blobs.blob_set_of_ne (Ne.symm hkey)).trans h.blob, ?_⟩
  intro e he
  simp only [Blobs.set] at he
  split_ifs at he
  · rcases List.mem_cons.1 he with rfl | he
    · exact hkey
    · exact h.noHeight e (List.mem_of_mem_filter he)
  · exact h.noHeight e he

theorem Pinned.set_refused (h : Pinned st b k data) (key : String) (data' : List UInt8)
    (height : UInt64) : Pinned st (b.set st.path key data' height .refused) k data := by
  refine ⟨(congrFun (Blobs.blob_set_of_refused rfl) k).trans h.blob, ?_⟩
  intro e he
  simp only [Blobs.set, reduceCtorEq, false_and, if_false] at he
  exact h.noHeight e he

theorem Pinned.set (h : Pinned st b k data) {key : String} {w : Write}
    (hnot : ¬ (st.path key = k ∧ w ≠ .refused)) (data' : List UInt8) (height : UInt64) :
    Pinned st (b.set st.path key data' height w) k data := by
  by_cases hkey : st.path key = k
  · have hw : w = .refused := by
      by_contra hw
      exact hnot ⟨hkey, hw⟩
    rw [hw]
    exact h.set_refused key data' height
  · exact h.set_of_ne hkey data' height w

theorem Pinned.del (h : Pinned st b k data) {key : String} {removed : Bool}
    (hnot : ¬ (st.path key = k ∧ removed = true)) :
    Pinned st (b.del st.path key removed) k data := by
  refine ⟨?_, fun e he => h.noHeight e (List.mem_of_mem_filter he)⟩
  cases removed with
  | false => exact h.blob
  | true =>
    have hkey : k ≠ st.path key := by
      rintro rfl
      exact hnot ⟨rfl, rfl⟩
    exact (Function.update_of_ne hkey none b.blob).trans h.blob

theorem Pinned.setCurrentBlockHeight (h : Pinned st b k data) (height : UInt64)
    (removed : String → Bool) :
    Pinned st (b.setCurrentBlockHeight st.path height removed) k data := by
  refine ⟨?_, fun e he => h.noHeight e (List.mem_of_mem_filter he)⟩
  have hnone : ¬ (b.dah.any fun e => e.2 ≤ height && removed e.1 && st.path e.1 = k) = true := by
    intro hany
    obtain ⟨e, he, hcond⟩ := List.any_eq_true.1 hany
    simp only [Bool.and_eq_true, decide_eq_true_eq] at hcond
    exact h.noHeight e he hcond.2
  exact (if_neg hnone).trans h.blob

theorem Pinned.apply (h : Pinned st b k data) {op : Op} (hop : ¬ op.Touches st k) :
    Pinned st (st.apply b op) k data := by
  cases op with
  | storeSubtree id data' height w => exact h.set hop _ _
  | storeSubtreeFromReader id data' height w => exact h.set hop _ _
  | deleteSubtree id removed => exact h.del hop
  | put data' height w => exact h.set hop _ _
  | deleteStump ref removed =>
    by_cases hempty : ref = ""
    · simpa only [Stores.apply, Stores.deleteStump, if_pos hempty] using h
    · simp only [Stores.apply, Stores.deleteStump, if_neg hempty]
      exact h.del fun hc => hop ⟨hempty, hc⟩
  | setCurrentBlockHeight height removed => exact h.setCurrentBlockHeight height removed

theorem Pinned.after (h : Pinned st b k data) {ops : List Op}
    (hops : ∀ op ∈ ops, ¬ op.Touches st k) : Pinned st (st.after b ops) k data := by
  induction ops generalizing b with
  | nil => exact h
  | cons op ops ih =>
    rw [List.forall_mem_cons] at hops
    exact ih (h.apply hops.1) hops.2

theorem pinned_storeSubtree_iff {id : String} :
    Pinned st (st.storeSubtree b id data 0 .done) (st.path id) data ↔
      NoHeight st b (st.path id) := by
  have hdah : (st.storeSubtree b id data 0 .done).dah = b.dah := by
    simp [Stores.storeSubtree, Blobs.set]
  constructor
  · intro h e he
    exact h.noHeight e (hdah ▸ he)
  · intro h
    exact ⟨Blobs.blob_set_of_content rfl, fun e he => h e (hdah ▸ he)⟩

theorem blob_pruned {e : String × UInt64} (he : e ∈ b.dah) :
    (b.setCurrentBlockHeight st.path e.2 fun _ => true).blob (st.path e.1) = none := by
  refine if_pos (List.any_eq_true.2 ⟨e, he, ?_⟩)
  simp

end

/-- **A blob stored without a height is kept if and only if its key had no height.**  After any
operations on the stores over one of the blob stores, `StoreSubtree` of `data` under `id` with
height 0 succeeds; `GetSubtree` then returns `data` through all operations that do not store or
delete the blob again, if and only if no key that names it had a delete-at-height at the time. -/
theorem kept_iff {κ : Type} [DecidableEq κ] (st : Stores κ) (history : List Op) (id : String)
    (data : List UInt8) :
    (∀ later, (∀ op ∈ later, ¬ op.Touches st (st.path id)) →
      st.getSubtree (st.after .empty (history ++ .storeSubtree id data 0 .done :: later)) id =
        some data) ↔
    NoHeight st (st.after .empty history) (st.path id) := by
  have hafter : ∀ later, st.after .empty (history ++ .storeSubtree id data 0 .done :: later) =
      st.after (st.storeSubtree (st.after .empty history) id data 0 .done) later := by
    intro later
    rw [Stores.after, List.foldl_append, List.foldl_cons]
    rfl
  simp only [hafter]
  constructor
  · intro h e he hpath
    -- the height that is left is reached
    have hkept := h [.setCurrentBlockHeight e.2 fun _ => true] (by simp [Op.Touches])
    have hdah : e ∈ (st.storeSubtree (st.after .empty history) id data 0 .done).dah := by
      simpa [Stores.storeSubtree, Blobs.set] using he
    have hgone := @blob_pruned κ _ st _ e hdah
    rw [hpath] at hgone
    exact absurd (hgone.symm.trans hkept) (by simp)
  · intro h later hlater
    exact ((pinned_storeSubtree_iff.2 h).after hlater).blob

/-- A subtree is stored with height 5 in a store with offset 10, and stored again without a height:
it is gone at height 15. -/
theorem not_kept :
    ¬ ∀ (history later : List Op) (id : String) (data : List UInt8),
      (∀ op ∈ later, ¬ op.Touches (Stores.memory 10 0 fun d => d) id) →
      (Stores.memory 10 0 fun d => d).getSubtree ((Stores.memory 10 0 fun d => d).after .empty
        (history ++ .storeSubtree id data 0 .done :: later)) id = some data := by
  intro h
  have hkept := h [.storeSubtree "a" [1] 5 .done] [.setCurrentBlockHeight 15 fun _ => true] "a" [2]
    (by simp [Op.Touches])
  exact absurd hkept (by decide)

end Store

end MerkleService
