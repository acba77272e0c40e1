import MerkleService.Cache.OnDemand

/-!
# The chunks of a bucket

A bucket with allocation on demand has slots for chunks, a list of free chunks and a count of those
it has mapped.  `Reset` gives the chunks in the slots back to the list and keeps the count.  When
the list is empty and a slot has no chunk, `getChunk` maps a slab; it has two errors for the cases
that nothing is left to map.

* `Bucket.Accounted` : every chunk that has been mapped is in a slot or in the list, once.
* `chunk_accounting` : **chunks never run out**: whatever is done and whichever system calls fail,
  the chunks are accounted for, `Set` does not return one of the two errors, and a `Set` that fails
  has changed nothing.
-/

namespace MerkleService

namespace Cache

/-- Every chunk that has been mapped is in a slot or in the list of free ones, once, and there are
not more of them than slots. -/
structure Bucket.Accounted (b : Bucket) : Prop where
  count : (b.chunks.filter Option.isSome).length + b.freeChunks.length = b.allocatedChunks
  le : b.allocatedChunks ≤ b.chunks.length
  distinct : (b.arrays ++ b.freeChunks).Nodup

theorem Bucket.Owned.accounted {b : Bucket} (h : b.Owned) : b.Accounted where
  count := by
    have hlen := h.perm.length_eq
    have hslots : b.arrays.length = (b.chunks.filter Option.isSome).length := by
      rw [Bucket.arrays, List.length_filterMap_eq_countP, List.countP_eq_length_filter]
      congr 2
      funext slot
      cases slot <;> rfl
    rw [List.length_append, List.length_range, hslots] at hlen
    exact hlen.trans h.allocated.symm
  le := h.allocated ▸ h.le
  distinct := h.perm.nodup_iff.2 List.nodup_range

/-! ### The errors of `getChunk` -/

/-- All chunks have been mapped. -/
def NoMoreChunks (err : String) : Prop :=
  ∃ maxChunks : ℕ, err = "cannot allocate chunk: " ++
    ("cannot allocate more chunks; bucket is at maxChunks=" ++ toString maxChunks)

/-- The next slab would be empty. -/
def InvalidSlabBytes (err : String) : Prop :=
  ∃ slabBytes slabChunks : ℕ, err = "cannot allocate chunk: " ++
    ("invalid slabBytes=" ++ toString slabBytes ++ " (slabChunks=" ++ toString slabChunks ++ ")")

theorem ne_of_head? {s t : String} (h : s.toList.head? ≠ t.toList.head?) : s ≠ t := by
  rintro rfl
  exact h rfl

theorem toString_append_ne {c : Char} (hc : c.isDigit = false) (n : ℕ) (s : String) {t : String}
    (ht : t.toList.head? = some c) : toString n ++ s ≠ t := by
  refine ne_of_head? fun heq => ?_
  have hdigits : (toString n).toList = Nat.toDigits 10 n := Nat.toList_repr
  rw [ht, String.toList_append, hdigits] at heq
  cases hd : Nat.toDigits 10 n with
  | nil => simp at hd
  | cons d ds =>
    have hdigit : d.isDigit = true :=
      Nat.isDigit_of_mem_toDigits (by decide) (by decide) (hd ▸ List.mem_cons_self)
    obtain rfl : d = c := by simpa [hd] using heq
    simp [hc] at hdigit

theorem OnDemand.SetError.not_exhausted {T : OnDemand} {mmapErr : Option String} {k v : List UInt8}
    {err : String} (h : T.SetError mmapErr k v err) :
    ¬ NoMoreChunks err ∧ ¬ InvalidSlabBytes err := by
  cases h with
  | tooBig =>
    constructor
    · rintro ⟨n, heq⟩
      revert heq
      refine ne_of_head? ?_
      cases T <;> simp [kind, bucketTrimmed, bucketUnallocated]
    · rintro ⟨m, n, heq⟩
      revert heq
      refine ne_of_head? ?_
      cases T <;> simp [kind, bucketTrimmed, bucketUnallocated]
  | tooLong =>
    constructor
    · rintro ⟨n, heq⟩
      revert heq
      exact ne_of_head? (by simp)
    · rintro ⟨m, n, heq⟩
      revert heq
      exact ne_of_head? (by simp)
  | mmap bytes err =>
    constructor
    · rintro ⟨n, heq⟩
      have hsplit : "cannot allocate more chunks; bucket is at maxChunks=" ++ toString n =
          "cannot allocate " ++ ("more chunks; bucket is at maxChunks=" ++ toString n) := by
        rw [← String.append_assoc]
        rfl
      rw [String.append_right_inj, hsplit, String.append_assoc, String.append_assoc,
        String.append_right_inj] at heq
      exact toString_append_ne (c := 'm') (by decide) _ _ (by simp) heq
    · rintro ⟨m, n, heq⟩
      rw [String.append_right_inj] at heq
      revert heq
      exact ne_of_head? (by simp)

/-! ### Runs -/

/-- **Chunks never run out.**  For every size of a bucket of either type, every sequence of calls
and every choice of the system calls that fail: the chunks in slots and the free ones are as many as
have been mapped, and all different; there are not more than slots; `Set` returns neither of the two
errors for want of chunks; and a `Set` that returns an error leaves all later answers as if it had
not been called. -/
theorem chunk_accounting (T : OnDemand) (sum64 : List UInt8 → UInt64) {maxBytes : ℕ} {b₀ : Bucket}
    (hinit : Bucket.init maxBytes = .ok b₀) (calls : List Call)
    (hcalls : ∀ c ∈ calls, c.Supplied) :
    ∃ b, (T.machine sum64).run (some b₀) calls = some b ∧ b.Accounted ∧
      ∀ mmapErr k v h, ∃ b' err, T.set mmapErr b k v h = some (b', err) ∧
        ∀ text, err = some text → ¬ NoMoreChunks text ∧ ¬ InvalidSlabBytes text ∧
          ∀ later, (T.machine sum64).answers (some b') later =
            (T.machine sum64).answers (some b) later := by
  obtain ⟨b, a, hrun, -, href⟩ := @Refines.run b₀ .empty sum64 T (refines_init hinit) calls hcalls
  refine ⟨b, hrun, href.owned.accounted, fun mmapErr k v h => ?_⟩
  obtain ⟨b', hset, -⟩ | ⟨err, hset, herr, -⟩ := href.setOnDemand T mmapErr k v h
  · refine ⟨b', none, hset, fun text htext => ?_⟩
    cases htext
  · refine ⟨b, some err, hset, ?_⟩
    rintro _ ⟨⟩
    exact ⟨herr.not_exhausted.1, herr.not_exhausted.2, fun _ => rfl⟩

/-- Memory cannot be mapped for the first `Set`, can for the second, and the chunk is given back. -/
theorem chunk_accounting_failed_mmap :
    ∃ b₀ b, Bucket.init 1 = .ok b₀ ∧
      (OnDemand.trimmed.machine fun _ => 7).run (some b₀)
        [.set (some "cannot allocate memory") [1] [2] 7, .set none [1] [2] 7, .del 7, .reset] =
          some b ∧ b.Accounted := by
  have hinit : Bucket.init 1 = .ok _ := rfl
  obtain ⟨b, hrun, hacc, -⟩ := chunk_accounting .trimmed (fun _ => 7) hinit
    [.set (some "cannot allocate memory") [1] [2] 7, .set none [1] [2] 7, .del 7, .reset]
    (by simp [Call.Supplied])
  exact ⟨_, b, hinit, hrun, hacc⟩

end Cache

end MerkleService
