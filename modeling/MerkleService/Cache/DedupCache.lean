import Mathlib.Data.Int.Notation
import Mathlib.Data.List.Basic
import Mathlib.Data.List.Nodup

/-!
# The cache of processed messages

`DedupCache` (`internal/cache/dedup_cache.go`) is a bounded set of message hashes with eviction of
the one used least recently.  The map and the list of the source hold the same keys; here they are
one list, in the order of the source's list, whose front is the key used last.

* `DedupCache.contains_add_self` : a key is in the set after it was added.
* `DedupCache.contains_of_contains_add` : nothing else is in the set that was not before.
-/

namespace MerkleService

namespace Cache

structure DedupCache where
  maxSize : ℕ
  keys : List String
  maxSize_pos : 0 < maxSize
  nodup : keys.Nodup
  length_le : keys.length ≤ maxSize

namespace DedupCache

/-- `NewDedupCache`. -/
def new (maxSize : ℤ) : DedupCache where
  maxSize := if maxSize ≤ 0 then 1 else maxSize.toNat
  keys := []
  maxSize_pos := by split_ifs <;> omega
  nodup := List.nodup_nil
  length_le := Nat.zero_le _

/-- `Contains`. -/
def contains (c : DedupCache) (key : String) : Bool := decide (key ∈ c.keys)

/-- `Add`: the key moves to the front, or is put there when the oldest keys have made room.  The
answer is whether it is new. -/
def add (c : DedupCache) (key : String) : DedupCache × Bool :=
  if h : key ∈ c.keys then
    ({ c with
        keys := key :: c.keys.erase key
        nodup := List.nodup_cons.2 ⟨c.nodup.not_mem_erase, c.nodup.erase key⟩
        length_le := by
          rw [List.length_cons, List.length_erase_of_mem h]
          have hpos := List.length_pos_of_mem h
          have hle := c.length_le
          omega }, false)
  else
    ({ c with
        keys := key :: c.keys.take (c.maxSize - 1)
        nodup := List.nodup_cons.2
          ⟨fun hmem => h (List.mem_of_mem_take hmem), c.nodup.sublist (List.take_sublist _ _)⟩
        length_le := by
          rw [List.length_cons, List.length_take]
          have hpos := c.maxSize_pos
          omega }, true)

variable (c : DedupCache) (key : String)

theorem contains_add_self : (c.add key).1.contains key = true := by
  unfold add
  split_ifs <;> simp [contains]

theorem contains_of_contains_add {key' : String} (h : (c.add key).1.contains key' = true) :
    key' = key ∨ c.contains key' = true := by
  unfold add at h
  split_ifs at h with hmem
  · rcases List.mem_cons.1 (of_decide_eq_true h) with rfl | hold
    · exact Or.inl rfl
    · exact Or.inr (decide_eq_true (List.mem_of_mem_erase hold))
  · rcases List.mem_cons.1 (of_decide_eq_true h) with rfl | hold
    · exact Or.inl rfl
    · exact Or.inr (decide_eq_true (List.mem_of_mem_take hold))

end DedupCache

end Cache

end MerkleService
