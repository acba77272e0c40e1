import Mathlib.Data.List.AList
import Mathlib.Data.Int.Notation
import Mathlib.Algebra.Order.Ring.Int

/-!
# Tables whose rows expire

A table with a primary key, whose rows carry the time at which they expire, or none, and other
columns.  It is a list of rows with different keys, in the order of a scan, with the statements that
are used on such tables.

* `insertOrIgnore`, `setExpiry`, `delete` : `INSERT ... ON CONFLICT DO NOTHING`, `UPDATE` and
  `DELETE` by key.  `INSERT ... ON CONFLICT DO UPDATE` is `AList.insert`.
* `expiredKeys` : the rows that have expired.
* `Limit n` : what a `SELECT ... LIMIT n` without an order may return.
* `Limit.pick_eq_of_length_lt` : a selection that has not come to its limit has got all rows.
-/

/-- A row besides its key. -/
structure ExpiringRow (α : Type*) where
  expiresAt : Option ℤ
  data : α

/-- The time of the row has passed. -/
def ExpiringRow.expired {α : Type*} (now : ℤ) (row : ExpiringRow α) : Bool :=
  row.expiresAt.any fun expiresAt => decide (expiresAt < now)

abbrev ExpiringTable (κ α : Type*) := AList fun _ : κ => ExpiringRow α

/-- Some rows of a selection, as many as there are up to `n`. -/
structure Limit (κ : Type*) (n : ℕ) where
  pick : List κ → List κ
  sublist : ∀ keys, (pick keys).Sublist keys
  length : ∀ keys, (pick keys).length = min n keys.length

/-- The first rows of the selection. -/
def Limit.first (κ : Type*) (n : ℕ) : Limit κ n where
  pick := List.take n
  sublist := List.take_sublist n
  length := fun _ => List.length_take

/-- A selection that has not come to its limit has got all rows. -/
theorem Limit.pick_eq_of_length_lt {κ : Type*} {n : ℕ} (limit : Limit κ n) {keys : List κ}
    (h : (limit.pick keys).length < n) : limit.pick keys = keys := by
  refine (limit.sublist keys).eq_of_length ?_
  have hlength := limit.length keys
  omega

namespace ExpiringTable

variable {κ α : Type*} [DecidableEq κ] {t : ExpiringTable κ α} {now : ℤ}

def insertOrIgnore (key : κ) (row : ExpiringRow α) (t : ExpiringTable κ α) : ExpiringTable κ α :=
  if key ∈ t then t else t.insert key row

/-- The update of one row, if it is there. -/
def setExpiryAt (expiresAt : Option ℤ) (t : ExpiringTable κ α) (key : κ) : ExpiringTable κ α :=
  match t.lookup key with
  | some row => t.insert key { row with expiresAt := expiresAt }
  | none => t

def setExpiry (keys : List κ) (expiresAt : Option ℤ) (t : ExpiringTable κ α) : ExpiringTable κ α :=
  keys.foldl (setExpiryAt expiresAt) t

def delete (keys : List κ) (t : ExpiringTable κ α) : ExpiringTable κ α :=
  keys.foldl (fun t key => t.erase key) t

def expiredKeys (now : ℤ) (t : ExpiringTable κ α) : List κ :=
  t.keys.filter fun key => (t.lookup key).any (ExpiringRow.expired now)

/-! ### Which rows there are -/

theorem mem_insertOrIgnore {key key' : κ} {row : ExpiringRow α} :
    key' ∈ insertOrIgnore key row t ↔ key' = key ∨ key' ∈ t := by
  unfold insertOrIgnore
  split_ifs with hmem
  · constructor
    · exact Or.inr
    · rintro (rfl | h)
      · exact hmem
      · exact h
  · exact AList.mem_insert t

theorem mem_setExpiry {keys : List κ} {expiresAt : Option ℤ} {key : κ} :
    key ∈ setExpiry keys expiresAt t ↔ key ∈ t := by
  induction keys generalizing t with
  | nil => rfl
  | cons k keys ih =>
    unfold setExpiry
    rw [List.foldl_cons]
    refine (ih (t := setExpiryAt expiresAt t k)).trans ?_
    unfold setExpiryAt
    split
    · rename_i row hrow
      have hk : k ∈ t := AList.lookup_isSome.1 (by rw [hrow]; rfl)
      rw [AList.mem_insert]
      constructor
      · rintro (rfl | h)
        · exact hk
        · exact h
      · exact Or.inr
    · rfl

theorem lookup_delete (keys : List κ) (t : ExpiringTable κ α) (key : κ) :
    (delete keys t).lookup key = if key ∈ keys then none else t.lookup key := by
  induction keys generalizing t with
  | nil => rfl
  | cons k keys ih =>
    unfold delete
    rw [List.foldl_cons]
    refine (ih (t.erase k)).trans ?_
    by_cases hk : key = k
    · subst hk
      simp
    · simp [hk]

theorem mem_expiredKeys {key : κ} :
    key ∈ expiredKeys now t ↔ ∃ row, t.lookup key = some row ∧ row.expired now = true := by
  unfold expiredKeys
  rw [List.mem_filter]
  constructor
  · rintro ⟨-, h⟩
    cases hrow : t.lookup key with
    | none => simp [hrow] at h
    | some row => exact ⟨row, rfl, by simpa [hrow] using h⟩
  · rintro ⟨row, hrow, h⟩
    refine ⟨AList.lookup_isSome.1 (by rw [hrow]; rfl), ?_⟩
    rw [hrow]
    exact h

theorem mem_expiredKeys_delete {keys : List κ} {key : κ} :
    key ∈ expiredKeys now (delete keys t) ↔ key ∉ keys ∧ key ∈ expiredKeys now t := by
  rw [mem_expiredKeys, mem_expiredKeys]
  simp only [lookup_delete]
  by_cases hkey : key ∈ keys
  · simp [hkey]
  · simp [hkey]

theorem expiredKeys_eq_nil :
    expiredKeys now t = [] ↔ ∀ key row, t.lookup key = some row → row.expired now = false := by
  rw [List.eq_nil_iff_forall_not_mem]
  constructor
  · intro h key row hrow
    by_contra hexpired
    exact h key (mem_expiredKeys.2 ⟨row, hrow, Bool.eq_true_of_not_eq_false hexpired⟩)
  · intro h key hkey
    obtain ⟨row, hrow, hexpired⟩ := mem_expiredKeys.1 hkey
    rw [h key row hrow] at hexpired
    cases hexpired

end ExpiringTable
