import MerkleService.Data.RingMap

/-!
# A map over a log of which the oldest chunks are dropped

Records are written one behind the other into an endless sequence of chunks of `size` bytes; a
record that does not fit into the rest of its chunk goes to the next one.  A window of `n` chunks is
kept: when the writer leaves it, its `r` lowest chunks are dropped.

* `LogMap.insert`, `LogMap.erase`, `LogMap.find` : the map of the records last written.
* `LogMap.WellFormed` : the writer is in the window, and the records lie behind it.
* `LogMap.find_insert_of_ne` : **what a write makes of the other records**: those in the chunks that
  it drops are lost, and no others.
-/

/-- A record: key, value and the position in the log where it begins. -/
structure LogEntry (K V : Type*) where
  key : K
  value : V
  off : ℕ

/-- For each hash the record last written, with the position of the writer and the number of chunks
that have been dropped. -/
structure LogMap (H K V : Type*) where
  pos : ℕ
  removed : ℕ
  last : H → Option (LogEntry K V)

namespace LogMap

variable {H K V : Type*}

/-- Where a record of length `len` begins when the writer is at `pos`. -/
def place (size pos len : ℕ) : ℕ :=
  if (pos + len) / size = pos / size then pos else (pos / size + 1) * size

/-- The chunks dropped after a write to chunk `chunk`. -/
def drops (n r removed chunk : ℕ) : ℕ := if removed + n ≤ chunk then removed + r else removed

/-- The empty map. -/
def empty : LogMap H K V := ⟨0, 0, fun _ => none⟩

/-- A record is written. -/
def insert [DecidableEq H] (size n r : ℕ) (a : LogMap H K V) (h : H) (k : K) (v : V) (len : ℕ) :
    LogMap H K V where
  pos := place size a.pos len + len
  removed := drops n r a.removed (place size a.pos len / size)
  last := Function.update a.last h (some ⟨k, v, place size a.pos len⟩)

/-- The record of a hash is forgotten. -/
def erase [DecidableEq H] (a : LogMap H K V) (h : H) : LogMap H K V :=
  { a with last := Function.update a.last h none }

/-- The chunk of the record has not been dropped. -/
def Kept (size : ℕ) (a : LogMap H K V) (e : LogEntry K V) : Prop := a.removed ≤ e.off / size

instance (size : ℕ) (a : LogMap H K V) (e : LogEntry K V) : Decidable (a.Kept size e) :=
  inferInstanceAs (Decidable (_ ≤ _))

/-- The value of key `k`, if the record last written for the hash is one of it and is kept. -/
def find [DecidableEq K] (size : ℕ) (a : LogMap H K V) (h : H) (k : K) : Option V :=
  (a.last h).bind fun e => if e.key = k ∧ a.Kept size e then some e.value else none

section

variable {size n r pos len : ℕ}

theorem le_place (hsize : 0 < size) : pos ≤ place size pos len := by
  unfold place
  split_ifs
  · exact le_refl pos
  · rw [Nat.mul_comm]
    exact (Nat.lt_mul_div_succ pos hsize).le

/-- A record stays in its chunk, which is the one of the writer or the next one. -/
theorem place_fits (hlen : len < size) :
    (place size pos len + len) / size = place size pos len / size := by
  have hsize : 0 < size := by omega
  unfold place
  split_ifs with h
  · exact h
  · rw [Nat.mul_comm, Nat.mul_add_div hsize, Nat.mul_div_cancel_left _ hsize,
      Nat.div_eq_of_lt hlen, Nat.add_zero]

theorem place_div (hsize : 0 < size) :
    place size pos len / size = pos / size ∨ place size pos len / size = pos / size + 1 := by
  unfold place
  split_ifs
  · exact .inl rfl
  · exact .inr (Nat.mul_div_cancel _ hsize)

/-- The writer is in the window, and the records lie behind it, each in one chunk. -/
structure WellFormed (size n : ℕ) (len : K → V → ℕ) (a : LogMap H K V) : Prop where
  low : a.removed ≤ a.pos / size
  high : a.pos / size < a.removed + n
  fits : ∀ h e, a.last h = some e → (e.off + len e.key e.value) / size = e.off / size
  before : ∀ h e, a.last h = some e → e.off + len e.key e.value ≤ a.pos

variable {lenOf : K → V → ℕ} {a : LogMap H K V}

theorem wellFormed_empty (hn : 0 < n) : (empty : LogMap H K V).WellFormed size n lenOf where
  low := Nat.zero_le _
  high := by simpa [empty] using hn
  fits := by simp [empty]
  before := by simp [empty]

theorem WellFormed.erase [DecidableEq H] (h : a.WellFormed size n lenOf) (hash : H) :
    (a.erase hash).WellFormed size n lenOf := by
  have hlast : ∀ h' e, (a.erase hash).last h' = some e → a.last h' = some e := by
    intro h' e he
    by_cases hh : h' = hash
    · simp [LogMap.erase, hh] at he
    · simpa only [LogMap.erase, Function.update_of_ne hh] using he
  exact ⟨h.low, h.high, fun h' e he => h.fits h' e (hlast h' e he),
    fun h' e he => h.before h' e (hlast h' e he)⟩

theorem WellFormed.window (h : a.WellFormed size n lenOf) (hr : 0 < r) (hrn : r ≤ n)
    (hsize : 0 < size) :
    drops n r a.removed (place size a.pos len / size) ≤ place size a.pos len / size ∧
      place size a.pos len / size < drops n r a.removed (place size a.pos len / size) + n := by
  have hlow := h.low
  have hhigh := h.high
  unfold drops
  rcases @place_div size a.pos len hsize with hdiv | hdiv
  · split_ifs <;> omega
  · split_ifs <;> omega

theorem WellFormed.insert [DecidableEq H] (h : a.WellFormed size n lenOf) (hr : 0 < r)
    (hrn : r ≤ n) (hash : H) {k : K} {v : V} (hlen : lenOf k v < size) :
    (a.insert size n r hash k v (lenOf k v)).WellFormed size n lenOf := by
  have hsize : 0 < size := by omega
  have hfits : (place size a.pos (lenOf k v) + lenOf k v) / size =
      place size a.pos (lenOf k v) / size := place_fits hlen
  obtain ⟨hlow, hhigh⟩ := @window _ _ _ size n r (lenOf k v) lenOf a h hr hrn hsize
  refine ⟨?_, ?_, ?_, ?_⟩
  · exact hlow.trans_eq hfits.symm
  · exact hfits.trans_lt hhigh
  · intro h' e he
    rcases eq_or_ne h' hash with rfl | hne
    · obtain rfl := Option.some.inj ((Function.update_self h' _ a.last).symm.trans he)
      exact hfits
    · exact h.fits h' e ((Function.update_of_ne hne _ a.last).symm.trans he)
  · intro h' e he
    rcases eq_or_ne h' hash with rfl | hne
    · obtain rfl := Option.some.inj ((Function.update_self h' _ a.last).symm.trans he)
      exact le_refl _
    · exact (h.before h' e ((Function.update_of_ne hne _ a.last).symm.trans he)).trans
        ((le_place hsize).trans (Nat.le_add_right _ _))

theorem find_eq_some_iff [DecidableEq K] {hash : H} {k : K} {v : V} :
    a.find size hash k = some v ↔
      ∃ e, a.last hash = some e ∧ e.key = k ∧ a.Kept size e ∧ e.value = v := by
  unfold find
  rw [Option.bind_eq_some_iff]
  refine exists_congr fun e => and_congr_right fun _ => ?_
  rw [Option.ite_none_right_eq_some, Option.some.injEq, and_assoc]

theorem find_insert_self [DecidableEq H] [DecidableEq K] (h : a.WellFormed size n lenOf)
    (hr : 0 < r) (hrn : r ≤ n) (hsize : 0 < size) (hash : H) (k : K) (v : V) :
    (a.insert size n r hash k v len).find size hash k = some v :=
  find_eq_some_iff.2 ⟨_, Function.update_self _ _ _, rfl, (h.window hr hrn hsize).1, rfl⟩

/-- **What a write makes of the other records.** -/
theorem find_insert_of_ne [DecidableEq H] [DecidableEq K] {hash hash' : H} (hne : hash' ≠ hash)
    (k : K) (v : V) (k' : K) (v' : V) :
    (a.insert size n r hash k v len).find size hash' k' = some v' ↔
      ∃ e, a.last hash' = some e ∧ e.key = k' ∧ e.value = v' ∧
        drops n r a.removed (place size a.pos len / size) ≤ e.off / size := by
  rw [find_eq_some_iff]
  have hlast : (a.insert size n r hash k v len).last hash' = a.last hash' :=
    Function.update_of_ne hne _ _
  rw [hlast]
  refine exists_congr fun e => and_congr_right fun _ => and_congr_right fun _ => ?_
  exact and_comm

theorem find_of_find_insert [DecidableEq H] [DecidableEq K] {hash hash' : H} {k k' : K}
    (hne : k' ≠ k) {v v' : V}
    (hfind : (a.insert size n r hash' k' v' len).find size hash k = some v) :
    a.find size hash k = some v := by
  have hdrops : a.removed ≤ drops n r a.removed (place size a.pos len / size) := by
    unfold drops
    split_ifs <;> omega
  rcases eq_or_ne hash hash' with rfl | hhash
  · obtain ⟨e, he, hkey, -⟩ := find_eq_some_iff.1 hfind
    obtain rfl := Option.some.inj ((Function.update_self hash _ a.last).symm.trans he)
    exact absurd hkey hne
  · obtain ⟨e, he, hkey, hv, hkept⟩ := (find_insert_of_ne hhash k' v' k v).1 hfind
    exact find_eq_some_iff.2 ⟨e, he, hkey, hdrops.trans hkept, hv⟩

end

end LogMap
