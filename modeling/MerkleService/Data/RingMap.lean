import Mathlib.Tactic

/-!
# Maps over a log in a ring of chunks

Records of different lengths are written one after the other into a ring of `n` chunks of `size`
units each.  A record never reaches the end of its chunk: when it would, it goes to the beginning of
the next chunk, and behind the last chunk writing starts over, in a new *generation*.  A `Slot` is a
generation and an offset.

A record can be read as long as it has not been written over: when it is of the current generation,
or of the one before at an offset that writing has not reached yet (`Slot.Live`).

* `Slot.place`, `Slot.advance` : where a record goes, and the write position behind it.
* `Slot.live_of_live_advance` : what is live after a write was live before.
* `Slot.disjoint_place` : **a write does not touch what stays live.**
* `RingMap` : the map that remembers for each hash the last record written, with its slot.
* `genCycle` : generations counted in a cycle, as numbers of bounded size.
* `genCycle_eq_iff`, `genCycle_succ_iff` : two neighbouring generations can be told apart by them.
-/

/-- A position in a ring: a generation and an offset. -/
structure Slot where
  gen : ℕ
  off : ℕ
  deriving DecidableEq

namespace Slot

/-- The slot of the next record of length `len`, when `cur` is the write position. -/
def place (size n : ℕ) (cur : Slot) (len : ℕ) : Slot :=
  if (cur.off + len) / size = cur.off / size then cur
  else if (cur.off + len) / size < n then ⟨cur.gen, (cur.off + len) / size * size⟩
  else ⟨cur.gen + 1, 0⟩

/-- The write position behind the next record. -/
def advance (size n : ℕ) (cur : Slot) (len : ℕ) : Slot :=
  ⟨(cur.place size n len).gen, (cur.place size n len).off + len⟩

/-- The record at slot `s` can still be read. -/
def Live (cur s : Slot) : Prop := s.gen = cur.gen ∨ s.gen + 1 = cur.gen ∧ cur.off ≤ s.off

instance (cur s : Slot) : Decidable (Live cur s) := inferInstanceAs (Decidable (_ ∨ _))

/-- A record of length `len` at slot `s` lies before the write position. -/
def Before (cur s : Slot) (len : ℕ) : Prop :=
  s.gen < cur.gen ∨ s.gen = cur.gen ∧ s.off + len ≤ cur.off

section

variable {size n : ℕ} {cur s : Slot} {len slen : ℕ}

/-- A write stays in the generation, at the write position or behind it, or begins a new one. -/
theorem place_cases (size n : ℕ) (cur : Slot) (len : ℕ) :
    (cur.place size n len).gen = cur.gen ∧ cur.off ≤ (cur.place size n len).off ∨
      cur.place size n len = ⟨cur.gen + 1, 0⟩ := by
  unfold place
  split_ifs with hsame hnext
  · exact Or.inl ⟨rfl, le_rfl⟩
  · refine Or.inl ⟨rfl, ?_⟩
    have hsize : 0 < size := by
      by_contra hzero
      obtain rfl : size = 0 := by omega
      simp at hsame
    have hlt : cur.off / size < (cur.off + len) / size :=
      lt_of_le_of_ne (Nat.div_le_div_right (Nat.le_add_right _ _)) (Ne.symm hsame)
    calc cur.off ≤ (cur.off / size + 1) * size :=
          (Nat.lt_mul_of_div_lt (Nat.lt_succ_self _) hsize).le
      _ ≤ (cur.off + len) / size * size := Nat.mul_le_mul_right _ hlt
  · exact Or.inr rfl

/-- A record lies in one chunk of the ring, and ends before the end of the chunk. -/
theorem place_fits (hn : 0 < n) (hcur : cur.off / size < n) (hlen : len < size) :
    ((cur.place size n len).off + len) / size = (cur.place size n len).off / size ∧
      (cur.place size n len).off / size < n := by
  have hsize : 0 < size := by omega
  unfold place
  split_ifs with hsame hnext
  · exact ⟨hsame, hcur⟩
  · simp only [Nat.mul_div_cancel _ hsize]
    rw [Nat.add_comm, Nat.add_mul_div_right _ _ hsize, Nat.div_eq_of_lt hlen]
    exact ⟨by simp, hnext⟩
  · simpa [Nat.div_eq_of_lt hlen] using hn

theorem advance_div_lt (hn : 0 < n) (hcur : cur.off / size < n) (hlen : len < size) :
    (cur.advance size n len).off / size < n := by
  obtain ⟨hsame, hlt⟩ := place_fits hn hcur hlen
  exact hsame ▸ hlt

theorem Before.advance (h : cur.Before s slen) : (cur.advance size n len).Before s slen := by
  unfold Before Slot.advance at *
  rcases place_cases size n cur len with ⟨hgen, hoff⟩ | hwrap
  · dsimp only
    omega
  · rw [hwrap]
    dsimp only
    omega

theorem before_place : (cur.advance size n len).Before (cur.place size n len) len :=
  Or.inr ⟨rfl, le_rfl⟩

theorem live_place : (cur.advance size n len).Live (cur.place size n len) := Or.inl rfl

/-- **What is live after a write was live before.** -/
theorem live_of_live_advance (hbefore : cur.Before s slen)
    (h : (cur.advance size n len).Live s) : cur.Live s := by
  unfold Before at hbefore
  unfold Live Slot.advance at *
  rcases place_cases size n cur len with ⟨hgen, hoff⟩ | hwrap
  · dsimp only at h
    omega
  · rw [hwrap] at h
    dsimp only at h
    omega

/-- **A write does not touch what stays live.** -/
theorem disjoint_place (hbefore : cur.Before s slen) (h : (cur.advance size n len).Live s) :
    s.off + slen ≤ (cur.place size n len).off ∨ (cur.place size n len).off + len ≤ s.off := by
  unfold Before at hbefore
  unfold Live Slot.advance at h
  rcases place_cases size n cur len with ⟨hgen, hoff⟩ | hwrap
  · dsimp only at h
    omega
  · rw [hwrap] at h ⊢
    dsimp only at h ⊢
    omega

/-- A record that stays in its chunk ends before the end of the chunk. -/
theorem mod_add_lt {off : ℕ} (hsize : 0 < size) (h : (off + len) / size = off / size) :
    off % size + len < size := by
  have hlt := Nat.lt_mul_div_succ (off + len) hsize
  have hoff := Nat.div_add_mod off size
  rw [h, Nat.mul_add, Nat.mul_one] at hlt
  omega

/-- A record that does not fit into the chunk goes to the next one, and something is in the
chunk. -/
theorem div_add_eq_succ {off : ℕ} (hlen : len < size) (h : (off + len) / size ≠ off / size) :
    (off + len) / size = off / size + 1 ∧ off % size ≠ 0 := by
  have hsize : 0 < size := by omega
  have hle : (off + len) / size ≤ off / size + 1 := by
    rw [← Nat.add_div_right _ hsize]
    exact Nat.div_le_div_right (by omega)
  have hge : off / size ≤ (off + len) / size := Nat.div_le_div_right (Nat.le_add_right _ _)
  refine ⟨by omega, fun hzero => h ?_⟩
  obtain ⟨q, rfl⟩ := Nat.dvd_of_mod_eq_zero hzero
  rw [Nat.mul_add_div hsize, Nat.div_eq_of_lt hlen, Nat.mul_div_cancel_left _ hsize, Nat.add_zero]

theorem mod_add_le {off off' : ℕ} (h : off / size = off' / size) (hle : off + len ≤ off') :
    off % size + len ≤ off' % size := by
  have hoff := Nat.div_add_mod off size
  have hoff' := Nat.div_add_mod off' size
  rw [h] at hoff
  omega

end

end Slot

/-! ### Maps -/

/-- A record of a map: key, value and the slot where it is written. -/
structure RingEntry (K V : Type*) where
  key : K
  value : V
  slot : Slot

/-- For each hash the last record written, and the write position.  Records that have been written
over are still there; `find` leaves them out. -/
structure RingMap (H K V : Type*) where
  cur : Slot
  last : H → Option (RingEntry K V)

namespace RingMap

variable {H K V : Type*}

/-- Nothing has been written. -/
def empty : RingMap H K V := ⟨⟨0, 0⟩, fun _ => none⟩

/-- A record of length `len` is written. -/
def insert [DecidableEq H] (size n : ℕ) (a : RingMap H K V) (h : H) (k : K) (v : V) (len : ℕ) :
    RingMap H K V :=
  ⟨a.cur.advance size n len,
    Function.update a.last h (some ⟨k, v, a.cur.place size n len⟩)⟩

def erase [DecidableEq H] (a : RingMap H K V) (h : H) : RingMap H K V :=
  { a with last := Function.update a.last h none }

/-- The record that is found for a hash and a key: the last one of the hash, if it is one of the key
and live. -/
def find [DecidableEq K] (a : RingMap H K V) (h : H) (k : K) : Option V :=
  (a.last h).bind fun e => if e.key = k ∧ a.cur.Live e.slot then some e.value else none

theorem find_eq_some_iff [DecidableEq K] {a : RingMap H K V} {h : H} {k : K} {v : V} :
    a.find h k = some v ↔
      ∃ e, a.last h = some e ∧ e.key = k ∧ a.cur.Live e.slot ∧ e.value = v := by
  unfold find
  cases a.last h with
  | none => simp
  | some e => simp [and_assoc]

/-- What holds of the records of a map, `len` being the length of a record: they lie before the
write position, and each in one chunk. -/
structure WellFormed (size n : ℕ) (len : K → V → ℕ) (a : RingMap H K V) : Prop where
  cur : a.cur.off / size < n
  before : ∀ (h : H) (e : RingEntry K V), a.last h = some e →
    a.cur.Before e.slot (len e.key e.value)
  fits : ∀ (h : H) (e : RingEntry K V), a.last h = some e →
    (e.slot.off + len e.key e.value) / size = e.slot.off / size ∧ e.slot.off / size < n

section

variable {size n : ℕ} {len : K → V → ℕ} {a : RingMap H K V}

theorem wellFormed_empty (hn : 0 < n) : (empty : RingMap H K V).WellFormed size n len where
  cur := by simpa [empty] using hn
  before := by simp [empty]
  fits := by simp [empty]

variable [DecidableEq H]

theorem last_insert (h : H) (k : K) (v : V) (l : ℕ) (h' : H) :
    (a.insert size n h k v l).last h' =
      if h' = h then some ⟨k, v, a.cur.place size n l⟩ else a.last h' :=
  Function.update_apply ..

theorem last_erase (h h' : H) : (a.erase h).last h' = if h' = h then none else a.last h' :=
  Function.update_apply ..

theorem WellFormed.erase (hwf : a.WellFormed size n len) (h : H) :
    (a.erase h).WellFormed size n len := by
  refine ⟨hwf.cur, fun h' e he => ?_, fun h' e he => ?_⟩ <;> rw [last_erase] at he <;>
    split_ifs at he
  · exact hwf.before h' e he
  · exact hwf.fits h' e he

theorem WellFormed.insert (hwf : a.WellFormed size n len) (h : H) {k : K} {v : V}
    (hlen : len k v < size) : (a.insert size n h k v (len k v)).WellFormed size n len := by
  have hn : 0 < n := (Nat.zero_le _).trans_lt hwf.cur
  refine ⟨Slot.advance_div_lt hn hwf.cur hlen, fun h' e he => ?_, fun h' e he => ?_⟩ <;>
    rw [last_insert] at he <;> split_ifs at he
  · obtain rfl := Option.some.inj he
    exact Slot.before_place
  · exact (hwf.before h' e he).advance
  · obtain rfl := Option.some.inj he
    exact Slot.place_fits hn hwf.cur hlen
  · exact hwf.fits h' e he

theorem find_insert_self [DecidableEq K] (h : H) (k : K) (v : V) (l : ℕ) :
    (a.insert size n h k v l).find h k = some v := by
  refine find_eq_some_iff.2 ⟨⟨k, v, a.cur.place size n l⟩, ?_, rfl, Slot.live_place, rfl⟩
  rw [last_insert, if_pos rfl]

/-- A write does not bring back what has been lost: another key was found before with the same
value. -/
theorem find_of_find_insert [DecidableEq K] (hwf : a.WellFormed size n len) {h h' : H} {k k' : K}
    (hne : k' ≠ k) {v v' : V} {l : ℕ} (hfind : (a.insert size n h' k' v' l).find h k = some v) :
    a.find h k = some v := by
  obtain ⟨e, he, hkey, hlive, hv⟩ := find_eq_some_iff.1 hfind
  rw [last_insert] at he
  split_ifs at he
  · obtain rfl := Option.some.inj he
    exact absurd hkey hne
  · exact find_eq_some_iff.2
      ⟨e, he, hkey, Slot.live_of_live_advance (hwf.before h e he) hlive, hv⟩

end

end RingMap

/-! ### Generations in a cycle -/

/-- The number of a generation, counted from `1` to `N` again and again. -/
def genCycle (N g : ℕ) : ℕ := g % N + 1

section

variable {N : ℕ}

theorem genCycle_pos (g : ℕ) : 0 < genCycle N g := Nat.succ_pos _

theorem genCycle_le (hN : 0 < N) (g : ℕ) : genCycle N g ≤ N := Nat.mod_lt g hN

theorem genCycle_succ (hN : 0 < N) (g : ℕ) :
    genCycle N (g + 1) = if genCycle N g = N then 1 else genCycle N g + 1 := by
  unfold genCycle
  rw [← Nat.mod_add_mod]
  have hlt := Nat.mod_lt g hN
  split_ifs with hlast
  · rw [hlast, Nat.mod_self]
  · rw [Nat.mod_eq_of_lt (lt_of_le_of_ne hlt hlast)]

/-- The current generation is told from the one before. -/
theorem genCycle_eq_iff (hN : 2 ≤ N) {g g' : ℕ} (h : g = g' ∨ g + 1 = g') :
    genCycle N g = genCycle N g' ↔ g = g' := by
  obtain rfl | rfl := h
  · simp
  · have hle : genCycle N g ≤ N := genCycle_le (by omega) g
    have hpos : 0 < genCycle N g := genCycle_pos g
    rw [genCycle_succ (by omega)]
    split_ifs <;> omega

/-- The generation before is told from the current one. -/
theorem genCycle_succ_iff (hN : 2 ≤ N) {g g' : ℕ} (h : g = g' ∨ g + 1 = g') :
    (genCycle N g + 1 = genCycle N g' ∨ genCycle N g = N ∧ genCycle N g' = 1) ↔ g + 1 = g' := by
  obtain rfl | rfl := h
  · omega
  · rw [genCycle_succ (by omega)]
    split_ifs <;> simp_all

/-- A generation that is two behind is neither the current one nor the one before. -/
theorem genCycle_far (hN : 3 ≤ N) (g : ℕ) : genCycle N g ≠ genCycle N (g + 2) ∧
    ¬ (genCycle N g + 1 = genCycle N (g + 2) ∨ genCycle N g = N ∧ genCycle N (g + 2) = 1) := by
  have hle : genCycle N g ≤ N := genCycle_le (by omega) g
  have hpos : 0 < genCycle N g := genCycle_pos g
  have hone := genCycle_succ (N := N) (by omega) g
  have htwo : genCycle N (g + 2) = _ := genCycle_succ (N := N) (by omega) (g + 1)
  split_ifs at hone htwo <;> omega

end
