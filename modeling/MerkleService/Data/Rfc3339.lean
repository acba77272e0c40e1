import Mathlib.Data.List.DropRight
import MerkleService.Data.JsonPrint

/-!
# Times as text

A time as it is written in a JSON text, `2006-01-02T15:04:05.999999999Z07:00`: the fraction of the
second without zeros at its end, and left out when it is zero; the zone `Z`, or its distance from
UTC in hours and minutes.

* `Rfc3339.format`, `Rfc3339.parse` : the text of a time, and the time of a text.
* `Rfc3339.parse_format` : **a time is read back.**
-/

namespace Rfc3339

/-- A point in time as a clock and a calendar show it, `offset` minutes east of UTC. -/
structure Timestamp where
  year : ℕ
  month : ℕ
  day : ℕ
  hour : ℕ
  minute : ℕ
  second : ℕ
  nano : ℕ
  offset : ℤ
  deriving DecidableEq, Repr

def isLeap (year : ℕ) : Bool := year % 4 = 0 && (year % 100 ≠ 0 || year % 400 = 0)

def daysIn (month year : ℕ) : ℕ :=
  if month = 2 then if isLeap year then 29 else 28
  else if month = 4 ∨ month = 6 ∨ month = 9 ∨ month = 11 then 30
  else 31

/-- The calendar and the clock can show this. -/
def Timestamp.Valid (t : Timestamp) : Prop :=
  t.year ≤ 9999 ∧ 1 ≤ t.month ∧ t.month ≤ 12 ∧ 1 ≤ t.day ∧ t.day ≤ daysIn t.month t.year ∧
    t.hour < 24 ∧ t.minute < 60 ∧ t.second < 60 ∧ t.nano < 1000000000 ∧ t.offset.natAbs < 1440

instance (t : Timestamp) : Decidable t.Valid := inferInstanceAs (Decidable (_ ∧ _))

/-! ### Writing -/

/-- The last `k` decimal digits of a number. -/
def pad : ℕ → ℕ → List Char
  | 0, _ => []
  | k + 1, n => pad k (n / 10) ++ [(n % 10).digitChar]

/-- The fraction of the second. -/
def formatFraction (nano : ℕ) : List Char :=
  if nano = 0 then [] else '.' :: (pad 9 nano).rdropWhile (· = '0')

def formatZone (offset : ℤ) : List Char :=
  if offset = 0 then ['Z']
  else (if offset < 0 then '-' else '+') ::
    (pad 2 (offset.natAbs / 60) ++ ':' :: pad 2 (offset.natAbs % 60))

/-- The text of a time. -/
def format (t : Timestamp) : List Char :=
  pad 4 t.year ++ '-' :: (pad 2 t.month ++ '-' :: (pad 2 t.day ++ 'T' :: (pad 2 t.hour ++ ':' ::
    (pad 2 t.minute ++ ':' :: (pad 2 t.second ++ (formatFraction t.nano ++ formatZone t.offset))))))

/-! ### Reading -/

/-- A number of `k` digits, and the rest. -/
def scanDigits (k : ℕ) (t : List Char) : Option (ℕ × List Char) :=
  if (t.take k).length = k ∧ (t.take k).all Char.isDigit then
    some (Nat.ofDigitChars 10 (t.take k) 0, t.drop k)
  else none

def scanChar (c : Char) : List Char → Option (List Char)
  | [] => none
  | c' :: t => if c' = c then some t else none

/-- The fraction of the second, of which nine digits are used. -/
def scanFraction : List Char → ℕ × List Char
  | [] => (0, [])
  | c :: t =>
    let ds := t.takeWhile Char.isDigit
    if c = '.' ∧ ds ≠ [] then
      (Nat.ofDigitChars 10 (ds.take 9) 0 * 10 ^ (9 - (ds.take 9).length), t.dropWhile Char.isDigit)
    else (0, c :: t)

def scanZone : List Char → Option ℤ
  | [] => none
  | c :: t =>
    if c = 'Z' then if t = [] then some 0 else none
    else do
      let (hours, t) ← scanDigits 2 t
      let t ← scanChar ':' t
      let (minutes, t) ← scanDigits 2 t
      if t = [] ∧ hours < 24 ∧ minutes < 60 then
        if c = '+' then some (hours * 60 + minutes : ℕ)
        else if c = '-' then some (-(hours * 60 + minutes : ℕ))
        else none
      else none

/-- The time of a text. -/
def parse (t : List Char) : Option Timestamp := do
  let (year, t) ← scanDigits 4 t
  let t ← scanChar '-' t
  let (month, t) ← scanDigits 2 t
  let t ← scanChar '-' t
  let (day, t) ← scanDigits 2 t
  let t ← scanChar 'T' t
  let (hour, t) ← scanDigits 2 t
  let t ← scanChar ':' t
  let (minute, t) ← scanDigits 2 t
  let t ← scanChar ':' t
  let (second, t) ← scanDigits 2 t
  let (nano, t) := scanFraction t
  let offset ← scanZone t
  let time := ⟨year, month, day, hour, minute, second, nano, offset⟩
  if time.Valid then some time else none

/-! ### A time is read back -/

theorem length_pad (k n : ℕ) : (pad k n).length = k := by
  induction k generalizing n with
  | zero => rfl
  | succ k ih => rw [pad, List.length_append, ih, List.length_singleton]

theorem isDigit_of_mem_pad {k n : ℕ} {c : Char} (hc : c ∈ pad k n) : c.isDigit = true := by
  induction k generalizing n with
  | zero => cases hc
  | succ k ih =>
    rw [pad, List.mem_append, List.mem_singleton] at hc
    rcases hc with hc | rfl
    · exact ih hc
    · have hlt : n % 10 < 10 := Nat.mod_lt _ (by decide)
      interval_cases n % 10 <;> decide

theorem all_pad (k n : ℕ) : (pad k n).all Char.isDigit = true :=
  List.all_eq_true.2 fun _ hc => isDigit_of_mem_pad hc

theorem ofDigitChars_pad (k n : ℕ) : Nat.ofDigitChars 10 (pad k n) 0 = n % 10 ^ k := by
  induction k generalizing n with
  | zero => simp [pad, Nat.mod_one]
  | succ k ih =>
    have hlt : n % 10 < 10 := Nat.mod_lt _ (by decide)
    rw [pad, Nat.ofDigitChars_append, ih, Nat.ofDigitChars_cons_digitChar_of_lt_ten hlt,
      Nat.ofDigitChars_nil, pow_succ', Nat.mod_mul]
    omega

theorem scanDigits_pad {k n : ℕ} (hn : n < 10 ^ k) (t : List Char) :
    scanDigits k (pad k n ++ t) = some (n, t) := by
  have htake : (pad k n ++ t).take k = pad k n := List.take_left' (length_pad k n)
  have hdrop : (pad k n ++ t).drop k = t := List.drop_left' (length_pad k n)
  rw [scanDigits, htake, hdrop, if_pos ⟨length_pad k n, all_pad k n⟩, ofDigitChars_pad,
    Nat.mod_eq_of_lt hn]

theorem formatZone_head (offset : ℤ) :
    ∃ c t, formatZone offset = c :: t ∧ c.isDigit = false ∧ c ≠ '.' := by
  unfold formatZone
  split_ifs
  · exact ⟨_, _, rfl, by decide, by decide⟩
  · exact ⟨_, _, rfl, by decide, by decide⟩
  · exact ⟨_, _, rfl, by decide, by decide⟩

theorem takeWhile_digits {ds t : List Char} (hds : ds.all Char.isDigit = true)
    (ht : ∃ c t', t = c :: t' ∧ c.isDigit = false ∧ c ≠ '.') :
    (ds ++ t).takeWhile Char.isDigit = ds ∧ (ds ++ t).dropWhile Char.isDigit = t := by
  obtain ⟨c, t', rfl, hc, -⟩ := ht
  have hneg : ¬ c.isDigit = true := by simp [hc]
  constructor
  · rw [List.takeWhile_append_of_pos (List.all_eq_true.1 hds), List.takeWhile_cons_of_neg hneg,
      List.append_nil]
  · rw [List.dropWhile_append_of_pos (List.all_eq_true.1 hds), List.dropWhile_cons_of_neg hneg]

theorem rdropWhile_pad (nano : ℕ) :
    pad 9 nano = (pad 9 nano).rdropWhile (· = '0') ++
      List.replicate ((pad 9 nano).rtakeWhile (· = '0')).length '0' := by
  have hzeros : (pad 9 nano).rtakeWhile (· = '0') =
      List.replicate ((pad 9 nano).rtakeWhile (· = '0')).length '0' :=
    List.eq_replicate_of_mem fun c hc => by simpa using List.mem_rtakeWhile_imp hc
  conv_lhs => rw [← List.rdropWhile_append_rtakeWhile (p := (· = '0')) (l := pad 9 nano), hzeros]

theorem scanFraction_format {nano : ℕ} (hn : nano < 1000000000) (offset : ℤ) :
    scanFraction (formatFraction nano ++ formatZone offset) = (nano, formatZone offset) := by
  have hzone := formatZone_head offset
  unfold formatFraction
  split_ifs with hzero
  · obtain ⟨c, t, ht, hc, hdot⟩ := hzone
    rw [List.nil_append, ht, hzero]
    simp [scanFraction, hdot]
  · have hpad := rdropWhile_pad nano
    generalize (pad 9 nano).rdropWhile (· = '0') = ds at hpad ⊢
    generalize ((pad 9 nano).rtakeWhile (· = '0')).length = k at hpad
    have hval : 10 ^ k * Nat.ofDigitChars 10 ds 0 = nano := by
      have hnum := ofDigitChars_pad 9 nano
      rwa [hpad, Nat.ofDigitChars_append, Nat.ofDigitChars_replicate_zero,
        Nat.mod_eq_of_lt (show nano < 10 ^ 9 by omega)] at hnum
    have hlen : ds.length + k = 9 := by
      have hlen := length_pad 9 nano
      rwa [hpad, List.length_append, List.length_replicate] at hlen
    have hall : ds.all Char.isDigit = true := by
      rw [List.all_eq_true]
      intro c hc
      exact @isDigit_of_mem_pad 9 nano c (by rw [hpad]; exact List.mem_append_left _ hc)
    have hne : ds ≠ [] := by
      rintro rfl
      exact hzero (by simpa using hval.symm)
    obtain ⟨htake, hdrop⟩ := takeWhile_digits hall hzone
    have hnine : ds.take 9 = ds := List.take_of_length_le (by omega)
    have hk : 9 - ds.length = k := by omega
    simp only [List.cons_append, scanFraction, htake, hdrop, hnine, hk]
    rw [if_pos ⟨trivial, hne⟩, mul_comm, hval]

theorem scanZone_format {offset : ℤ} (hoffset : offset.natAbs < 1440) :
    scanZone (formatZone offset) = some offset := by
  unfold formatZone
  split_ifs with hzero hneg
  · rw [hzero]
    rfl
  · have hminutes := scanDigits_pad (k := 2) (n := offset.natAbs % 60) (by omega) []
    rw [List.append_nil] at hminutes
    simp only [scanZone, Char.reduceEq, ↓reduceIte,
      scanDigits_pad (k := 2) (n := offset.natAbs / 60) (by omega), scanChar, hminutes,
      Option.bind_eq_bind, Option.bind_some]
    rw [if_pos ⟨trivial, by omega, by omega⟩]
    congr 1
    omega
  · have hminutes := scanDigits_pad (k := 2) (n := offset.natAbs % 60) (by omega) []
    rw [List.append_nil] at hminutes
    simp only [scanZone, Char.reduceEq, ↓reduceIte,
      scanDigits_pad (k := 2) (n := offset.natAbs / 60) (by omega), scanChar, hminutes,
      Option.bind_eq_bind, Option.bind_some]
    rw [if_pos ⟨trivial, by omega, by omega⟩]
    congr 1
    omega

/-- **A time is read back.** -/
theorem parse_format {t : Timestamp} (ht : t.Valid) : parse (format t) = some t := by
  obtain ⟨hyear, -, hmonth, -, hday, hhour, hminute, hsecond, hnano, hoffset⟩ := id ht
  have hday' : t.day < 10 ^ 2 := by
    have hle : daysIn t.month t.year ≤ 31 := by
      unfold daysIn
      split_ifs <;> omega
    omega
  simp only [parse, format, scanDigits_pad (k := 4) (n := t.year) (by omega),
    scanDigits_pad (k := 2) (n := t.month) (by omega), scanDigits_pad (k := 2) (n := t.day) hday',
    scanDigits_pad (k := 2) (n := t.hour) (by omega),
    scanDigits_pad (k := 2) (n := t.minute) (by omega),
    scanDigits_pad (k := 2) (n := t.second) (by omega), scanChar, ↓reduceIte,
    Option.bind_eq_bind, Option.bind_some, scanFraction_format hnano, scanZone_format hoffset]
  exact if_pos ht

/-! ### The text stands in a string literal as it is -/

/-- A character that needs no escape. -/
def Plain (c : Char) : Prop := c ≠ '"' ∧ c ≠ '\\' ∧ 32 ≤ c.toNat

instance (c : Char) : Decidable (Plain c) := inferInstanceAs (Decidable (_ ∧ _))

theorem raw_of_plain {t : List Char} (ht : ∀ c ∈ t, Plain c) : Json.Raw t := by
  induction t with
  | nil => exact .nil
  | cons c t ih =>
    obtain ⟨hquote, hslash, hle⟩ := ht c List.mem_cons_self
    exact .char hquote hslash hle (ih fun c' hc' => ht c' (List.mem_cons_of_mem _ hc'))

theorem plain_of_isDigit {c : Char} (hc : c.isDigit = true) : Plain c := by
  have hle : 48 ≤ c.toNat := by
    simp only [Char.isDigit, Bool.and_eq_true, decide_eq_true_eq] at hc
    exact hc.1
  refine ⟨?_, ?_, by omega⟩
  · rintro rfl
    exact absurd hc (by decide)
  · rintro rfl
    exact absurd hc (by decide)

theorem plain_of_mem_pad {k n : ℕ} {c : Char} (hc : c ∈ pad k n) : Plain c :=
  plain_of_isDigit (isDigit_of_mem_pad hc)

theorem plain_formatFraction {nano : ℕ} {c : Char} (hc : c ∈ formatFraction nano) : Plain c := by
  unfold formatFraction at hc
  split_ifs at hc
  · cases hc
  · rcases List.mem_cons.1 hc with rfl | hc
    · decide
    · exact plain_of_mem_pad ((List.rdropWhile_prefix _ _).subset hc)

theorem plain_formatZone {offset : ℤ} {c : Char} (hc : c ∈ formatZone offset) : Plain c := by
  unfold formatZone at hc
  split_ifs at hc
  · rw [List.mem_singleton.1 hc]
    decide
  all_goals
    simp only [List.mem_cons, List.mem_append] at hc
    rcases hc with rfl | hc | rfl | hc
    · decide
    · exact plain_of_mem_pad hc
    · decide
    · exact plain_of_mem_pad hc

theorem raw_format (t : Timestamp) : Json.Raw (format t) := by
  refine raw_of_plain fun c hc => ?_
  simp only [format, List.mem_append, List.mem_cons] at hc
  rcases hc with hc | rfl | hc | rfl | hc | rfl | hc | rfl | hc | rfl | hc | hc | hc
  · exact plain_of_mem_pad hc
  · decide
  · exact plain_of_mem_pad hc
  · decide
  · exact plain_of_mem_pad hc
  · decide
  · exact plain_of_mem_pad hc
  · decide
  · exact plain_of_mem_pad hc
  · decide
  · exact plain_of_mem_pad hc
  · exact plain_formatFraction hc
  · exact plain_formatZone hc

end Rfc3339
