import Mathlib.Data.List.TakeWhile
import MerkleService.Data.Json

/-!
# Literals and the printing of JSON

What the literals of a JSON text stand for, and the text of a value without white space.  A string
literal is written with the characters of HTML escaped, and surrogates that are not paired are read
as the replacement character.

* `Json.quote`, `Json.unquote` : the literal of a text, and the text of a literal.
* `Json.intLit`, `Json.parseInt` : the same for whole numbers.
* `Json.print` : the text of a value.

## Main results

* `Json.unquote_quote`, `Json.parseInt_intLit` : **a literal stands for what it was written for.**
* `Json.text_print` : **what is printed is a text** of the value.
-/

namespace Json

/-! ### The text of a string literal -/

/-- The number of four hexadecimal digits. -/
def codeUnit (h₁ h₂ h₃ h₄ : Char) : ℕ :=
  let value := fun h => (Hex.value? h).getD 0
  4096 * value h₁ + 256 * value h₂ + 16 * value h₃ + value h₄

def isSurrogate (u : ℕ) : Bool := 0xD800 ≤ u && u < 0xE000

/-- The character of a pair of surrogates, the first of which is a high one and the second a low
one. -/
def surrogatePair (u u' : ℕ) : Option Char :=
  if u < 0xDC00 ∧ 0xDC00 ≤ u' ∧ u' < 0xE000 then
    some (Char.ofNat (0x10000 + 0x400 * (u - 0xD800) + (u' - 0xDC00)))
  else none

/-- The character that stands for what is not one. -/
def replacement : Char := Char.ofNat 0xFFFD

/-- The character that an escape of one letter stands for. -/
def unescape (e : Char) : Char :=
  if e = 'b' then Char.ofNat 8
  else if e = 'f' then Char.ofNat 12
  else if e = 'n' then '\n'
  else if e = 'r' then '\r'
  else if e = 't' then '\t'
  else e

/-- The text of a string literal. -/
def unquote : List Char → List Char
  | [] => []
  | c :: t =>
    if c = '\\' then
      match t with
      | [] => []
      | e :: t =>
        if e = 'u' then
          match t with
          | h₁ :: h₂ :: h₃ :: h₄ :: t =>
            if isSurrogate (codeUnit h₁ h₂ h₃ h₄) then
              match t with
              | s :: v :: k₁ :: k₂ :: k₃ :: k₄ :: t' =>
                if s = '\\' ∧ v = 'u' then
                  match surrogatePair (codeUnit h₁ h₂ h₃ h₄) (codeUnit k₁ k₂ k₃ k₄) with
                  | some c => c :: unquote t'
                  | none => replacement :: unquote (s :: v :: k₁ :: k₂ :: k₃ :: k₄ :: t')
                else replacement :: unquote (s :: v :: k₁ :: k₂ :: k₃ :: k₄ :: t')
              | t => replacement :: unquote t
            else Char.ofNat (codeUnit h₁ h₂ h₃ h₄) :: unquote t
          | _ => []
        else unescape e :: unquote t
    else c :: unquote t

/-- The four hexadecimal digits of a number. -/
def hex4 (n : ℕ) : List Char :=
  [Hex.digit (n / 4096), Hex.digit (n / 256 % 16), Hex.digit (n / 16 % 16), Hex.digit (n % 16)]

/-- The characters that are written by their numbers: the control characters, those that mean
something in HTML, and the two line separators. -/
def byNumber (c : Char) : Bool :=
  c.toNat < 32 || c = '<' || c = '>' || c = '&' || c.toNat = 0x2028 || c.toNat = 0x2029

/-- A character in a string literal. -/
def escapeChar (c : Char) : List Char :=
  if c = '"' ∨ c = '\\' then ['\\', c]
  else if c = Char.ofNat 8 then ['\\', 'b']
  else if c = Char.ofNat 12 then ['\\', 'f']
  else if c = '\n' then ['\\', 'n']
  else if c = '\r' then ['\\', 'r']
  else if c = '\t' then ['\\', 't']
  else if byNumber c then '\\' :: 'u' :: hex4 c.toNat
  else [c]

/-- The literal of a text. -/
def quote (s : List Char) : List Char := s.flatMap escapeChar

theorem codeUnit_hex4 {n : ℕ} (hn : n < 65536) :
    codeUnit (Hex.digit (n / 4096)) (Hex.digit (n / 256 % 16)) (Hex.digit (n / 16 % 16))
      (Hex.digit (n % 16)) = n := by
  have h₁ : n / 4096 < 16 := by omega
  have h₂ : n / 256 % 16 < 16 := by omega
  have h₃ : n / 16 % 16 < 16 := by omega
  have h₄ : n % 16 < 16 := by omega
  simp only [codeUnit, Hex.value?_digit h₁, Hex.value?_digit h₂, Hex.value?_digit h₃,
    Hex.value?_digit h₄, Option.getD_some]
  omega

theorem toNat_lt_of_byNumber {c : Char} (h : byNumber c = true) : c.toNat < 0xD800 := by
  simp only [byNumber, Bool.or_eq_true, decide_eq_true_eq] at h
  rcases h with ((((h | rfl) | rfl) | rfl) | h) | h
  · omega
  · decide
  · decide
  · decide
  · omega
  · omega

/-- **A character is read back.** -/
theorem unquote_escapeChar (c : Char) (t : List Char) :
    unquote (escapeChar c ++ t) = c :: unquote t := by
  have hslash : ∀ e, e ≠ 'u' → unquote ('\\' :: e :: t) = unescape e :: unquote t := by
    intro e he
    rw [unquote.eq_def]
    simp [he]
  unfold escapeChar
  split_ifs with hself hb hf hn hr ht hnum
  · rcases hself with rfl | rfl
    · exact hslash _ (by decide)
    · exact hslash _ (by decide)
  · rw [hb]
    exact hslash _ (by decide)
  · rw [hf]
    exact hslash _ (by decide)
  · rw [hn]
    exact hslash _ (by decide)
  · rw [hr]
    exact hslash _ (by decide)
  · rw [ht]
    exact hslash _ (by decide)
  · have hlt := toNat_lt_of_byNumber hnum
    have hunit := @codeUnit_hex4 c.toNat (by omega)
    have hno : isSurrogate c.toNat = false := by
      simp [isSurrogate]
      omega
    simp only [hex4, List.cons_append, List.nil_append]
    rw [unquote.eq_def]
    simp [hunit, hno, Char.ofNat_toNat]
  · have hne : c ≠ '\\' := fun h => hself (.inr h)
    rw [List.singleton_append, unquote.eq_def]
    simp [hne]

/-- **A literal stands for the text that was quoted.** -/
theorem unquote_quote (s : List Char) : unquote (quote s) = s := by
  induction s with
  | nil => rfl
  | cons c s ih => rw [quote, List.flatMap_cons, unquote_escapeChar, ← quote, ih]

theorem raw_escapeChar {c : Char} {t : List Char} (ht : Raw t) : Raw (escapeChar c ++ t) := by
  unfold escapeChar
  split_ifs with hself hb hf hn hr htab hnum
  · rcases hself with rfl | rfl
    · exact .escape (by decide) ht
    · exact .escape (by decide) ht
  · exact .escape (by decide) ht
  · exact .escape (by decide) ht
  · exact .escape (by decide) ht
  · exact .escape (by decide) ht
  · exact .escape (by decide) ht
  · have hlt := toNat_lt_of_byNumber hnum
    have hhex : ∀ n, n < 16 → isHex (Hex.digit n) = true := by
      intro n hn
      rw [isHex, Hex.value?_digit hn]
      rfl
    refine .unicode ?_ ht
    rw [hhex _ (by omega), hhex _ (by omega), hhex _ (by omega), hhex _ (by omega)]
    rfl
  · refine .char (fun h => hself (.inl h)) (fun h => hself (.inr h)) ?_ ht
    by_contra hlt
    exact hnum (by simp [byNumber]; omega)

theorem raw_quote (s : List Char) : Raw (quote s) := by
  induction s with
  | nil => exact .nil
  | cons c s ih =>
    rw [quote, List.flatMap_cons]
    exact raw_escapeChar ih

/-! ### Numbers -/

/-- The digits of a number. -/
def natLit (n : ℕ) : List Char := Nat.toDigits 10 n

def intLit (i : ℤ) : List Char := if i < 0 then '-' :: natLit i.natAbs else natLit i.natAbs

/-- The number of a literal without sign, fraction and exponent. -/
def parseNat (lit : List Char) : Option ℕ :=
  if digits lit then some (Nat.ofDigitChars 10 lit 0) else none

/-- The number of a literal without fraction and exponent. -/
def parseInt : List Char → Option ℤ
  | [] => none
  | c :: t =>
    if c = '-' then (parseNat t).map fun n : ℕ => -(n : ℤ)
    else (parseNat (c :: t)).map fun n : ℕ => (n : ℤ)

theorem isDigit_of_mem_natLit {n : ℕ} {c : Char} (hc : c ∈ natLit n) : c.isDigit = true :=
  Nat.isDigit_of_mem_toDigits (by decide) (by decide) hc

theorem digits_natLit (n : ℕ) : digits (natLit n) = true := by
  rw [digits, Bool.and_eq_true]
  constructor
  · simp [natLit]
  · rw [List.all_eq_true]
    exact fun c hc => isDigit_of_mem_natLit hc

theorem parseNat_natLit (n : ℕ) : parseNat (natLit n) = some n := by
  rw [parseNat, if_pos (digits_natLit n), natLit, Nat.ofDigitChars_ten_toDigits]

theorem natLit_eq_cons (n : ℕ) : ∃ c cs, natLit n = c :: cs ∧ c.isDigit = true := by
  obtain ⟨c, cs, hcs⟩ := List.exists_cons_of_ne_nil (@Nat.toDigits_ne_nil n 10)
  exact ⟨c, cs, hcs, isDigit_of_mem_natLit (by rw [natLit, hcs]; exact List.mem_cons_self)⟩

theorem parseInt_intLit (i : ℤ) : parseInt (intLit i) = some i := by
  unfold intLit
  split_ifs with hneg
  · simp only [parseInt, ↓reduceIte, parseNat_natLit, Option.map_some]
    congr 1
    omega
  · obtain ⟨c, cs, hcs, hc⟩ := natLit_eq_cons i.natAbs
    have hne : c ≠ '-' := by
      rintro rfl
      exact absurd hc (by decide)
    rw [hcs, parseInt, if_neg hne, ← hcs, parseNat_natLit, Option.map_some]
    congr 1
    omega

theorem intLit_inj {i j : ℤ} : intLit i = intLit j ↔ i = j := by
  refine ⟨fun h => ?_, fun h => by rw [h]⟩
  have hparse := congrArg parseInt h
  rw [parseInt_intLit, parseInt_intLit] at hparse
  exact Option.some.inj hparse

theorem toList_repr (i : ℤ) : i.repr.toList = intLit i := by
  cases i with
  | ofNat n => simp [Int.repr, intLit, natLit]
  | negSucc n => simp [Int.repr, intLit, natLit]

theorem natLit_head (n : ℕ) : natLit n = ['0'] ∨ (natLit n).head? ≠ some '0' := by
  induction n using Nat.strongRecOn with
  | ind n ih =>
    by_cases hlt : n < 10
    · rw [natLit, Nat.toDigits_of_lt_base hlt]
      interval_cases n <;> decide
    · have hsplit : natLit n = natLit (n / 10) ++ natLit (n % 10) := by
        have hparts := Nat.toDigits_append_toDigits (b := 10) (n := n / 10) (d := n % 10)
          (by decide) (by omega) (by omega)
        rw [natLit, natLit, natLit, hparts, Nat.div_add_mod]
      obtain ⟨c, cs, hcs, -⟩ := natLit_eq_cons (n / 10)
      right
      rcases ih (n / 10) (by omega) with hzero | hhead
      · -- the part before the last digit is not zero
        have hten : n / 10 = 0 := by
          have hval := parseNat_natLit (n / 10)
          rw [hzero] at hval
          exact (Option.some.inj hval).symm
        omega
      · rw [hsplit, hcs, List.cons_append, List.head?_cons]
        rwa [hcs, List.head?_cons] at hhead

theorem unsigned_natLit (n : ℕ) : unsigned (natLit n) = true := by
  rcases natLit_head n with hzero | hhead
  · rw [hzero]
    rfl
  · obtain ⟨c, cs, hcs, hc⟩ := natLit_eq_cons n
    have hne : c ≠ '0' := by
      rintro rfl
      rw [hcs] at hhead
      exact hhead rfl
    have hdrop : cs.dropWhile Char.isDigit = [] := by
      rw [List.dropWhile_eq_nil_iff]
      intro c' hc'
      exact isDigit_of_mem_natLit (by rw [hcs]; exact List.mem_cons_of_mem _ hc')
    rw [hcs, unsigned, if_neg hne, hc, hdrop]
    rfl

theorem number_natLit (n : ℕ) : number (natLit n) = true := by
  have hunsigned := unsigned_natLit n
  obtain ⟨c, cs, hcs, hc⟩ := natLit_eq_cons n
  have hne : c ≠ '-' := by
    rintro rfl
    exact absurd hc (by decide)
  rw [hcs] at hunsigned ⊢
  rw [number, if_neg hne, hunsigned]

theorem number_intLit (i : ℤ) : number (intLit i) = true := by
  unfold intLit
  split_ifs
  · rw [number, if_pos rfl, unsigned_natLit]
  · exact number_natLit _

theorem all_natLit (n : ℕ) : (natLit n).all isNumberChar = true := by
  rw [List.all_eq_true]
  intro c hc
  simp [isNumberChar, isDigit_of_mem_natLit hc]

theorem all_intLit (i : ℤ) : (intLit i).all isNumberChar = true := by
  unfold intLit
  split_ifs
  · rw [List.all_cons, all_natLit]
    rfl
  · exact all_natLit _

/-! ### Printing -/

mutual

/-- The text of a value, without white space. -/
def print : Value → List Char
  | .null => ['n', 'u', 'l', 'l']
  | .bool true => ['t', 'r', 'u', 'e']
  | .bool false => ['f', 'a', 'l', 's', 'e']
  | .num lit => lit
  | .str raw => '"' :: (raw ++ ['"'])
  | .arr vs => '[' :: (printElems vs ++ [']'])
  | .obj ms => '\x7b' :: (printMembers ms ++ ['\x7d'])

def printElems : List Value → List Char
  | [] => []
  | [v] => print v
  | v :: vs => print v ++ ',' :: printElems vs

def printMembers : List (List Char × Value) → List Char
  | [] => []
  | [(k, v)] => '"' :: (k ++ '"' :: ':' :: print v)
  | (k, v) :: ms => '"' :: (k ++ '"' :: ':' :: (print v ++ ',' :: printMembers ms))

end

mutual

/-- The literals of the value are literals, and it is nested at most `d` deep. -/
def Fits : ℕ → Value → Prop
  | _, .null => True
  | _, .bool _ => True
  | _, .num lit => number lit = true ∧ lit.all isNumberChar = true
  | _, .str raw => Raw raw
  | 0, .arr _ => False
  | d + 1, .arr vs => FitsElems d vs
  | 0, .obj _ => False
  | d + 1, .obj ms => FitsMembers d ms

def FitsElems : ℕ → List Value → Prop
  | _, [] => True
  | d, v :: vs => Fits d v ∧ FitsElems d vs

def FitsMembers : ℕ → List (List Char × Value) → Prop
  | _, [] => True
  | d, (k, v) :: ms => Raw k ∧ Fits d v ∧ FitsMembers d ms

end

mutual

/-- **What is printed is a text.** -/
theorem text_print {d : ℕ} : ∀ {v : Value}, Fits d v → Text d (print v) v
  | .null, _ => .null
  | .bool true, _ => .yes
  | .bool false, _ => .no
  | .num _, h => .num h.1 h.2
  | .str _, h => .str h
  | .arr [], h => by
    cases d with
    | zero => exact absurd h id
    | succ d => exact .empty_arr (w := []) rfl
  | .arr (v :: vs), h => by
    cases d with
    | zero => exact absurd h id
    | succ d => exact .arr (elems_print h)
  | .obj [], h => by
    cases d with
    | zero => exact absurd h id
    | succ d => exact .empty_obj (w := []) rfl
  | .obj (m :: ms), h => by
    cases d with
    | zero => exact absurd h id
    | succ d => exact .obj (members_print h)

theorem elems_print {d : ℕ} : ∀ {v : Value} {vs : List Value}, FitsElems d (v :: vs) →
    Elems d (printElems (v :: vs)) (v :: vs)
  | v, [], h => by
    have hone := Elems.one (w := []) (d := d) rfl (text_print h.1) (List.all_nil (f := isSpace))
    rwa [List.append_nil] at hone
  | v, w :: vs, h =>
    Elems.cons (w := []) rfl (text_print h.1) (List.all_nil (f := isSpace)) (elems_print h.2)

theorem members_print {d : ℕ} : ∀ {m : List Char × Value} {ms : List (List Char × Value)},
    FitsMembers d (m :: ms) → Members d (printMembers (m :: ms)) (m :: ms)
  | (k, v), [], h => by
    have hone := Members.one (d := d) (List.all_nil (f := isSpace)) h.1
      (List.all_nil (f := isSpace)) (List.all_nil (f := isSpace)) (text_print h.2.1)
      (List.all_nil (f := isSpace))
    rwa [List.append_nil] at hone
  | (k, v), m :: ms, h =>
    Members.cons (List.all_nil (f := isSpace)) h.1 (List.all_nil (f := isSpace))
      (List.all_nil (f := isSpace)) (text_print h.2.1) (List.all_nil (f := isSpace))
      (members_print h.2.2)

end

end Json
