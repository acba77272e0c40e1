import MerkleService.Data.Hex

/-!
# JSON texts

The grammar of JSON and a parser for it, over lists of characters.  A value keeps the literals of
its numbers and strings as they stand in the text, so that a reader can still decide how to take
them.  The texts are those of a decoder that refuses control characters in strings, and values
nested more than `d` deep.

## Main definitions

* `Json.Text d t v` : `t` is a text of the value `v`, with white space wherever the grammar has it,
  nested at most `d` deep.
* `Json.parse d t` : the value of a text.

## Main results

* `Json.parse_of_text`, `Json.text_of_parse` : **the parser accepts exactly the texts.**
-/

namespace Json

/-- A JSON value, with the literals of its numbers and strings. -/
inductive Value where
  | null
  | bool (b : Bool)
  | num (lit : List Char)
  /-- `raw` is what stands between the quotes. -/
  | str (raw : List Char)
  | arr (elems : List Value)
  | obj (members : List (List Char × Value))

/-! ### Literals -/

def isSpace (c : Char) : Bool := c = ' ' || c = '\t' || c = '\n' || c = '\r'

def isHex (c : Char) : Bool := (Hex.value? c).isSome

/-- The characters that may follow a backslash, but for `u`. -/
def escapes : List Char := ['"', '\\', '/', 'b', 'f', 'n', 'r', 't']

/-- What may stand between the quotes of a string. -/
inductive Raw : List Char → Prop
  | nil : Raw []
  | char {c : Char} {cs : List Char} : c ≠ '"' → c ≠ '\\' → 32 ≤ c.toNat → Raw cs → Raw (c :: cs)
  | escape {c : Char} {cs : List Char} : c ∈ escapes → Raw cs → Raw ('\\' :: c :: cs)
  | unicode {h₁ h₂ h₃ h₄ : Char} {cs : List Char} :
      (isHex h₁ && isHex h₂ && isHex h₃ && isHex h₄) = true → Raw cs →
      Raw ('\\' :: 'u' :: h₁ :: h₂ :: h₃ :: h₄ :: cs)

/-- At least one digit, and nothing else. -/
def digits (cs : List Char) : Bool := !cs.isEmpty && cs.all Char.isDigit

/-- The end of a number: nothing, or an exponent. -/
def exponent : List Char → Bool
  | [] => true
  | c :: cs => (c = 'e' || c = 'E') && match cs with
    | [] => false
    | s :: ds => if s = '+' ∨ s = '-' then digits ds else digits cs

/-- The end of a number after its integer part. -/
def fraction : List Char → Bool
  | [] => true
  | c :: cs =>
    if c = '.' then digits (cs.takeWhile Char.isDigit) && exponent (cs.dropWhile Char.isDigit)
    else exponent (c :: cs)

/-- A number without its sign. -/
def unsigned : List Char → Bool
  | [] => false
  | c :: cs => if c = '0' then fraction cs else c.isDigit && fraction (cs.dropWhile Char.isDigit)

/-- The literal of a number. -/
def number : List Char → Bool
  | [] => false
  | c :: cs => if c = '-' then unsigned cs else unsigned (c :: cs)

/-- The characters of which numbers are made. -/
def isNumberChar (c : Char) : Bool :=
  c.isDigit || c = '-' || c = '+' || c = '.' || c = 'e' || c = 'E'

/-! ### The grammar -/

mutual

/-- The texts of a value, nested at most `d` deep. -/
inductive Text : ℕ → List Char → Value → Prop
  | null {d : ℕ} : Text d ['n', 'u', 'l', 'l'] .null
  | yes {d : ℕ} : Text d ['t', 'r', 'u', 'e'] (.bool true)
  | no {d : ℕ} : Text d ['f', 'a', 'l', 's', 'e'] (.bool false)
  | num {d : ℕ} {lit : List Char} : number lit = true → lit.all isNumberChar = true →
      Text d lit (.num lit)
  | str {d : ℕ} {raw : List Char} : Raw raw → Text d ('"' :: (raw ++ ['"'])) (.str raw)
  | empty_arr {d : ℕ} {w : List Char} : w.all isSpace = true →
      Text (d + 1) ('[' :: (w ++ [']'])) (.arr [])
  | arr {d : ℕ} {t : List Char} {vs : List Value} : Elems d t vs →
      Text (d + 1) ('[' :: (t ++ [']'])) (.arr vs)
  | empty_obj {d : ℕ} {w : List Char} : w.all isSpace = true →
      Text (d + 1) ('\x7b' :: (w ++ ['\x7d'])) (.obj [])
  | obj {d : ℕ} {t : List Char} {ms : List (List Char × Value)} : Members d t ms →
      Text (d + 1) ('\x7b' :: (t ++ ['\x7d'])) (.obj ms)

/-- The texts of the elements of an array that is not empty. -/
inductive Elems : ℕ → List Char → List Value → Prop
  | one {d : ℕ} {w w' t : List Char} {v : Value} : w.all isSpace = true → Text d t v →
      w'.all isSpace = true → Elems d (w ++ (t ++ w')) [v]
  | cons {d : ℕ} {w w' t ts : List Char} {v : Value} {vs : List Value} :
      w.all isSpace = true → Text d t v → w'.all isSpace = true → Elems d ts vs →
      Elems d (w ++ (t ++ (w' ++ ',' :: ts))) (v :: vs)

/-- The texts of the members of an object that is not empty. -/
inductive Members : ℕ → List Char → List (List Char × Value) → Prop
  | one {d : ℕ} {w₁ w₂ w₃ w₄ k t : List Char} {v : Value} : w₁.all isSpace = true → Raw k →
      w₂.all isSpace = true → w₃.all isSpace = true → Text d t v →
      w₄.all isSpace = true →
      Members d (w₁ ++ '"' :: (k ++ '"' :: (w₂ ++ ':' :: (w₃ ++ (t ++ w₄))))) [(k, v)]
  | cons {d : ℕ} {w₁ w₂ w₃ w₄ k t ts : List Char} {v : Value} {ms : List (List Char × Value)} :
      w₁.all isSpace = true → Raw k → w₂.all isSpace = true →
      w₃.all isSpace = true → Text d t v → w₄.all isSpace = true → Members d ts ms →
      Members d (w₁ ++ '"' :: (k ++ '"' :: (w₂ ++ ':' :: (w₃ ++ (t ++ (w₄ ++ ',' :: ts))))))
        ((k, v) :: ms)

end

/-! ### The parser -/

/-- The text after the white space at its begin. -/
def skip (t : List Char) : List Char := t.dropWhile isSpace

/-- What stands before the closing quote, and what follows it. -/
def scanString : List Char → Option (List Char × List Char)
  | [] => none
  | c :: t =>
    if c = '"' then some ([], t)
    else if c = '\\' then
      match t with
      | [] => none
      | e :: t =>
        if e ∈ escapes then (scanString t).map fun p => ('\\' :: e :: p.1, p.2)
        else if e = 'u' then
          match t with
          | h₁ :: h₂ :: h₃ :: h₄ :: t =>
            if (isHex h₁ && isHex h₂ && isHex h₃ && isHex h₄) = true then
              (scanString t).map fun p => ('\\' :: 'u' :: h₁ :: h₂ :: h₃ :: h₄ :: p.1, p.2)
            else none
          | _ => none
        else none
    else if 32 ≤ c.toNat then (scanString t).map fun p => (c :: p.1, p.2)
    else none

/-- The number at the begin of the text. -/
def scanNumber (t : List Char) : Option (Value × List Char) :=
  let lit := t.takeWhile isNumberChar
  if number lit then some (.num lit, t.dropWhile isNumberChar) else none

/-- The rest of a text that begins with the word. -/
def scanWord : List Char → List Char → Option (List Char)
  | [], t => some t
  | _ :: _, [] => none
  | w :: ws, c :: t => if c = w then scanWord ws t else none

mutual

/-- The value at the begin of a text, with fuel `n` and nested at most `d` deep. -/
def parseValue : ℕ → ℕ → List Char → Option (Value × List Char)
  | 0, _, _ => none
  | _, _, [] => none
  | n + 1, d, c :: t =>
    if c = '"' then (scanString t).map fun p => (.str p.1, p.2)
    else if c = '[' then
      match d with
      | 0 => none
      | d + 1 =>
        if (skip t).head? = some ']' then some (.arr [], (skip t).tail)
        else (parseElems n d t).map fun p => (.arr p.1, p.2)
    else if c = '\x7b' then
      match d with
      | 0 => none
      | d + 1 =>
        if (skip t).head? = some '\x7d' then some (.obj [], (skip t).tail)
        else (parseMembers n d t).map fun p => (.obj p.1, p.2)
    else if c = 'n' then (scanWord ['u', 'l', 'l'] t).map fun r => (.null, r)
    else if c = 't' then (scanWord ['r', 'u', 'e'] t).map fun r => (.bool true, r)
    else if c = 'f' then (scanWord ['a', 'l', 's', 'e'] t).map fun r => (.bool false, r)
    else scanNumber (c :: t)

/-- The elements of an array and its closing bracket. -/
def parseElems : ℕ → ℕ → List Char → Option (List Value × List Char)
  | 0, _, _ => none
  | n + 1, d, t =>
    (parseValue n d (skip t)).bind fun p =>
      match skip p.2 with
      | [] => none
      | c :: r =>
        if c = ',' then (parseElems n d r).map fun q => (p.1 :: q.1, q.2)
        else if c = ']' then some ([p.1], r)
        else none

/-- The members of an object and its closing bracket. -/
def parseMembers : ℕ → ℕ → List Char → Option (List (List Char × Value) × List Char)
  | 0, _, _ => none
  | n + 1, d, t =>
    match skip t with
    | [] => none
    | c :: t =>
      if c = '"' then
        (scanString t).bind fun k =>
          match skip k.2 with
          | [] => none
          | c :: t =>
            if c = ':' then
              (parseValue n d (skip t)).bind fun p =>
                match skip p.2 with
                | [] => none
                | c :: r =>
                  if c = ',' then (parseMembers n d r).map fun q => ((k.1, p.1) :: q.1, q.2)
                  else if c = '\x7d' then some ([(k.1, p.1)], r)
                  else none
            else none
      else none

end

/-- The value of a text. -/
def parse (d : ℕ) (t : List Char) : Option Value :=
  (parseValue (t.length + 1) d (skip t)).bind fun p => if skip p.2 = [] then some p.1 else none

/-! ### The parser accepts the texts -/

theorem skip_append {w t : List Char} (hw : w.all isSpace = true) : skip (w ++ t) = skip t := by
  induction w with
  | nil => rfl
  | cons c w ih =>
    rw [List.all_cons, Bool.and_eq_true] at hw
    rw [List.cons_append, skip, List.dropWhile_cons_of_pos hw.1]
    exact ih hw.2

theorem skip_cons {c : Char} {t : List Char} (hc : isSpace c = false) : skip (c :: t) = c :: t :=
  List.dropWhile_cons_of_neg (by simp [hc])

theorem scanString_of_raw {raw : List Char} (h : Raw raw) (r : List Char) :
    scanString (raw ++ '"' :: r) = some (raw, r) := by
  induction h with
  | nil =>
    rw [List.nil_append, scanString.eq_def]
    simp
  | char hquote hslash hle _ ih =>
    rw [List.cons_append, scanString.eq_def]
    simp [hquote, hslash, hle, ih]
  | escape hc _ ih =>
    rw [List.cons_append, List.cons_append, scanString.eq_def]
    simp [hc, ih]
  | unicode hhex _ ih =>
    have hu : 'u' ∉ escapes := by decide
    simp only [List.cons_append]
    rw [scanString.eq_def]
    simp [hu, hhex, ih]

/-- What may follow a value. -/
def Ends (r : List Char) : Prop := ∀ c ∈ r.head?, isNumberChar c = false

theorem scanNumber_of_number {lit r : List Char} (hlit : number lit = true)
    (hall : lit.all isNumberChar = true) (hr : Ends r) :
    scanNumber (lit ++ r) = some (.num lit, r) := by
  have hr' : r.takeWhile isNumberChar = [] ∧ r.dropWhile isNumberChar = r := by
    cases r with
    | nil => exact ⟨rfl, rfl⟩
    | cons c r =>
      have hc : isNumberChar c = false := hr c rfl
      exact ⟨List.takeWhile_cons_of_neg (by simp [hc]), List.dropWhile_cons_of_neg (by simp [hc])⟩
  have htake : (lit ++ r).takeWhile isNumberChar = lit := by
    rw [List.takeWhile_append_of_pos (List.all_eq_true.1 hall), hr'.1, List.append_nil]
  have hdrop : (lit ++ r).dropWhile isNumberChar = r := by
    rw [List.dropWhile_append_of_pos (List.all_eq_true.1 hall), hr'.2]
  simp only [scanNumber, htake, hdrop, hlit, ↓reduceIte]

theorem ends_cons {c : Char} {r : List Char} (hc : isNumberChar c = false) : Ends (c :: r) := by
  intro c' hc'
  obtain rfl := Option.some.inj hc'
  exact hc

theorem ends_space {w r : List Char} (hw : w.all isSpace = true) (hr : Ends r) : Ends (w ++ r) := by
  cases w with
  | nil => exact hr
  | cons c w =>
    refine ends_cons ?_
    rw [List.all_cons, Bool.and_eq_true] at hw
    have hc := hw.1
    simp only [isSpace, Bool.or_eq_true, decide_eq_true_eq] at hc
    rcases hc with ((rfl | rfl) | rfl) | rfl
    all_goals decide

theorem number_head {lit : List Char} (h : number lit = true) :
    ∃ c cs, lit = c :: cs ∧ (c = '-' ∨ c.isDigit = true) := by
  cases lit with
  | nil => cases h
  | cons c cs =>
    refine ⟨c, cs, rfl, ?_⟩
    simp only [number, unsigned] at h
    split_ifs at h with hminus hzero
    · exact .inl hminus
    · exact .inr (by rw [hzero]; decide)
    · rw [Bool.and_eq_true] at h
      exact .inr h.1

theorem isSpace_of_isDigit {c : Char} (h : c.isDigit = true) : isSpace c = false := by
  rw [Bool.eq_false_iff]
  intro hc
  simp only [isSpace, Bool.or_eq_true, decide_eq_true_eq] at hc
  rcases hc with ((rfl | rfl) | rfl) | rfl
  all_goals exact absurd h (by decide)

/-- A text begins with a character that is neither white space nor a closing bracket. -/
theorem text_head {d : ℕ} {t : List Char} {v : Value} (h : Text d t v) :
    ∃ c cs, t = c :: cs ∧ isSpace c = false ∧ c ≠ ']' := by
  cases h with
  | num hlit _ =>
    obtain ⟨c, cs, rfl, rfl | hc⟩ := number_head hlit
    · exact ⟨_, _, rfl, by decide, by decide⟩
    · refine ⟨c, cs, rfl, isSpace_of_isDigit hc, ?_⟩
      rintro rfl
      exact absurd hc (by decide)
  | _ => exact ⟨_, _, rfl, by decide, by decide⟩

theorem skip_text {d : ℕ} {t : List Char} {v : Value} (h : Text d t v) (r : List Char) :
    skip (t ++ r) = t ++ r := by
  obtain ⟨c, cs, rfl, hc, -⟩ := text_head h
  exact skip_cons hc

theorem skip_elems {d : ℕ} {t : List Char} {vs : List Value} (h : Elems d t vs) (r : List Char) :
    (skip (t ++ r)).head? ≠ some ']' := by
  have hhead : ∀ {w t r : List Char} {v : Value}, w.all isSpace = true → Text d t v →
      (skip (w ++ (t ++ r))).head? ≠ some ']' := by
    intro w t r v hw ht
    rw [skip_append hw, skip_text ht]
    obtain ⟨c, cs, rfl, -, hc⟩ := text_head ht
    simpa using hc
  cases h with
  | one hw ht _ =>
    rw [List.append_assoc, List.append_assoc]
    exact hhead hw ht
  | cons hw ht _ _ =>
    rw [List.append_assoc, List.append_assoc]
    exact hhead hw ht

theorem skip_members {d : ℕ} {t : List Char} {ms : List (List Char × Value)} (h : Members d t ms)
    (r : List Char) : (skip (t ++ r)).head? = some '"' := by
  cases h with
  | one hw _ _ _ _ _ =>
    rw [List.append_assoc, skip_append hw, List.cons_append, skip_cons (by decide)]
    rfl
  | cons hw _ _ _ _ _ _ =>
    rw [List.append_assoc, skip_append hw, List.cons_append, skip_cons (by decide)]
    rfl

theorem parseValue_number {n d : ℕ} {lit r : List Char} (hlit : number lit = true)
    (hall : lit.all isNumberChar = true) (hr : Ends r) :
    parseValue (n + 1) d (lit ++ r) = some (.num lit, r) := by
  have hscan := scanNumber_of_number hlit hall hr
  obtain ⟨c, cs, rfl, hc⟩ := number_head hlit
  have hne : ∀ c', isNumberChar c' = false → c ≠ c' := by
    rintro c' hc' rfl
    rw [List.all_cons, hc'] at hall
    cases hall
  rw [List.cons_append, parseValue.eq_def]
  dsimp only
  rw [if_neg (hne _ (by decide)), if_neg (hne _ (by decide)), if_neg (hne _ (by decide)),
    if_neg (hne _ (by decide)), if_neg (hne _ (by decide)), if_neg (hne _ (by decide))]
  exact hscan

mutual

theorem parseValue_of_text {d : ℕ} {t : List Char} {v : Value} (h : Text d t v) (n : ℕ)
    (r : List Char) (hn : t.length ≤ n) (hr : Ends r) : parseValue n d (t ++ r) = some (v, r) := by
  obtain ⟨n, rfl⟩ : ∃ m, n = m + 1 := by
    obtain ⟨c, cs, rfl, -⟩ := text_head h
    exact ⟨n - 1, by rw [List.length_cons] at hn; omega⟩
  cases h with
  | null =>
    rw [List.cons_append, parseValue.eq_def]
    simp [scanWord]
  | yes =>
    rw [List.cons_append, parseValue.eq_def]
    simp [scanWord]
  | no =>
    rw [List.cons_append, parseValue.eq_def]
    simp [scanWord]
  | num hlit hall => exact parseValue_number hlit hall hr
  | @str _ raw hraw =>
    have hscan := scanString_of_raw hraw r
    rw [List.cons_append, List.append_assoc, parseValue.eq_def]
    simp [hscan]
  | @empty_arr d w hw =>
    have hskip : skip (w ++ ']' :: r) = ']' :: r := by
      rw [skip_append hw, skip_cons (by decide)]
    rw [List.cons_append, List.append_assoc, parseValue.eq_def]
    simp [hskip]
  | @arr d t vs helems =>
    have hhead := skip_elems helems (']' :: r)
    have hparse := parseElems_of_elems helems n r (by simp at hn; omega)
    rw [List.cons_append, List.append_assoc, parseValue.eq_def]
    simp [hhead, hparse]
  | @empty_obj d w hw =>
    have hskip : skip (w ++ '\x7d' :: r) = '\x7d' :: r := by
      rw [skip_append hw, skip_cons (by decide)]
    rw [List.cons_append, List.append_assoc, parseValue.eq_def]
    simp [hskip]
  | @obj d t ms hmembers =>
    have hhead := skip_members hmembers ('\x7d' :: r)
    have hparse := parseMembers_of_members hmembers n r (by simp at hn; omega)
    rw [List.cons_append, List.append_assoc, parseValue.eq_def]
    simp [hhead, hparse]

theorem parseElems_of_elems {d : ℕ} {t : List Char} {vs : List Value} (h : Elems d t vs) (n : ℕ)
    (r : List Char) (hn : t.length < n) : parseElems n d (t ++ ']' :: r) = some (vs, r) := by
  obtain ⟨n, rfl⟩ : ∃ m, n = m + 1 := ⟨n - 1, by omega⟩
  rw [parseElems.eq_def]
  dsimp only
  cases h with
  | @one _ w w' t v hw ht hw' =>
    have hlen : t.length ≤ n := by simp at hn; omega
    have hparse := parseValue_of_text ht n (w' ++ ']' :: r) hlen
      (ends_space hw' (ends_cons (by decide)))
    have hskip : skip (w' ++ ']' :: r) = ']' :: r := by
      rw [skip_append hw', skip_cons (by decide)]
    rw [List.append_assoc, List.append_assoc, skip_append hw, skip_text ht, hparse,
      Option.bind_some, hskip]
    simp
  | @cons _ w w' t ts v vs hw ht hw' hts =>
    have hlen : t.length ≤ n := by simp at hn; omega
    have hlen' : ts.length < n := by simp at hn; omega
    have hparse := parseValue_of_text ht n (w' ++ ',' :: (ts ++ ']' :: r)) hlen
      (ends_space hw' (ends_cons (by decide)))
    have hskip : skip (w' ++ ',' :: (ts ++ ']' :: r)) = ',' :: (ts ++ ']' :: r) := by
      rw [skip_append hw', skip_cons (by decide)]
    have hrest := parseElems_of_elems hts n r hlen'
    rw [List.append_assoc, List.append_assoc, List.append_assoc, List.cons_append, skip_append hw,
      skip_text ht, hparse, Option.bind_some, hskip]
    simp [hrest]

theorem parseMembers_of_members {d : ℕ} {t : List Char} {ms : List (List Char × Value)}
    (h : Members d t ms) (n : ℕ) (r : List Char) (hn : t.length < n) :
    parseMembers n d (t ++ '\x7d' :: r) = some (ms, r) := by
  obtain ⟨n, rfl⟩ : ∃ m, n = m + 1 := ⟨n - 1, by omega⟩
  rw [parseMembers.eq_def]
  dsimp only
  cases h with
  | @one _ w₁ w₂ w₃ w₄ k t v hw₁ hk hw₂ hw₃ ht hw₄ =>
    have hlen : t.length ≤ n := by simp at hn; omega
    have hparse := parseValue_of_text ht n (w₄ ++ '\x7d' :: r) hlen
      (ends_space hw₄ (ends_cons (by decide)))
    have hskip : skip (w₄ ++ '\x7d' :: r) = '\x7d' :: r := by
      rw [skip_append hw₄, skip_cons (by decide)]
    simp only [List.append_assoc, List.cons_append]
    rw [skip_append hw₁, skip_cons (by decide)]
    simp only [↓reduceIte, scanString_of_raw hk, Option.bind_some]
    rw [skip_append hw₂, skip_cons (by decide)]
    simp only [↓reduceIte]
    rw [skip_append hw₃, skip_text ht, hparse, Option.bind_some, hskip]
    simp
  | @cons _ w₁ w₂ w₃ w₄ k t ts v ms hw₁ hk hw₂ hw₃ ht hw₄ hts =>
    have hlen : t.length ≤ n := by simp at hn; omega
    have hlen' : ts.length < n := by simp at hn; omega
    have hparse := parseValue_of_text ht n (w₄ ++ ',' :: (ts ++ '\x7d' :: r)) hlen
      (ends_space hw₄ (ends_cons (by decide)))
    have hskip : skip (w₄ ++ ',' :: (ts ++ '\x7d' :: r)) = ',' :: (ts ++ '\x7d' :: r) := by
      rw [skip_append hw₄, skip_cons (by decide)]
    have hrest := parseMembers_of_members hts n r hlen'
    simp only [List.append_assoc, List.cons_append]
    rw [skip_append hw₁, skip_cons (by decide)]
    simp only [↓reduceIte, scanString_of_raw hk, Option.bind_some]
    rw [skip_append hw₂, skip_cons (by decide)]
    simp only [↓reduceIte]
    rw [skip_append hw₃, skip_text ht, hparse, Option.bind_some, hskip]
    simp [hrest]

end

theorem skip_of_all {w : List Char} (hw : w.all isSpace = true) : skip w = [] := by
  rw [← List.append_nil w, skip_append hw]
  rfl

/-- **The parser accepts the texts.** -/
theorem parse_of_text {d : ℕ} {w t w' : List Char} {v : Value} (hw : w.all isSpace = true)
    (ht : Text d t v) (hw' : w'.all isSpace = true) : parse d (w ++ (t ++ w')) = some v := by
  have hends : Ends w' := by
    rw [← List.append_nil w']
    exact ends_space hw' nofun
  have hlen : t.length ≤ (w ++ (t ++ w')).length + 1 := by
    simp only [List.length_append]
    omega
  rw [parse, skip_append hw, skip_text ht, parseValue_of_text ht _ w' hlen hends,
    Option.bind_some, if_pos (skip_of_all hw')]

/-! ### What the parser accepts is a text -/

theorem exists_space_skip (t : List Char) : ∃ w, w.all isSpace = true ∧ t = w ++ skip t :=
  ⟨t.takeWhile isSpace, List.all_takeWhile, List.takeWhile_append_dropWhile.symm⟩

theorem raw_of_scanString {t raw r : List Char} (h : scanString t = some (raw, r)) :
    Raw raw ∧ t = raw ++ '"' :: r := by
  fun_induction scanString t generalizing raw r with
  | case2 t =>
    obtain ⟨rfl, rfl⟩ := Prod.mk.inj (Option.some.inj h)
    exact ⟨.nil, rfl⟩
  | case4 e t he _ ih =>
    obtain ⟨⟨raw', r'⟩, hscan, heq⟩ := Option.map_eq_some_iff.1 h
    obtain ⟨rfl, rfl⟩ := Prod.mk.inj heq
    obtain ⟨hraw, rfl⟩ := ih hscan
    exact ⟨.escape he hraw, rfl⟩
  | case5 h₁ h₂ h₃ h₄ t hhex _ _ ih =>
    obtain ⟨⟨raw', r'⟩, hscan, heq⟩ := Option.map_eq_some_iff.1 h
    obtain ⟨rfl, rfl⟩ := Prod.mk.inj heq
    obtain ⟨hraw, rfl⟩ := ih hscan
    exact ⟨.unicode hhex hraw, rfl⟩
  | case9 c t hquote hslash hle ih =>
    obtain ⟨⟨raw', r'⟩, hscan, heq⟩ := Option.map_eq_some_iff.1 h
    obtain ⟨rfl, rfl⟩ := Prod.mk.inj heq
    obtain ⟨hraw, rfl⟩ := ih hscan
    exact ⟨.char hquote hslash hle hraw, rfl⟩
  | _ => cases h

theorem eq_of_scanWord {w t r : List Char} (h : scanWord w t = some r) : t = w ++ r := by
  fun_induction scanWord w t with
  | case1 t => exact Option.some.inj h
  | case2 => cases h
  | case3 w ws t ih => rw [ih h, List.cons_append]
  | case4 => cases h

theorem text_of_scanNumber {d : ℕ} {t r : List Char} {v : Value}
    (h : scanNumber t = some (v, r)) : ∃ t', t = t' ++ r ∧ Text d t' v := by
  simp only [scanNumber] at h
  split_ifs at h with hlit
  obtain ⟨rfl, rfl⟩ := Prod.mk.inj (Option.some.inj h)
  exact ⟨_, List.takeWhile_append_dropWhile.symm, .num hlit List.all_takeWhile⟩

/-- What the three parts of the parser accept, with fuel `n`. -/
structure Accepts (n : ℕ) : Prop where
  value : ∀ {d t v r}, parseValue n d t = some (v, r) → ∃ t', t = t' ++ r ∧ Text d t' v
  elems : ∀ {d t vs r}, parseElems n d t = some (vs, r) →
    ∃ t', t = t' ++ ']' :: r ∧ Elems d t' vs
  members : ∀ {d t ms r}, parseMembers n d t = some (ms, r) →
    ∃ t', t = t' ++ '\x7d' :: r ∧ Members d t' ms

theorem accepts_elems {n : ℕ} (ih : Accepts n) {d : ℕ} {t r : List Char} {vs : List Value}
    (h : parseElems (n + 1) d t = some (vs, r)) :
    ∃ t', t = t' ++ ']' :: r ∧ Elems d t' vs := by
  rw [parseElems.eq_def] at h
  obtain ⟨⟨v, t₁⟩, hv, h⟩ := Option.bind_eq_some_iff.1 h
  obtain ⟨w, hw, ht⟩ := exists_space_skip t
  obtain ⟨tv, htv, htext⟩ := ih.value hv
  obtain ⟨w', hw', ht₁⟩ := exists_space_skip t₁
  dsimp only at h
  split at h
  · cases h
  next c t₂ hskip =>
    rw [hskip] at ht₁
    split_ifs at h with hcomma hclose
    · obtain ⟨⟨vs', r'⟩, hvs, heq⟩ := Option.map_eq_some_iff.1 h
      obtain ⟨rfl, rfl⟩ := Prod.mk.inj heq
      obtain ⟨ts, rfl, helems⟩ := ih.elems hvs
      refine ⟨w ++ (tv ++ (w' ++ ',' :: ts)), ?_, .cons hw htext hw' helems⟩
      rw [ht, htv, ht₁, hcomma]
      simp
    · obtain ⟨rfl, rfl⟩ := Prod.mk.inj (Option.some.inj h)
      refine ⟨w ++ (tv ++ w'), ?_, .one hw htext hw'⟩
      rw [ht, htv, ht₁, hclose]
      simp

theorem accepts_members {n : ℕ} (ih : Accepts n) {d : ℕ} {t r : List Char}
    {ms : List (List Char × Value)} (h : parseMembers (n + 1) d t = some (ms, r)) :
    ∃ t', t = t' ++ '\x7d' :: r ∧ Members d t' ms := by
  rw [parseMembers.eq_def] at h
  obtain ⟨w₁, hw₁, ht⟩ := exists_space_skip t
  dsimp only at h
  split at h
  · cases h
  next c t₁ hskip =>
    rw [hskip] at ht
    split_ifs at h with hquote
    obtain ⟨⟨k, t₂⟩, hk, hafter⟩ := Option.bind_eq_some_iff.1 h
    obtain ⟨hraw, ht₁⟩ := raw_of_scanString hk
    obtain ⟨w₂, hw₂, ht₂⟩ := exists_space_skip t₂
    clear h
    dsimp only at hafter
    split at hafter
    · cases hafter
    next c t₃ hskip =>
      rw [hskip] at ht₂
      split_ifs at hafter with hcolon
      obtain ⟨⟨v, t₄⟩, hv, hend⟩ := Option.bind_eq_some_iff.1 hafter
      obtain ⟨w₃, hw₃, ht₃⟩ := exists_space_skip t₃
      obtain ⟨tv, htv, htext⟩ := ih.value hv
      obtain ⟨w₄, hw₄, ht₄⟩ := exists_space_skip t₄
      clear hafter
      dsimp only at hend
      split at hend
      · cases hend
      next c t₅ hskip =>
        rw [hskip] at ht₄
        split_ifs at hend with hcomma hclose
        · obtain ⟨⟨ms', r'⟩, hms, heq⟩ := Option.map_eq_some_iff.1 hend
          obtain ⟨rfl, rfl⟩ := Prod.mk.inj heq
          obtain ⟨ts, rfl, hmembers⟩ := ih.members hms
          refine ⟨_, ?_, .cons hw₁ hraw hw₂ hw₃ htext hw₄ hmembers⟩
          rw [ht, hquote, ht₁, ht₂, hcolon, ht₃, htv, ht₄, hcomma]
          simp
        · obtain ⟨rfl, rfl⟩ := Prod.mk.inj (Option.some.inj hend)
          refine ⟨_, ?_, .one hw₁ hraw hw₂ hw₃ htext hw₄⟩
          rw [ht, hquote, ht₁, ht₂, hcolon, ht₃, htv, ht₄, hclose]
          simp

theorem eq_cons_tail {t : List Char} {c : Char} (h : t.head? = some c) : t = c :: t.tail :=
  (List.cons_head?_tail h).symm

theorem accepts_value {n : ℕ} (ih : Accepts n) {d : ℕ} {t r : List Char} {v : Value}
    (h : parseValue (n + 1) d t = some (v, r)) : ∃ t', t = t' ++ r ∧ Text d t' v := by
  rw [parseValue.eq_def] at h
  cases t with
  | nil => cases h
  | cons c t =>
    dsimp only at h
    split_ifs at h with hquote harr harrNil hobj hobjNil hnull htrue hfalse
    · obtain ⟨⟨raw, r'⟩, hscan, heq⟩ := Option.map_eq_some_iff.1 h
      obtain ⟨rfl, rfl⟩ := Prod.mk.inj heq
      obtain ⟨hraw, rfl⟩ := raw_of_scanString hscan
      exact ⟨_, by simp [hquote], .str hraw⟩
    · -- an empty array
      cases d with
      | zero => cases h
      | succ d =>
        obtain ⟨rfl, rfl⟩ := Prod.mk.inj (Option.some.inj h)
        obtain ⟨w, hw, ht⟩ := exists_space_skip t
        refine ⟨'[' :: (w ++ [']']), ?_, .empty_arr hw⟩
        rw [eq_cons_tail harrNil] at ht
        rw [harr, List.cons_append, List.append_assoc]
        exact congrArg _ ht
    · cases d with
      | zero => cases h
      | succ d =>
        obtain ⟨⟨vs, r'⟩, hvs, heq⟩ := Option.map_eq_some_iff.1 h
        obtain ⟨rfl, rfl⟩ := Prod.mk.inj heq
        obtain ⟨ts, rfl, htext⟩ := ih.elems hvs
        exact ⟨'[' :: (ts ++ [']']), by simp [harr], .arr htext⟩
    · -- an empty object
      cases d with
      | zero => cases h
      | succ d =>
        obtain ⟨rfl, rfl⟩ := Prod.mk.inj (Option.some.inj h)
        obtain ⟨w, hw, ht⟩ := exists_space_skip t
        refine ⟨'\x7b' :: (w ++ ['\x7d']), ?_, .empty_obj hw⟩
        rw [eq_cons_tail hobjNil] at ht
        rw [hobj, List.cons_append, List.append_assoc]
        exact congrArg _ ht
    · cases d with
      | zero => cases h
      | succ d =>
        obtain ⟨⟨vs, r'⟩, hvs, heq⟩ := Option.map_eq_some_iff.1 h
        obtain ⟨rfl, rfl⟩ := Prod.mk.inj heq
        obtain ⟨ts, rfl, htext⟩ := ih.members hvs
        exact ⟨'\x7b' :: (ts ++ ['\x7d']), by simp [hobj], .obj htext⟩
    · obtain ⟨r', hscan, heq⟩ := Option.map_eq_some_iff.1 h
      obtain ⟨rfl, rfl⟩ := Prod.mk.inj heq
      exact ⟨_, by rw [hnull, eq_of_scanWord hscan]; rfl, .null⟩
    · obtain ⟨r', hscan, heq⟩ := Option.map_eq_some_iff.1 h
      obtain ⟨rfl, rfl⟩ := Prod.mk.inj heq
      exact ⟨_, by rw [htrue, eq_of_scanWord hscan]; rfl, .yes⟩
    · obtain ⟨r', hscan, heq⟩ := Option.map_eq_some_iff.1 h
      obtain ⟨rfl, rfl⟩ := Prod.mk.inj heq
      exact ⟨_, by rw [hfalse, eq_of_scanWord hscan]; rfl, .no⟩
    · exact text_of_scanNumber h

theorem accepts (n : ℕ) : Accepts n := by
  induction n with
  | zero =>
    constructor
    · intro d t v r h
      rw [parseValue.eq_def] at h
      cases h
    · intro d t vs r h
      rw [parseElems.eq_def] at h
      cases h
    · intro d t ms r h
      rw [parseMembers.eq_def] at h
      cases h
  | succ n ih => exact ⟨accepts_value ih, accepts_elems ih, accepts_members ih⟩

/-- **What the parser accepts is a text.** -/
theorem text_of_parse {d : ℕ} {t : List Char} {v : Value} (h : parse d t = some v) :
    ∃ w t' w', w.all isSpace = true ∧ w'.all isSpace = true ∧ t = w ++ (t' ++ w') ∧
      Text d t' v := by
  obtain ⟨⟨v', r⟩, hv, h⟩ := Option.bind_eq_some_iff.1 h
  dsimp only at h
  split_ifs at h with hr
  obtain rfl := Option.some.inj h
  obtain ⟨w, hw, ht⟩ := exists_space_skip t
  obtain ⟨t', ht', htext⟩ := (accepts _).value hv
  obtain ⟨w', hw', hr'⟩ := exists_space_skip r
  rw [hr, List.append_nil] at hr'
  refine ⟨w, t', w', hw, hw', ?_, htext⟩
  rw [ht, ht', hr']

end Json
