import Mathlib.Data.List.Basic
import Mathlib.Tactic

/-!
# Hexadecimal text

The two spellings of bytes as text that the service uses: lower-case encoding (`%x`,
`hex.EncodeToString`) and case-insensitive decoding (`hex.DecodeString`).
-/

namespace Hex

/-- The lower-case digit of a nibble. -/
def digit (n : ℕ) : Char := if n < 10 then Char.ofNat (48 + n) else Char.ofNat (87 + n)

/-- The value of a digit of either case. -/
def value? (c : Char) : Option ℕ :=
  if '0' ≤ c ∧ c ≤ '9' then some (c.toNat - 48)
  else if 'a' ≤ c ∧ c ≤ 'f' then some (c.toNat - 87)
  else if 'A' ≤ c ∧ c ≤ 'F' then some (c.toNat - 55)
  else none

/-- The two digits of a byte, high nibble first. -/
def byteDigits (b : UInt8) : List Char := [digit (b.toNat / 16), digit (b.toNat % 16)]

/-- The digits of a byte string. -/
def encodeChars (bs : List UInt8) : List Char := bs.flatMap byteDigits

/-- `hex.EncodeToString`. -/
def encode (bs : List UInt8) : String := String.ofList (encodeChars bs)

/-- Decoding of a list of digits; `none` for an odd length or a character that is not a digit. -/
def decodeChars : List Char → Option (List UInt8)
  | [] => some []
  | [_] => none
  | a :: b :: rest => do
    let hi ← value? a
    let lo ← value? b
    let bs ← decodeChars rest
    return UInt8.ofNat (16 * hi + lo) :: bs

/-- `hex.DecodeString`, an error being `none`. -/
def decode (s : String) : Option (List UInt8) := decodeChars s.toList

/-- All characters are digits, of either case. -/
def IsDigits (s : String) : Prop := ∀ c ∈ s.toList, (value? c).isSome

instance (s : String) : Decidable (IsDigits s) :=
  List.decidableBAll (fun c => (value? c).isSome = true) s.toList

theorem IsDigits.notMem {s : String} (h : IsDigits s) {c : Char} (hc : value? c = none) :
    c ∉ s.toList := by
  intro hmem
  have hdigit := h c hmem
  rw [hc] at hdigit
  cases hdigit

theorem value?_digit {n : ℕ} (h : n < 16) : value? (digit n) = some n := by
  interval_cases n <;> decide

theorem decodeChars_byteDigits (b : UInt8) (cs : List Char) :
    decodeChars (byteDigits b ++ cs) = (decodeChars cs).map (b :: ·) := by
  have hb := b.toNat_lt
  simp only [byteDigits, List.cons_append, List.nil_append, decodeChars,
    value?_digit (show b.toNat / 16 < 16 by omega), value?_digit (show b.toNat % 16 < 16 by omega),
    Option.bind_eq_bind, Option.bind_some]
  have hval : UInt8.ofNat (16 * (b.toNat / 16) + b.toNat % 16) = b := by
    rw [Nat.div_add_mod, UInt8.ofNat_toNat]
  cases decodeChars cs <;> simp [hval]

/-- **Decoding undoes encoding.** -/
theorem decode_encode (bs : List UInt8) : decode (encode bs) = some bs := by
  simp only [decode, encode, encodeChars, String.toList_ofList]
  induction bs with
  | nil => rfl
  | cons b bs ih => rw [List.flatMap_cons, decodeChars_byteDigits, ih]; rfl

theorem encode_injective : Function.Injective encode := fun a b h => by
  have := congrArg decode h
  rwa [decode_encode, decode_encode, Option.some.injEq] at this

theorem length_encodeChars (bs : List UInt8) : (encodeChars bs).length = 2 * bs.length := by
  induction bs with
  | nil => rfl
  | cons b bs ih => rw [encodeChars, List.flatMap_cons, List.length_append, ← encodeChars, ih,
      byteDigits, List.length_cons, List.length_singleton, List.length_cons]; omega

theorem isDigits_encode (bs : List UInt8) : IsDigits (encode bs) := by
  intro c hc
  rw [encode, String.toList_ofList, encodeChars, List.mem_flatMap] at hc
  obtain ⟨b, -, hc⟩ := hc
  have hb := b.toNat_lt
  simp only [byteDigits, List.mem_cons, List.not_mem_nil, or_false] at hc
  rcases hc with rfl | rfl
  · rw [value?_digit (by omega), Option.isSome_some]
  · rw [value?_digit (by omega), Option.isSome_some]

/-! ### The two cases of a digit -/

theorem value?_eq_some {c : Char} {n : ℕ} (h : value? c = some n) :
    (48 ≤ c.toNat ∧ c.toNat ≤ 57 ∧ n = c.toNat - 48) ∨
    (97 ≤ c.toNat ∧ c.toNat ≤ 102 ∧ n = c.toNat - 87) ∨
    (65 ≤ c.toNat ∧ c.toNat ≤ 70 ∧ n = c.toNat - 55) := by
  simp only [value?, Char.le_def, UInt32.le_iff_toNat_le] at h
  split_ifs at h with h₁ h₂ h₃
  · exact .inl ⟨h₁.1, h₁.2, (Option.some.inj h).symm⟩
  · exact .inr (.inl ⟨h₂.1, h₂.2, (Option.some.inj h).symm⟩)
  · exact .inr (.inr ⟨h₃.1, h₃.2, (Option.some.inj h).symm⟩)

theorem isUpper_iff (c : Char) : c.isUpper ↔ 65 ≤ c.toNat ∧ c.toNat ≤ 90 := by
  change decide (c.val ≥ 'A'.val ∧ c.val ≤ 'Z'.val) = true ↔ _
  rw [decide_eq_true_eq, ge_iff_le, UInt32.le_iff_toNat_le, UInt32.le_iff_toNat_le]
  rfl

/-- A digit is the one that encoding writes, unless it is an upper-case letter. -/
theorem digit_eq_iff {c : Char} {n : ℕ} (h : value? c = some n) : digit n = c ↔ ¬ c.isUpper := by
  rw [isUpper_iff]
  rcases value?_eq_some h with ⟨hlo, hhi, rfl⟩ | ⟨hlo, hhi, rfl⟩ | ⟨hlo, hhi, rfl⟩
  · rw [digit, if_pos (by omega), Nat.add_sub_cancel' hlo, Char.ofNat_toNat]
    exact iff_of_true rfl (by omega)
  · rw [digit, if_neg (by omega), show 87 + (c.toNat - 87) = c.toNat by omega, Char.ofNat_toNat]
    exact iff_of_true rfl (by omega)
  · -- `digit` writes the lower-case letter, whose code is another.
    refine iff_of_false (fun heq => ?_) (by omega)
    have hlower : (digit (c.toNat - 55)).toNat = 97 + (c.toNat - 65) := by
      interval_cases c.toNat <;> rfl
    rw [heq] at hlower
    omega

theorem byteDigits_ofNat {hi lo : ℕ} (hhi : hi < 16) (hlo : lo < 16) :
    byteDigits (UInt8.ofNat (16 * hi + lo)) = [digit hi, digit lo] := by
  have hval : (UInt8.ofNat (16 * hi + lo)).toNat = 16 * hi + lo := by
    rw [UInt8.toNat_ofNat', Nat.mod_eq_of_lt (by omega)]
  rw [byteDigits, hval, show (16 * hi + lo) / 16 = hi by omega,
    show (16 * hi + lo) % 16 = lo by omega]

theorem encodeChars_eq_iff {cs : List Char} {bs : List UInt8} (h : decodeChars cs = some bs) :
    encodeChars bs = cs ↔ ∀ c ∈ cs, ¬ c.isUpper := by
  induction cs using decodeChars.induct generalizing bs with
  | case1 =>
    obtain rfl := Option.some.inj h
    simp [encodeChars]
  | case2 => cases h
  | case3 a b rest ih =>
    simp only [decodeChars, Option.bind_eq_bind, Option.bind_eq_some_iff, Option.pure_def,
      Option.some.injEq] at h
    obtain ⟨hi, hhi, lo, hlo, bs, hrest, rfl⟩ := h
    have hlt : ∀ {c : Char} {n : ℕ}, value? c = some n → n < 16 := by
      intro c n hc
      rcases value?_eq_some hc with h | h | h <;> omega
    rw [encodeChars, List.flatMap_cons, ← encodeChars, byteDigits_ofNat (hlt hhi) (hlt hlo)]
    simp only [List.cons_append, List.nil_append, List.cons.injEq, ih hrest, digit_eq_iff hhi,
      digit_eq_iff hlo, List.forall_mem_cons]

/-- **Encoding undoes decoding of a text without upper-case letters, and of no other.** -/
theorem encode_eq_iff {s : String} {bs : List UInt8} (h : decode s = some bs) :
    encode bs = s ↔ ∀ c ∈ s.toList, ¬ c.isUpper := by
  rw [← encodeChars_eq_iff h, encode, ← String.toList_inj, String.toList_ofList]

theorem map_toLower_encode (bs : List UInt8) :
    (encode bs).toList.map Char.toLower = (encode bs).toList := by
  have hupper := (encode_eq_iff (decode_encode bs)).1 rfl
  refine (List.map_congr_left fun c hc => ?_).trans (List.map_id _)
  have hc' := hupper c hc
  rw [isUpper_iff] at hc'
  refine dif_neg ?_
  rw [ge_iff_le, UInt32.le_iff_toNat_le, UInt32.le_iff_toNat_le]
  exact hc'

end Hex
