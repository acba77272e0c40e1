import Mathlib.Data.List.Nodup
import MerkleService.Data.JsonPrint

/-!
# Records as JSON objects

How a record is written as a JSON object and read back, driven by a list of its fields, in the way
of a decoder that works by reflection: a member is found by its name, in upper or lower case;
members that belong to no field are passed over; a member that occurs again replaces, or changes,
what the earlier one has set; and a field without a member keeps its value.

* `Json.StructField M` : a field of the record `M`, with how it is written and read.
* `Json.marshal`, `Json.unmarshal` : the object of a record, and the record of an object.
* `Json.Represents` : an object has, in any order and among any others, the members of a record.

## Main results

* `Json.unmarshal_of_represents` : **what is read is the record that the members represent.**
* `Json.decode_encode` : a record is read back from the text that is written for it.
-/

namespace Json

/-! ### Names -/

/-- The upper-case letter of a letter.  Two characters beyond ASCII are letters of ASCII in another
case: the long s and the sign of the unit kelvin. -/
def foldChar (c : Char) : Char :=
  if c.isLower then c.toUpper
  else if c.toNat = 0x17F then 'S'
  else if c.toNat = 0x212A then 'K'
  else c

/-- A name of ASCII letters without its case. -/
def foldName (name : List Char) : List Char := name.map foldChar

/-! ### Fields -/

/-- A field of the record `M`. -/
structure StructField (M : Type) where
  name : String
  α : Type
  get : M → α
  put : α → M → M
  /-- What is written, or `none` if the member is left out. -/
  encode : α → Option Value
  /-- What is read, over the value that the field has. -/
  decode : Value → α → Option α

variable {M : Type}

/-- The member with the key (as it stands between the quotes) belongs to the field. -/
def StructField.Matches (f : StructField M) (key : List Char) : Prop :=
  foldName f.name.toList = foldName (unquote key)

instance StructField.decidableMatches (f : StructField M) (key : List Char) :
    Decidable (f.Matches key) :=
  inferInstanceAs (Decidable (_ = _))

/-- A member is read. -/
def readMember (fields : List (StructField M)) (m : M) (kv : List Char × Value) : Option M :=
  match fields.find? fun f => f.Matches kv.1 with
  | some f => (f.decode kv.2 (f.get m)).map fun a => f.put a m
  | none => some m

/-- The record of an object, `zero` being the record that nothing was read into.  `null` changes
nothing, and other values are refused. -/
def unmarshal (fields : List (StructField M)) (zero : M) : Value → Option M
  | .null => some zero
  | .obj ms => ms.foldlM (readMember fields) zero
  | _ => none

/-- The object of a record. -/
def marshal (fields : List (StructField M)) (m : M) : Value :=
  .obj (fields.filterMap fun f =>
    (f.encode (f.get m)).map fun v => (quote f.name.toList, v))

/-- How deep the decoder reads. -/
def maxDepth : ℕ := 10000

def decode (fields : List (StructField M)) (zero : M) (t : String) : Option M :=
  (parse maxDepth t.toList).bind (unmarshal fields zero)

def encode (fields : List (StructField M)) (m : M) : String :=
  String.ofList (print (marshal fields m))

/-! ### What the members say -/

/-- The fields are the parts of the record, and have different names. -/
structure Lawful (fields : List (StructField M)) : Prop where
  nodup : (fields.map fun f => foldName f.name.toList).Nodup
  get_put : ∀ f ∈ fields, ∀ a m, f.get (f.put a m) = a
  get_put_of_ne : ∀ f ∈ fields, ∀ g ∈ fields, f.name ≠ g.name → ∀ a m, g.get (f.put a m) = g.get m
  ext : ∀ m m', (∀ f ∈ fields, f.get m = f.get m') → m = m'

/-- The members that belong to a field say what the record has there; a field without a member is
as in `zero`. -/
def Represents (fields : List (StructField M)) (zero m : M) (ms : List (List Char × Value)) :
    Prop :=
  ∀ f ∈ fields, (∀ kv ∈ ms, f.Matches kv.1 → ∀ a, f.decode kv.2 a = some (f.get m)) ∧
    ((∀ kv ∈ ms, ¬ f.Matches kv.1) → f.get m = f.get zero)

variable {fields : List (StructField M)} {zero m : M} {ms : List (List Char × Value)}

theorem Lawful.eq_of_matches (h : Lawful fields) {f g : StructField M} (hf : f ∈ fields)
    (hg : g ∈ fields) {key : List Char} (hkey : f.Matches key) (hkey' : g.Matches key) : f = g :=
  List.inj_on_of_nodup_map h.nodup hf hg (hkey.trans hkey'.symm)

/-- The members that are still to come set the fields that are not yet as in `m`. -/
theorem foldlM_readMember (h : Lawful fields) (m₀ : M)
    (hdecode : ∀ f ∈ fields, ∀ kv ∈ ms, f.Matches kv.1 → ∀ a, f.decode kv.2 a = some (f.get m))
    (hset : ∀ f ∈ fields, f.get m₀ = f.get m ∨ ∃ kv ∈ ms, f.Matches kv.1) :
    ms.foldlM (readMember fields) m₀ = some m := by
  induction ms generalizing m₀ with
  | nil =>
    refine congrArg some (h.ext _ _ fun f hf => ?_)
    rcases hset f hf with heq | ⟨kv, hkv, -⟩
    · exact heq
    · cases hkv
  | cons kv ms ih =>
    have hdecode' := fun f hf kv' hkv' => hdecode f hf kv' (List.mem_cons_of_mem _ hkv')
    rw [List.foldlM_cons, readMember]
    cases hfind : fields.find? fun f => f.Matches kv.1 with
    | none =>
      rw [List.find?_eq_none] at hfind
      refine ih m₀ hdecode' fun f hf => (hset f hf).imp_right ?_
      rintro ⟨kv', hkv', hmatch⟩
      rcases List.mem_cons.1 hkv' with rfl | hkv'
      · exact absurd (decide_eq_true hmatch) (hfind f hf)
      · exact ⟨kv', hkv', hmatch⟩
    | some f =>
      have hf : f ∈ fields := List.mem_of_find?_eq_some hfind
      have hmatch : f.Matches kv.1 := by simpa using List.find?_some hfind
      simp only [hdecode f hf kv List.mem_cons_self hmatch, Option.map_some]
      refine ih _ hdecode' fun g hg => ?_
      by_cases hfg : f = g
      · subst hfg
        exact .inl (h.get_put f hf _ _)
      · have hname : f.name ≠ g.name := fun hname =>
          hfg (List.inj_on_of_nodup_map h.nodup hf hg (by rw [hname]))
        rw [h.get_put_of_ne f hf g hg hname]
        refine (hset g hg).imp_right ?_
        rintro ⟨kv', hkv', hmatch'⟩
        rcases List.mem_cons.1 hkv' with rfl | hkv'
        · exact absurd (h.eq_of_matches hf hg hmatch hmatch') hfg
        · exact ⟨kv', hkv', hmatch'⟩

/-- **What is read is the record that the members represent**, in whatever order they stand. -/
theorem unmarshal_of_represents (h : Lawful fields) (hms : Represents fields zero m ms) :
    unmarshal fields zero (.obj ms) = some m := by
  refine foldlM_readMember h zero (fun f hf => (hms f hf).1) fun f hf => ?_
  by_cases hmem : ∃ kv ∈ ms, f.Matches kv.1
  · exact .inr hmem
  · simp only [not_exists, not_and] at hmem
    exact .inl ((hms f hf).2 hmem).symm

theorem decode_of_text (h : Lawful fields) (hms : Represents fields zero m ms)
    {w t w' : List Char} (hw : w.all isSpace = true) (ht : Text maxDepth t (.obj ms))
    (hw' : w'.all isSpace = true) :
    decode fields zero (String.ofList (w ++ (t ++ w'))) = some m := by
  rw [decode, String.toList_ofList, parse_of_text hw ht hw', Option.bind_some]
  exact unmarshal_of_represents h hms

/-! ### A record is read back -/

/-- The field is read back from what is written for it. -/
def StructField.Faithful (f : StructField M) (zero m : M) : Prop :=
  match f.encode (f.get m) with
  | some v => Fits (maxDepth - 1) v ∧ ∀ a, f.decode v a = some (f.get m)
  | none => f.get m = f.get zero

theorem matches_quote (f g : StructField M) :
    f.Matches (quote g.name.toList) ↔ foldName f.name.toList = foldName g.name.toList := by
  rw [StructField.Matches, unquote_quote]

theorem mem_marshal {kv : List Char × Value} :
    kv ∈ (fields.filterMap fun f =>
      (f.encode (f.get m)).map fun v => (quote f.name.toList, v)) ↔
    ∃ f ∈ fields, ∃ v, f.encode (f.get m) = some v ∧ kv = (quote f.name.toList, v) := by
  simp only [List.mem_filterMap, Option.map_eq_some_iff]
  constructor
  · rintro ⟨f, hf, v, hv, rfl⟩
    exact ⟨f, hf, v, hv, rfl⟩
  · rintro ⟨f, hf, v, hv, rfl⟩
    exact ⟨f, hf, v, hv, rfl⟩

theorem represents_marshal (h : Lawful fields) (hfaith : ∀ f ∈ fields, f.Faithful zero m) :
    Represents fields zero m (fields.filterMap fun f =>
      (f.encode (f.get m)).map fun v => (quote f.name.toList, v)) := by
  intro f hf
  constructor
  · intro kv hkv hmatch
    obtain ⟨g, hg, v, hv, rfl⟩ := mem_marshal.1 hkv
    rw [matches_quote] at hmatch
    obtain rfl := List.inj_on_of_nodup_map h.nodup hf hg hmatch
    have hf' := hfaith f hf
    rw [StructField.Faithful, hv] at hf'
    exact hf'.2
  · intro hnone
    have hf' := hfaith f hf
    rw [StructField.Faithful] at hf'
    cases hv : f.encode (f.get m) with
    | none =>
      rw [hv] at hf'
      exact hf'
    | some v =>
      refine absurd ((matches_quote f f).2 rfl) (hnone (quote f.name.toList, v) ?_)
      exact mem_marshal.2 ⟨f, hf, v, hv, rfl⟩

theorem fitsMembers_iff {d : ℕ} {ms : List (List Char × Value)} :
    FitsMembers d ms ↔ ∀ kv ∈ ms, Raw kv.1 ∧ Fits d kv.2 := by
  induction ms with
  | nil => simp [FitsMembers]
  | cons kv ms ih => simp [FitsMembers, ih, and_assoc]

theorem fitsElems_iff {d : ℕ} {vs : List Value} : FitsElems d vs ↔ ∀ v ∈ vs, Fits d v := by
  induction vs with
  | nil => simp [FitsElems]
  | cons v vs ih => simp [FitsElems, ih]

/-- **A record is read back from its text.** -/
theorem decode_encode (h : Lawful fields) (hfaith : ∀ f ∈ fields, f.Faithful zero m) :
    decode fields zero (encode fields m) = some m := by
  have hfits : Fits maxDepth (marshal fields m) := by
    refine fitsMembers_iff.2 fun kv hkv => ?_
    obtain ⟨f, hf, v, hv, rfl⟩ := mem_marshal.1 hkv
    have hf' := hfaith f hf
    rw [StructField.Faithful, hv] at hf'
    exact ⟨raw_quote _, hf'.1⟩
  have hread := decode_of_text h (represents_marshal h hfaith) (List.all_nil (f := isSpace))
    (text_print hfits) (List.all_nil (f := isSpace))
  rwa [List.append_nil] at hread

/-- **What is accepted is the text of an object**, or of `null`. -/
theorem text_of_decode {t : String} (h : decode fields zero t = some m) :
    ∃ w t' w' v, w.all isSpace = true ∧ w'.all isSpace = true ∧ t.toList = w ++ (t' ++ w') ∧
      Text maxDepth t' v ∧ (v = .null ∨ ∃ ms, v = .obj ms) := by
  obtain ⟨v, hparse, hv⟩ := Option.bind_eq_some_iff.1 h
  obtain ⟨w, t', w', hw, hw', ht, htext⟩ := text_of_parse hparse
  refine ⟨w, t', w', v, hw, hw', ht, htext, ?_⟩
  cases v with
  | null => exact .inl rfl
  | obj ms => exact .inr ⟨ms, rfl⟩
  | _ => cases hv

/-! ### The types of fields -/

def stringEncode (s : String) : Option Value := some (.str (quote s.toList))

/-- `null` leaves a string as it is. -/
def stringDecode : Value → String → Option String
  | .null, s => some s
  | .str raw, _ => some (String.ofList (unquote raw))
  | _, _ => none

def intEncode (i : ℤ) : Option Value := some (.num (intLit i))

/-- A whole number between two bounds. -/
def intDecode (lo hi : ℤ) : Value → ℤ → Option ℤ
  | .null, i => some i
  | .num lit, _ => (parseInt lit).filter fun i => lo ≤ i ∧ i ≤ hi
  | _, _ => none

def natEncode (n : ℕ) : Option Value := some (.num (natLit n))

/-- A number without sign, up to a bound. -/
def natDecode (hi : ℕ) : Value → ℕ → Option ℕ
  | .null, n => some n
  | .num lit, _ => (parseNat lit).filter fun n => n ≤ hi
  | _, _ => none

/-- The elements of a list of strings, over those that were there. -/
def elemsDecode : List Value → List String → Option (List String)
  | [], _ => some []
  | v :: vs, old =>
    (stringDecode v (old.head?.getD "")).bind fun s =>
      (elemsDecode vs old.tail).map fun ss => s :: ss

def stringsEncode (ss : List String) : Option Value :=
  some (.arr (ss.map fun s => .str (quote s.toList)))

/-- `null` empties a list. -/
def stringsDecode : Value → List String → Option (List String)
  | .null, _ => some []
  | .arr vs, old => elemsDecode vs old
  | _, _ => none

/-- The option `omitempty`: a value that is empty is not written. -/
def omitEmpty {α : Type} [DecidableEq α] (empty : α) (encode : α → Option Value) (a : α) :
    Option Value :=
  if a = empty then none else encode a

section

variable {d : ℕ}

theorem fits_quote (s : List Char) : Fits d (.str (quote s)) := raw_quote s

theorem fits_intLit (i : ℤ) : Fits d (.num (intLit i)) := ⟨number_intLit i, all_intLit i⟩

theorem fits_natLit (n : ℕ) : Fits d (.num (natLit n)) := ⟨number_natLit n, all_natLit n⟩

theorem stringDecode_quote (s a : String) : stringDecode (.str (quote s.toList)) a = some s := by
  rw [stringDecode, unquote_quote, String.ofList_toList]

theorem intDecode_intLit {lo hi i : ℤ} (hlo : lo ≤ i) (hhi : i ≤ hi) (a : ℤ) :
    intDecode lo hi (.num (intLit i)) a = some i := by
  rw [intDecode, parseInt_intLit, Option.filter_some, if_pos (decide_eq_true ⟨hlo, hhi⟩)]

theorem natDecode_natLit {hi n : ℕ} (hhi : n ≤ hi) (a : ℕ) :
    natDecode hi (.num (natLit n)) a = some n := by
  rw [natDecode, parseNat_natLit, Option.filter_some, if_pos (decide_eq_true hhi)]

theorem elemsDecode_quote (ss old : List String) :
    elemsDecode (ss.map fun s => .str (quote s.toList)) old = some ss := by
  induction ss generalizing old with
  | nil => rfl
  | cons s ss ih =>
    rw [List.map_cons, elemsDecode, stringDecode_quote, Option.bind_some, ih, Option.map_some]

theorem fits_strings (ss : List String) :
    Fits (d + 1) (.arr (ss.map fun s => .str (quote s.toList))) := by
  refine fitsElems_iff.2 fun v hv => ?_
  obtain ⟨s, -, rfl⟩ := List.mem_map.1 hv
  exact fits_quote _

end

theorem StructField.Faithful.of_encode {f : StructField M} {v : Value}
    (hv : f.encode (f.get m) = some v) (hfits : Fits (maxDepth - 1) v)
    (hread : ∀ a, f.decode v a = some (f.get m)) : f.Faithful zero m := by
  rw [Faithful, hv]
  exact ⟨hfits, hread⟩

theorem StructField.Faithful.of_omitEmpty {f : StructField M} [DecidableEq f.α]
    {encode : f.α → Option Value} (hencode : f.encode = omitEmpty (f.get zero) encode) {v : Value}
    (hv : encode (f.get m) = some v) (hfits : Fits (maxDepth - 1) v)
    (hread : ∀ a, f.decode v a = some (f.get m)) : f.Faithful zero m := by
  rw [Faithful, hencode, omitEmpty]
  split_ifs with hempty
  · exact hempty
  · rw [hv]
    exact ⟨hfits, hread⟩

end Json
